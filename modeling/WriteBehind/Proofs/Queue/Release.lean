import WriteBehind.Proofs.Queue.Producers
import WriteBehind.Proofs.Queue.Rest

/-!
# When producers go on

A producer that is held back looks once, and again whenever an entry has retired or the queue has closed
since. It goes on at the first look that finds a reason for it, judged by the watermarks and the flag in
force at that moment. Changing these wakes nobody.
-/

namespace WriteBehind.Queue

variable {κ ι : Type} {s₀ s t u : State κ ι} {out o : List (Notice κ ι)} {events moves : List (Event κ ι)}
  {e : Event κ ι} {id : Nat} {c : Call} {receipt : Receipt} {fenced : Bool}

def Notice.wakes : Notice κ ι → Bool
  | .drained .. | .closed => true
  | _ => false

def Notice.goesOn (id : Nat) (receipt : Receipt) (fenced : Bool) : Notice κ ι :=
  if fenced then .accepted id receipt else .returned id (.ok (.receipt receipt))

def MayGoOn (s : State κ ι) : Prop :=
  s.stalling = false ∨ s.closed = true ∨ s.depth ≤ s.watermarks.low

theorem mayGoOn_iff : MayGoOn s ↔ s.isReleased = true := by
  simp [MayGoOn, State.isReleased, Watermarks.isReleased, or_assoc]

/-! ## Looks -/

theorem State.call?_of_asleep [Named κ] (hp : s.phase? id = some (.stalled receipt fenced))
    (h : s.look id = none) : ∃ c, s.call? id = some c ∧ c.woken = false ∧ c.phase = .stalled receipt fenced := by
  obtain ⟨c, hc, hphase⟩ := Option.map_eq_some_iff.mp hp
  have hholds := holds_of_look hc h
  rw [hphase] at hholds
  cases hholds with
  | stalled _ _ asleep => exact ⟨c, hc, asleep, hphase⟩

variable [DecidableEq κ] [Named κ]

/-! ## Steps -/

theorem step_unsteered (h : step s e = some (t, out)) (he : e.steers = false)
    (hn : ∀ n ∈ out, n.wakes = false) :
    t.stalling = s.stalling ∧ t.watermarks = s.watermarks ∧ t.closed = s.closed := by
  cases step_cases h with
  | made _ _ _ _ _ _ _ makes =>
    cases makes with
    | watermarks => cases he
    | _ => exact ⟨rfl, rfl, rfl⟩
  | stall => cases he
  | work _ _ _ works =>
    cases works with
    | noted _ outcome => cases outcome <;> exact ⟨rfl, rfl, rfl⟩
    | _ => exact ⟨rfl, rfl, rfl⟩
  | look _ _ _ _ _ looks =>
    cases looks with
    | shut => cases hn _ (List.mem_singleton_self _)
    | _ => exact ⟨rfl, rfl, rfl⟩
  | expire => cases hn _ (List.mem_singleton_self _)
  | _ => exact ⟨rfl, rfl, rfl⟩

/-- Unless an entry retires, the queue closes or somebody changes what producers are measured against, a
reason to go on does not arise. -/
theorem step_blocks (hb : s.pool.Balanced) (h : step s e = some (t, out)) (he : e.steers = false)
    (hn : ∀ n ∈ out, n.wakes = false) (blocked : ¬ MayGoOn s) : ¬ MayGoOn t := by
  obtain ⟨hstalling, hmarks, hclosed⟩ := step_unsteered h he hn
  have hdepth : s.depth ≤ t.depth := by
    refine (step_turn hb h).depth_ge fun d r hm => ?_
    cases hn _ hm
  intro hgo
  unfold MayGoOn at hgo
  rw [hstalling, hmarks, hclosed] at hgo
  exact blocked (hgo.imp_right fun h => h.imp_right hdepth.trans)

theorem step_wakes (h : step s e = some (t, out)) (hw : ∃ n ∈ out, n.wakes = true)
    (hc : t.call? id = some c) : c.woken = true := by
  have hall : ∀ {u : State κ ι}, u.wakeAll.call? id = some c → c.woken = true := by
    intro u hu
    rw [State.call?_wakeAll] at hu
    obtain ⟨_, _, rfl⟩ := Option.map_eq_some_iff.mp hu
    rfl
  cases step_cases h with
  | made _ _ _ _ _ _ _ makes => cases makes <;> simp [Notice.wakes] at hw
  | work _ _ _ works =>
    cases works with
    | retired => exact hall hc
    | noted _ outcome => simp at hw
    | _ => simp [Notice.wakes] at hw
  | look id' c' _ _ call looks =>
    cases looks with
    | shut flushed =>
      have hgo := State.call?_mapCall s.shutDown id' id (fun c => { c with phase := .stopping flushed })
        fun _ => rfl
      obtain ⟨d, hd, rfl⟩ := Option.map_eq_some_iff.mp (hgo.symm.trans hc)
      rw [State.shutDown, State.call?_wakeAll] at hd
      obtain ⟨_, _, rfl⟩ := Option.map_eq_some_iff.mp hd
      split <;> rfl
    | _ => simp [Notice.wakes] at hw
  | expire => exact hall hc
  | _ => simp [Notice.wakes] at hw

theorem step_unwoken (h : step s e = some (t, out)) (hid : e.call? ≠ some id)
    (hn : ∀ n ∈ out, n.wakes = false) : t.call? id = s.call? id := by
  have hne : ∀ {id'}, e.call? = some id' → id' ≠ id := fun hcall heq => hid (hcall.trans (congrArg some heq))
  cases step_cases h with
  | made id' _ _ _ _ _ _ makes =>
    have hcall := hne makes.call
    cases makes with
    | fenced key item => exact State.call?_wait_of_ne _ _ hcall
    | stalled => exact State.call?_wait_of_ne _ _ hcall
    | barrier => exact State.call?_wait_of_ne _ _ hcall
    | closing => exact State.call?_wait_of_ne _ _ hcall
    | lent => exact State.call?_wait_of_ne _ _ hcall
    | borrowing => exact State.call?_wait_of_ne _ _ hcall
    | _ => rfl
  | request => exact State.call?_goOn_of_ne _ _ (hne rfl)
  | giveBack => exact State.call?_leave_of_ne _ (hne rfl)
  | work _ _ _ works =>
    cases works with
    | retired => cases hn _ (List.mem_singleton_self _)
    | noted _ outcome => cases outcome <;> rfl
    | _ => rfl
  | look _ _ _ _ _ looks =>
    have hcall := hne rfl
    cases looks with
    | asleep => exact State.call?_mapCall_of_ne s _ (fun _ => rfl) hcall
    | fenced => exact (State.call?_wait_of_ne _ _ hcall).trans (State.call?_leave_of_ne s hcall)
    | flushed => exact State.call?_goOn_of_ne _ _ hcall
    | shut => cases hn _ (List.mem_singleton_self _)
    | taken => exact State.call?_goOn_of_ne _ _ hcall
    | joined => exact State.call?_goOn_of_ne _ _ hcall
    | lent => exact State.call?_goOn_of_ne _ _ hcall
    | _ => exact State.call?_leave_of_ne _ hcall
  | expire => cases hn _ (List.mem_singleton_self _)
  | _ => rfl

theorem sleeping_step (hb : s.pool.Balanced) (h : step s e = some (t, out))
    (hn : ∀ n ∈ out, n.wakes = false) (hc : s.call? id = some c) (hw : c.woken = false)
    (hp : c.phase = .stalled receipt fenced) : t.call? id = some c ∧ ∀ n ∈ out, n.call? ≠ some id := by
  have hphase := (State.phase?_of_call hc).trans (congrArg some hp)
  obtain ⟨hid, haside⟩ | ⟨rfl, _⟩ := waiting_step hb h hphase nofun
  · exact ⟨(step_unwoken h hid hn).trans hc, haside.silent⟩
  · have hnone : s.look id = none := State.look_dozing hc hw (by rw [hp]; rfl)
    cases hnone.symm.trans h

theorem enqueue_begins {key : κ} {item : ι} (h : step s (.enqueue id key item fenced) = some (t, out))
    (opened : s.closed = false) :
    (s.stalling = false ∨ s.depth < s.watermarks.high → out = [.goesOn id (s.accept key item).1 fenced]) ∧
      (s.stalling = true → s.watermarks.high ≤ s.depth →
        out = [] ∧ t.phase? id = some (.stalled (s.accept key item).1 fenced)) := by
  obtain ⟨_, _, makes⟩ := enqueue_makes h
  cases makes with
  | refused _ closed =>
    rw [opened] at closed
    cases closed
  | written _ _ _ under =>
    refine ⟨fun _ => rfl, fun stalling above => ?_⟩
    have := Watermarks.lt_high (under stalling)
    omega
  | fenced _ _ _ under =>
    refine ⟨fun _ => rfl, fun stalling above => ?_⟩
    have := Watermarks.lt_high (under stalling)
    omega
  | stalled _ _ _ _ stalling above =>
    have habove := of_decide_eq_true above
    refine ⟨fun hn => ?_, fun _ _ => ⟨rfl, State.phase?_wait_self _ id _⟩⟩
    rcases hn with hoff | hbelow
    · rw [stalling] at hoff
      cases hoff
    · omega

theorem told_step (hb : s.pool.Balanced) (h : step s e = some (t, out))
    (hp : s.phase? id = some (.stalled receipt fenced)) :
    ((∃ n ∈ out, n.call? = some id) → e = .look id ∧ MayGoOn s) ∧
      (e = .look id → MayGoOn s → out = [.goesOn id receipt fenced]) := by
  obtain ⟨_, silent, hblocked⟩ | ⟨rfl, released, _, hout⟩ := producer_step hb h hp
  · refine ⟨fun ⟨n, hn, hid⟩ => absurd hid (silent n hn), fun he hgo => ?_⟩
    rw [mayGoOn_iff, hblocked he] at hgo
    cases hgo
  · refine ⟨fun _ => ⟨rfl, mayGoOn_iff.mpr released⟩, fun _ _ => ?_⟩
    obtain ⟨rfl, rfl⟩ | ⟨rfl, rfl⟩ := hout <;> rfl

/-! ## Runs -/

theorem sleeping_lasts (hs : Tended s) (hr : run s events = some (t, out)) (hn : ∀ n ∈ out, n.wakes = false)
    (hc : s.call? id = some c) (hw : c.woken = false) (hp : c.phase = .stalled receipt fenced) :
    t.call? id = some c ∧ ∀ n ∈ out, n.call? ≠ some id := by
  refine run_induction (P := fun _ o t => (∀ n ∈ o, n.wakes = false) →
    t.call? id = some c ∧ ∀ n ∈ o, n.call? ≠ some id) (fun _ => ⟨hc, by simp⟩) ?_ hr hn
  intro events o t e u o' hr ih he hn
  obtain ⟨hc, silent⟩ := ih fun n hm => hn n (List.mem_append_left _ hm)
  obtain ⟨hc', silent'⟩ :=
    sleeping_step (hs.run hr).balanced he (fun n hm => hn n (List.mem_append_right _ hm)) hc hw hp
  exact ⟨hc', fun n hm => (List.mem_append.mp hm).elim (silent n) (silent' n)⟩

theorem looks_again (hs : Tended s) (hp : s.phase? id = some (.stalled receipt fenced))
    (hl : step s (.look id) = some (t, out)) (silent : ∀ n ∈ out, n.call? ≠ some id)
    (hr : run t moves = some (u, o)) (again : (step u (.look id)).isSome = true) :
    ∃ n ∈ o, n.wakes = true := by
  obtain ⟨c, hc, looks⟩ := look_cases hl
  have hphase := State.phase?_of_call hc
  rw [hp, Option.some.injEq] at hphase
  have hasleep : ∃ c', t.call? id = some c' ∧ c'.woken = false ∧ c'.phase = .stalled receipt fenced := by
    cases looks with
    | asleep =>
      refine ⟨{ c with woken := false }, ?_, rfl, hphase.symm⟩
      rw [State.call?_mapCall s id id (fun c => { c with woken := false }) fun _ => rfl, hc]
      simp
    | released r phase => exact absurd rfl (silent _ (List.mem_singleton_self _))
    | fenced r phase => exact absurd rfl (silent _ (List.mem_singleton_self _))
    | _ => simp_all
  obtain ⟨c', hc', hw, hp'⟩ := hasleep
  by_contra hn
  have hn : ∀ n ∈ o, n.wakes = false := by simpa using hn
  have hnone := State.look_dozing (sleeping_lasts (hs.step hl) hr hn hc' hw hp').1 hw (by rw [hp']; rfl)
  simp [step, hnone] at again

/-- After calls were woken, a producer that sleeps has looked and found no reason to go on, and none has
arisen since. -/
theorem sleeping_blocked (hs : Tended s) (h : step s e = some (t, out)) (hw : ∃ n ∈ out, n.wakes = true)
    (hr : run t moves = some (u, o)) (hm : ∀ e ∈ moves, e.steers = false) (hc : u.call? id = some c)
    (asleep : c.woken = false) (hp : c.phase = .stalled receipt fenced) : ¬ MayGoOn u := by
  refine run_induction (P := fun moves _ u => (∀ e ∈ moves, e.steers = false) → ∀ c receipt fenced,
    u.call? id = some c → c.woken = false → c.phase = .stalled receipt fenced → ¬ MayGoOn u) ?_ ?_ hr hm c
    receipt fenced hc asleep hp
  · intro _ c _ _ hc asleep _
    rw [step_wakes h hw hc] at asleep
    cases asleep
  · intro moves o u e v o' hr ih he hm c receipt fenced hc asleep hp
    have hb := ((hs.step h).run hr).balanced
    have hn : ∀ n ∈ o', n.wakes = false := by
      by_contra hn
      rw [step_wakes he (by simpa using hn) hc] at asleep
      cases asleep
    have hsteers := hm e (List.mem_append_right _ (List.mem_singleton_self _))
    refine step_blocks hb he hsteers hn ?_
    rcases stalled_step hb he hc asleep hp with ⟨hc', _⟩ | ⟨blocked, _⟩
    · exact ih (fun e he => hm e (List.mem_append_left _ he)) c receipt fenced hc' asleep hp
    · rw [mayGoOn_iff, blocked]
      exact Bool.false_ne_true

variable {config : QueueConfig} {connections : List Connection}

/-- A producer is released exactly when it should be. A write that finds stalling off or the depth under
the high watermark goes on at once. Any other is told nothing until a look that finds stalling off, the
queue closed or the depth down at the low watermark, and such a look is its first one or comes after an
entry has retired or the queue has closed since the one before. When everything has settled after an entry
retired or the queue closed, nobody is held back without a reason. Without either, whatever becomes of the
watermarks and the flag, a producer that has looked is held back. -/
theorem producer_released (h : Begins config connections s₀) (hr : run s₀ events = some (s, out)) :
    (∀ id key item fenced t o, s.closed = false → step s (.enqueue id key item fenced) = some (t, o) →
      (s.stalling = false ∨ s.depth < s.watermarks.high → o = [.goesOn id (s.accept key item).1 fenced]) ∧
      (s.stalling = true → s.watermarks.high ≤ s.depth → o = [] ∧
        ∀ waited u o₁ e v o₂, run t waited = some (u, o₁) → (∀ n ∈ o₁, n.call? ≠ some id) →
          step u e = some (v, o₂) →
          ((∃ n ∈ o₂, n.call? = some id) → e = .look id ∧ MayGoOn u) ∧
          (e = .look id → MayGoOn u → o₂ = [.goesOn id (s.accept key item).1 fenced]) ∧
          (e = .look id → ∀ before after a b o₃ o₄ o₅, waited = before ++ .look id :: after →
            run t before = some (a, o₃) → step a (.look id) = some (b, o₄) →
            run b after = some (u, o₅) → ∃ n ∈ o₅, n.wakes = true))) ∧
    (∀ e t o moves u o', step s e = some (t, o) → (∃ n ∈ o, n.wakes = true) →
      run t moves = some (u, o') → (∀ e ∈ moves, e.steers = false) → Settled u →
      ∀ id receipt fenced, u.phase? id = some (.stalled receipt fenced) → ¬ MayGoOn u) ∧
    ∀ id receipt fenced later t o, s.phase? id = some (.stalled receipt fenced) →
      step s (.look id) = none → run s later = some (t, o) → (∀ n ∈ o, n.wakes = false) →
      t.phase? id = some (.stalled receipt fenced) ∧ ∀ n ∈ o, n.call? ≠ some id := by
  have hs := h.tended.run hr
  refine ⟨?_, ?_, ?_⟩
  · intro id key item fenced t o opened he
    obtain ⟨hatOnce, hheld⟩ := enqueue_begins he opened
    refine ⟨hatOnce, fun stalling above => ?_⟩
    obtain ⟨ho, hp⟩ := hheld stalling above
    refine ⟨ho, fun waited u o₁ e v o₂ hw silent hstep => ?_⟩
    have ht := hs.step he
    obtain ⟨honly, hgoes⟩ := told_step (ht.run hw).balanced hstep (stalled_lasts ht hp hw silent)
    refine ⟨honly, hgoes, fun hlook before after a b o₃ o₄ o₅ heq h₃ h₄ h₅ => ?_⟩
    -- Nothing was told along the way, so the look before was in vain.
    have hwhole := run_append.mpr ⟨a, o₃, _, h₃, run_cons.mpr ⟨b, o₄, o₅, h₄, h₅, rfl⟩, rfl⟩
    rw [← heq] at hwhole
    cases hwhole.symm.trans hw
    have hp₃ := stalled_lasts ht hp h₃ fun n hn => silent n (List.mem_append_left _ hn)
    subst hlook
    refine looks_again (ht.run h₃) hp₃ h₄ (fun n hn => ?_) h₅ (Option.isSome_of_eq_some hstep)
    exact silent n (List.mem_append_right _ (List.mem_append_left _ hn))
  · intro e t o moves u o' he hw hmoves hm hsettled id receipt fenced hp
    obtain ⟨c, hc, asleep, hphase⟩ := State.call?_of_asleep hp (hsettled.2 id)
    exact sleeping_blocked hs he hw hmoves hm hc asleep hphase
  · intro id receipt fenced later t o hp hlook hlater hn
    obtain ⟨c, hc, asleep, hphase⟩ := State.call?_of_asleep hp hlook
    obtain ⟨hc', silent⟩ := sleeping_lasts hs hlater hn hc asleep hphase
    exact ⟨(State.phase?_of_call hc').trans (congrArg some hphase), silent⟩

def filled : List (Event String Nat) :=
  [.enqueue 1 "a" 1 false, .enqueue 2 "b" 2 false, .work 0, .work 0, .work 0, .work 0]

/-- The new marks would let the producer go on, but it is the entry that retires that lets it look. -/
def remarked : List (Event String Nat) :=
  [.look 3, .setWatermarks 4 9 8, .finish 0 (.ok ()), .work 0, .work 0]

theorem producer_released_remarked : ∃ (s₀ s t u v : State String Nat) (out o o₁ o₂ : _),
    Begins strict [⟨0, 0⟩] s₀ ∧ run s₀ filled = some (s, out) ∧
    step s (.enqueue 3 "b" 3 false) = some (t, o) ∧ o = [] ∧ run t remarked = some (u, o₁) ∧
    step u (.look 3) = some (v, o₂) ∧ o₂ = [.goesOn 3 ⟨⟨2⟩, true, 2⟩ false] := by
  obtain ⟨s₀, s, t, u, v, out, o, o₁, o₂, h, hr, he, hw, hl, hs, hd, silent, hgo, hreceipt⟩ :
      ∃ (s₀ s t u v : State String Nat) (out o o₁ o₂ : _), Begins strict [⟨0, 0⟩] s₀ ∧
      run s₀ filled = some (s, out) ∧ step s (.enqueue 3 "b" 3 false) = some (t, o) ∧
      run t remarked = some (u, o₁) ∧ step u (.look 3) = some (v, o₂) ∧
      (s.closed = false ∧ s.stalling = true) ∧ s.watermarks.high ≤ s.depth ∧
      (∀ n ∈ o₁, n.call? ≠ some 3) ∧ u.depth ≤ u.watermarks.low ∧
      (s.accept "b" 3).1 = ⟨⟨2⟩, true, 2⟩ :=
    ⟨_, _, _, _, _, _, _, _, _, ⟨_, rfl, rfl⟩, rfl, rfl, rfl, rfl, ⟨rfl, rfl⟩, by decide, by decide,
      by decide, rfl⟩
  obtain ⟨hquiet, hlater⟩ := ((producer_released h hr).1 3 "b" 3 false t o hs.1 he).2 hs.2 hd
  obtain ⟨_, htold, _⟩ := hlater remarked u o₁ (.look 3) v o₂ hw silent hl
  rw [hreceipt] at htold
  exact ⟨s₀, s, t, u, v, out, o, o₁, o₂, h, hr, he, hquiet, hw, hl, htold rfl (.inr (.inr hgo))⟩

end WriteBehind.Queue
