import WriteBehind.Proofs.Queue.Producers
import WriteBehind.Proofs.Queue.Totals
import WriteBehind.Proofs.Queue.Veils

/-!
# The queue without its backpressure

What a queue is like when nobody is held back and nobody counts stalls. The watermarks, the flag and the
producers that are held back have no part in what the workers and the other calls do.
-/

namespace WriteBehind.Queue

variable {κ ι : Type} {s t u : State κ ι} {out o : List (Notice κ ι)} {e : Event κ ι} {id w : Nat}
  {c : Call}

/-! ## Calls in the order of their numbers -/

def State.Ordered (s : State κ ι) : Prop := s.calls.Pairwise fun c d => c.id < d.id

section
variable {α : Type} {f : α → Nat} {l : List α}

theorem takeWhile_of_ordered (h : l.Pairwise fun a b => f a < f b) (n : Nat) :
    l.takeWhile (fun a => decide (f a < n)) = l.filter fun a => decide (f a < n) := by
  induction l with
  | nil => rfl
  | cons a rest ih =>
    rw [List.pairwise_cons] at h
    by_cases ha : f a < n
    · simp [ha, ih h.2]
    · have hrest : ∀ b ∈ rest, ¬ f b < n := by
        intro b hb
        have := h.1 b hb
        omega
      simpa [ha] using hrest

theorem dropWhile_of_ordered (h : l.Pairwise fun a b => f a < f b) (n : Nat) :
    l.dropWhile (fun a => decide (f a < n)) = l.filter fun a => !decide (f a < n) := by
  induction l with
  | nil => rfl
  | cons a rest ih =>
    rw [List.pairwise_cons] at h
    by_cases ha : f a < n
    · simp [ha, ih h.2]
    · have hrest : rest.filter (fun b => !decide (f b < n)) = rest := by
        refine List.filter_eq_self.mpr fun b hb => ?_
        have := h.1 b hb
        simp only [Bool.not_eq_true', decide_eq_false_iff_not]
        omega
      simp [ha, hrest]

theorem ordered_insert {ns : List Nat} {n : Nat} (h : ns.Pairwise (· < ·)) (fresh : n ∉ ns) :
    (ns.takeWhile (fun m => decide (m < n)) ++ n :: ns.dropWhile fun m => decide (m < n)).Pairwise (· < ·) := by
  rw [takeWhile_of_ordered h, dropWhile_of_ordered h, List.pairwise_append, List.pairwise_cons]
  have habove : ∀ m ∈ ns.filter fun m => !decide (m < n), n < m := by
    intro m hm
    simp only [List.mem_filter, Bool.not_eq_true', decide_eq_false_iff_not] at hm
    have hne : m ≠ n := fun heq => fresh (heq ▸ hm.1)
    omega
  refine ⟨h.sublist List.filter_sublist, ⟨habove, h.sublist List.filter_sublist⟩, fun m hm k hk => ?_⟩
  simp only [List.mem_filter, decide_eq_true_eq] at hm
  rcases List.mem_cons.mp hk with rfl | hk
  · exact hm.2
  · exact hm.2.trans (habove k hk)

end

namespace State

theorem Ordered.calls_wait (h : s.Ordered) (id : Nat) (phase : CallPhase) :
    (s.wait id phase).calls = (s.calls.filter fun c => decide (c.id < id)) ++
      { id, phase } :: s.calls.filter fun c => !decide (c.id < id) := by
  unfold wait
  rw [takeWhile_of_ordered h, dropWhile_of_ordered h]

theorem ordered_iff : s.Ordered ↔ s.ids.Pairwise (· < ·) := List.pairwise_map.symm

theorem Ordered.congr (h : s.Ordered) (ht : t.calls = s.calls) : t.Ordered := by
  unfold Ordered
  rw [ht]
  exact h

theorem Ordered.distinct (h : s.Ordered) : s.Distinct := by
  refine List.pairwise_map.mpr (h.imp fun hlt heq => ?_)
  omega

end State

theorem Renumbers.ordered (h : Renumbers s t) (hs : s.Ordered) : t.Ordered := by
  rw [State.ordered_iff] at hs ⊢
  cases h with
  | kept ids => rwa [ids]
  | left id ids =>
    rw [ids]
    exact hs.filter _
  | placed id u phase others ids =>
    rw [ids, State.ids_wait, others]
    exact ordered_insert (hs.filter _) (by simp)

theorem State.Ordered.step [DecidableEq κ] [Named κ] (hs : s.Ordered) (h : step s e = some (t, out)) :
    t.Ordered :=
  (step_renumbers h).ordered hs

/-! ## Without backpressure -/

namespace State

/-- The queue without what backpressure adds to it: the watermarks, the flag, the number of stalls and the
producers that are held back. -/
def bare (s : State κ ι) : State κ ι :=
  { s with
    watermarks := {}
    stalling := false
    counters := { s.counters with stalls := 0 }
    calls := s.calls.filter fun c => !c.phase.isStalled }

/-- What backpressure adds, as the workers do not see it. -/
def pressure : Veil where
  marks _ := {}
  stalling _ := false
  count c := { c with stalls := 0 }
  calls := List.filter fun c => !c.phase.isStalled
  count_begin _ := rfl
  count_end _ _ _ := rfl
  calls_wake _ := List.filter_map ..

theorem bare_wakeAll (s : State κ ι) : s.wakeAll.bare = s.bare.wakeAll := (pressure.wakeAll s).symm

theorem bare_leave (s : State κ ι) (id : Nat) : (s.leave id).bare = s.bare.leave id := by
  unfold bare leave
  simp only [List.filter_filter, Bool.and_comm]

theorem bare_mapCall (s : State κ ι) (id : Nat) {f : Call → Call}
    (hf : ∀ c ∈ s.calls, c.id = id → (f c).phase.isStalled = c.phase.isStalled) :
    (s.mapCall id f).bare = s.bare.mapCall id f := by
  unfold bare mapCall
  simp only [List.filter_map]
  congr 2
  refine List.filter_congr fun c hc => ?_
  simp only [Function.comp]
  split
  · rw [hf c hc (by assumption)]
  · rfl

theorem Ordered.bare_wait (h : s.Ordered) (id : Nat) (phase : CallPhase) (hp : phase.isStalled = false) :
    (s.wait id phase).bare = s.bare.wait id phase := by
  have hbare : s.bare.Ordered := List.Pairwise.sublist List.filter_sublist h
  have hcalls : (s.wait id phase).bare.calls = (s.bare.wait id phase).calls := by
    rw [hbare.calls_wait]
    unfold bare
    simp only
    rw [h.calls_wait, List.filter_append, List.filter_cons_of_pos (by simp [hp])]
    simp only [List.filter_filter, Bool.and_comm]
  exact congrArg (fun calls => { s.bare with calls }) hcalls

theorem Ordered.bare_stall (h : s.Ordered) (id : Nat) (receipt : Receipt) (fenced : Bool) :
    (s.wait id (.stalled receipt fenced)).bare = s.bare := by
  have hcalls : (s.wait id (.stalled receipt fenced)).bare.calls = s.bare.calls := by
    unfold bare
    simp only
    rw [h.calls_wait, List.filter_append, List.filter_cons_of_neg (by simp [CallPhase.isStalled]),
      ← List.filter_append, ← takeWhile_of_ordered h, ← dropWhile_of_ordered h, List.takeWhile_append_dropWhile]
  exact congrArg (fun calls => { s.bare with calls }) hcalls

theorem Distinct.call?_bare (hd : s.Distinct) (hlive : ∀ c, s.call? id = some c → c.phase.isStalled = false) :
    s.bare.call? id = s.call? id := by
  have hbare : s.bare.Distinct := hd.sublist (List.filter_sublist.map _)
  cases hc : s.call? id with
  | none =>
    refine call?_eq_none.mpr fun hm => call?_eq_none.mp hc ?_
    exact (List.filter_sublist.map _).subset hm
  | some c =>
    have hm : c ∈ s.bare.calls :=
      List.mem_filter.mpr ⟨List.mem_of_find?_eq_some hc, by simp [hlive c hc]⟩
    have := hbare.call?_of_mem hm
    rwa [call?_id hc] at this

theorem Distinct.call?_bare_stalled (hd : s.Distinct) (hc : s.call? id = some c)
    (hp : c.phase.isStalled = true) : s.bare.call? id = none := by
  refine call?_eq_none.mpr fun hm => ?_
  obtain ⟨d, hd', rfl⟩ := List.mem_map.mp hm
  obtain ⟨hm', hlive⟩ := List.mem_filter.mp hd'
  rw [hd.call?_of_mem hm', Option.some.injEq] at hc
  rw [hc, hp] at hlive
  cases hlive

theorem Distinct.bare_goOn (hd : s.Distinct) (hc : s.call? id = some c) (hp : c.phase.isStalled = false)
    {phase : CallPhase} (hphase : phase.isStalled = false) :
    (s.goOn id phase).bare = s.bare.goOn id phase := by
  refine bare_mapCall s id fun d hm heq => ?_
  have := hd.call?_of_mem hm
  rw [heq, hc, Option.some.injEq] at this
  rw [← this, hp]
  exact hphase

theorem Distinct.bare_leave_stalled (hd : s.Distinct) (hc : s.call? id = some c)
    (hp : c.phase.isStalled = true) : (s.leave id).bare = s.bare := by
  have hnone := call?_eq_none.mp (hd.call?_bare_stalled hc hp)
  have hcalls : (s.bare.leave id).calls = s.bare.calls := by
    refine List.filter_eq_self.mpr fun d hm => ?_
    simp only [decide_eq_true_eq]
    intro heq
    exact hnone (heq ▸ List.mem_map_of_mem hm)
  rw [bare_leave]
  exact congrArg (fun calls => { s.bare with calls }) hcalls

theorem Distinct.bare_asleep_stalled (hd : s.Distinct) (hc : s.call? id = some c)
    (hp : c.phase.isStalled = true) : (s.mapCall id fun c => { c with woken := false }).bare = s.bare := by
  have hnone := call?_eq_none.mp (hd.call?_bare_stalled hc hp)
  have hcalls : (s.bare.mapCall id fun c => { c with woken := false }).calls = s.bare.calls := by
    refine (List.map_congr_left fun d hm => if_neg ?_).trans (List.map_id _)
    intro heq
    exact hnone (heq ▸ List.mem_map_of_mem hm)
  have hasleep : (s.mapCall id fun c => { c with woken := false }).bare =
      s.bare.mapCall id fun c => { c with woken := false } := bare_mapCall s id fun _ _ _ => rfl
  rw [hasleep]
  exact congrArg (fun calls => { s.bare with calls }) hcalls

end State

/-! ## Steps -/

def Effect.bare (effect : Effect κ ι) : Effect κ ι := (effect.1.bare, effect.2)

theorem look_bare [Named κ] (hd : s.Distinct) (hlive : ∀ c, s.call? id = some c → c.phase.isStalled = false) :
    s.bare.look id = (s.look id).map Effect.bare := by
  have hcall := hd.call?_bare hlive
  unfold State.look
  rw [hcall]
  cases hc : s.call? id with
  | none => rfl
  | some c =>
    have hp := hlive c hc
    have hgo : ∀ {u : State κ ι} {phase : CallPhase}, u.calls = s.calls → phase.isStalled = false →
        (u.goOn id phase).bare = u.bare.goOn id phase := by
      intro u phase hu hphase
      refine State.Distinct.bare_goOn (hd.congr hu) ?_ hp hphase
      unfold State.call? at hc ⊢
      rw [hu]
      exact hc
    have hasleep : (s.mapCall id fun c => { c with woken := false }).bare =
        s.bare.mapCall id fun c => { c with woken := false } := State.bare_mapCall s id fun _ _ _ => rfl
    simp only [bind, Option.bind_some]
    cases hphase : c.phase with
    | stalled => simp [hphase, CallPhase.isStalled] at hp
    | fence target =>
      have hbuffer : s.bare.buffer = s.buffer := rfl
      simp only [endFence_eq, hbuffer]
      split
      · rfl
      · split
        · exact congrArg some (Prod.ext (State.bare_leave { s with failure := none } id).symm rfl)
        · exact congrArg some (Prod.ext hasleep.symm rfl)
    | closing target =>
      have hbuffer : s.bare.buffer = s.buffer := rfl
      simp only [takeFailure_eq, hbuffer]
      split
      · rfl
      · split
        · exact congrArg some (Prod.ext (hgo (u := { s with failure := none }) rfl rfl).symm rfl)
        · exact congrArg some (Prod.ext hasleep.symm rfl)
    | flushed flushed =>
      have hshut : s.shutDown.bare = s.bare.shutDown :=
        State.bare_wakeAll { s with closed := true, bell := s.bell.ringAll }
      have hgone : (s.shutDown.goOn id (.stopping flushed)).bare = s.shutDown.bare.goOn id (.stopping flushed) :=
        (hd.alike_shut hc).distinct.bare_goOn (State.call?_shutDown hc) hp rfl
      rw [hshut] at hgone
      exact congrArg some (Prod.ext hgone.symm rfl)
    | stopping flushed => exact congrArg some (Prod.ext (hgo (u := { s with unjoined := [] }) rfl rfl).symm rfl)
    | joining flushed workers =>
      have hworkers : s.bare.workers = s.workers := rfl
      simp only [hworkers]
      split
      · exact congrArg some (Prod.ext (hgo (u := { s with pool := s.pool.close.2 }) rfl rfl).symm rfl)
      · rfl
    | ending flushed =>
      simp only [endClose_eq]
      exact congrArg some
        (Prod.ext (State.bare_leave { s with failure := heldBehind s.failure flushed } id).symm rfl)
    | borrowing =>
      have hpool : s.bare.pool = s.pool := rfl
      simp only [hpool]
      split
      · rename_i pool _
        exact congrArg some (Prod.ext (hgo (u := { s with pool }) rfl rfl).symm rfl)
      · rfl
      · rename_i pool _
        exact congrArg some (Prod.ext (State.bare_leave { s with pool } id).symm rfl)
    | holding => rfl

/-! ### Calls that are made -/

theorem issue_bare {effect : Effect κ ι} (hcall : s.bare.call? id = s.call? id) :
    issue s.bare id effect.bare = (issue s id effect).map Effect.bare := by
  unfold issue
  rw [hcall]
  have howned : s.bare.abandoned = s.abandoned := rfl
  rw [howned]
  split <;> rfl

theorem barrier_bare (hs : s.Ordered) (id : Nat) : s.bare.barrier id = Effect.bare (s.barrier id) := by
  have hwait := State.Ordered.bare_wait (s := { s with counters := s.counters.recordFlush }) (hs.congr rfl) id
    (.fence s.buffer.last) rfl
  exact Prod.ext hwait.symm rfl

theorem close_bare (hs : s.Ordered) (id : Nat) : s.bare.close id = Effect.bare (s.close id) := by
  have hwait := State.Ordered.bare_wait (s := { s with counters := s.counters.recordFlush }) (hs.congr rfl) id
    (.closing s.buffer.last) rfl
  have hclosed : s.bare.closed = s.closed := rfl
  unfold State.close
  rw [hclosed]
  split
  · rfl
  · exact Prod.ext hwait.symm rfl

theorem borrow_bare (hs : s.Ordered) (id : Nat) : s.bare.borrow id = Effect.bare (s.borrow id) := by
  have hwait : ∀ pool phase, phase.isStalled = false →
      ({ s with pool }.wait id phase).bare = { s.bare with pool }.wait id phase := fun pool phase =>
    State.Ordered.bare_wait (s := { s with pool }) (hs.congr rfl) id phase
  have hclosed : s.bare.closed = s.closed := rfl
  have hpool : s.bare.pool = s.pool := rfl
  unfold State.borrow
  rw [hclosed, hpool]
  split
  · rfl
  · split
    · exact Prod.ext (hwait _ _ rfl).symm rfl
    · exact Prod.ext (hwait _ _ rfl).symm rfl
    · rfl

/-! ### Callers with a connection -/

theorem holding_bare (hcall : s.bare.call? id = s.call? id) : s.bare.holding? id = s.holding? id := by
  unfold State.holding?
  rw [hcall]

theorem request_bare (hd : s.Distinct) (hcall : s.bare.call? id = s.call? id) :
    s.bare.request id = (s.request id).map Effect.bare := by
  unfold State.request
  rw [holding_bare hcall]
  cases hh : s.holding? id with
  | none => rfl
  | some conn =>
    obtain ⟨c, hc, hp⟩ := Option.map_eq_some_iff.mp (State.holding?_eq hh)
    have hgo : (s.goOn id (.holding conn.use)).bare = s.bare.goOn id (.holding conn.use) :=
      hd.bare_goOn hc (by rw [hp]; rfl) rfl
    exact congrArg some (Prod.ext hgo.symm rfl)

theorem giveBack_bare (hcall : s.bare.call? id = s.call? id) (result : Except StoreError (Option Connection)) :
    s.bare.giveBack id result = (s.giveBack id result).map Effect.bare := by
  unfold State.giveBack
  rw [holding_bare hcall]
  cases s.holding? id with
  | none => rfl
  | some conn =>
    exact congrArg some (Prod.ext (State.bare_leave { s with pool := s.pool.giveBack conn } id).symm rfl)

variable [DecidableEq κ]

/-! ### All steps -/

/-- The calls and the steps that do not depend on how full the queue is. A fenced write is two calls, of
which the second is made when the first returns, and an abandoned queue closes when its last call has
returned. -/
def Event.plain : Event κ ι → Bool
  | .enqueue _ _ _ fenced => !fenced
  | .tryEnqueue .. | .expire => false
  | _ => true

def withoutReceipts (out : List (Notice κ ι)) : List (Notice κ ι) := out.filter fun n => n.receipt?.isNone

def Unheld (s : State κ ι) (e : Event κ ι) : Prop :=
  ∀ id c, e.call? = some id → s.call? id = some c → c.phase.isStalled = false

variable [Named κ]

theorem step_bare_of_ne (hs : s.Ordered) (plain : e.plain = true) (unsteered : e.steers = false)
    (hu : Unheld s e) (hn : ∀ id key item fenced, e ≠ .enqueue id key item fenced) :
    step s.bare e = (step s e).map Effect.bare := by
  have hd := hs.distinct
  have hcall : ∀ id, e.call? = some id → s.bare.call? id = s.call? id := fun id he =>
    hd.call?_bare fun c hc => hu id c he hc
  cases e with
  | enqueue id key item fenced => exact absurd rfl (hn id key item fenced)
  | barrier id =>
    show issue s.bare id (s.bare.barrier id) = _
    rw [barrier_bare hs]
    exact issue_bare (hcall id rfl)
  | close id =>
    show issue s.bare id (s.bare.close id) = _
    rw [close_bare hs]
    exact issue_bare (hcall id rfl)
  | borrow id =>
    show issue s.bare id (s.bare.borrow id) = _
    rw [borrow_bare hs]
    exact issue_bare (hcall id rfl)
  | request id => exact request_bare hd (hcall id rfl)
  | giveBack id result => exact giveBack_bare (hcall id rfl) result
  | work w => exact State.pressure.work s w
  | finish w outcome => exact State.pressure.finish s w outcome
  | look id => exact look_bare hd fun c hc => hu id c rfl hc
  | tryEnqueue => cases plain
  | expire => cases plain
  | setWatermarks => cases unsteered
  | stall => cases unsteered
  | _ => rfl

omit [Named κ] in
theorem enqueue_bare (hs : s.Ordered) (free : s.call? id = none) (key : κ) (item : ι) :
    (s.bare.enqueue id key item false).1 = (s.enqueue id key item false).1.bare ∧
      withoutReceipts (s.bare.enqueue id key item false).2 =
        withoutReceipts (s.enqueue id key item false).2 ∧
      accepted? (.enqueue id key item false) (s.bare.enqueue id key item false) =
        accepted? (.enqueue id key item false) (s.enqueue id key item false) := by
  have hclosed : s.bare.closed = s.closed := rfl
  have hfree : s.bare.call? id = none := by
    rw [hs.distinct.call?_bare (by simp [free]), free]
  generalize hx : s.enqueue id key item false = x
  generalize hy : s.bare.enqueue id key item false = y
  obtain ⟨t, out⟩ := x
  obtain ⟨b, o⟩ := y
  obtain ⟨a?, makes⟩ := enqueue_cases hx
  obtain ⟨b?, makes'⟩ := enqueue_cases hy
  rw [makes.accepted free, makes'.accepted hfree]
  cases makes with
  | refused _ closed =>
    cases makes' with
    | refused => exact ⟨rfl, rfl, rfl⟩
    | written _ _ opened => exact absurd (opened.symm.trans (hclosed.trans closed)) Bool.false_ne_true
    | stalled _ _ _ _ stalling => cases stalling
  | written _ _ opened =>
    cases makes' with
    | refused _ closed => exact absurd (opened.symm.trans (hclosed.symm.trans closed)) Bool.false_ne_true
    | written => exact ⟨rfl, rfl, rfl⟩
    | stalled _ _ _ _ stalling => cases stalling
  | stalled _ _ _ opened =>
    cases makes' with
    | refused _ closed => exact absurd (opened.symm.trans (hclosed.symm.trans closed)) Bool.false_ne_true
    | written =>
      have hstall := State.Ordered.bare_stall
        (s := { (s.accept key item).2 with counters := (s.accept key item).2.counters.recordStall })
        (hs.congr rfl) id (s.accept key item).1 false
      exact ⟨hstall.symm, rfl, rfl⟩
    | stalled _ _ _ _ stalling => cases stalling

/-- What is seen of a step but for receipts, and the write that it accepts. -/
def seen (e : Event κ ι) (effect : Effect κ ι) : State κ ι × List (Notice κ ι) × Option (Acceptance κ ι) :=
  (effect.1, withoutReceipts effect.2, accepted? e effect)

theorem step_bare (hs : s.Ordered) (plain : e.plain = true) (unsteered : e.steers = false) (hu : Unheld s e) :
    (step s.bare e).map (seen e) = (step s e).map fun effect => (effect.1.bare, (seen e effect).2) := by
  by_cases hn : ∀ id key item fenced, e ≠ .enqueue id key item fenced
  · rw [step_bare_of_ne hs plain unsteered hu hn, Option.map_map]
    congr 1
    funext effect
    cases e with
    | enqueue id key item fenced => exact absurd rfl (hn id key item fenced)
    | tryEnqueue => cases plain
    | _ => rfl
  · simp only [not_forall, not_not] at hn
    obtain ⟨id, key, item, fenced, rfl⟩ := hn
    have hfenced : fenced = false := by simpa [Event.plain] using plain
    subst hfenced
    have hcall : s.bare.call? id = s.call? id := hs.distinct.call?_bare fun c hc => hu id c rfl hc
    have howned : s.bare.abandoned = s.abandoned := rfl
    simp only [step, issue, hcall, howned]
    split
    · rfl
    · rename_i hfree
      have free : s.call? id = none := by simpa using (not_or.mp hfree).2
      obtain ⟨hstate, hout, haccepted⟩ := enqueue_bare hs free key item
      simp only [Option.map_some, seen, hstate, hout, haccepted]

end WriteBehind.Queue
