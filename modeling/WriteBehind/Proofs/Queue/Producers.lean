import WriteBehind.Proofs.Buffer.Depth
import WriteBehind.Proofs.Queue.Fence

/-!
# Producers that are held back

A producer that finds the depth at the high watermark while stalling is on is told nothing until it looks
and finds a reason to go on. Nothing else ends its wait: it is held back from its arrival to that look.
-/

namespace WriteBehind.Queue

variable {κ ι : Type} [DecidableEq κ] {s₀ s t u : State κ ι} {out o : List (Notice κ ι)}
  {events : List (Event κ ι)} {e : Event κ ι} {a? : Option (Acceptance κ ι)} {id : Nat}
  {receipt : Receipt} {fenced : Bool}

def CallPhase.isStalled : CallPhase → Bool
  | .stalled .. => true
  | _ => false

theorem CallPhase.isStalled_iff {phase : CallPhase} :
    phase.isStalled = true ↔ ∃ receipt fenced, phase = .stalled receipt fenced := by
  cases phase <;> simp [isStalled]

/-! ## Watermarks and the stall flag -/

def Event.steers : Event κ ι → Bool
  | .setWatermarks .. | .stall _ => true
  | _ => false

theorem Watermarks.of_valid {high low : Nat} {w : Watermarks} (h : Watermarks.of high low = .ok w) :
    w.Valid := by
  unfold Watermarks.of at h
  cases hv : Watermarks.validate ⟨high, low⟩ with
  | ok =>
    simp only [hv, bind, Except.bind, pure, Except.pure, Except.ok.injEq] at h
    exact h ▸ Watermarks.validate_eq_ok_iff.mp hv
  | error => simp [hv, bind, Except.bind] at h

theorem Watermarks.lt_high {w : Watermarks} {depth : Nat} (h : w.isOver depth = false) : depth < w.high := by
  unfold Watermarks.isOver at h
  simpa using h

/-! ## Depth -/

theorem Turn.depth_le (h : Turn s t o none) : t.depth ≤ s.depth := by
  unfold State.depth Buffer.depth
  obtain ⟨_, hb, _⟩ | ⟨_, ha, _⟩ | ⟨_, _, _, _, hb, _⟩ | ⟨_, _, _, _, _, hb, _⟩ := h.entries
  · rw [hb]
  · cases ha
  · rw [Buffer.claim_outstanding hb]
  · rw [hb]
    exact List.length_filter_le _ _

theorem Turn.depth_ge (h : Turn s t o a?) (hn : ∀ d r, .drained d r ∉ o) : s.depth ≤ t.depth := by
  unfold State.depth Buffer.depth
  obtain ⟨_, hb, _⟩ | ⟨_, _, hb, _⟩ | ⟨_, _, _, _, hb, _⟩ | ⟨_, d, r, _, _, _, ho, _⟩ := h.entries
  · rw [hb]
  · rw [hb, Buffer.insert_outstanding, List.length_append]
    exact Nat.le_add_right _ _
  · rw [Buffer.claim_outstanding hb]
  · exact absurd (ho ▸ List.mem_singleton_self _) (hn d r)

/-! ## Steps -/

theorem Makes.stalls (h : Makes s id e t out a?) (free : s.call? id = none)
    (hp : t.phase? id = some (.stalled receipt fenced)) :
    ∃ key item, e = .enqueue id key item fenced ∧ out = [] ∧ s.stalling = true ∧
      s.watermarks.isOver s.depth = true := by
  have hnone : ∀ u : State κ ι, u.calls = s.calls → u.phase? id ≠ some (.stalled receipt fenced) := by
    intro u hu
    have hcall : u.call? id = none := by
      unfold State.call? at free ⊢
      rw [hu]
      exact free
    simp [State.phase?, hcall]
  cases h with
  | stalled key item _ _ stalling above =>
    rw [State.phase?_wait_self] at hp
    cases hp
    exact ⟨key, item, rfl, rfl, stalling, above⟩
  | fenced key item =>
    rw [State.phase?_of_call (State.call?_barrier (s.accept key item).2 id)] at hp
    cases hp
  | barrier =>
    rw [State.phase?_of_call (State.call?_barrier s id)] at hp
    cases hp
  | closing => rw [State.phase?_wait_self] at hp; cases hp
  | lent => rw [State.phase?_wait_self] at hp; cases hp
  | borrowing => rw [State.phase?_wait_self] at hp; cases hp
  | _ => exact absurd hp (hnone _ rfl)

theorem Makes.enqueues {key : κ} {item : ι} (h : Makes s id (.enqueue id key item fenced) t out a?)
    (silent : ∀ n ∈ out, n.call? ≠ some id) :
    s.stalling = true ∧ s.watermarks.isOver s.depth = true ∧
      ∃ receipt, t.phase? id = some (.stalled receipt fenced) := by
  cases h with
  | stalled _ _ _ _ stalling above => exact ⟨stalling, above, _, State.phase?_wait_self _ id _⟩
  | _ => exact absurd rfl (silent _ (List.mem_singleton_self _))

variable [Named κ]

theorem producer_step (hb : s.pool.Balanced) (h : step s e = some (t, out))
    (hp : s.phase? id = some (.stalled receipt fenced)) :
    t.phase? id = some (.stalled receipt fenced) ∧ (∀ n ∈ out, n.call? ≠ some id) ∧
        (e = .look id → s.isReleased = false) ∨
      e = .look id ∧ s.isReleased = true ∧ (∀ r f, t.phase? id ≠ some (.stalled r f)) ∧
        (fenced = false ∧ out = [.returned id (.ok (.receipt receipt))] ∨
          fenced = true ∧ out = [.accepted id receipt]) := by
  obtain ⟨hid, haside⟩ | ⟨rfl, _⟩ := waiting_step hb h hp nofun
  · refine .inl ⟨haside.phase?.trans hp, haside.silent, fun he => ?_⟩
    rw [he] at hid
    exact absurd rfl hid
  · obtain ⟨c, hc, hl⟩ := look_cases h
    rw [State.phase?_of_call hc, Option.some.injEq] at hp
    cases hl with
    | asleep _ blocked =>
      rw [hp] at blocked
      exact .inl ⟨(State.phase?_asleep hc).trans (congrArg some hp), by simp, fun _ => blocked⟩
    | released r phase released =>
      rw [hp] at phase
      cases phase
      exact .inr ⟨rfl, released, by simp [State.phase?_leave_self], .inl ⟨rfl, rfl⟩⟩
    | fenced r phase released =>
      rw [hp] at phase
      cases phase
      have hfence := State.phase?_of_call (State.call?_barrier (s.leave id) id)
      exact .inr ⟨rfl, released, by simp [hfence], .inr ⟨rfl, rfl⟩⟩
    | _ => simp_all

theorem stalls_step (hb : s.pool.Balanced) (h : step s e = some (t, out))
    (hp : t.phase? id = some (.stalled receipt fenced)) :
    s.phase? id = some (.stalled receipt fenced) ∨
      ∃ key item, e = .enqueue id key item fenced ∧ out = [] ∧ s.stalling = true ∧
        s.watermarks.isOver s.depth = true := by
  by_cases hid : e.call? = some id
  · cases step_cases h with
    | made id' _ _ _ _ a? free makes =>
      cases hid.symm.trans makes.call
      exact .inr (makes.stalls free hp)
    | request _ conn holds =>
      cases hid
      obtain ⟨c, hc, _⟩ := Option.map_eq_some_iff.mp holds
      rw [State.phase?_goOn hc] at hp
      cases hp
    | giveBack =>
      cases hid
      rw [State.phase?_leave_self] at hp
      cases hp
    | look _ c _ _ call looks =>
      cases hid
      have hl := looks.looked hb call
      rw [hp] at hl
      have hbefore := State.phase?_of_call call
      generalize c.phase = phase at hl hbefore
      cases hl
      exact .inl hbefore
    | _ => cases hid
  · exact .inl ((step_aside h hid).phase? ▸ hp)

theorem step_watermarks (h : step s e = some (t, out)) : t.watermarks = s.watermarks ∨
    ∃ id high low, e = .setWatermarks id high low ∧ Watermarks.of high low = .ok t.watermarks := by
  cases step_cases h with
  | made id _ _ _ _ _ _ makes =>
    cases makes with
    | watermarks high low _ valid => exact .inr ⟨id, high, low, rfl, valid⟩
    | _ => exact .inl rfl
  | work _ _ _ works =>
    cases works with
    | noted _ outcome => cases outcome <;> exact .inl rfl
    | _ => exact .inl rfl
  | look _ _ _ _ _ looks => cases looks <;> exact .inl rfl
  | _ => exact .inl rfl

/-! ## Runs -/

/-- The write of a call that was made in the state `s`, of which the call has been told nothing yet. -/
def Unanswered (s₀ : State κ ι) (events : List (Event κ ι)) (id : Nat) (s : State κ ι) : Prop :=
  ∃ before key item fenced after t u o₁ o₂ o₃, events = before ++ .enqueue id key item fenced :: after ∧
    run s₀ before = some (s, o₁) ∧ step s (.enqueue id key item fenced) = some (t, o₂) ∧
    run t after = some (u, o₃) ∧ ∀ n ∈ o₂ ++ o₃, n.call? ≠ some id

variable {config : QueueConfig} {connections : List Connection}

theorem Begins.watermarks_valid (h : Begins config connections s₀) (hr : run s₀ events = some (t, out)) :
    t.watermarks.Valid := by
  refine run_preserves (P := fun s => s.watermarks.Valid) (fun hw he => ?_) ?_ hr
  · rcases step_watermarks he with hsame | ⟨_, _, _, _, hof⟩
    · rw [hsame]
      exact hw
    · exact Watermarks.of_valid hof
  · obtain ⟨_, _, hvalid⟩ := h.valid
    obtain ⟨_, _, _, rfl⟩ := h.eq
    exact hvalid

theorem stalled_lasts (hs : Tended s) (hp : s.phase? id = some (.stalled receipt fenced))
    (hr : run s events = some (t, out)) (silent : ∀ n ∈ out, n.call? ≠ some id) :
    t.phase? id = some (.stalled receipt fenced) := by
  refine run_induction (P := fun _ o t => (∀ n ∈ o, n.call? ≠ some id) →
    t.phase? id = some (.stalled receipt fenced)) (fun _ => hp) ?_ hr silent
  intro events o t e u o' hr hp he silent
  have hp := hp fun n hn => silent n (List.mem_append_left _ hn)
  obtain ⟨hp', _⟩ | ⟨_, _, _, ⟨_, rfl⟩ | ⟨_, rfl⟩⟩ := producer_step (hs.run hr).balanced he hp
  · exact hp'
  · exact absurd rfl (silent _ (List.mem_append_right _ (List.mem_singleton_self _)))
  · exact absurd rfl (silent _ (List.mem_append_right _ (List.mem_singleton_self _)))

theorem enqueue_makes {key : κ} {item : ι} (h : step s (.enqueue id key item fenced) = some (t, out)) :
    s.call? id = none ∧ ∃ a?, Makes s id (.enqueue id key item fenced) t out a? := by
  obtain ⟨_, free, he⟩ := issue_eq_some.mp h
  exact ⟨free, enqueue_cases he⟩

theorem Unanswered.stalled (h : Begins config connections s₀) (hr : run s₀ events = some (t, out))
    (hu : Unanswered s₀ events id s) :
    s.stalling = true ∧ s.watermarks.high ≤ s.depth ∧
      ∃ receipt fenced, t.phase? id = some (.stalled receipt fenced) := by
  obtain ⟨before, key, item, fenced, after, v, w, o₁, o₂, o₃, rfl, h₁, h₂, h₃, silent⟩ := hu
  obtain ⟨_, _, _, h₁', hrest, _⟩ := run_append.mp hr
  cases h₁.symm.trans h₁'
  obtain ⟨_, _, _, h₂', h₃', _⟩ := run_cons.mp hrest
  cases h₂.symm.trans h₂'
  cases h₃.symm.trans h₃'
  obtain ⟨_, _, makes⟩ := enqueue_makes h₂
  obtain ⟨stalling, above, receipt, hp⟩ :=
    makes.enqueues fun n hn => silent n (List.mem_append_left _ hn)
  exact ⟨stalling, of_decide_eq_true above, receipt, fenced, stalled_lasts (h.tended.run (run_snoc h₁ h₂)) hp
    h₃ fun n hn => silent n (List.mem_append_right _ hn)⟩

theorem Unanswered.snoc (h : Unanswered s₀ events id s) (hr : run s₀ events = some (t, out))
    (he : step t e = some (u, o)) (silent : ∀ n ∈ o, n.call? ≠ some id) :
    Unanswered s₀ (events ++ [e]) id s := by
  obtain ⟨before, key, item, fenced, after, v, w, o₁, o₂, o₃, rfl, h₁, h₂, h₃, hsilent⟩ := h
  have hall := run_append.mpr ⟨s, o₁, _, h₁, run_cons.mpr ⟨v, o₂, o₃, h₂, h₃, rfl⟩, rfl⟩
  cases hall.symm.trans hr
  refine ⟨before, key, item, fenced, after ++ [e], v, u, o₁, o₂, o₃ ++ o, by simp, h₁, h₂, run_snoc h₃ he,
    fun n hn => ?_⟩
  rw [← List.append_assoc] at hn
  exact (List.mem_append.mp hn).elim (hsilent n) (silent n)

theorem stalled_unanswered (h : Begins config connections s₀) (hr : run s₀ events = some (t, out))
    (hp : t.phase? id = some (.stalled receipt fenced)) :
    ∃ s, Unanswered s₀ events id s ∧ s.watermarks.high ≤ s.depth := by
  refine run_induction (P := fun events _ t => ∀ receipt fenced,
    t.phase? id = some (.stalled receipt fenced) →
      ∃ s, Unanswered s₀ events id s ∧ s.watermarks.high ≤ s.depth) ?_ ?_ hr receipt fenced hp
  · intro receipt fenced hp
    rw [h.phase? id] at hp
    cases hp
  · intro events o t e u o' hr ih he receipt fenced hp
    have hb := (h.tended.run hr).balanced
    rcases stalls_step hb he hp with hp' | ⟨key, item, rfl, rfl, _, above⟩
    · obtain ⟨s, hs, above⟩ := ih receipt fenced hp'
      obtain ⟨_, hsilent, _⟩ | ⟨_, _, hleft, _⟩ := producer_step hb he hp'
      · exact ⟨s, hs.snoc hr he hsilent, above⟩
      · exact absurd hp (hleft receipt fenced)
    · refine ⟨t, ?_, of_decide_eq_true above⟩
      exact ⟨events, key, item, fenced, [], u, u, o, [], [], rfl, hr, he, rfl, by simp⟩

/-- The producers that are held back are the calls that found the depth at the high watermark and have
been told nothing since. -/
theorem stalled_iff (h : Begins config connections s₀) (hr : run s₀ events = some (t, out)) :
    (∃ receipt fenced, t.phase? id = some (.stalled receipt fenced)) ↔
      ∃ s, Unanswered s₀ events id s ∧ s.watermarks.high ≤ s.depth := by
  constructor
  · intro ⟨_, _, hp⟩
    exact stalled_unanswered h hr hp
  · intro ⟨_, hu, _⟩
    exact (hu.stalled h hr).2.2

end WriteBehind.Queue
