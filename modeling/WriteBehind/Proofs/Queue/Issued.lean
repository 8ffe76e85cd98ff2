import WriteBehind.Proofs.Queue.Phases

/-!
# What a step does to its own call

A call that is made returns at once or waits, and a call that waits moves on only when it looks or when
it uses the connection that it holds.
-/

namespace WriteBehind.Queue

variable {κ ι : Type} {s t : State κ ι} {out : List (Notice κ ι)} {e : Event κ ι} {id : Nat}
  {a? : Option (Acceptance κ ι)}

/-- What becomes of a call that is made: what it waits for, what it is told and the write that is
accepted from it. -/
inductive Issued (t : State κ ι) (e : Event κ ι) (id : Nat) :
    Option CallPhase → List (Notice κ ι) → Option (Acceptance κ ι) → Prop where
  | refused (error : Error) (direct : error.isDeferred = false) :
    Issued t e id none [.returned id (.error error)] none
  | done : Issued t e id none [.returned id (.ok .done)] none
  | accepted (a : Acceptance κ ι) (call : a.call = id) :
    Issued t e id none [.returned id (.ok (.receipt a.receipt))] (some a)
  | stalled (a : Acceptance κ ι) (call : a.call = id) (fenced : Bool) :
    Issued t e id (some (.stalled a.receipt fenced)) [] (some a)
  | fenced (a : Acceptance κ ι) (call : a.call = id) :
    Issued t e id (some (.fence t.buffer.last)) [.accepted id a.receipt] (some a)
  | barrier : Issued t e id (some (.fence t.buffer.last)) [] none
  | closing (opened : t.closed = false) (closes : e = .close id) :
    Issued t e id (some (.closing t.buffer.last)) [] none
  | borrowing : Issued t e id (some .borrowing) [] none
  | lent (c : Connection) : Issued t e id (some (.holding c)) [.lent id c] none

structure Made (s t : State κ ι) (e : Event κ ι) (out : List (Notice κ ι)) (id : Nat)
    (a? : Option (Acceptance κ ι)) : Prop where
  owned : s.abandoned = false
  free : s.call? id = none
  issued : ∃ phase?, t.call? id = phase?.map (fun phase => { id, phase }) ∧ Issued t e id phase? out a?

theorem Made.phase (h : Made s t e out id a?) : Issued t e id (t.phase? id) out a? := by
  obtain ⟨_, _, phase?, hc, hi⟩ := h
  unfold State.phase?
  rw [hc]
  cases phase? with
  | none => exact hi
  | some phase => exact hi

theorem State.call?_wait_self (s : State κ ι) (id : Nat) (phase : CallPhase) :
    (s.wait id phase).call? id = some { id, phase } := by
  rw [State.call?_wait, if_pos rfl]

theorem State.call?_barrier (s : State κ ι) (id : Nat) :
    (s.barrier id).1.call? id = some { id, phase := .fence s.buffer.last } := State.call?_wait_self _ id _

inductive Looked [Named κ] (s t : State κ ι) (id : Nat) :
    CallPhase → Option CallPhase → List (Notice κ ι) → Prop where
  | asleep (phase : CallPhase) (blocked : Blocked s phase) : Looked s t id phase (some phase) []
  | accepted (r : Receipt) : Looked s t id (.stalled r false) none [.returned id (.ok (.receipt r))]
  | fenced (r : Receipt) :
    Looked s t id (.stalled r true) (some (.fence t.buffer.last)) [.accepted id r]
  | reported (target : Sequence) (drained : s.buffer.isDrainedThrough target = true) :
    Looked s t id (.fence target) none [.returned id ((surfaced s.failure).map fun _ => .done)]
  | flushed (target : Sequence) (drained : s.buffer.isDrainedThrough target = true) :
    Looked s t id (.closing target) (some (.flushed (surfaced s.failure))) []
  | shut (flushed : Except Error Unit) (closed : t.closed = true) :
    Looked s t id (.flushed flushed) (some (.stopping flushed)) [.closed]
  | taken (flushed : Except Error Unit) :
    Looked s t id (.stopping flushed) (some (.joining flushed s.unjoined)) []
  | joined (flushed : Except Error Unit) (workers : List Nat)
    (exited : ∀ w ∈ workers, ∀ ph, s.workers[w]? = some ph → ph.isExited = true) :
    Looked s t id (.joining flushed workers) (some (.ending flushed)) [.surrendered s.pool.close.1]
  | ended (flushed : Except Error Unit) :
    Looked s t id (.ending flushed) none [.returned id (closing s.failure flushed)]
  | lent (c : Connection) : Looked s t id .borrowing (some (.holding c)) [.lent id c]
  | refused : Looked s t id .borrowing none [.returned id (.error .closed)]

theorem State.phase?_leave_self (s : State κ ι) (id : Nat) : (s.leave id).phase? id = none := by
  unfold State.phase?
  rw [State.call?_leave, if_pos rfl]
  rfl

theorem State.phase?_wait_self (s : State κ ι) (id : Nat) (phase : CallPhase) :
    (s.wait id phase).phase? id = some phase := by
  unfold State.phase?
  rw [State.call?_wait_self]
  rfl

theorem State.phase?_goOn {c : Call} (h : s.call? id = some c) (phase : CallPhase) :
    (s.goOn id phase).phase? id = some phase := by
  unfold State.phase? State.goOn
  rw [State.call?_mapCall s id id (fun c => { c with phase }) fun _ => rfl, h]
  simp

theorem State.call?_shutDown {c : Call} (h : s.call? id = some c) : s.shutDown.call? id = some c.wake :=
  (State.call?_wakeAll _ id).trans (congrArg (Option.map Call.wake) h)

theorem State.phase?_asleep {c : Call} (h : s.call? id = some c) :
    (s.mapCall id fun c => { c with woken := false }).phase? id = some c.phase := by
  unfold State.phase?
  rw [State.call?_mapCall s id id (fun c => { c with woken := false }) fun _ => rfl, h]
  simp

theorem Looks.looked [Named κ] {c : Call} (hb : s.pool.Balanced) (hc : s.call? id = some c)
    (hl : Looks s id c t out) : Looked s t id c.phase (t.phase? id) out := by
  cases hl with
  | asleep woken blocked =>
    rw [State.phase?_asleep hc]
    exact .asleep c.phase blocked
  | released receipt phase =>
    rw [phase, State.phase?_leave_self]
    exact .accepted receipt
  | fenced receipt phase =>
    rw [phase, State.phase?_of_call (State.call?_barrier (s.leave id) id)]
    exact .fenced receipt
  | reported target phase drained =>
    rw [phase, State.phase?_leave_self]
    exact .reported target drained
  | flushed target phase drained =>
    rw [phase, State.phase?_goOn (s := { s with failure := none }) hc]
    exact .flushed target drained
  | shut flushed phase =>
    rw [phase, State.phase?_goOn (State.call?_shutDown hc)]
    exact .shut flushed rfl
  | taken flushed phase =>
    rw [phase, State.phase?_goOn (s := { s with unjoined := [] }) hc]
    exact .taken flushed
  | joined flushed workers phase exited =>
    rw [phase, State.phase?_goOn (s := { s with pool := s.pool.close.2 }) hc]
    exact .joined flushed workers exited
  | ended flushed phase =>
    rw [phase, State.phase?_leave_self]
    exact .ended flushed
  | lent conn pool phase =>
    rw [phase, State.phase?_goOn (s := { s with pool }) hc]
    exact .lent conn
  | refused error pool phase collect =>
    obtain ⟨_, rfl⟩ := (hb.collect (.call id)).2.2 error (by rw [collect])
    rw [phase, State.phase?_leave_self]
    exact .refused

theorem Watermarks.of_direct {high low : Nat} {error : Error} (h : Watermarks.of high low = .error error) :
    error.isDeferred = false := by
  have hv : Watermarks.validate ⟨high, low⟩ = .error error := by
    cases hv : Watermarks.validate ⟨high, low⟩ with
    | ok => simp [Watermarks.of, hv] at h
    | error => simpa [Watermarks.of, hv] using h
  unfold Watermarks.validate at hv
  split at hv
  · cases hv; rfl
  · split at hv <;> cases hv
    rfl

variable [DecidableEq κ]

theorem Makes.made (h : Makes s id e t out a?) (hb : s.pool.Balanced) (owned : s.abandoned = false)
    (free : s.call? id = none) : Made s t e out id a? := by
  refine ⟨owned, free, ?_⟩
  cases h with
  | refused => exact ⟨none, free, .refused _ rfl⟩
  | full => exact ⟨none, free, .refused _ rfl⟩
  | tried key item => exact ⟨none, free, .accepted ⟨id, key, item, _⟩ rfl⟩
  | written key item => exact ⟨none, free, .accepted ⟨id, key, item, _⟩ rfl⟩
  | fenced key item =>
    exact ⟨some (.fence _), State.call?_barrier (s.accept key item).2 id, .fenced ⟨id, key, item, _⟩ rfl⟩
  | stalled key item fenced =>
    exact ⟨_, State.call?_wait_self _ id _, .stalled ⟨id, key, item, (s.accept key item).1⟩ rfl fenced⟩
  | barrier => exact ⟨some (.fence _), State.call?_barrier s id, .barrier⟩
  | closing opened => exact ⟨_, State.call?_wait_self _ id _, .closing opened rfl⟩
  | closed => exact ⟨none, free, .done⟩
  | watermarks => exact ⟨none, free, .done⟩
  | invalid high low error invalid => exact ⟨none, free, .refused error (Watermarks.of_direct invalid)⟩
  | lent => exact ⟨_, State.call?_wait_self _ id _, .lent _⟩
  | borrowing => exact ⟨_, State.call?_wait_self _ id _, .borrowing⟩
  | unlent error pool opened acquire =>
    obtain ⟨_, rfl⟩ := (hb.acquire (.call id)).2.2 error (by rw [acquire])
    exact ⟨none, free, .refused _ rfl⟩

theorem step_call [Named κ] (hb : s.pool.Balanced) (h : step s e = some (t, out)) (hid : e.call? = some id) :
    Made s t e out id (accepted? e (t, out)) ∨
    (∃ conn, s.phase? id = some (.holding conn) ∧
      (t.phase? id = some (.holding conn.use) ∧ out = [] ∨
        ∃ result, e = .giveBack id result ∧ t.call? id = none ∧
          out = [.returned id ((result.mapError Error.store).map Answer.handed)])) ∨
    e = .look id ∧ ∃ phase, s.phase? id = some phase ∧ Looked s t id phase (t.phase? id) out := by
  cases step_cases h with
  | made id' _ _ _ owned a? free makes =>
    cases hid.symm.trans makes.call
    rw [makes.accepted free]
    exact .inl (makes.made hb owned free)
  | request _ conn holds =>
    cases hid
    obtain ⟨c, hc, _⟩ := Option.map_eq_some_iff.mp holds
    exact .inr (.inl ⟨conn, holds, .inl ⟨State.phase?_goOn hc _, rfl⟩⟩)
  | giveBack _ conn result holds =>
    cases hid
    exact .inr (.inl ⟨conn, holds, .inr ⟨result, rfl, (State.call?_leave _ id id).trans (if_pos rfl), rfl⟩⟩)
  | look _ c _ _ call looks =>
    cases hid
    exact .inr (.inr ⟨rfl, c.phase, State.phase?_of_call call, looks.looked hb call⟩)
  | _ => cases hid

theorem waiting_step [Named κ] {phase : CallPhase} (hb : s.pool.Balanced) (h : step s e = some (t, out))
    (hp : s.phase? id = some phase) (hc : ∀ conn, phase ≠ .holding conn) :
    (e.call? ≠ some id ∧ Aside s t out id) ∨ e = .look id ∧ Looked s t id phase (t.phase? id) out := by
  by_cases hid : e.call? = some id
  · obtain ⟨_, free, _⟩ | ⟨conn, hp', _⟩ | ⟨rfl, before, hp', hl⟩ := step_call hb h hid
    · simp [State.phase?, free] at hp
    · rw [hp] at hp'
      exact absurd (Option.some.inj hp') (hc conn)
    · rw [hp] at hp'
      cases hp'
      exact .inr ⟨rfl, hl⟩
  · exact .inl ⟨hid, step_aside h hid⟩

theorem came_to_wait [Named κ] {phase : CallPhase} (hb : s.pool.Balanced) (h : step s e = some (t, out))
    (hp : t.phase? id = some phase) (hc : ∀ conn, phase ≠ .holding conn) :
    s.phase? id = some phase ∨ Issued t e id (some phase) out (accepted? e (t, out)) ∨
      e = .look id ∧ ∃ before, s.phase? id = some before ∧ Looked s t id before (some phase) out := by
  by_cases hid : e.call? = some id
  · obtain hm | ⟨conn, _, ⟨hp', _⟩ | ⟨_, _, hcall, _⟩⟩ | ⟨rfl, before, hp', hl⟩ := step_call hb h hid
    · exact .inr (.inl (hp ▸ hm.phase))
    · rw [hp] at hp'
      exact absurd (Option.some.inj hp') (hc conn.use)
    · simp [State.phase?, hcall] at hp
    · exact .inr (.inr ⟨rfl, before, hp', hp ▸ hl⟩)
  · exact .inl ((step_aside h hid).phase? ▸ hp)

end WriteBehind.Queue
