import WriteBehind.Proofs.Queue.Attempts
import WriteBehind.Proofs.Queue.Issued

/-!
# Teardown

Workers exit when the queue is closed and nothing is pending, so when all have exited nothing is
outstanding. The first closing call that comes to take the workers takes all of them and waits for them.
One that comes later finds no workers to wait for, and closes the pool under those that still run.
-/

namespace WriteBehind.Queue

variable {κ ι : Type} [DecidableEq κ] {s t u : State κ ι} {out o : List (Notice κ ι)}
  {a? : Option (Acceptance κ ι)} {e : Event κ ι} {id w n : Nat}

/-! ## Workers that exit -/

def AllExited (s : State κ ι) : Prop := ∀ (w : Nat) ph, s.workers[w]? = some ph → ph.isExited = true

omit [DecidableEq κ] in
theorem Phase.isExited_of_awaiting {ph : Phase κ ι} {d : Claimed κ ι} (h : ph.awaiting? = some d) :
    ph.isExited = false := by
  cases ph <;> simp_all [Phase.awaiting?, Phase.isExited]

/-- A turn moves at most one worker, which has not exited. It exits only from a closed queue that has
nothing pending. -/
theorem Turn.moves (h : Turn s t o a?) : t.workers = s.workers ∨ ∃ w ph ph', Moves s t w ph ph' ∧
    ph.isExited = false ∧ (ph'.isExited = true → s.closed = true ∧ s.buffer.pending.size = 0) := by
  cases h with
  | rest _ workers => exact .inl workers
  | accept _ _ _ _ workers => exact .inl workers
  | exit w move closed empty => exact .inr ⟨w, _, _, move, rfl, fun _ => ⟨closed, empty⟩⟩
  | approach w ph ph' entry move before after =>
    refine .inr ⟨w, ph, ph', move, Phase.isExited_of_awaiting before, fun hx => ?_⟩
    rw [Phase.isExited_of_awaiting after] at hx
    cases hx
  | refuse w ph entry move before =>
    exact .inr ⟨w, ph, _, move, Phase.isExited_of_awaiting before, fun hx => by cases hx⟩
  | claim w _ _ move => exact .inr ⟨w, _, _, move, rfl, fun hx => by cases hx⟩
  | invoke w _ _ move => exact .inr ⟨w, _, _, move, rfl, fun hx => by cases hx⟩
  | finish w _ _ _ move => exact .inr ⟨w, _, _, move, rfl, fun hx => by cases hx⟩
  | note w _ _ move => exact .inr ⟨w, _, _, move, rfl, fun hx => by cases hx⟩
  | retire w _ _ move => exact .inr ⟨w, _, _, move, rfl, fun hx => by cases hx⟩

theorem Turn.size (h : Turn s t o a?) : t.workers.length = s.workers.length := by
  obtain hw | ⟨w, ph, ph', move, _⟩ := h.moves
  · rw [hw]
  · rw [move.after, List.length_set]

theorem Turn.all_exited (h : Turn s t o a?) (hx : AllExited s) : t.workers = s.workers := by
  obtain hw | ⟨w, ph, ph', move, hp, _⟩ := h.moves
  · exact hw
  · rw [hx w ph move.before] at hp
    cases hp

theorem Turn.exited (h : Turn s t o a?) (hw : t.workers[w]? = some .exited) :
    s.workers[w]? = some .exited ∨ s.closed = true ∧ s.buffer.pending.size = 0 := by
  obtain hs | ⟨w', ph, ph', move, _, hx⟩ := h.moves
  · exact .inl (hs ▸ hw)
  · rw [move.worker] at hw
    split at hw
    · cases hw
      exact .inr (hx rfl)
    · exact .inl hw

theorem Turn.pending_none (h : Turn s t o a?) (hs : Tended s) (hc : s.closed = true)
    (hp : ∀ k, s.buffer.pending.get? k = none) (k : κ) : t.buffer.pending.get? k = none := by
  cases h with
  | accept _ opened => rw [hc] at opened; cases opened
  | claim w entry since move buffer =>
    obtain ⟨hsome, _⟩ := hs.valid.claim_some buffer
    rw [hp] at hsome
    cases hsome
  | rest buffer => rw [buffer]; exact hp k
  | exit _ _ _ _ buffer => rw [buffer]; exact hp k
  | approach _ _ _ _ _ _ _ buffer => rw [buffer]; exact hp k
  | refuse _ _ _ _ _ _ buffer => rw [buffer]; exact hp k
  | invoke _ _ _ _ buffer => rw [buffer]; exact hp k
  | finish _ _ _ _ _ buffer => rw [buffer]; exact hp k
  | note _ _ _ _ buffer => rw [buffer]; exact hp k
  | retire _ _ _ _ buffer => rw [buffer]; exact hp k

/-! ## Closing -/

variable [Named κ]

theorem step_shift (h : step s e = some (t, out)) : (s.closed = true → t.closed = true) ∧
    (t.unjoined = s.unjoined ∨
      ∃ id flushed, e = .look id ∧ s.phase? id = some (.stopping flushed) ∧ t.unjoined = []) := by
  cases step_cases h with
  | made _ _ _ _ _ _ _ makes => cases makes <;> exact ⟨fun hc => hc, .inl rfl⟩
  | work w _ _ works =>
    cases works with
    | noted _ outcome => cases outcome <;> exact ⟨fun hc => hc, .inl rfl⟩
    | _ => exact ⟨fun hc => hc, .inl rfl⟩
  | look id c _ _ call looks =>
    cases looks with
    | shut => exact ⟨fun _ => rfl, .inl rfl⟩
    | taken flushed phase =>
      have hp : s.phase? id = some (.stopping flushed) :=
        (State.phase?_of_call call).trans (congrArg some phase)
      exact ⟨fun hc => hc, .inr ⟨id, flushed, rfl, hp, rfl⟩⟩
    | _ => exact ⟨fun hc => hc, .inl rfl⟩
  | expire => exact ⟨fun _ => rfl, .inl rfl⟩
  | _ => exact ⟨fun hc => hc, .inl rfl⟩

def CallPhase.isBehind : CallPhase → Bool
  | .stopping _ | .joining _ _ | .ending _ => true
  | _ => false

theorem behind_step (hs : Tended s) (he : step s e = some (t, out)) {phase : CallPhase}
    (hp : t.phase? id = some phase) (hb : phase.isBehind = true) :
    s.phase? id = some phase ∨
      e = .look id ∧ ∃ before, s.phase? id = some before ∧ Looked s t id before (some phase) out := by
  have hc : ∀ conn, phase ≠ .holding conn := by
    rintro conn rfl
    cases hb
  obtain hp | hi | hlook := came_to_wait hs.balanced he hp hc
  · exact .inl hp
  · generalize accepted? e (t, out) = a? at hi
    cases hi <;> cases hb
  · exact .inr hlook

/-- The workers of a queue, those that have exited and those that nobody has taken. -/
structure Staffed (n : Nat) (s : State κ ι) : Prop where
  size : s.workers.length = n
  exited : ∀ w : Nat, s.workers[w]? = some .exited →
    s.closed = true ∧ ∀ k, s.buffer.pending.get? k = none
  unjoined : s.unjoined = List.range n ∨ s.unjoined = []
  behind : ∀ id phase, s.phase? id = some phase → phase.isBehind = true → s.closed = true

theorem Staffed.step (h : Staffed n s) (hs : Tended s) (he : step s e = some (t, out)) : Staffed n t := by
  have turn := step_turn hs.balanced he
  obtain ⟨hclosed, hunjoined⟩ := step_shift he
  constructor
  case size => rw [turn.size, h.size]
  case exited =>
    intro w hw
    rcases turn.exited hw with hw | ⟨hc, hp⟩
    · obtain ⟨hc, hp⟩ := h.exited w hw
      exact ⟨hclosed hc, turn.pending_none hs hc hp⟩
    · exact ⟨hclosed hc, turn.pending_none hs hc (Table.size_eq_zero.mp hp)⟩
  case unjoined =>
    rcases hunjoined with hu | ⟨_, _, _, _, hu⟩
    · rw [hu]; exact h.unjoined
    · exact .inr hu
  case behind =>
    intro id phase hp hb
    obtain hp | ⟨rfl, before, hbefore, hl⟩ := behind_step hs he hp hb
    · exact hclosed (h.behind id phase hp hb)
    · cases hl with
      | asleep => exact hclosed (h.behind id phase hbefore hb)
      | shut _ closed => exact closed
      | taken => exact hclosed (h.behind id _ hbefore rfl)
      | joined => exact hclosed (h.behind id _ hbefore rfl)
      | _ => cases hb

omit [Named κ] in
theorem Staffed.drained (h : Staffed n s) (hn : 0 < n) (hs : Tended s) (hx : AllExited s) :
    s.buffer.outstanding = [] := by
  have hexited : ∀ (w : Nat) ph, s.workers[w]? = some ph → ph = .exited := by
    intro w ph hw
    have := hx w ph hw
    cases ph <;> first | rfl | cases this
  -- There is a worker, and it has exited only when nothing was pending.
  have hpending : ∀ k, s.buffer.pending.get? k = none := by
    have hlt : 0 < s.workers.length := h.size ▸ hn
    have hw : s.workers[0]? = some s.workers[0] := List.getElem?_eq_getElem hlt
    exact (h.exited 0 (hexited 0 _ hw ▸ hw)).2
  refine List.eq_nil_iff_forall_not_mem.mpr fun q hq => ?_
  rcases (hs.valid.mem_outstanding q).mp hq with ⟨k, p, hp, _⟩ | ⟨k, hk⟩
  · rw [hpending] at hp
    cases hp
  · obtain ⟨w, d, hd, _⟩ := (hs.flight k q).mp hk
    obtain ⟨ph, hw, he⟩ := Option.bind_eq_some_iff.mp hd
    rw [hexited w ph hw] at he
    cases he

/-! ## Closing calls -/

variable {flushed : Except Error Unit} {workers : List Nat}

theorem stopping_step (hp : s.phase? id = some (.stopping flushed)) (h : step s (.look id) = some (t, out)) :
    t.phase? id = some (.joining flushed s.unjoined) ∧ t.closed = s.closed ∧ t.workers = s.workers := by
  obtain ⟨c, hc, hl⟩ := look_cases h
  rw [State.phase?_of_call hc, Option.some.injEq] at hp
  cases hl with
  | taken flushed' phase =>
    rw [hp] at phase
    cases phase
    exact ⟨State.phase?_goOn (s := { s with unjoined := [] }) hc _, rfl, rfl⟩
  | asleep _ blocked => rw [hp] at blocked; exact False.elim blocked
  | _ => simp_all

theorem joining_step (hp : s.phase? id = some (.joining flushed workers))
    (h : step s (.look id) = some (t, out)) :
    (∀ w ∈ workers, ∀ ph, s.workers[w]? = some ph → ph.isExited = true) ∧ t.workers = s.workers ∧
      t.pool.closed = true := by
  obtain ⟨c, hc, hl⟩ := look_cases h
  rw [State.phase?_of_call hc, Option.some.injEq] at hp
  cases hl with
  | joined flushed' workers' phase exited =>
    rw [hp] at phase
    cases phase
    exact ⟨exited, rfl, rfl⟩
  | asleep _ blocked => rw [hp] at blocked; exact False.elim blocked
  | _ => simp_all

theorem joining_nobody (hp : s.phase? id = some (.joining flushed [])) :
    ∃ t out, step s (.look id) = some (t, out) := by
  obtain ⟨c, hc, hphase⟩ := Option.map_eq_some_iff.mp hp
  exact ⟨_, _, by simp [step, State.look, hc, hphase]; exact ⟨rfl, rfl⟩⟩

theorem ending_step (hp : s.phase? id = some (.ending flushed)) (h : step s (.look id) = some (t, out)) :
    t.buffer = s.buffer ∧ out = [.returned id (closing s.failure flushed)] := by
  obtain ⟨c, hc, hl⟩ := look_cases h
  rw [State.phase?_of_call hc, Option.some.injEq] at hp
  cases hl with
  | ended flushed' phase =>
    rw [hp] at phase
    cases phase
    exact ⟨rfl, rfl⟩
  | asleep _ blocked => rw [hp] at blocked; exact False.elim blocked
  | _ => simp_all

def CallPhase.isAhead : CallPhase → Bool
  | .closing _ | .flushed _ | .stopping _ => true
  | _ => false

def Ahead (s : State κ ι) (id : Nat) : Prop := ∃ phase, s.phase? id = some phase ∧ phase.isAhead = true

theorem ahead_step (hs : Tended s) (he : step s e = some (t, out)) (h : Ahead t id) :
    Ahead s id ∨ e = .close id ∧ t.closed = false := by
  obtain ⟨phase, hp, ha⟩ := h
  have hc : ∀ conn, phase ≠ .holding conn := by
    rintro conn rfl
    cases ha
  obtain hp | hi | ⟨rfl, before, hp', hl⟩ := came_to_wait hs.balanced he hp hc
  · exact .inl ⟨phase, hp, ha⟩
  · generalize accepted? e (t, out) = a? at hi
    cases hi with
    | closing opened closes => exact .inr ⟨closes, opened⟩
    | _ => cases ha
  · cases hl with
    | asleep => exact .inl ⟨_, hp', ha⟩
    | flushed => exact .inl ⟨_, hp', rfl⟩
    | shut => exact .inl ⟨_, hp', rfl⟩
    | _ => cases ha

structure Waiting (n id : Nat) (s : State κ ι) : Prop where
  closed : s.closed = true
  behind : ¬ Ahead s id
  joining : ∀ flushed workers, s.phase? id = some (.joining flushed workers) → workers = List.range n

theorem Waiting.step (h : Waiting n id s) (hs : Tended s) (he : Queue.step s e = some (t, out)) :
    Waiting n id t := by
  have hclosed := (step_shift he).1 h.closed
  refine ⟨hclosed, fun ha => ?_, fun flushed workers hp => ?_⟩
  · rcases ahead_step hs he ha with ha | ⟨_, hopen⟩
    · exact h.behind ha
    · rw [hclosed] at hopen
      cases hopen
  · obtain hp | ⟨rfl, before, hbefore, hl⟩ := behind_step hs he hp rfl
    · exact h.joining flushed workers hp
    · cases hl with
      | asleep _ blocked => exact False.elim blocked
      | taken => exact absurd ⟨_, hbefore, rfl⟩ h.behind

end WriteBehind.Queue
