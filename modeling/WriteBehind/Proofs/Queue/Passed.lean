import WriteBehind.Proofs.Queue.Fence

/-!
# Fences that are passed

A barrier, a closing call that finds the queue open and a write that is fenced wait until everything
accepted so far has drained. A write that is held back comes to its fence later, which then waits for
more.
-/

namespace WriteBehind.Queue

variable {κ ι : Type} [DecidableEq κ] [Named κ] {s t u : State κ ι} {out o : List (Notice κ ι)}
  {events : List (Event κ ι)} {e : Event κ ι} {id : Nat} {q : Sequence}

inductive Event.Fences (s : State κ ι) (id : Nat) : Event κ ι → Prop where
  | barrier : Event.Fences s id (.barrier id)
  | close (opened : s.closed = false) : Event.Fences s id (.close id)
  | write (key : κ) (item : ι) (opened : s.closed = false) : Event.Fences s id (.enqueue id key item true)

/-- A call stands before a fence that waits for everything up to a number. -/
def State.Fenced (s : State κ ι) (id : Nat) (q : Sequence) : Prop :=
  (∃ receipt, s.phase? id = some (.stalled receipt true)) ∨ ∃ target, s.fence? id = some target ∧ q ≤ target

omit [DecidableEq κ] [Named κ] in
theorem State.fenced_of_phase {phase : CallPhase} {target : Sequence} (hp : s.phase? id = some phase)
    (ht : phase.target? = some target) (hle : q ≤ target) : s.Fenced id q := by
  refine .inr ⟨target, ?_, hle⟩
  rw [State.fence?_eq, hp]
  exact ht

theorem fence_begins (he : step s e = some (t, out)) (h : e.Fences s id) :
    t.Fenced id t.buffer.last ∧ ∀ r, .returned id r ∉ out := by
  have hmade : ∃ a?, s.call? id = none ∧ Makes s id e t out a? := by
    cases step_cases he with
    | made id' _ _ _ _ a? free makes =>
      have hid : e.call? = some id := by cases h <;> rfl
      cases makes.call.symm.trans hid
      exact ⟨a?, free, makes⟩
    | _ => cases h
  obtain ⟨a?, _, makes⟩ := hmade
  cases h with
  | barrier =>
    cases makes with
    | refused _ _ asks => cases asks
    | barrier => exact ⟨State.fenced_of_phase (State.phase?_wait_self _ id _) rfl (Nat.le_refl _), by simp⟩
  | close opened =>
    cases makes with
    | refused _ _ asks => cases asks
    | closing => exact ⟨State.fenced_of_phase (State.phase?_wait_self _ id _) rfl (Nat.le_refl _), by simp⟩
    | closed closed => rw [opened] at closed; cases closed
  | write key item opened =>
    cases makes with
    | refused _ closed => rw [opened] at closed; cases closed
    | fenced => exact ⟨State.fenced_of_phase (State.phase?_wait_self _ id _) rfl (Nat.le_refl _), by simp⟩
    | stalled => exact ⟨.inl ⟨_, State.phase?_wait_self _ id _⟩, by simp⟩

theorem State.Fenced.step (h : s.Fenced id q) (hs : Tended s) (hle : q ≤ s.buffer.last)
    (he : Queue.step s e = some (t, out)) :
    t.Fenced id q ∧ (∀ r, .returned id r ∉ out) ∨ s.buffer.isDrainedThrough q = true := by
  have hsilent : (∀ n ∈ out, n.call? ≠ some id) → ∀ r, .returned id r ∉ out := by
    intro hn r hm
    exact hn _ hm rfl
  rcases h with ⟨receipt, hp⟩ | ⟨target, hf, hq⟩
  · obtain ⟨_, haside⟩ | ⟨_, hl⟩ := waiting_step hs.balanced he hp (by simp)
    · exact .inl ⟨.inl ⟨receipt, haside.phase?.trans hp⟩, hsilent haside.silent⟩
    · generalize hphase : t.phase? id = phase? at hl
      cases hl with
      | asleep => exact .inl ⟨.inl ⟨receipt, hphase⟩, by simp⟩
      | fenced =>
        have hlast := (step_turn hs.balanced he).last_le
        exact .inl ⟨State.fenced_of_phase hphase rfl (Nat.le_trans hle hlast), by simp⟩
  · rcases fence_step hs.balanced he hf with ⟨hf', hn⟩ | ⟨_, hd⟩
    · exact .inl ⟨.inr ⟨target, hf', hq⟩, hsilent hn⟩
    · refine .inr ((hs.valid.isDrainedThrough_iff q).mpr fun x hx => ?_)
      exact Nat.lt_of_le_of_lt hq ((hs.valid.isDrainedThrough_iff target).mp hd x hx)

theorem fence_passed {r : Result} (hs : Tended s) (he : step s e = some (t, o)) (h : e.Fences s id)
    (hr : run t events = some (u, out)) (hret : .returned id r ∈ o ++ out) :
    u.buffer.isDrainedThrough t.buffer.last = true := by
  obtain ⟨hfenced, hsilent⟩ := fence_begins he h
  have ht := hs.step he
  -- What has drained stays drained only up to the last number given, so that goes along.
  have : t.buffer.last ≤ u.buffer.last ∧ (u.Fenced id t.buffer.last ∧ (∀ r, .returned id r ∉ out) ∨
      u.buffer.isDrainedThrough t.buffer.last = true) := by
    refine run_induction (P := fun _ out u => t.buffer.last ≤ u.buffer.last ∧
      (u.Fenced id t.buffer.last ∧ (∀ r, .returned id r ∉ out) ∨
        u.buffer.isDrainedThrough t.buffer.last = true)) ?_ ?_ hr
    · exact ⟨Nat.le_refl _, .inl ⟨hfenced, by simp⟩⟩
    · intro events out u e v o' hr ⟨hle, hp⟩ he
      have hu := ht.run hr
      have turn := step_turn hu.balanced he
      refine ⟨Nat.le_trans hle turn.last_le, ?_⟩
      have hdrained : u.buffer.isDrainedThrough t.buffer.last = true →
          v.buffer.isDrainedThrough t.buffer.last = true := turn.drained_through hu (hu.step he) hle
      rcases hp with ⟨hf, hn⟩ | hd
      · rcases hf.step hu hle he with ⟨hf', hn'⟩ | hd
        · refine .inl ⟨hf', fun r hm => ?_⟩
          exact (List.mem_append.mp hm).elim (hn r) (hn' r)
        · exact .inr (hdrained hd)
      · exact .inr (hdrained hd)
  rcases this.2 with ⟨_, hn⟩ | hd
  · exact absurd hret fun hm => (List.mem_append.mp hm).elim (hsilent r) (hn r)
  · exact hd

end WriteBehind.Queue
