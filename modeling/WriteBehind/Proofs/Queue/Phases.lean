import WriteBehind.Proofs.Queue.Turns

/-!
# What a step does to the calls

A step concerns at most one call. All others stay as they are, except that they are woken when an entry
retires or the queue closes, and nothing is told to them. `step_call` says what becomes of the call
that a step concerns.
-/

namespace WriteBehind.Queue

variable {κ ι : Type} {s t : State κ ι} {out : List (Notice κ ι)} {e : Event κ ι} {id id' w : Nat}

def Notice.call? : Notice κ ι → Option Nat
  | .accepted id _ | .lent id _ | .returned id _ => some id
  | _ => none

def Call.wake (c : Call) : Call := { c with woken := true }

/-! ## Calls that a step does not concern -/

/-- A call that a step does not concern: nothing is told to it, and it is woken if an entry retires. -/
structure Aside (s t : State κ ι) (out : List (Notice κ ι)) (id : Nat) : Prop where
  silent : ∀ n ∈ out, n.call? ≠ some id
  call : t.call? id = s.call? id ∧ (∀ e r, .drained e r ∉ out) ∨ t.call? id = (s.call? id).map Call.wake

theorem Aside.phase? (h : Aside s t out id) : t.phase? id = s.phase? id := by
  unfold State.phase?
  obtain ⟨hc, _⟩ | hc := h.call
  · rw [hc]
  · rw [hc]
    cases s.call? id <;> rfl

theorem Aside.of_calls (hc : t.calls = s.calls) (hn : ∀ n ∈ out, n.call? = none)
    (hd : ∀ e r, .drained e r ∉ out) : Aside s t out id := by
  refine ⟨fun n hm => by simp [hn n hm], .inl ⟨?_, hd⟩⟩
  unfold State.call?
  rw [hc]

theorem State.call?_wait_of_ne (s : State κ ι) (phase : CallPhase) (h : id ≠ id') :
    (s.wait id phase).call? id' = s.call? id' := (State.call?_wait s id id' phase).trans (if_neg h)

theorem State.call?_leave_of_ne (s : State κ ι) (h : id ≠ id') : (s.leave id).call? id' = s.call? id' :=
  (State.call?_leave s id id').trans (if_neg h)

theorem Looks.aside [Named κ] {c : Call} (hl : Looks s id c t out) (h : id ≠ id') : Aside s t out id' := by
  cases hl with
  | asleep => exact ⟨by simp, .inl ⟨State.call?_mapCall_of_ne s _ (fun _ => rfl) h, by simp⟩⟩
  | fenced =>
    refine ⟨by simp [Notice.call?, h], .inl ⟨?_, by simp⟩⟩
    exact (State.call?_wait_of_ne _ _ h).trans (State.call?_leave_of_ne s h)
  | flushed => exact ⟨by simp, .inl ⟨State.call?_goOn_of_ne _ _ h, by simp⟩⟩
  | shut =>
    refine ⟨by simp [Notice.call?], .inr ?_⟩
    exact (State.call?_goOn_of_ne s.shutDown _ h).trans (State.call?_wakeAll _ id')
  | taken => exact ⟨by simp, .inl ⟨State.call?_goOn_of_ne _ _ h, by simp⟩⟩
  | joined => exact ⟨by simp [Notice.call?], .inl ⟨State.call?_goOn_of_ne _ _ h, by simp⟩⟩
  | lent => exact ⟨by simp [Notice.call?, h], .inl ⟨State.call?_goOn_of_ne _ _ h, by simp⟩⟩
  | _ => exact ⟨by simp [Notice.call?, h], .inl ⟨State.call?_leave_of_ne _ h, by simp⟩⟩

variable [DecidableEq κ]

theorem Makes.aside {a? : Option (Acceptance κ ι)} (hm : Makes s id e t out a?) (h : id ≠ id') :
    Aside s t out id' := by
  cases hm with
  | fenced => exact ⟨by simp [Notice.call?, h], .inl ⟨State.call?_wait_of_ne _ _ h, by simp⟩⟩
  | stalled => exact ⟨by simp, .inl ⟨State.call?_wait_of_ne _ _ h, by simp⟩⟩
  | barrier => exact ⟨by simp, .inl ⟨State.call?_wait_of_ne _ _ h, by simp⟩⟩
  | closing => exact ⟨by simp, .inl ⟨State.call?_wait_of_ne _ _ h, by simp⟩⟩
  | lent => exact ⟨by simp [Notice.call?, h], .inl ⟨State.call?_wait_of_ne _ _ h, by simp⟩⟩
  | borrowing => exact ⟨by simp, .inl ⟨State.call?_wait_of_ne _ _ h, by simp⟩⟩
  | _ => exact ⟨by simp [Notice.call?, h], .inl ⟨rfl, by simp⟩⟩

theorem Makes.call {a? : Option (Acceptance κ ι)} (h : Makes s id e t out a?) : e.call? = some id := by
  cases h with
  | refused _ _ _ call => exact call
  | _ => rfl

theorem Works.aside (h : Works s w t out) : Aside s t out id := by
  cases h with
  | begun => exact .of_calls rfl (by simp [Notice.call?]) (by simp)
  | noted _ outcome => cases outcome <;> exact .of_calls rfl (by simp) (by simp)
  | retired => exact ⟨by simp [Notice.call?], .inr (State.call?_wakeAll _ id)⟩
  | _ => exact .of_calls rfl (by simp) (by simp)

theorem step_aside [Named κ] (h : step s e = some (t, out)) (hid : e.call? ≠ some id) : Aside s t out id := by
  have hne : ∀ {id'}, e.call? = some id' → id' ≠ id := fun hcall heq => hid (hcall.trans (congrArg some heq))
  cases step_cases h with
  | made _ _ _ _ _ _ _ makes => exact makes.aside (hne makes.call)
  | request => exact ⟨by simp, .inl ⟨State.call?_goOn_of_ne s _ (hne rfl), by simp⟩⟩
  | giveBack => exact ⟨by simp [Notice.call?, hne rfl], .inl ⟨State.call?_leave_of_ne _ (hne rfl), by simp⟩⟩
  | work _ _ _ works => exact works.aside
  | look _ _ _ _ _ looks => exact looks.aside (hne rfl)
  | expire => exact ⟨by simp [Notice.call?], .inr (State.call?_wakeAll _ id)⟩
  | _ => exact .of_calls rfl (by simp [Notice.call?]) (by simp)

end WriteBehind.Queue
