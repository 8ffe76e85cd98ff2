import WriteBehind.Proofs.Queue.Issued
import WriteBehind.Proofs.Queue.Tended

/-!
# Receipts

A receipt that a call is told is that of a write accepted from this call, however long the producer was
held back in between.
-/

namespace WriteBehind.Queue

variable {κ ι : Type} {s t : State κ ι} {out o : List (Notice κ ι)} {accepted : List (Acceptance κ ι)}
  {a? : Option (Acceptance κ ι)} {events : List (Event κ ι)} {e : Event κ ι} {id : Nat} {r : Receipt}

def Earned (accepted : List (Acceptance κ ι)) (id : Nat) (r : Receipt) : Prop :=
  ∃ a ∈ accepted, a.call = id ∧ a.receipt = r

theorem Earned.append (h : Earned accepted id r) (later : List (Acceptance κ ι)) :
    Earned (accepted ++ later) id r := by
  obtain ⟨a, ha, hr⟩ := h
  exact ⟨a, List.mem_append_left _ ha, hr⟩

theorem earned_self (accepted : List (Acceptance κ ι)) (a : Acceptance κ ι) :
    Earned (accepted ++ [a]) a.call a.receipt := ⟨a, by simp, rfl, rfl⟩

structure Receipts (accepted : List (Acceptance κ ι)) (out : List (Notice κ ι)) (s : State κ ι) : Prop where
  kept : ∀ id r fenced, s.phase? id = some (.stalled r fenced) → Earned accepted id r
  told : ∀ n ∈ out, ∀ id r, n.call? = some id → n.receipt? = some r → Earned accepted id r

def Fair (accepted : List (Acceptance κ ι)) (t : State κ ι) (out : List (Notice κ ι)) (id : Nat) : Prop :=
  (∀ r fenced, t.phase? id = some (.stalled r fenced) → Earned accepted id r) ∧
    ∀ n ∈ out, ∀ r, n.receipt? = some r → Earned accepted id r

theorem Made.fair (h : Made s t e o id a?) : Fair (accepted ++ a?.toList) t o id := by
  have hi := h.phase
  unfold Fair
  generalize t.phase? id = phase? at hi
  cases hi with
  | accepted a call =>
    subst call
    refine ⟨by simp, ?_⟩
    simpa [Notice.receipt?] using earned_self accepted a
  | stalled a call fenced =>
    subst call
    refine ⟨?_, by simp⟩
    intro r f heq
    cases heq
    exact earned_self accepted a
  | fenced a call =>
    subst call
    refine ⟨by simp, ?_⟩
    simpa [Notice.receipt?] using earned_self accepted a
  | _ => exact ⟨by simp, by simp [Notice.receipt?]⟩

theorem Looked.fair [Named κ] {phase : CallPhase} (hk : Receipts accepted out s)
    (hp : s.phase? id = some phase) (h : Looked s t id phase (t.phase? id) o) : Fair accepted t o id := by
  unfold Fair
  generalize t.phase? id = phase? at h
  cases h with
  | asleep =>
    refine ⟨?_, by simp⟩
    intro r fenced heq
    cases heq
    exact hk.kept id r fenced hp
  | accepted r => exact ⟨by simp, by simpa [Notice.receipt?] using hk.kept id r _ hp⟩
  | fenced r => exact ⟨by simp, by simpa [Notice.receipt?] using hk.kept id r _ hp⟩
  | reported =>
    refine ⟨by simp, ?_⟩
    cases s.failure <;> simp [Notice.receipt?, surfaced, Except.map]
  | ended flushed =>
    refine ⟨by simp, ?_⟩
    unfold closing
    cases flushed <;> cases s.failure <;> simp [Notice.receipt?, surfaced, Except.map]
  | _ => exact ⟨by simp, by simp [Notice.receipt?]⟩

variable [DecidableEq κ] [Named κ]

theorem Receipts.step (h : Receipts accepted out s) (hb : s.pool.Balanced)
    (hs : step s e = some (t, o)) : Receipts (accepted ++ (accepted? e (t, o)).toList) (out ++ o) t := by
  -- The call of the step keeps and is told what is earned.
  have own : ∀ id, e.call? = some id → Fair (accepted ++ (accepted? e (t, o)).toList) t o id := by
    intro id hid
    obtain hm | ⟨conn, _, ⟨hp, rfl⟩ | ⟨result, _, hc, rfl⟩⟩ | ⟨rfl, phase, hp, hl⟩ := step_call hb hs hid
    · exact hm.fair
    · exact ⟨by simp [hp], by simp⟩
    · refine ⟨by simp [State.phase?, hc], ?_⟩
      cases result with
      | error => simp [Notice.receipt?, Except.mapError, Except.map]
      | ok conn? => cases conn? <;> simp [Notice.receipt?, Except.mapError, Except.map, Answer.handed]
    · have := hl.fair h hp
      simpa [accepted?] using this
  constructor
  case kept =>
    intro id r fenced hp
    by_cases hid : e.call? = some id
    · exact (own id hid).1 r fenced hp
    · rw [(step_aside hs hid).phase?] at hp
      exact (h.kept id r fenced hp).append _
  case told =>
    intro n hn id r hc hr
    rcases List.mem_append.mp hn with hn | hn
    · exact (h.told n hn id r hc hr).append _
    · have hid : e.call? = some id := by
        by_contra hne
        exact (step_aside hs hne).silent n hn hc
      exact (own id hid).2 n hn r hr

variable {config : QueueConfig} {connections : List Connection}

theorem Begins.receipts (h : Begins config connections s) (hr : run s events = some (t, out)) :
    Receipts (acceptances s events) out t := by
  refine run_induction (P := fun events out t => Receipts (acceptances s events) out t) ?_ ?_ hr
  · exact ⟨by simp [h.phase?], by simp⟩
  · intro events o t e u o' hr hp he
    rw [acceptances_snoc hr he]
    exact hp.step (h.tended.run hr).balanced he

end WriteBehind.Queue
