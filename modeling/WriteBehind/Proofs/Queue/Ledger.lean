import WriteBehind.Proofs.Queue.Tended

/-!
# Numbers and payloads

What a queue still holds of the writes that it accepted. A number stands for one identity, and wherever
an entry is found (pending, with a worker, or in a notice) it carries the payload that was accepted
last under its number: once an entry is claimed, no write is folded into it any more.
-/

namespace WriteBehind.Queue

variable {κ ι : Type}

/-! ## The last payload under a number -/

def latest? (accepted : List (Acceptance κ ι)) (q : Sequence) : Option (Acceptance κ ι) :=
  (accepted.filter fun a => decide (a.sequence = q)).getLast?

def Carries (accepted : List (Acceptance κ ι)) (q : Sequence) (key : κ) (item : ι) : Prop :=
  ∃ a, latest? accepted q = some a ∧ a.key = key ∧ a.item = item

variable {accepted : List (Acceptance κ ι)} {a : Acceptance κ ι} {q : Sequence} {key : κ} {item : ι}

theorem latest?_snoc (accepted : List (Acceptance κ ι)) (a : Acceptance κ ι) (q : Sequence) :
    latest? (accepted ++ [a]) q = if a.sequence = q then some a else latest? accepted q := by
  unfold latest?
  by_cases h : a.sequence = q
  · simp [List.filter_append, h]
  · simp [List.filter_append, h]

theorem Carries.mem (h : Carries accepted q key item) : ∃ a ∈ accepted, a.sequence = q ∧ a.key = key := by
  obtain ⟨a, ha, hk, _⟩ := h
  have := List.mem_of_getLast? ha
  simp only [List.mem_filter, decide_eq_true_eq] at this
  exact ⟨a, this.1, this.2, hk⟩

theorem Carries.snoc (h : Carries accepted q key item) (hne : a.sequence ≠ q) :
    Carries (accepted ++ [a]) q key item := by
  obtain ⟨a', ha, hk⟩ := h
  exact ⟨a', by rw [latest?_snoc, if_neg hne]; exact ha, hk⟩

theorem carries_self (accepted : List (Acceptance κ ι)) (a : Acceptance κ ι) :
    Carries (accepted ++ [a]) a.sequence a.key a.item :=
  ⟨a, by rw [latest?_snoc, if_pos rfl], rfl, rfl⟩

/-! ## The ledger -/

variable [DecidableEq κ] {s t : State κ ι} {out o : List (Notice κ ι)} {a? : Option (Acceptance κ ι)}

/-- What a queue holds, and what was noticed of it, agrees with the writes that it accepted. -/
structure Ledger (accepted : List (Acceptance κ ι)) (out : List (Notice κ ι)) (s : State κ ι) : Prop where
  le_last : ∀ a ∈ accepted, a.sequence ≤ s.buffer.last
  one_key : ∀ a ∈ accepted, ∀ a' ∈ accepted, a.sequence = a'.sequence → a.key = a'.key
  pending : ∀ k p, s.buffer.pending.get? k = some p → Carries accepted p.sequence k p.item
  draining : ∀ w e, s.draining w = some e → Carries accepted e.sequence e.key e.item
  noticed : ∀ n ∈ out, ∀ e, n.entry? = some e → Carries accepted e.sequence e.key e.item
  passed : ∀ n ∈ out, ∀ e, n.entry? = some e → ∀ k, ¬ s.buffer.Waits k e.sequence

theorem Ledger.noticed_le (h : Ledger accepted out s) {n : Notice κ ι} (hn : n ∈ out) {e : Claimed κ ι}
    (he : n.entry? = some e) : e.sequence ≤ s.buffer.last := by
  obtain ⟨a, ha, hq, _⟩ := (h.noticed n hn e he).mem
  exact hq ▸ h.le_last a ha

theorem Ledger.accept (h : Ledger accepted out s) (ht : Tended t)
    (buffer : t.buffer = (s.buffer.insert a.key a.item).2)
    (sequence : a.sequence = (s.buffer.insert a.key a.item).1.sequence)
    (draining : ∀ w, t.draining w = s.draining w) : Ledger (accepted ++ [a]) out t := by
  have hself : t.buffer.Waits a.key a.sequence := by
    rw [buffer, sequence]; exact Buffer.insert_waits_self _ _ _
  -- The number is that of a pending entry or the next one; nothing was noticed under either.
  have hgiven : s.buffer.Waits a.key a.sequence ∨ a.sequence = s.buffer.last.next := by
    rw [sequence]; exact Buffer.insert_sequence _ _ _
  have hle : s.buffer.last ≤ t.buffer.last := by rw [buffer]; exact Buffer.insert_last_le _ _ _
  have hnew : ∀ q, q ≤ s.buffer.last → q ≠ s.buffer.last.next := by
    rintro q hq rfl
    exact absurd (Sequence.lt_next _) (Nat.not_lt.mpr hq)
  have hnoticed : ∀ n ∈ out, ∀ e, n.entry? = some e → a.sequence ≠ e.sequence := by
    intro n hn e he heq
    rcases hgiven with hw | hl
    · exact h.passed n hn e he a.key (heq ▸ hw)
    · exact hnew _ (h.noticed_le hn he) (heq ▸ hl)
  constructor
  case le_last =>
    intro a' ha'
    rcases List.mem_append.mp ha' with ha' | ha'
    · exact Nat.le_trans (h.le_last a' ha') hle
    · rw [List.mem_singleton.mp ha']
      exact ht.valid.le_last _ (ht.valid.waits_mem hself)
  case one_key =>
    have hold : ∀ a' ∈ accepted, a'.sequence = a.sequence → a'.key = a.key := by
      intro a' ha' heq
      rcases hgiven with ⟨p, hp, hq⟩ | hl
      · obtain ⟨a'', hm, hq', hk⟩ := (h.pending _ _ hp).mem
        rw [h.one_key a' ha' a'' hm (by rw [heq, hq', hq]), hk]
      · exact absurd (heq.trans hl) (hnew _ (h.le_last a' ha'))
    intro a₁ h₁ a₂ h₂ heq
    rcases List.mem_append.mp h₁ with m₁ | m₁ <;> rcases List.mem_append.mp h₂ with m₂ | m₂
    · exact h.one_key a₁ m₁ a₂ m₂ heq
    · rw [List.mem_singleton] at m₂; subst m₂; exact hold a₁ m₁ heq
    · rw [List.mem_singleton] at m₁; subst m₁; exact (hold a₂ m₂ heq.symm).symm
    · rw [List.mem_singleton] at m₁ m₂; rw [m₁, m₂]
  case pending =>
    intro k p hp
    by_cases hk : k = a.key
    · subst hk
      obtain ⟨p', hp', hi, hq⟩ := s.buffer.insert_pending_self a.key a.item
      rw [buffer, hp'] at hp
      cases hp
      rw [hi, hq, ← sequence]
      exact carries_self accepted a
    · have hp' := hp
      rw [buffer, Buffer.insert_pending _ _ _ _ hk] at hp'
      refine (h.pending k p hp').snoc fun heq => hk ?_
      exact ht.valid.waits_inj ⟨p, hp, rfl⟩ (heq ▸ hself)
  case draining =>
    intro w e he
    refine (h.draining w e (draining w ▸ he)).snoc fun heq => ?_
    exact ht.not_waits he a.key (heq ▸ hself)
  case noticed =>
    intro n hn e he
    exact (h.noticed n hn e he).snoc (hnoticed n hn e he)
  case passed =>
    intro n hn e he k hw
    rw [buffer] at hw
    rcases (Buffer.insert_waits _ _ _ _ _).mp hw with hw | ⟨_, _, heq⟩
    · exact h.passed n hn e he k hw
    · exact hnew _ (h.noticed_le hn he) heq

theorem Ledger.keep (h : Ledger accepted out s) (hs : Tended s) (last : t.buffer.last = s.buffer.last)
    (pending : ∀ k p, t.buffer.pending.get? k = some p → s.buffer.pending.get? k = some p)
    (draining : ∀ w e, t.draining w = some e → Carries accepted e.sequence e.key e.item)
    (noticed : ∀ n ∈ o, ∀ e, n.entry? = some e → ∃ w, s.draining w = some e) :
    Ledger accepted (out ++ o) t where
  le_last := last ▸ h.le_last
  one_key := h.one_key
  pending k p hp := h.pending k p (pending k p hp)
  draining := draining
  noticed n hn e he := by
    rcases List.mem_append.mp hn with hn | hn
    · exact h.noticed n hn e he
    · obtain ⟨w, hw⟩ := noticed n hn e he
      exact h.draining w e hw
  passed n hn e he k := by
    intro ⟨p, hp, hq⟩
    have hw : s.buffer.Waits k e.sequence := ⟨p, pending k p hp, hq⟩
    rcases List.mem_append.mp hn with hn | hn
    · exact h.passed n hn e he k hw
    · obtain ⟨w, hd⟩ := noticed n hn e he
      exact hs.not_waits hd k hw

theorem Ledger.turn (h : Ledger accepted out s) (hs : Tended s) (ht : Tended t) (turn : Turn s t o a?) :
    Ledger (accepted ++ a?.toList) (out ++ o) t := by
  have hnoticed := fun n (hn : n ∈ o) e (he : n.entry? = some e) => turn.noticed hn he
  obtain ⟨rfl, hb, hd⟩ | ⟨a, rfl, hb, hq, hd⟩ | ⟨w, e, rfl, hn, hb, hd⟩ | ⟨w, e, r, rfl, he, hb, _, hd⟩ :=
    turn.entries
  · rw [Option.toList_none, List.append_nil]
    refine h.keep hs (by rw [hb]) (by simp [hb]) ?_ hnoticed
    intro w e he
    exact h.draining w e (hd w ▸ he)
  · have ha := h.accept ht hb hq hd
    refine ha.keep ht rfl (fun _ _ hp => hp) ha.draining ?_
    simpa only [hd] using hnoticed
  · rw [Option.toList_none, List.append_nil]
    obtain ⟨hp, _, l₁, l₂, _, _, hclaim⟩ := hs.valid.claim_some hb
    refine h.keep hs (by rw [hclaim]) ?_ ?_ hnoticed
    · intro k p hk
      simp only [hclaim, Table.get?_erase] at hk
      split at hk
      · cases hk
      · exact hk
    · intro w' e' he'
      rw [hd] at he'
      split at he'
      · cases he'; exact h.pending _ _ hp
      · exact h.draining w' e' he'
  · rw [Option.toList_none, List.append_nil]
    refine h.keep hs (by rw [hb]; rfl) (fun k p hk => by rw [hb] at hk; exact hk) ?_ hnoticed
    intro w' e' he'
    rw [hd] at he'
    split at he'
    · cases he'
    · exact h.draining w' e' he'

/-! ## Runs -/

variable [Named κ] {config : QueueConfig} {connections : List Connection} {events : List (Event κ ι)}

theorem Begins.ledger (h : Begins config connections s) (hr : run s events = some (t, out)) :
    Ledger (acceptances s events) out t := by
  refine run_induction (P := fun events out t => Ledger (acceptances s events) out t) ?_ ?_ hr
  · constructor
    case pending => simp [h.buffer]
    case draining => simp [h.draining]
    all_goals simp [acceptances, observe]
  · intro events o t e u o' hr hp he
    have ht := h.tended.run hr
    rw [acceptances_snoc hr he]
    exact hp.turn ht (ht.step he) (step_turn ht.balanced he)

end WriteBehind.Queue
