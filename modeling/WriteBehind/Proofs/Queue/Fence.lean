import WriteBehind.Proofs.Queue.Attempts
import WriteBehind.Proofs.Queue.Issued

/-!
# Fences

A fence remembers one number and looks at the oldest outstanding one. Since numbers are given in
increasing order, later writes neither hold it back nor slip under it: once everything up to its target
has drained, this stays so. A fence that sleeps still has something to wait for, because every entry
that retires wakes all calls.
-/

namespace WriteBehind.Queue

variable {κ ι : Type} [DecidableEq κ] {s t u v : State κ ι} {out o : List (Notice κ ι)}
  {a? : Option (Acceptance κ ι)} {e : Event κ ι} {id : Nat} {q target : Sequence}

/-! ## Outstanding numbers -/

theorem Turn.last_le (h : Turn s t o a?) : s.buffer.last ≤ t.buffer.last := by
  obtain ⟨_, hb, _⟩ | ⟨a, _, hb, _⟩ | ⟨_, _, _, _, hb, _⟩ | ⟨_, _, _, _, _, hb, _⟩ := h.entries
  · rw [hb]; exact Nat.le_refl _
  · rw [hb]; exact Buffer.insert_last_le _ _ _
  · rw [Buffer.claim_last hb]; exact Nat.le_refl _
  · rw [hb]; exact Nat.le_refl _

theorem Turn.outstanding_of (h : Turn s t o a?) (hq : q ∈ t.buffer.outstanding) :
    q ∈ s.buffer.outstanding ∨ s.buffer.last < q := by
  obtain ⟨_, hb, _⟩ | ⟨a, _, hb, _⟩ | ⟨_, _, _, _, hb, _⟩ | ⟨_, _, _, _, _, hb, _⟩ := h.entries
  · exact .inl (hb ▸ hq)
  · rw [hb, Buffer.insert_outstanding, List.mem_append] at hq
    refine hq.imp id fun hq => ?_
    split at hq
    · rw [List.mem_singleton] at hq; subst hq; exact Sequence.lt_next _
    · cases hq
  · exact .inl (Buffer.claim_outstanding hb ▸ hq)
  · rw [hb, Buffer.mem_complete_outstanding] at hq
    exact .inl hq.1

theorem Turn.outstanding_keep (h : Turn s t o a?) (hn : ∀ e r, .drained e r ∉ o)
    (hq : q ∈ s.buffer.outstanding) : q ∈ t.buffer.outstanding := by
  obtain ⟨_, hb, _⟩ | ⟨a, _, hb, _⟩ | ⟨_, _, _, _, hb, _⟩ | ⟨_, e, r, _, _, _, rfl, _⟩ := h.entries
  · exact hb ▸ hq
  · rw [hb, Buffer.insert_outstanding]; exact List.mem_append_left _ hq
  · exact Buffer.claim_outstanding hb ▸ hq
  · exact absurd (List.mem_singleton_self _) (hn e r)

theorem Turn.drained_through (h : Turn s t o a?) (hs : Tended s) (ht : Tended t)
    (hle : target ≤ s.buffer.last) (hd : s.buffer.isDrainedThrough target = true) :
    t.buffer.isDrainedThrough target = true := by
  refine (ht.valid.isDrainedThrough_iff target).mpr fun q hq => ?_
  rcases h.outstanding_of hq with hq | hq
  · exact (hs.valid.isDrainedThrough_iff target).mp hd q hq
  · exact Nat.lt_of_le_of_lt hle hq

theorem Turn.drained_back (h : Turn s t o a?) (hs : Tended s) (ht : Tended t) (hn : ∀ e r, .drained e r ∉ o)
    (hd : t.buffer.isDrainedThrough target = true) : s.buffer.isDrainedThrough target = true := by
  refine (hs.valid.isDrainedThrough_iff target).mpr fun q hq => ?_
  exact (ht.valid.isDrainedThrough_iff target).mp hd q (h.outstanding_keep hn hq)

/-! ## Steps -/

omit [DecidableEq κ] in
theorem Aside.fence? (h : Aside s t out id) : t.fence? id = s.fence? id := by
  rw [State.fence?_eq, State.fence?_eq, h.phase?]

variable [Named κ]

theorem fence_opened (hb : s.pool.Balanced) (h : step s e = some (t, out)) (hn : s.fence? id = none)
    (hf : t.fence? id = some target) : target = t.buffer.last := by
  rw [State.fence?_eq] at hf hn
  obtain ⟨phase, hp, ht⟩ := Option.bind_eq_some_iff.mp hf
  have hc : ∀ conn, phase ≠ .holding conn := by
    rintro conn rfl
    cases ht
  obtain hp' | hi | ⟨_, before, hp', hl⟩ := came_to_wait hb h hp hc
  · simp [hp', ht] at hn
  · generalize accepted? e (t, out) = a? at hi
    cases hi <;> simp_all [CallPhase.target?]
  · rw [hp'] at hn
    cases hl <;> simp_all [CallPhase.target?]

theorem fence_step (hb : s.pool.Balanced) (h : step s e = some (t, out)) (hf : s.fence? id = some target) :
    t.fence? id = some target ∧ (∀ n ∈ out, n.call? ≠ some id) ∨
      t.fence? id = none ∧ s.buffer.isDrainedThrough target = true := by
  obtain ⟨phase, hp, ht⟩ := Option.bind_eq_some_iff.mp (State.fence?_eq s id ▸ hf)
  have hc : ∀ conn, phase ≠ .holding conn := by
    rintro conn rfl
    cases ht
  obtain ⟨_, haside⟩ | ⟨_, hl⟩ := waiting_step hb h hp hc
  · exact .inl ⟨haside.fence?.trans hf, haside.silent⟩
  · rw [State.fence?_eq]
    generalize t.phase? id = phase? at hl ⊢
    cases hl with
    | asleep => exact .inl ⟨ht, by simp⟩
    | reported _ drained => cases ht; exact .inr ⟨rfl, drained⟩
    | flushed _ drained => cases ht; exact .inr ⟨rfl, drained⟩
    | _ => cases ht

omit [DecidableEq κ] in
theorem look_asleep {c : Call} (h : s.look id = some (t, out)) (hc : t.call? id = some c)
    (hw : c.woken = false) (ht : c.phase.target? = some target) :
    out = [] ∧ s.buffer.isDrainedThrough target = false := by
  obtain ⟨c', hc', hl⟩ := look_cases h
  have hleave : ∀ u : State κ ι, (u.leave id).call? id = none := fun u =>
    (State.call?_leave u id id).trans (if_pos rfl)
  have hgoOn : ∀ {u : State κ ι} {d phase}, u.call? id = some d → (u.goOn id phase).call? id = some c →
      c.phase = phase := by
    intro u d phase hu hc
    have := State.phase?_goOn hu phase
    rw [State.phase?_of_call hc] at this
    exact Option.some.inj this
  cases hl with
  | asleep woken blocked =>
    have := State.call?_mapCall s id id (fun c => { c with woken := false }) fun _ => rfl
    rw [this, hc'] at hc
    simp only [Option.map_some, if_true, Option.some.injEq] at hc
    subst hc
    refine ⟨rfl, ?_⟩
    simp only at ht
    cases hp : c'.phase with
    | fence target' => rw [hp] at ht blocked; cases ht; exact blocked
    | closing target' => rw [hp] at ht blocked; cases ht; exact blocked
    | _ => rw [hp] at ht; cases ht
  | released => cases (hleave s).symm.trans hc
  | fenced =>
    cases (State.call?_barrier (s.leave id) id).symm.trans hc
    cases hw
  | reported => cases (hleave _).symm.trans hc
  | flushed => rw [hgoOn hc' hc] at ht; cases ht
  | shut => rw [hgoOn (State.call?_shutDown hc') hc] at ht; cases ht
  | taken => rw [hgoOn hc' hc] at ht; cases ht
  | joined => rw [hgoOn hc' hc] at ht; cases ht
  | ended => cases (hleave _).symm.trans hc
  | lent => rw [hgoOn hc' hc] at ht; cases ht
  | refused => cases (hleave _).symm.trans hc

structure Fences (s : State κ ι) : Prop where
  target_le : ∀ id target, s.fence? id = some target → target ≤ s.buffer.last
  awake : ∀ id c target, s.call? id = some c → c.woken = false → c.phase.target? = some target →
    s.buffer.isDrainedThrough target = false

theorem Fences.step (h : Fences s) (hs : Tended s) (he : step s e = some (t, out)) : Fences t := by
  have ht := hs.step he
  have turn := step_turn hs.balanced he
  constructor
  case target_le =>
    intro id target hf
    cases hn : s.fence? id with
    | none => rw [fence_opened hs.balanced he hn hf]; exact Nat.le_refl _
    | some target' =>
      rcases fence_step hs.balanced he hn with ⟨hf', _⟩ | ⟨hf', _⟩
      · rw [hf] at hf'
        cases hf'
        exact Nat.le_trans (h.target_le id target hn) turn.last_le
      · rw [hf] at hf'
        cases hf'
  case awake =>
    intro id c target hc hw hp
    by_contra hd
    have hd : t.buffer.isDrainedThrough target = true := by simpa using hd
    have hnot : ∀ c', s.call? id = some c' → c'.woken = false → c'.phase.target? = some target →
        (∀ e r, .drained e r ∉ out) → False := by
      intro c' hc' hw' hp' hn
      have := turn.drained_back hs ht hn hd
      rw [h.awake id c' target hc' hw' hp'] at this
      cases this
    by_cases hid : e.call? = some id
    · obtain hm | ⟨conn, _, ⟨hp', _⟩ | ⟨_, _, hc', _⟩⟩ | ⟨rfl, _⟩ := step_call hs.balanced he hid
      · obtain ⟨phase?, hc', _⟩ := hm.issued
        rw [hc] at hc'
        obtain ⟨phase, _, rfl⟩ := Option.map_eq_some_iff.mp hc'.symm
        cases hw
      · rw [State.phase?_of_call hc] at hp'
        rw [Option.some.inj hp'] at hp
        cases hp
      · rw [hc] at hc'
        cases hc'
      · obtain ⟨rfl, hblocked⟩ := look_asleep he hc hw hp
        have := turn.drained_back hs ht (by simp) hd
        rw [hblocked] at this
        cases this
    · obtain ⟨hsame, hn⟩ | hwake := (step_aside he hid).call
      · exact hnot c (hsame ▸ hc) hw hp hn
      · rw [hc] at hwake
        obtain ⟨c', _, rfl⟩ := Option.map_eq_some_iff.mp hwake.symm
        cases hw

end WriteBehind.Queue
