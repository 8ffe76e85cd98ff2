import WriteBehind.Proofs.Buffer.Strays

/-!
# Targets

Everything up to a number has drained exactly if no entry with this number or a smaller one is pending or in
flight. Once a number was given, it is settled what has to be completed before that: the outstanding entries
up to it. Completions take them away in any order, and no operation puts one back, since new entries get
numbers above. So a target that was reached stays reached. A number that was not given yet can be lost again.
-/

namespace WriteBehind.Buffer

variable {κ ι : Type} [DecidableEq κ] {b : Buffer κ ι} {ops : List (Op κ ι)} {q target : Sequence}

/-! ## What is left of the outstanding numbers -/

theorem apply_last_le (b : Buffer κ ι) (op : Op κ ι) : b.last ≤ (b.apply op).2.last := by
  obtain ⟨_, same⟩ | ⟨_, next⟩ := apply_last b op
  · rw [same]
    exact Nat.le_refl _
  · rw [next]
    exact Nat.le_of_lt (Sequence.lt_next _)

theorem mem_apply_outstanding (op : Op κ ι) (hq : q ≤ b.last) :
    q ∈ (b.apply op).2.outstanding ↔ q ∈ b.outstanding ∧ ∀ k, op ≠ .complete k q := by
  cases op with
  | insert key item =>
    have hnew : q ≠ b.last.next := fun heq => Nat.not_succ_le_self _ (heq ▸ hq)
    show q ∈ (b.insert key item).2.outstanding ↔ _
    rw [insert_outstanding]
    split <;> simp [hnew]
  | claim =>
    have hkept : b.claim.2.outstanding = b.outstanding := claim_outstanding rfl
    show q ∈ b.claim.2.outstanding ↔ _
    rw [hkept]
    simp
  | complete key sequence =>
    show q ∈ (b.complete key sequence).2.outstanding ↔ _
    rw [mem_complete_outstanding]
    simp [eq_comm]

theorem mem_run_outstanding (hq : q ≤ b.last) :
    q ∈ (b.run ops).2.outstanding ↔ q ∈ b.outstanding ∧ ∀ k, Op.complete k q ∉ ops := by
  induction ops generalizing b with
  | nil => simp [Buffer.run]
  | cons op ops ih =>
    -- The last number never falls, so the number stays one of those given.
    show q ∈ ((b.apply op).2.run ops).2.outstanding ↔ _
    rw [ih (Nat.le_trans hq (apply_last_le b op)), mem_apply_outstanding op hq, and_assoc, ← forall_and]
    simp only [List.mem_cons, not_or, ne_comm]

/-! ## Reaching a target -/

theorem Valid.isDrainedThrough_iff_entries (h : b.Valid) (target : Sequence) :
    b.isDrainedThrough target = true ↔
      (¬ ∃ k p, b.pending.get? k = some p ∧ p.sequence ≤ target) ∧
        ¬ ∃ k q, b.inFlight.get? k = some q ∧ q ≤ target := by
  rw [h.isDrainedThrough_iff]
  constructor
  · intro above
    constructor
    · rintro ⟨k, p, hp, hle⟩
      exact Nat.not_lt.mpr hle (above _ (h.waits_mem ⟨p, hp, rfl⟩))
    · rintro ⟨k, q, hf, hle⟩
      exact Nat.not_lt.mpr hle (above q (h.flight_mem hf))
  · rintro ⟨hpending, hflight⟩ q hq
    by_contra hlt
    obtain ⟨k, p, hp, rfl⟩ | ⟨k, hf⟩ := (h.mem_outstanding q).mp hq
    · exact hpending ⟨k, p, hp, Nat.not_lt.mp hlt⟩
    · exact hflight ⟨k, q, hf, Nat.not_lt.mp hlt⟩

theorem Sound.outstanding_sorted (h : b.Sound) : b.outstanding.Pairwise (· < ·) := by
  obtain ⟨c, hs, hv⟩ := h
  exact hv.outstanding_sorted.sublist hs.fewer

theorem Sound.reached_iff (h : b.Sound) (hle : target ≤ b.last) :
    (b.run ops).2.isDrainedThrough target = true ↔
      ∀ q ∈ b.outstanding, q ≤ target → ∃ k, Op.complete k q ∈ ops := by
  rw [isDrainedThrough_of_sorted (h.run ops).outstanding_sorted]
  constructor
  · intro above q hq hqt
    by_contra hn
    have hleft : q ∈ (b.run ops).2.outstanding :=
      (mem_run_outstanding (Nat.le_trans hqt hle)).mpr ⟨hq, not_exists.mp hn⟩
    exact Nat.not_lt.mpr hqt (above q hleft)
  · intro completed q hq
    by_contra hlt
    have hqt : q ≤ target := Nat.not_lt.mp hlt
    obtain ⟨hq, hn⟩ := (mem_run_outstanding (Nat.le_trans hqt hle)).mp hq
    obtain ⟨k, hk⟩ := completed q hq hqt
    exact hn k hk

theorem Sound.stays_reached (h : b.Sound) (hle : target ≤ b.last)
    (hd : (b.run ops).2.isDrainedThrough target = true) (later : List (Op κ ι)) :
    (b.run (ops ++ later)).2.isDrainedThrough target = true := by
  refine (h.reached_iff hle).mpr fun q hq hqt => ?_
  obtain ⟨k, hk⟩ := (h.reached_iff hle).mp hd q hq hqt
  exact ⟨k, List.mem_append_left later hk⟩

/-- **What has drained, has drained for good.** Everything up to a number has drained exactly if no entry that
is pending or in flight has it or a smaller one. For a number that was given, once this holds it holds ever after,
whatever is inserted, claimed and completed. -/
theorem drained_for_good (hp : ({} : Buffer κ ι).Proper ops) (hb : (({} : Buffer κ ι).run ops).2 = b)
    (target : Sequence) :
    (b.isDrainedThrough target = true ↔
      (¬ ∃ k p, b.pending.get? k = some p ∧ p.sequence ≤ target) ∧
        ¬ ∃ k q, b.inFlight.get? k = some q ∧ q ≤ target) ∧
    (target ≤ b.last → ∀ more c, (b.run more).2 = c → c.isDrainedThrough target = true →
      ∀ later, (c.run later).2.isDrainedThrough target = true) := by
  have hv : b.Valid := hb ▸ empty_valid.run hp
  refine ⟨hv.isDrainedThrough_iff_entries target, ?_⟩
  rintro hle more _ rfl hd later
  rw [← run_append]
  exact hv.sound.stays_reached hle hd later

def overtaken : List (Op String Nat) :=
  [.insert "a" 1, .insert "b" 2, .claim, .claim, .insert "c" 3, .claim, .complete "c" ⟨3⟩, .complete "a" ⟨1⟩,
    .insert "a" 4]

theorem drained_for_good_overtaken : ({} : Buffer String Nat).Proper overtaken ∧ ∃ b c,
    (({} : Buffer String Nat).run overtaken).2 = b ∧ b.outstanding = [⟨2⟩, ⟨4⟩] ∧
    b.isDrainedThrough ⟨2⟩ = false ∧
    (b.run [.insert "b" 5, .complete "b" ⟨2⟩]).2 = c ∧ c.isDrainedThrough ⟨2⟩ = true ∧
    ∀ later, (c.run later).2.isDrainedThrough ⟨2⟩ = true := by
  have hp : ({} : Buffer String Nat).Proper overtaken :=
    ⟨trivial, trivial, trivial, trivial, trivial, trivial, rfl, rfl, trivial, trivial⟩
  obtain ⟨exact, stable⟩ := drained_for_good hp rfl ⟨2⟩
  have hheld : ((({} : Buffer String Nat).run overtaken).2).isDrainedThrough ⟨2⟩ = false := by
    rw [Bool.eq_false_iff]
    exact fun hd => (exact.mp hd).2 ⟨"b", ⟨2⟩, rfl, by decide⟩
  exact ⟨hp, _, _, rfl, rfl, hheld, rfl, rfl, stable (by decide) _ _ rfl rfl⟩

end WriteBehind.Buffer
