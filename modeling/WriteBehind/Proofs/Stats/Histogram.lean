import Mathlib.Algebra.BigOperators.Group.List.Basic
import Mathlib.Algebra.GroupWithZero.Nat
import WriteBehind.Stats.Counters

/-!
# Durations in their buckets

Every duration below `2 ^ 64` falls into one bucket, so the buckets add up to the number of durations.
-/

namespace WriteBehind

variable {micros : Nat} {buckets : List (Nat × Nat)} {h : Histogram} {c : Counters}

namespace Histogram

theorem countIn_bounds (micros : Nat) (buckets : List (Nat × Nat)) :
    (countIn micros buckets).map (·.1) = buckets.map (·.1) := by
  induction buckets with
  | nil => rfl
  | cons b rest ih =>
    unfold countIn
    split
    · rfl
    · simp [ih]

theorem countIn_sum (h : ∃ bound ∈ buckets.map (·.1), micros ≤ bound) :
    ((countIn micros buckets).map (·.2)).sum = (buckets.map (·.2)).sum + 1 := by
  induction buckets with
  | nil =>
    obtain ⟨_, hm, _⟩ := h
    cases hm
  | cons b rest ih =>
    obtain ⟨bound, n⟩ := b
    unfold countIn
    by_cases hle : micros ≤ bound
    · rw [if_pos hle]
      simp only [List.map_cons, List.sum_cons]
      omega
    · have hrest : ∃ bound ∈ rest.map (·.1), micros ≤ bound := by
        obtain ⟨bound', hm, hle'⟩ := h
        rcases List.mem_cons.mp hm with rfl | hm
        · exact absurd hle' hle
        · exact ⟨bound', hm, hle'⟩
      rw [if_neg hle]
      simp only [List.map_cons, List.sum_cons, ih hrest]
      omega

structure Sound (h : Histogram) : Prop where
  bounds : h.buckets.map (·.1) = bucketBounds
  total : (h.buckets.map (·.2)).sum = h.count

theorem Sound.empty : Sound {} := ⟨rfl, rfl⟩

theorem Sound.record (hs : h.Sound) (hm : micros ≤ maxWord) : (h.record micros).Sound := by
  refine ⟨(countIn_bounds micros h.buckets).trans hs.bounds, ?_⟩
  have hsome : ∃ bound ∈ h.buckets.map (·.1), micros ≤ bound :=
    ⟨maxWord, by rw [hs.bounds]; simp [bucketBounds], hm⟩
  have := countIn_sum hsome
  rw [hs.total] at this
  exact this

end Histogram

/-! ## Counters -/

namespace Counters

theorem wrap_le (n : Nat) : wrap n ≤ n := Nat.mod_le n wordSize

theorem wrap_wrap_add (n k : Nat) : wrap (wrap n + k) = wrap (n + k) := Nat.mod_add_mod n wordSize k

/-- A counter is counted down by adding the greatest word. -/
theorem wrap_add_maxWord (n : Nat) : wrap (n + 1 + maxWord) = wrap n := by
  have hword : n + 1 + maxWord = n + wordSize := by
    unfold maxWord wordSize
    omega
  rw [hword, wrap, Nat.add_mod_right, wrap]

theorem wrap_pred {n : Nat} (h : n + 1 < wordSize) : wrap (n + 1 + maxWord) = n := by
  rw [wrap_add_maxWord, wrap_of_lt (by omega)]

/-- The counters that describe writes and drains. -/
def core (c : Counters) : Counters := { c with flushes := 0, stalls := 0, rejected := 0 }

theorem core_eq {d : Counters} (hc : c.core = d.core) : c.items = d.items ∧ c.duplicates = d.duplicates ∧
    c.drained = d.drained ∧ c.failed = d.failed ∧ c.concurrent = d.concurrent ∧ c.busy = d.busy ∧
    c.drains = d.drains := by
  simpa [core] using hc

structure Sound (c : Counters) : Prop where
  drains : c.drains.Sound
  count : c.drains.count = c.drained
  failed : c.failed ≤ c.drained

theorem Sound.empty (busy : Nat) : Sound { busy } := ⟨.empty, rfl, Nat.le_refl 0⟩

theorem Sound.of_core {d : Counters} (hc : c.core = d.core) (hs : d.Sound) : c.Sound := by
  obtain ⟨_, _, hdrained, hfailed, _, _, hdrains⟩ := core_eq hc
  constructor
  · rw [hdrains]
    exact hs.drains
  · rw [hdrains, hdrained]
    exact hs.count
  · rw [hfailed, hdrained]
    exact hs.failed

theorem Sound.endDrain (hs : c.Sound) (micros : Nat) (ok : Bool) : (c.endDrain micros ok).Sound := by
  refine ⟨hs.drains.record (Nat.le_pred_of_lt (wrap_lt micros)), congrArg (· + 1) hs.count, ?_⟩
  have := hs.failed
  cases ok <;> simp only [Counters.endDrain] <;> simp <;> omega

end Counters

end WriteBehind
