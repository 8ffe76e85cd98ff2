import Mathlib.Data.List.Induction
import WriteBehind.Proofs.Stats.Cumulative

/-!
# The histogram of a list of durations

A histogram that has recorded some durations is determined by them: each bucket counts those for which
its bound is the first one not below them, and count, sum and extremes are theirs.
-/

namespace WriteBehind

variable {micros bound : Nat} {ds : List Nat}

/-- The bound of the bucket that a duration falls into. -/
def bucketOf (micros : Nat) : Nat := (bucketBounds.find? (micros ≤ ·)).getD maxWord

theorem bucketBounds_ascend : bucketBounds.Pairwise (· < ·) := by decide

theorem maxWord_mem_bucketBounds : maxWord ∈ bucketBounds := by simp [bucketBounds]

theorem find?_bucketBounds {p : Nat → Bool} (h : p maxWord = true) :
    bucketBounds.find? p = some ((bucketBounds.find? p).getD maxWord) := by
  have hsome := List.find?_isSome.mpr ⟨maxWord, maxWord_mem_bucketBounds, h⟩
  obtain ⟨bound, hb⟩ := Option.isSome_iff_exists.mp hsome
  rw [hb, Option.getD_some]

theorem bucketOf_least (h : micros ≤ maxWord) : bucketOf micros ∈ bucketBounds ∧ micros ≤ bucketOf micros ∧
    ∀ b ∈ bucketBounds, b < bucketOf micros → b < micros := by
  have hfind := find?_bucketBounds (p := (micros ≤ ·)) (decide_eq_true h)
  obtain ⟨hmem, hle, hleast⟩ := least_of_find? bucketBounds_ascend hfind
  exact ⟨hmem, of_decide_eq_true hle, fun b hb hlt => by simpa using hleast b hb hlt⟩

theorem bucketOf_le_iff (h : micros ≤ maxWord) (hb : bound ∈ bucketBounds) :
    bucketOf micros ≤ bound ↔ micros ≤ bound := by
  obtain ⟨-, hle, hleast⟩ := bucketOf_least h
  refine ⟨hle.trans, fun hm => ?_⟩
  by_contra hlt
  exact absurd (hleast bound hb (by omega)) (by omega)

theorem countP_disjoint {p q : Nat → Bool} (h : ∀ d ∈ ds, ¬ (p d = true ∧ q d = true)) :
    ds.countP p + ds.countP q = ds.countP fun d => p d || q d := by
  induction ds with
  | nil => rfl
  | cons d ds ih =>
    have hd := h d List.mem_cons_self
    have ih := ih fun d hd => h d (List.mem_cons_of_mem _ hd)
    rw [List.countP_cons, List.countP_cons, List.countP_cons]
    cases hp : p d <;> cases hq : q d <;> simp_all <;> omega

theorem sum_countP {bounds : List Nat} (hn : bounds.Nodup) (f : Nat → Nat) (ds : List Nat) :
    (bounds.map fun b => ds.countP (f · = b)).sum = ds.countP (f · ∈ bounds) := by
  induction bounds with
  | nil => simp
  | cons b bounds ih =>
    obtain ⟨hb, hn⟩ := List.nodup_cons.mp hn
    rw [List.map_cons, List.sum_cons, ih hn, countP_disjoint]
    · simp
    · rintro d - ⟨h, hd⟩
      rw [of_decide_eq_true h] at hd
      exact hb (of_decide_eq_true hd)

namespace Histogram

theorem countIn_eq {bounds : List Nat} (hn : bounds.Nodup) (micros : Nat) (f : Nat → Nat) :
    countIn micros (bounds.map fun b => (b, f b)) =
      bounds.map fun b => (b, f b + if bounds.find? (micros ≤ ·) = some b then 1 else 0) := by
  induction bounds with
  | nil => rfl
  | cons bound bounds ih =>
    obtain ⟨hb, hn⟩ := List.nodup_cons.mp hn
    rw [List.map_cons, List.map_cons, countIn, List.find?_cons]
    by_cases hle : micros ≤ bound
    · have hrest : ∀ b ∈ bounds, ¬ bound = b := fun b hm he => hb (he ▸ hm)
      simp +contextual [hle, hrest]
    · have hfound : ¬ bounds.find? (micros ≤ ·) = some bound :=
        fun h => hb (List.mem_of_find?_eq_some h)
      rw [if_neg hle, ih hn, decide_eq_false hle]
      simp [hfound]

/-- A histogram of exactly these durations. -/
structure Holds (h : Histogram) (ds : List Nat) : Prop where
  words : ∀ d ∈ ds, d ≤ maxWord
  buckets : h.buckets = bucketBounds.map fun bound => (bound, ds.countP (bucketOf · = bound))
  count : h.count = ds.length
  sum : h.sum = wrap ds.sum
  least_mem : h.least ∈ maxWord :: ds
  least_le : ∀ d ∈ ds, h.least ≤ d
  greatest_mem : h.greatest ∈ 0 :: ds
  le_greatest : ∀ d ∈ ds, d ≤ h.greatest

variable {h : Histogram}

theorem Holds.empty : Holds {} [] where
  words := by simp
  buckets := rfl
  count := rfl
  sum := rfl
  least_mem := List.mem_cons_self
  least_le := by simp
  greatest_mem := List.mem_cons_self
  le_greatest := by simp

theorem Holds.record (hh : h.Holds ds) (hm : micros ≤ maxWord) : (h.record micros).Holds (ds ++ [micros]) where
  words := List.forall_mem_append.mpr ⟨hh.words, List.forall_mem_singleton.mpr hm⟩
  buckets := by
    have hnodup : bucketBounds.Nodup := bucketBounds_ascend.imp Nat.ne_of_lt
    have hfind := find?_bucketBounds (p := (micros ≤ ·)) (decide_eq_true hm)
    change countIn micros h.buckets = _
    rw [hh.buckets, countIn_eq hnodup, hfind]
    simp only [List.countP_append, List.countP_singleton, Option.some.injEq, decide_eq_true_eq]
    rfl
  count := by
    rw [List.length_append, ← hh.count]
    rfl
  sum := by
    change wrap (h.sum + micros) = _
    rw [hh.sum, List.sum_append, List.sum_singleton]
    exact Nat.mod_add_mod ds.sum wordSize micros
  least_mem := by
    change min h.least micros ∈ (maxWord :: ds) ++ [micros]
    rcases min_choice h.least micros with hle | hle <;> rw [hle]
    · exact List.mem_append_left _ hh.least_mem
    · exact List.mem_append_right _ List.mem_cons_self
  least_le := by
    rw [List.forall_mem_append, List.forall_mem_singleton]
    exact ⟨fun d hd => (min_le_left _ _).trans (hh.least_le d hd), min_le_right _ _⟩
  greatest_mem := by
    change max h.greatest micros ∈ (0 :: ds) ++ [micros]
    rcases max_choice h.greatest micros with hle | hle <;> rw [hle]
    · exact List.mem_append_left _ hh.greatest_mem
    · exact List.mem_append_right _ List.mem_cons_self
  le_greatest := by
    rw [List.forall_mem_append, List.forall_mem_singleton]
    exact ⟨fun d hd => (hh.le_greatest d hd).trans (le_max_left _ _), le_max_right _ _⟩

def ofDurations (ds : List Nat) : Histogram := ds.foldl Histogram.record {}

theorem holds_ofDurations (h : ∀ d ∈ ds, d ≤ maxWord) : (ofDurations ds).Holds ds := by
  induction ds using List.reverseRecOn with
  | nil => exact .empty
  | append_singleton ds d ih =>
    rw [List.forall_mem_append, List.forall_mem_singleton] at h
    unfold ofDurations
    rw [List.foldl_append]
    exact (ih h.1).record h.2

theorem Holds.bounds (hh : h.Holds ds) : h.buckets.map (·.1) = bucketBounds := by
  rw [hh.buckets, List.map_map]
  exact List.map_id _

theorem Holds.ascending (hh : h.Holds ds) : Ascending h.buckets := by
  rw [Ascending, hh.bounds]
  exact bucketBounds_ascend

theorem Holds.atMost_eq (hh : h.Holds ds) (hb : bound ∈ bucketBounds) :
    atMost h.buckets bound = ds.countP (· ≤ bound) := by
  have hnodup : bucketBounds.Nodup := bucketBounds_ascend.imp Nat.ne_of_lt
  have hfilter : atMost h.buckets bound =
      ((bucketBounds.filter (· ≤ bound)).map fun b => ds.countP (bucketOf · = b)).sum := by
    rw [atMost, hh.buckets, List.filter_map, List.map_map]
    rfl
  rw [hfilter, sum_countP (hnodup.filter _)]
  refine List.countP_congr fun d hd => ?_
  have hword := hh.words d hd
  simp only [decide_eq_true_eq, List.mem_filter, bucketOf_le_iff hword hb, (bucketOf_least hword).1, true_and]

theorem Holds.total (hh : h.Holds ds) : (h.buckets.map (·.2)).sum = ds.length := by
  have hall : ∀ b ∈ h.buckets, b.1 ≤ maxWord := by
    rw [hh.buckets]
    simp [bucketBounds, maxWord, wordSize]
  rw [← atMost_of_le hall, hh.atMost_eq maxWord_mem_bucketBounds]
  exact List.countP_eq_length.mpr fun d hd => decide_eq_true (hh.words d hd)

theorem Holds.minimum_mem (hh : h.Holds ds) (hne : ds ≠ []) (hless : ∀ d ∈ ds, d < maxWord) :
    h.minimum ∈ ds ∧ ∀ d ∈ ds, h.minimum ≤ d := by
  obtain ⟨d, hd⟩ := List.exists_mem_of_ne_nil ds hne
  have hreal : h.least ≠ maxWord := Nat.ne_of_lt ((hh.least_le d hd).trans_lt (hless d hd))
  rw [minimum, if_neg hreal]
  exact ⟨(List.mem_cons.mp hh.least_mem).resolve_left hreal, hh.least_le⟩

theorem Holds.greatest_mem_of_ne_nil (hh : h.Holds ds) (hne : ds ≠ []) : h.greatest ∈ ds := by
  obtain ⟨d, hd⟩ := List.exists_mem_of_ne_nil ds hne
  rcases List.mem_cons.mp hh.greatest_mem with hzero | hmem
  · have hle := hh.le_greatest d hd
    obtain rfl : d = h.greatest := by omega
    exact hd
  · exact hmem

theorem Holds.average_between (hh : h.Holds ds) (hne : ds ≠ []) (hless : ∀ d ∈ ds, d < maxWord)
    (hsum : ds.sum < wordSize) : h.minimum ≤ h.sum / h.count ∧ h.sum / h.count ≤ h.greatest := by
  have hpos : 0 < ds.length := List.length_pos_iff.mpr hne
  have hleast : ds.length * h.minimum ≤ ds.sum :=
    ds.card_nsmul_le_sum h.minimum (hh.minimum_mem hne hless).2
  have hmost : ds.sum ≤ ds.length * h.greatest := ds.sum_le_card_nsmul h.greatest hh.le_greatest
  rw [hh.sum, hh.count, wrap_of_lt hsum, Nat.le_div_iff_mul_le hpos, Nat.mul_comm]
  exact ⟨hleast, Nat.div_le_of_le_mul hmost⟩

end Histogram

end WriteBehind
