import Mathlib.Data.List.Find
import WriteBehind.Proofs.Stats.Durations

/-!
# Percentiles are ranks

A percentile asks for so many of the durations. The answer is the bound of the bucket of the duration with
this rank among all that were recorded, which is the least bound that so many do not exceed.
-/

namespace WriteBehind

variable {ds : List Nat}

theorem le_iff_lt_countP {l : List Nat} (h : l.Pairwise (· ≤ ·)) {i d : Nat} (hd : l[i]? = some d) (b : Nat) :
    d ≤ b ↔ i < l.countP (· ≤ b) := by
  induction l generalizing i with
  | nil => cases hd
  | cons a l ih =>
    obtain ⟨hfirst, hl⟩ := List.pairwise_cons.mp h
    rw [List.countP_cons]
    cases i with
    | zero =>
      obtain rfl : a = d := Option.some.inj hd
      by_cases hb : a ≤ b
      · simp [hb]
      · have hnone : l.countP (· ≤ b) = 0 := by
          rw [List.countP_eq_zero]
          intro c hc
          have := hfirst c hc
          simp only [decide_eq_true_eq]
          omega
        simp [hb, hnone]
    | succ i =>
      have hle : a ≤ d := hfirst d (List.mem_of_getElem? hd)
      rw [ih hl hd]
      by_cases hb : a ≤ b
      · simp [hb]
      · have hdb := ih hl hd
        simp only [hb, decide_false, Bool.false_eq_true, if_false]
        omega

namespace Histogram

variable {h : Histogram}

theorem Holds.percentile_eq (hh : h.Holds ds) (hne : ds ≠ []) (p : Float) : h.percentile p =
    (bucketBounds.find? fun b => h.target p ≤ ds.countP (· ≤ b)).getD maxWord := by
  have hcount : h.count ≠ 0 := by
    rw [hh.count]
    exact fun h => hne (List.length_eq_zero_iff.mp h)
  have hscan := rankBound_eq (h.target p) [] h.buckets hh.ascending
  have hfind : bucketBounds.find? (h.target p ≤ atMost h.buckets ·) =
      bucketBounds.find? fun b => h.target p ≤ ds.countP (· ≤ b) :=
    List.find?_congr fun b hb => by rw [hh.atMost_eq hb]
  rw [percentile, if_neg hcount, ← hfind, ← hh.bounds]
  exact hscan

theorem Holds.before_percentile (hh : h.Holds ds) (hne : ds ≠ []) (p : Float) {b : Nat}
    (hb : b ∈ bucketBounds) (hlt : b < h.percentile p) : ds.countP (· ≤ b) < h.target p := by
  rw [hh.percentile_eq hne] at hlt
  by_contra hle
  have hsome := List.find?_isSome (p := fun b => h.target p ≤ ds.countP (· ≤ b)).mpr
    ⟨b, hb, decide_eq_true (Nat.not_lt.mp hle)⟩
  obtain ⟨found, hfound⟩ := Option.isSome_iff_exists.mp hsome
  rw [hfound, Option.getD_some] at hlt
  have hless := (least_of_find? bucketBounds_ascend hfound).2.2 b hb hlt
  exact hle (Nat.not_le.mp (of_decide_eq_false hless))

theorem Holds.countP_maxWord (hh : h.Holds ds) : ds.countP (· ≤ maxWord) = ds.length :=
  List.countP_eq_length.mpr fun d hd => decide_eq_true (hh.words d hd)

theorem Holds.percentile_reached (hh : h.Holds ds) (hne : ds ≠ []) {p : Float}
    (ht : h.target p ≤ ds.length) :
    h.percentile p ∈ bucketBounds ∧ h.target p ≤ ds.countP (· ≤ h.percentile p) := by
  have hfind := find?_bucketBounds (p := fun b => h.target p ≤ ds.countP (· ≤ b))
    (decide_eq_true (hh.countP_maxWord.symm ▸ ht))
  rw [hh.percentile_eq hne]
  obtain ⟨hmem, hreached, -⟩ := least_of_find? bucketBounds_ascend hfind
  exact ⟨hmem, of_decide_eq_true hreached⟩

theorem Holds.percentile_beyond (hh : h.Holds ds) (hne : ds ≠ []) {p : Float}
    (ht : ds.length < h.target p) : h.percentile p = maxWord := by
  rw [hh.percentile_eq hne, List.find?_eq_none.mpr, Option.getD_none]
  intro b _
  have := List.countP_le_length (p := (decide <| · ≤ b)) (l := ds)
  simp only [decide_eq_true_eq]
  omega

theorem Holds.percentile_le (hh : h.Holds ds) (hne : ds ≠ []) (p : Float) : h.percentile p ≤ maxWord := by
  rcases Nat.lt_or_ge ds.length (h.target p) with hbeyond | hreached
  · exact Nat.le_of_eq (hh.percentile_beyond hne hbeyond)
  · have hall : ∀ b ∈ bucketBounds, b ≤ maxWord := by decide
    exact hall _ (hh.percentile_reached hne hreached).1

theorem Holds.percentile_mono (hh : h.Holds ds) (hne : ds ≠ []) {p q : Float}
    (hpq : h.target p ≤ h.target q) : h.percentile p ≤ h.percentile q := by
  rcases Nat.lt_or_ge ds.length (h.target q) with hbeyond | hreached
  · rw [hh.percentile_beyond hne hbeyond]
    exact hh.percentile_le hne p
  · obtain ⟨hmem, hq⟩ := hh.percentile_reached hne hreached
    by_contra hlt
    have := hh.before_percentile hne p hmem (Nat.not_le.mp hlt)
    omega

theorem Holds.le_percentile (hh : h.Holds ds) (hne : ds ≠ []) {p : Float} (ht : h.target p = ds.length) :
    h.greatest ≤ h.percentile p := by
  obtain ⟨-, hall⟩ := hh.percentile_reached hne (Nat.le_of_eq ht)
  have hle := List.countP_eq_length.mp (Nat.le_antisymm List.countP_le_length (ht ▸ hall))
  rcases List.mem_cons.mp hh.greatest_mem with hzero | hmem
  · omega
  · exact of_decide_eq_true (hle _ hmem)

theorem Holds.percentile_sorted (hh : h.Holds ds) (hne : ds ≠ []) {p : Float} (hpos : 1 ≤ h.target p)
    (ht : h.target p ≤ ds.length) :
    ∃ d, ds.mergeSort[h.target p - 1]? = some d ∧ h.percentile p = bucketOf d := by
  have hlength : h.target p - 1 < ds.mergeSort.length := by
    rw [List.length_mergeSort]
    omega
  have hordered : ds.mergeSort.Pairwise fun a b => decide (a ≤ b) = true :=
    List.pairwise_mergeSort (by simpa using fun _ _ _ => Nat.le_trans) (by simpa using Nat.le_total) ds
  have hsorted : ds.mergeSort.Pairwise (· ≤ ·) := hordered.imp of_decide_eq_true
  refine ⟨ds.mergeSort[h.target p - 1], List.getElem?_eq_getElem hlength, ?_⟩
  rw [hh.percentile_eq hne, bucketOf]
  congr 1
  refine List.find?_congr fun b _ => decide_eq_decide.mpr ?_
  rw [le_iff_lt_countP hsorted (List.getElem?_eq_getElem hlength), (List.mergeSort_perm ds _).countP_eq]
  omega

/-- What a percentile asks for, where the product is an ordinary number: so many durations that the
product does not exceed their number. -/
theorem target_le_iff {p : Float} {x : Decimal.Dyadic}
    (hx : Decimal.Dyadic.ofFloat? (wordToFloat h.count * p) = some x) (hpos : x.negative = false) {n : Nat}
    (hn : n < maxWord) : h.target p ≤ n ↔
      x.mantissa * Decimal.Dyadic.twoPow x.exponent ≤ n * Decimal.Dyadic.twoPow (-x.exponent) := by
  have htarget : h.target p = min x.ceil maxWord := by
    unfold target ceilToWord
    rw [hx]
  rw [htarget, ← Decimal.Dyadic.ceil_le_iff hpos]
  omega

/-- Percentiles of some recorded durations are ranks among them. A percentile asks for the least number of
durations not below its share of all, as binary64 has it. If there are so many, the answer is the bucket of
the duration with this rank, which is the least of the bounds that so many durations do not exceed; if
there are not, it is the greatest word. More asked for is never answered by less, and who asks for all of
them is given no less than the greatest. -/
theorem percentile_is_rank (hne : ds ≠ []) (hword : ∀ d ∈ ds, d ≤ maxWord) :
    let h := ofDurations ds
    (∀ p, h.target p = ceilToWord (wordToFloat ds.length * p)) ∧
    (∀ p x, Decimal.Dyadic.ofFloat? (wordToFloat ds.length * p) = some x → x.negative = false →
      ∀ n < maxWord, h.target p ≤ n ↔
        x.mantissa * Decimal.Dyadic.twoPow x.exponent ≤ n * Decimal.Dyadic.twoPow (-x.exponent)) ∧
    (∀ p, 1 ≤ h.target p → h.target p ≤ ds.length →
      (∃ d, ds.mergeSort[h.target p - 1]? = some d ∧ h.percentile p = bucketOf d) ∧
      h.percentile p ∈ bucketBounds ∧ h.target p ≤ ds.countP (· ≤ h.percentile p)) ∧
    (∀ p, ∀ b ∈ bucketBounds, b < h.percentile p → ds.countP (· ≤ b) < h.target p) ∧
    (∀ p, ds.length < h.target p → h.percentile p = maxWord) ∧
    (∀ p q, h.target p ≤ h.target q → h.percentile p ≤ h.percentile q) ∧
    ∀ p, h.target p = ds.length → h.greatest ≤ h.percentile p ∧ ∀ d ∈ ds, d ≤ h.percentile p := by
  have hh := holds_ofDurations hword
  refine ⟨fun p => ?_, fun p x hx hpos n hn => ?_,
    fun p hpos ht => ⟨hh.percentile_sorted hne hpos ht, hh.percentile_reached hne ht⟩,
    fun p b hb hlt => hh.before_percentile hne p hb hlt,
    fun p hbeyond => hh.percentile_beyond hne hbeyond,
    fun p q hpq => hh.percentile_mono hne hpq,
    fun p ht => ?_⟩
  · rw [target, hh.count]
  · rw [← hh.count] at hx
    exact target_le_iff hx hpos hn
  · have hgreatest := hh.le_percentile hne ht
    exact ⟨hgreatest, fun d hd => (hh.le_greatest d hd).trans hgreatest⟩

def skewed : List Nat := [100, 20000000, 50, 100, 300]

theorem percentile_is_rank_skewed :
    skewed ≠ [] ∧ (∀ d ∈ skewed, d ≤ maxWord) ∧ (ofDurations skewed).target 0.5 = 3 ∧
    (ofDurations skewed).percentile 0.5 = bucketOf 100 ∧
    skewed.countP (· ≤ (ofDurations skewed).percentile 0.5) = 3 ∧
    (ofDurations skewed).target 1.5 = 8 ∧ (ofDurations skewed).percentile 1.5 = maxWord ∧
    (ofDurations skewed).greatest ≤ (ofDurations skewed).percentile 1 := by
  have hne : skewed ≠ [] := by decide
  have hword : ∀ d ∈ skewed, d ≤ maxWord := by decide
  obtain ⟨-, -, hrank, -, hbeyond, -, hall⟩ := percentile_is_rank hne hword
  have hthird : (ofDurations skewed).target 0.5 = 3 := by decide
  have heighth : (ofDurations skewed).target 1.5 = 8 := by decide
  have hfifth : (ofDurations skewed).target 1 = 5 := by decide
  obtain ⟨⟨d, hd, hbucket⟩, -, -⟩ := hrank 0.5 (by omega) (by rw [hthird]; decide)
  have hsorted : skewed.mergeSort[3 - 1]? = some 100 := by
    simp [skewed, List.mergeSort, List.MergeSort.Internal.splitInTwo]
  obtain rfl : 100 = d := Option.some.inj (hsorted.symm.trans (hthird ▸ hd))
  exact ⟨hne, hword, hthird, hbucket, by rw [hbucket]; decide, heighth,
    hbeyond 1.5 (by rw [heighth]; decide), (hall 1 hfifth).1⟩

end Histogram

end WriteBehind
