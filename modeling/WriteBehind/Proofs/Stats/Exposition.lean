import WriteBehind.Stats.Exposition

/-!
# The lines of an exposition

Numbers are written with few characters, none of which ends a line or a label. Before the histogram come
metrics of one sample each, whose names are not those of the histogram.
-/

namespace WriteBehind

/-! ## Numbers in the text -/

namespace MetricLine

def isFigure (c : Char) : Bool := c.isAlphanum || c == '.' || c == '-'

theorem isFigure_toDigits (n : Nat) : ∀ c ∈ Nat.toDigits 10 n, isFigure c = true := by
  intro c hc
  have hdigit := Nat.isDigit_of_mem_toDigits (by decide) (by decide) hc
  simp [isFigure, Char.isAlphanum, hdigit]

theorem isFigure_zeros (n : Nat) : ∀ c ∈ (Decimal.zeros n).toList, isFigure c = true := by
  intro c hc
  rw [Decimal.zeros, String.toList_ofList] at hc
  rw [List.eq_of_mem_replicate hc]
  rfl

theorem isFigure_full (d : Decimal.Digits) : ∀ c ∈ (layout.full d).toList, isFigure c = true := by
  have hdigits := isFigure_toDigits d.digits
  have hzeros := isFigure_zeros
  unfold Decimal.Layout.full
  dsimp only
  split
  · simp only [layout, String.toList_append, String.toList_ofList, List.forall_mem_append]
    exact ⟨⟨hdigits, hzeros _⟩, by simp [isFigure]⟩
  split
  · simp only [String.toList_append, String.toList_ofList, List.forall_mem_append]
    exact ⟨⟨fun c hc => hdigits c (List.mem_of_mem_take hc), by simp [isFigure]⟩,
      fun c hc => hdigits c (List.mem_of_mem_drop hc)⟩
  · simp only [String.toList_append, String.toList_ofList, List.forall_mem_append]
    exact ⟨⟨by simp [isFigure], hzeros _⟩, hdigits⟩

theorem isFigure_text (x : Float) : ∀ c ∈ (layout.text x).toList, isFigure c = true := by
  unfold Decimal.Layout.text
  split
  · rename_i d _
    have hfull : layout.magnitude d.shortest = layout.full d.shortest := if_pos (Or.inr rfl)
    rw [Decimal.Layout.signed, hfull, String.toList_append, List.forall_mem_append]
    exact ⟨by split <;> simp [isFigure], isFigure_full _⟩
  · split
    · simp [layout, isFigure]
    split <;> simp [layout, isFigure]

end MetricLine

namespace Exporter

variable {e : Exporter} {s : Snapshot} {line : MetricLine}

/-! ## Metrics with one sample -/

/-- A metric that is not of the histogram, named and explained on one line. -/
structure IsPlain (name help : String) : Prop where
  name_one_line : '\n' ∉ name.toList
  help_one_line : '\n' ∉ help.toList
  other : ¬ drainMetric.toList <+: name.toList

/-- Checked on the characters: to read a literal back from its bytes is slow. -/
theorem isPlain_ofList {name help drain : List Char} (hdrain : drainMetric = String.ofList drain)
    (h : '\n' ∉ name ∧ '\n' ∉ help ∧ ¬ drain <+: name) :
    IsPlain (String.ofList name) (String.ofList help) := by
  constructor
  · rw [String.toList_ofList]
    exact h.1
  · rw [String.toList_ofList]
    exact h.2.1
  · rw [hdrain, String.toList_ofList, String.toList_ofList]
    exact h.2.2

theorem plain_of_mem {kind : String} {metrics : List (String × String × Nat)}
    (hall : ∀ m ∈ metrics, IsPlain m.1 m.2.1)
    (h : line ∈ metrics.flatMap fun (name, help, value) => e.single kind name help (wordToFloat value)) :
    ∃ name help value, IsPlain name help ∧ line ∈ e.single kind name help value := by
  obtain ⟨⟨name, help, value⟩, hm, hline⟩ := List.mem_flatMap.mp h
  exact ⟨name, help, wordToFloat value, hall _ hm, hline⟩

theorem plain_of_mem_lines (h : line ∈ e.counters s ++ e.gauges s) : ∃ kind name help value,
    '\n' ∉ kind.toList ∧ IsPlain name help ∧ line ∈ e.single kind name help value := by
  rcases List.mem_append.mp h with h | h
  · obtain ⟨name, help, value, hplain, hline⟩ := plain_of_mem (by
      simp only [List.forall_mem_cons, List.not_mem_nil, false_implies, implies_true, and_true]
      and_intros <;> exact isPlain_ofList rfl (by decide)) h
    exact ⟨"counter", name, help, value, by simp, hplain, hline⟩
  · obtain ⟨name, help, value, hplain, hline⟩ := plain_of_mem (by
      simp only [List.forall_mem_cons, List.not_mem_nil, false_implies, implies_true, and_true]
      and_intros <;> exact isPlain_ofList rfl (by decide)) h
    exact ⟨"gauge", name, help, value, by simp, hplain, hline⟩

def lagging : Snapshot :=
  { ({} : Counters).snapshot ⟨0, 0, 0, ⟨10, 5⟩, false, 1, 1, 1⟩ with
    drained := 1
    buckets := [(100, 2), (500, 0), (1000000, 1), (maxWord, 3)] }

end Exporter

end WriteBehind
