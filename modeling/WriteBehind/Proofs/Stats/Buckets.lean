import WriteBehind.Proofs.Stats.Bounds
import WriteBehind.Proofs.Stats.Cumulative
import WriteBehind.Proofs.Stats.Labels

/-!
# The histogram in the text

The lines of the histogram end the text: one for each real bound, then one without a bound, the sum and the
number of all. What they count does not fall from line to line, and the decimals of their bounds do not
either. Two bounds can have the same decimal, if binary64 numbers do not tell their quotients apart.
-/

namespace WriteBehind

namespace Exporter

variable {e : Exporter} {s : Snapshot}

/-! ## What the samples count -/

theorem bucketLines_eq (e : Exporter) (done rest : List (Nat × Nat)) (h : Ascending (done ++ rest)) :
    e.bucketLines (done.map (·.2)).sum rest =
    ((rest.map (·.1)).filter (· ≠ maxWord)).map
      (fun bound => e.bucket (boundText bound) (atMost (done ++ rest) bound)) ++
    [e.bucket "+Inf" ((done ++ rest).map (·.2)).sum] := by
  -- What is summed up before a bucket is what the buckets hold that are done.
  induction rest generalizing done with
  | nil => rw [List.append_nil]; rfl
  | cons b rest ih =>
    obtain ⟨bound, n⟩ := b
    have hsum : (done.map (·.2)).sum + n = ((done ++ [(bound, n)]).map (·.2)).sum := by simp
    have happend : done ++ (bound, n) :: rest = done ++ [(bound, n)] ++ rest := by simp
    have hrest := ih (done ++ [(bound, n)]) (by rwa [← happend])
    rw [← happend, ← hsum] at hrest
    unfold bucketLines
    dsimp only
    rw [hrest, ← atMost_here h, List.map_cons, List.filter_cons]
    by_cases hlast : bound = maxWord <;> simp [hlast]

theorem bucketTotal_eq (buckets : List (Nat × Nat)) : bucketTotal buckets = (buckets.map (·.2)).sum := by
  rw [List.sum_eq_foldr, List.foldr_map]
  rfl

theorem histogram_eq (h : Ascending s.buckets) : e.histogram s =
    e.header drainMetric "Store attempt latency" "histogram" ++
    (((s.buckets.map (·.1)).filter (· ≠ maxWord)).map
      (fun bound => e.bucket (boundText bound) (atMost s.buckets bound)) ++
    [e.bucket "+Inf" (s.buckets.map (·.2)).sum]) ++
    [e.sample (drainMetric ++ "_sum") (microsToSecs s.drainTime),
      e.sample (drainMetric ++ "_count") (wordToFloat (s.buckets.map (·.2)).sum)] := by
  have hbuckets := bucketLines_eq e [] s.buckets h
  rw [histogram, bucketTotal_eq]
  exact congrArg (_ ++ · ++ _) hbuckets

theorem boundText_ne (bound : Nat) : boundText bound ≠ "+Inf" := by
  intro h
  have hfigure := MetricLine.isFigure_text (microsToSecs bound)
  change ∀ c ∈ (boundText bound).toList, _ at hfigure
  rw [h] at hfigure
  exact absurd (hfigure '+' (by decide)) (by decide)

theorem values_mono (bounds : List Nat) (hbounds : bounds.Pairwise (· < ·))
    (htotal : (s.buckets.map (·.2)).sum < wordSize) :
    (bounds.map (fun bound => wordToFloat (atMost s.buckets bound)) ++
      [wordToFloat (s.buckets.map (·.2)).sum]).Pairwise (· ≤ ·) := by
  have hle := atMost_le_sum s.buckets
  rw [List.pairwise_append, List.pairwise_map]
  refine ⟨hbounds.imp fun hlt => ?_, List.pairwise_singleton _ _, ?_⟩
  · exact wordToFloat_le_wordToFloat (atMost_mono (Nat.le_of_lt hlt) s.buckets) ((hle _).trans_lt htotal)
  · simp only [List.mem_map, List.mem_singleton, forall_eq, forall_exists_index, and_imp,
      forall_apply_eq_imp_iff₂]
    exact fun bound _ => wordToFloat_le_wordToFloat (hle bound) htotal

/-! ## The lines of the histogram -/

def drainLine (e : Exporter) (suffix : String) (more : List (String × String)) (value : Float) : String :=
  let labels := (e.labels ++ more).map fun label => label.1 ++ "=\"" ++ label.2 ++ "\""
  e.family ++ "_writeback_drain_seconds" ++ suffix ++
    (if labels = [] then "" else "\x7b" ++ ",".intercalate labels ++ "\x7d") ++
    " " ++ MetricLine.layout.text value ++ "\n"

theorem drainLine_eq (suffix : String) (more : List (String × String)) (value : Float) :
    (MetricLine.sample ⟨e.metric (drainMetric ++ suffix), e.labels ++ more, value⟩).text ++ "\n" =
      e.drainLine suffix more value := by
  have hempty : ((e.labels ++ more).map MetricLine.labelText = []) ↔ (e.labels ++ more).isEmpty = true := by
    rw [List.map_eq_nil_iff, List.isEmpty_iff]
  have hlabels : (e.labels ++ more).map (fun label => label.1 ++ "=\"" ++ label.2 ++ "\"") =
      (e.labels ++ more).map MetricLine.labelText := rfl
  rw [MetricLine.text_sample, MetricLine.labelBlock, drainLine, hlabels]
  simp only [hempty, metric, drainMetric, String.append_assoc]
  rfl

def front (e : Exporter) (s : Snapshot) : List MetricLine :=
  e.counters s ++ e.gauges s ++ e.header drainMetric "Store attempt latency" "histogram"

theorem front_names {x : Sample} (h : .sample x ∈ e.front s) :
    ¬ (e.metric drainMetric).toList <+: x.name.toList := by
  rcases List.mem_append.mp h with h | h
  · obtain ⟨kind, name, help, value, -, hplain, hsingle⟩ := plain_of_mem_lines h
    rcases List.mem_append.mp hsingle with hheader | hsample
    · simp [header] at hheader
    · obtain rfl : x = ⟨e.metric name, e.labels, value⟩ := by
        simpa [sample] using hsample
      simp only [metric, String.toList_append, List.append_assoc, List.prefix_append_right_inj]
      exact hplain.other
  · simp [header] at h

theorem filter_real (hword : ∀ b ∈ s.buckets, b.1 ≤ maxWord) :
    (s.buckets.map (·.1)).filter (· ≠ maxWord) = (s.buckets.map (·.1)).filter (· < maxWord) := by
  refine List.filter_congr fun bound hbound => decide_eq_decide.mpr ?_
  obtain ⟨b, hb, rfl⟩ := List.mem_map.mp hbound
  have := hword b hb
  omega

theorem text_histogram (h : Ascending s.buckets) (hword : ∀ b ∈ s.buckets, b.1 ≤ maxWord) :
    e.text s = String.join ((e.front s).map fun line => line.text ++ "\n") ++
      String.join (((s.buckets.map (·.1)).filter (· < maxWord)).map fun bound =>
        e.drainLine "_bucket" [("le", boundText bound)] (wordToFloat (atMost s.buckets bound))) ++
      e.drainLine "_bucket" [("le", "+Inf")] (wordToFloat (s.buckets.map (·.2)).sum) ++
      e.drainLine "_sum" [] (microsToSecs s.drainTime) ++
      e.drainLine "_count" [] (wordToFloat (s.buckets.map (·.2)).sum) := by
  have hbucket : ∀ bound n, (e.bucket bound n).text ++ "\n" =
      e.drainLine "_bucket" [("le", bound)] (wordToFloat n) := fun bound n => drainLine_eq _ _ _
  have hsample : ∀ suffix value, (e.sample (drainMetric ++ suffix) value).text ++ "\n" =
      e.drainLine suffix [] value := fun suffix value => by
    rw [← drainLine_eq, List.append_nil]
    rfl
  have hlines : e.lines s = e.front s ++
      (((s.buckets.map (·.1)).filter (· < maxWord)).map
        (fun bound => e.bucket (boundText bound) (atMost s.buckets bound)) ++
      [e.bucket "+Inf" (s.buckets.map (·.2)).sum, e.sample (drainMetric ++ "_sum") (microsToSecs s.drainTime),
        e.sample (drainMetric ++ "_count") (wordToFloat (s.buckets.map (·.2)).sum)]) := by
    rw [lines, histogram_eq h, filter_real hword, front]
    simp only [List.append_assoc, List.cons_append, List.nil_append]
  rw [text, hlines]
  simp only [List.map_append, List.map_map, List.map_cons, List.map_nil, Function.comp_def, hbucket, hsample]
  simp [String.join_append, String.join_cons, String.append_assoc]

/-- The histogram that is written is cumulative, whatever the counter of drains says. It is the end of the
text, and the only place where its names stand. For each real bound, in order, there is one line with what is
counted at or below it; one line without a bound comes after them. The counts do not fall, and the last one
is the sum of all buckets, which the line of the count has too.

What is written for a bound is its quotient by a million as a binary64 number. As a decimal it is near the
bound and less than the greatest word, and the decimals do not fall from line to line. They rise as long as the
bounds are not over `2 ^ 50`; beyond, two bounds have the same decimal if they have the same quotient. -/
theorem histogram_is_cumulative (e : Exporter) (hbounds : Ascending s.buckets)
    (hword : ∀ b ∈ s.buckets, b.1 ≤ maxWord) (htotal : (s.buckets.map (·.2)).sum < wordSize) :
    let total := (s.buckets.map (·.2)).sum
    let bounds := (s.buckets.map (·.1)).filter (· < maxWord)
    let count (bound : ℕ) := wordToFloat (atMost s.buckets bound)
    let le (bound : ℕ) := MetricLine.layout.text (wordToFloat bound / 1000000)
    (e.text s = String.join ((e.front s).map fun line => line.text ++ "\n") ++
        String.join (bounds.map fun bound => e.drainLine "_bucket" [("le", le bound)] (count bound)) ++
        e.drainLine "_bucket" [("le", "+Inf")] (wordToFloat total) ++
        e.drainLine "_sum" [] (wordToFloat s.drainTime / 1000000) ++
        e.drainLine "_count" [] (wordToFloat total) ∧
      ∀ x, .sample x ∈ e.front s → ¬ (e.metric drainMetric).toList <+: x.name.toList) ∧
    (bounds.map count ++ [wordToFloat total]).Pairwise (· ≤ ·) ∧
    (∀ bound ∈ bounds, le bound ≠ "+Inf" ∧ Decimal.read? (le bound) = some (boundSeconds bound) ∧
      |boundSeconds bound * 10 ^ 6 - bound| ≤ (bound : ℚ) / 2 ^ 51 ∧ boundSeconds bound * 10 ^ 6 < maxWord) ∧
    (bounds.map boundSeconds).Pairwise (· ≤ ·) ∧
    ((bounds.filter (· ≤ 2 ^ 50)).map boundSeconds).Pairwise (· < ·) ∧
    ∀ bound ∈ bounds, ∀ bound' ∈ bounds,
      (le bound = le bound' ↔ wordToFloat bound / 1000000 = wordToFloat bound' / 1000000) := by
  intro total bounds count le
  have hbound : ∀ bound ∈ bounds, bound < wordSize := fun bound h => by
    have := of_decide_eq_true (List.mem_filter.mp h).2
    unfold maxWord at this
    omega
  have hsorted : bounds.Pairwise (· < ·) := hbounds.filter _
  refine ⟨⟨text_histogram hbounds hword, fun x => front_names⟩, values_mono _ hsorted htotal,
    fun bound h => ⟨boundText_ne bound, read?_boundText (hbound bound h), boundSeconds_near (hbound bound h),
      boundSeconds_lt_maxWord (hbound bound h)⟩, ?_, ?_, fun bound h bound' h' =>
      boundText_eq_iff (hbound bound h) (hbound bound' h')⟩
  · rw [List.pairwise_map]
    exact hsorted.imp_of_mem fun _ h' hlt => boundSeconds_mono hlt.le (hbound _ h')
  · rw [List.pairwise_map]
    refine (hsorted.filter _).imp_of_mem fun _ h' hlt => boundSeconds_lt hlt ?_
    exact of_decide_eq_true (List.mem_filter.mp h').2

theorem histogram_is_cumulative_lagging :
    Ascending lagging.buckets ∧ (∀ b ∈ lagging.buckets, b.1 ≤ maxWord) ∧
    (lagging.buckets.map (·.2)).sum < wordSize ∧
    ({} : Exporter).text lagging =
      String.join ((({} : Exporter).front lagging).map fun line => line.text ++ "\n") ++
      "atomio_writeback_drain_seconds_bucket\x7ble=\"0.0001\"\x7d 2\n" ++
      "atomio_writeback_drain_seconds_bucket\x7ble=\"0.0005\"\x7d 2\n" ++
      "atomio_writeback_drain_seconds_bucket\x7ble=\"1\"\x7d 3\n" ++
      "atomio_writeback_drain_seconds_bucket\x7ble=\"+Inf\"\x7d 6\n" ++
      "atomio_writeback_drain_seconds_sum 0\n" ++
      "atomio_writeback_drain_seconds_count 6\n" := by
  have hbounds : Ascending lagging.buckets := by unfold Ascending; decide
  have hword : ∀ b ∈ lagging.buckets, b.1 ≤ maxWord := by decide
  have htotal : (lagging.buckets.map (·.2)).sum < wordSize := by decide
  obtain ⟨⟨htext, -⟩, -⟩ := histogram_is_cumulative {} hbounds hword htotal
  have hreal : (lagging.buckets.map (·.1)).filter (· < maxWord) = [100, 500, 1000000] := by decide
  have hles : MetricLine.layout.text (wordToFloat 100 / 1000000) = "0.0001" ∧
      MetricLine.layout.text (wordToFloat 500 / 1000000) = "0.0005" ∧
      MetricLine.layout.text (wordToFloat 1000000 / 1000000) = "1" := ⟨rfl, rfl, rfl⟩
  have hcounts : MetricLine.layout.text (wordToFloat (atMost lagging.buckets 100)) = "2" ∧
      MetricLine.layout.text (wordToFloat (atMost lagging.buckets 500)) = "2" ∧
      MetricLine.layout.text (wordToFloat (atMost lagging.buckets 1000000)) = "3" ∧
      MetricLine.layout.text (wordToFloat (lagging.buckets.map (·.2)).sum) = "6" ∧
      MetricLine.layout.text (wordToFloat lagging.drainTime / 1000000) = "0" := ⟨rfl, rfl, rfl, rfl, rfl⟩
  refine ⟨hbounds, hword, htotal, htext.trans ?_⟩
  generalize String.join ((({} : Exporter).front lagging).map fun line => line.text ++ "\n") = opening
  rw [hreal]
  simp [drainLine, hles, hcounts, String.join_cons, String.append_assoc]

/-- Where binary64 numbers lie further apart than bounds do, two bounds are written alike. -/
example : boundText (2 ^ 60) = boundText (2 ^ 60 + 1) ∧ boundText (maxWord - 1) = boundText maxWord :=
  ⟨rfl, rfl⟩

end Exporter

end WriteBehind
