import Mathlib.Data.List.Basic
import Mathlib.Data.Nat.Init
import WriteBehind.Proofs.Stats.Exposition

/-!
# Labels in the text

The value of a label is written between quotes as it is. Nothing in the text tells a quote or a line feed of
a value from one of the format. So a value with a line feed breaks the line of its sample, and two labels are
written like one whose value has their quotes. Values without these are read back.
-/

namespace WriteBehind

/-- What stands in front of the equals sign: a letter or an underscore, and then digits too. -/
def isLabelName (key : String) : Bool :=
  match key.toList with
  | [] => false
  | c :: cs => (c.isAlpha || c == '_') && cs.all fun c => c.isAlphanum || c == '_'

theorem isLabelName_chars {key : String} {c : Char} (h : isLabelName key = true) (hc : c ∈ key.toList) :
    c.isAlphanum = true ∨ c = '_' := by
  unfold isLabelName at h
  split at h
  · cases h
  · rename_i first rest hkey
    simp only [Bool.and_eq_true, Bool.or_eq_true, beq_iff_eq, List.all_eq_true] at h
    rw [hkey] at hc
    rcases List.mem_cons.mp hc with rfl | hc
    · exact h.1.imp_left fun halpha => by simp [Char.isAlphanum, halpha]
    · exact h.2 c hc

theorem isLabelName_le : isLabelName "le" = true := by simp [isLabelName]

namespace MetricLine

variable {c : Char} {labels : List (String × String)}

/-! ## Reading labels -/

mutual

def readKey (key : List Char) : List Char → List (String × String)
  | '=' :: '"' :: cs => readValue (String.ofList key) [] cs
  | c :: cs => readKey (key ++ [c]) cs
  | [] => []

def readValue (key : String) (value : List Char) : List Char → List (String × String)
  | '"' :: ',' :: cs => (key, String.ofList value) :: readKey [] cs
  | '"' :: _ => [(key, String.ofList value)]
  | c :: cs => readValue key (value ++ [c]) cs
  | [] => []

end

def readBlock : List Char → List (String × String)
  | '\x7b' :: cs => readKey [] cs
  | _ => []

/-- The labels on the line of a sample, after the name of its metric. -/
def labelsOf (name line : String) : List (String × String) := readBlock (line.toList.drop name.length)

def labelBlock (labels : List (String × String)) : String :=
  if labels.isEmpty then "" else "\x7b" ++ ",".intercalate (labels.map labelText) ++ "\x7d"

theorem text_sample (x : Sample) :
    (MetricLine.sample x).text = x.name ++ labelBlock x.labels ++ " " ++ layout.text x.value := by
  unfold text labelBlock
  dsimp only
  split
  · simp
  · simp [← String.toList_inj]

/-- The label is one that can be read: a value without quotes under a name. -/
def isReadable (label : String × String) : Bool := isLabelName label.1 && '"' ∉ label.2.toList

theorem readKey_char (h : c ≠ '=') (key cs : List Char) :
    readKey key (c :: cs) = readKey (key ++ [c]) cs := by
  rw [readKey]
  exact fun _ hc _ => h hc

theorem readValue_char (h : c ≠ '"') (key : String) (value cs : List Char) :
    readValue key value (c :: cs) = readValue key (value ++ [c]) cs := by
  rw [readValue]
  · exact fun _ hc _ => h hc
  · exact h

theorem readKey_name {name : List Char} (h : '=' ∉ name) (key cs : List Char) :
    readKey key (name ++ '=' :: '"' :: cs) = readValue (String.ofList (key ++ name)) [] cs := by
  induction name generalizing key with
  | nil => simp [readKey]
  | cons c name ih =>
    rw [List.mem_cons, not_or] at h
    rw [List.cons_append, readKey_char (Ne.symm h.1), ih h.2, List.append_assoc, List.singleton_append]

theorem readValue_text {text : List Char} (h : '"' ∉ text) (key : String) (value cs : List Char) :
    readValue key value (text ++ '"' :: cs) = readValue key (value ++ text) ('"' :: cs) := by
  induction text generalizing value with
  | nil => rw [List.nil_append, List.append_nil]
  | cons c text ih =>
    rw [List.mem_cons, not_or] at h
    rw [List.cons_append, readValue_char (Ne.symm h.1), ih h.2, List.append_assoc, List.singleton_append]

theorem isReadable_name {label : String × String} (h : isReadable label = true) : '=' ∉ label.1.toList := by
  intro hmem
  have := isLabelName_chars (Bool.and_eq_true_iff.mp h).1 hmem
  exact absurd this (by decide)

theorem readKey_label {label : String × String} (h : isReadable label = true) (cs : List Char) :
    readKey [] ((labelText label).toList ++ cs) = readValue label.1 label.2.toList ('"' :: cs) := by
  have hvalue : '"' ∉ label.2.toList := of_decide_eq_true (Bool.and_eq_true_iff.mp h).2
  have htext : (labelText label).toList ++ cs =
      label.1.toList ++ '=' :: '"' :: (label.2.toList ++ '"' :: cs) := by
    simp [labelText]
  rw [htext, readKey_name (isReadable_name h), readValue_text hvalue, List.nil_append, List.nil_append,
    String.ofList_toList]

theorem readKey_labels (hne : labels ≠ []) (h : ∀ label ∈ labels, isReadable label = true) (cs : List Char) :
    readKey [] ((",".intercalate (labels.map labelText)).toList ++ '\x7d' :: cs) = labels := by
  induction labels with
  | nil => exact absurd rfl hne
  | cons label rest ih =>
    obtain ⟨hlabel, hrest⟩ := List.forall_mem_cons.mp h
    cases rest with
    | nil =>
      rw [List.map_singleton, String.intercalate_singleton, readKey_label hlabel]
      simp [readValue]
    | cons next rest =>
      have htext : (",".intercalate ((label :: next :: rest).map labelText)).toList ++ '\x7d' :: cs =
          (labelText label).toList ++
            ',' :: ((",".intercalate ((next :: rest).map labelText)).toList ++ '\x7d' :: cs) := by
        simp [String.intercalate_cons_cons]
      rw [htext, readKey_label hlabel, readValue, ih (List.cons_ne_nil _ _) hrest, String.ofList_toList]

theorem readBlock_labelBlock (h : ∀ label ∈ labels, isReadable label = true) (cs : List Char) :
    readBlock ((labelBlock labels).toList ++ ' ' :: cs) = labels := by
  cases labels with
  | nil => rfl
  | cons label rest =>
    have htext : (labelBlock (label :: rest)).toList ++ ' ' :: cs =
        '\x7b' :: ((",".intercalate ((label :: rest).map labelText)).toList ++ '\x7d' :: ' ' :: cs) := by
      simp [labelBlock]
    rw [htext, readBlock, readKey_labels (List.cons_ne_nil _ _) h]

theorem labelsOf_text {x : Sample} (h : ∀ label ∈ x.labels, isReadable label = true) :
    labelsOf x.name (MetricLine.sample x).text = x.labels := by
  have htext : (MetricLine.sample x).text.toList =
      x.name.toList ++ ((labelBlock x.labels).toList ++ ' ' :: (layout.text x.value).toList) := by
    simp [text_sample]
  rw [labelsOf, htext, ← String.length_toList, List.drop_left, readBlock_labelBlock h]

/-! ## Lines that break, and labels that are not what they seem -/

theorem mem_intercalate_labels (h : ∀ label ∈ labels, isLabelName label.1 = true) :
    '\n' ∈ (",".intercalate (labels.map labelText)).toList ↔ ∃ label ∈ labels, '\n' ∈ label.2.toList := by
  induction labels with
  | nil => simp
  | cons label rest ih =>
    obtain ⟨hlabel, hrest⟩ := List.forall_mem_cons.mp h
    have ih := ih hrest
    have hkey : '\n' ∉ label.1.toList := fun hmem => absurd (isLabelName_chars hlabel hmem) (by decide)
    cases rest with
    | nil => simp [labelText, hkey]
    | cons next rest =>
      rw [List.exists_mem_cons_iff, ← ih]
      simp [String.intercalate_cons_cons, labelText, hkey]

theorem mem_labelBlock (h : ∀ label ∈ labels, isLabelName label.1 = true) :
    '\n' ∈ (labelBlock labels).toList ↔ ∃ label ∈ labels, '\n' ∈ label.2.toList := by
  rw [← mem_intercalate_labels h]
  cases labels with
  | nil => simp [labelBlock]
  | cons label rest => simp [labelBlock]

theorem intercalate_pair (front back : List String) (a b : String) :
    ",".intercalate (front ++ (a ++ "," ++ b) :: back) = ",".intercalate (front ++ a :: b :: back) := by
  induction front with
  | nil => cases back <;> simp [String.intercalate_cons_cons, String.append_assoc]
  | cons first front ih =>
    cases front <;>
    · simp only [List.cons_append, List.nil_append, String.intercalate_cons_cons] at ih ⊢
      rw [ih]

theorem labelBlock_imitated (front back : List (String × String)) (k v k' v' : String) :
    labelBlock (front ++ (k, v ++ "\"," ++ k' ++ "=\"" ++ v') :: back) =
      labelBlock (front ++ (k, v) :: (k', v') :: back) := by
  have htext : labelText (k, v ++ "\"," ++ k' ++ "=\"" ++ v') =
      labelText (k, v) ++ "," ++ labelText (k', v') := by
    simp [labelText, ← String.toList_inj]
  unfold labelBlock
  rw [List.map_append, List.map_append, List.map_cons, List.map_cons, List.map_cons, htext, intercalate_pair]
  simp

end MetricLine

namespace Exporter

open MetricLine

/-! ## The lines that are written -/

inductive Writes (e : Exporter) : MetricLine → Prop
  | header {line : MetricLine} {name help kind : String} (hname : '\n' ∉ name.toList)
      (hhelp : '\n' ∉ help.toList) (hkind : '\n' ∉ kind.toList) (hline : line ∈ e.header name help kind) :
      Writes e line
  | sample {name : String} (hname : '\n' ∉ name.toList) (value : Float) : Writes e (e.sample name value)
  | bucket {bound : String} (hbound : '\n' ∉ bound.toList ∧ '"' ∉ bound.toList) (n : Nat) :
      Writes e (e.bucket bound n)

variable {e e' : Exporter} {s : Snapshot} {line : MetricLine}

theorem boundText_chars (bound : Nat) : '\n' ∉ (boundText bound).toList ∧ '"' ∉ (boundText bound).toList := by
  have hfigure := isFigure_text (microsToSecs bound)
  exact ⟨fun hmem => absurd (hfigure _ hmem) (by decide), fun hmem => absurd (hfigure _ hmem) (by decide)⟩

theorem writes_bucketLines {below : Nat} {buckets : List (Nat × Nat)}
    (h : line ∈ e.bucketLines below buckets) : e.Writes line := by
  induction buckets generalizing below with
  | nil =>
    obtain rfl := List.mem_singleton.mp h
    exact .bucket (by simp) below
  | cons b rest ih =>
    rcases List.mem_append.mp h with h | h
    · split at h
      · cases h
      · obtain rfl := List.mem_singleton.mp h
        exact .bucket (boundText_chars _) _
    · exact ih h

theorem writes_of_mem (h : line ∈ e.lines s) : e.Writes line := by
  rcases List.mem_append.mp h with h | h
  · obtain ⟨kind, name, help, value, hkind, hplain, hline⟩ := plain_of_mem_lines h
    obtain ⟨hname, hhelp, -⟩ := hplain
    rcases List.mem_append.mp hline with hline | hline
    · exact .header hname hhelp hkind hline
    · obtain rfl := List.mem_singleton.mp hline
      exact .sample hname value
  · rcases List.mem_append.mp h with h | h
    · rcases List.mem_append.mp h with h | h
      · exact .header (by simp [drainMetric]) (by simp) (by simp) h
      · exact writes_bucketLines h
    · simp only [List.mem_cons, List.not_mem_nil, or_false] at h
      rcases h with rfl | rfl
      · exact .sample (by simp [drainMetric]) _
      · exact .sample (by simp [drainMetric]) _

theorem Writes.carries {x : Sample} (h : e.Writes (.sample x)) : x.labels = e.labels ∨
    ∃ bound : String, '\n' ∉ bound.toList ∧ '"' ∉ bound.toList ∧ x.labels = e.labels ++ [("le", bound)] := by
  cases h with
  | header hname hhelp hkind hline => simp [Exporter.header] at hline
  | sample hname value => exact .inl rfl
  | bucket hbound n => exact .inr ⟨_, hbound.1, hbound.2, rfl⟩

theorem Writes.isReadable {x : Sample} (h : e.Writes (.sample x))
    (he : ∀ label ∈ e.labels, isReadable label = true) : ∀ label ∈ x.labels, isReadable label = true := by
  rcases h.carries with hlabels | ⟨bound, -, hbound, hlabels⟩
  · rwa [hlabels]
  · rw [hlabels, List.forall_mem_append, List.forall_mem_singleton]
    exact ⟨he, by simp [MetricLine.isReadable, isLabelName_le, hbound]⟩

theorem metric_one_line {name : String} (hfamily : '\n' ∉ e.family.toList) (hname : '\n' ∉ name.toList) :
    '\n' ∉ (e.metric name).toList := by
  simp [metric, hfamily, hname]

theorem sample_one_line {x : Sample} (hname : '\n' ∉ x.name.toList)
    (hkeys : ∀ label ∈ x.labels, isLabelName label.1 = true)
    (hvalues : ∀ label ∈ x.labels, '\n' ∉ label.2.toList) : '\n' ∉ (MetricLine.sample x).text.toList := by
  have hblock : '\n' ∉ (labelBlock x.labels).toList := by
    rw [mem_labelBlock hkeys]
    rintro ⟨label, hl, hmem⟩
    exact hvalues label hl hmem
  have hvalue : '\n' ∉ (layout.text x.value).toList := fun hmem => absurd (isFigure_text _ _ hmem) (by decide)
  simp [text_sample, hname, hblock, hvalue]

theorem Writes.one_line (h : e.Writes line) (hfamily : '\n' ∉ e.family.toList)
    (hkeys : ∀ label ∈ e.labels, isLabelName label.1 = true)
    (hvalues : ∀ label ∈ e.labels, '\n' ∉ label.2.toList) : '\n' ∉ line.text.toList := by
  cases h with
  | header hname hhelp hkind hline =>
    have hmetric := metric_one_line hfamily hname
    simp only [Exporter.header, List.mem_cons, List.not_mem_nil, or_false] at hline
    rcases hline with rfl | rfl
    · simp [MetricLine.text, hmetric, hhelp]
    · simp [MetricLine.text, hmetric, hkind]
  | sample hname value => exact sample_one_line (metric_one_line hfamily hname) hkeys hvalues
  | bucket hbound n =>
    refine sample_one_line (metric_one_line hfamily (by simp [drainMetric])) ?_ ?_
    · exact List.forall_mem_append.mpr ⟨hkeys, List.forall_mem_singleton.mpr isLabelName_le⟩
    · exact List.forall_mem_append.mpr ⟨hvalues, List.forall_mem_singleton.mpr hbound.1⟩

/-! ## The text -/

theorem toList_sample (e : Exporter) (name : String) (value : Float) : (e.sample name value).text.toList =
    (e.metric name).toList ++ ((labelBlock e.labels).toList ++ ' ' :: (layout.text value).toList) := by
  unfold sample
  simp [text_sample]

theorem flatMap_concat_eq_intercalate (ls : List (List Char)) (c : Char) :
    (ls.flatMap (· ++ [c])) = [c].intercalate (ls ++ [[]]) := by
  induction ls with
  | nil => rfl
  | cons l ls ih =>
    rw [List.flatMap_cons, ih]
    cases ls <;> simp [List.intercalate_cons_cons]

theorem text_eq (e : Exporter) (s : Snapshot) :
    (e.text s).toList = ['\n'].intercalate ((e.lines s).map (·.text.toList) ++ [[]]) := by
  rw [← flatMap_concat_eq_intercalate, text, String.toList_join, List.flatMap_map, List.flatMap_map]
  simp

theorem not_mem_of_mem_splitOn {c : Char} {l cs : List Char} (h : l ∈ cs.splitOn c) : c ∉ l := by
  induction hn : cs.length using Nat.strong_induction_on generalizing cs with
  | _ n ih =>
    by_cases hc : c ∈ cs
    · obtain ⟨before, after, rfl, hbefore⟩ := List.eq_append_cons_of_mem hc
      rw [List.splitOn_append_cons_self, List.splitOn_eq_singleton hbefore] at h
      rcases List.mem_cons.mp h with rfl | h
      · exact hbefore
      · exact ih after.length (by rw [← hn]; simp; omega) h rfl
    · rw [List.splitOn_eq_singleton hc] at h
      rwa [List.mem_singleton.mp h]

theorem splitOn_text_iff (hfamily : '\n' ∉ e.family.toList)
    (hkeys : ∀ label ∈ e.labels, isLabelName label.1 = true) :
    (e.text s).toList.splitOn '\n' = (e.lines s).map (·.text.toList) ++ [[]] ↔
      ∀ label ∈ e.labels, '\n' ∉ label.2.toList := by
  constructor
  · intro h label hl hmem
    have hfirst : e.sample "writeback_items_total" (wordToFloat s.items) ∈ e.lines s := by
      simp [lines, counters, single]
    have hline : (e.sample "writeback_items_total" (wordToFloat s.items)).text.toList ∈
        (e.text s).toList.splitOn '\n' := by
      rw [h]
      exact List.mem_append_left _ (List.mem_map_of_mem hfirst)
    refine not_mem_of_mem_splitOn hline ?_
    have hblock := (mem_labelBlock hkeys).mpr ⟨label, hl, hmem⟩
    simp [toList_sample, hblock]
  · intro hvalues
    rw [text_eq, List.splitOn_intercalate]
    · rw [List.forall_mem_append]
      refine ⟨fun l hl => ?_, by simp⟩
      obtain ⟨line, hline, rfl⟩ := List.mem_map.mp hl
      exact (writes_of_mem hline).one_line hfamily hkeys hvalues
    · simp

def opening (e : Exporter) : List Char :=
  ((e.header "writeback_items_total" "Total enqueue calls" "counter").map
    fun line => line.text ++ "\n").flatMap String.toList ++ (e.metric "writeback_items_total").toList

theorem opening_congr (h : e'.family = e.family) : e'.opening = e.opening := by
  simp only [opening, header, metric, h]

theorem text_opening (e : Exporter) (s : Snapshot) : ∃ rest,
    (e.text s).toList = e.opening ++ ((labelBlock e.labels).toList ++ ' ' :: rest) := by
  obtain ⟨rest, hlines⟩ : ∃ rest, e.lines s =
      e.header "writeback_items_total" "Total enqueue calls" "counter" ++
        e.sample "writeback_items_total" (wordToFloat s.items) :: rest := ⟨_, rfl⟩
  rw [text, String.toList_join, hlines, List.map_append, List.map_cons, List.flatMap_append,
    List.flatMap_cons, String.toList_append, toList_sample]
  simp only [opening, List.append_assoc, List.cons_append]
  exact ⟨_, rfl⟩

theorem labels_of_text_eq (hfamily : e'.family = e.family) (h : ∀ label ∈ e.labels, isReadable label = true)
    (h' : ∀ label ∈ e'.labels, isReadable label = true) (htext : e'.text s = e.text s) :
    e'.labels = e.labels := by
  obtain ⟨rest, heq⟩ := text_opening e s
  obtain ⟨rest', heq'⟩ := text_opening e' s
  rw [← htext, heq', opening_congr hfamily] at heq
  have htail := List.append_cancel_left heq
  rw [← readBlock_labelBlock h rest, ← htail, readBlock_labelBlock h']

/-! ## Labels that are written alike -/

section
variable (hfamily : e'.family = e.family) (hblock : labelBlock e'.labels = labelBlock e.labels)
  (hbound : ∀ bound, labelBlock (e'.labels ++ [("le", bound)]) = labelBlock (e.labels ++ [("le", bound)]))

include hfamily

theorem header_congr (name help kind : String) : e'.header name help kind = e.header name help kind := by
  simp only [header, metric, hfamily]

include hblock in
theorem sample_congr (name : String) (value : Float) :
    (e'.sample name value).text = (e.sample name value).text := by
  simp only [sample, text_sample, metric, hfamily, hblock]

include hblock in
theorem single_congr (kind name help : String) (value : Float) :
    (e'.single kind name help value).map MetricLine.text =
      (e.single kind name help value).map MetricLine.text := by
  simp only [single, header_congr hfamily, List.map_append, List.map_singleton, sample_congr hfamily hblock]

include hbound in
theorem bucketLines_congr (below : Nat) (buckets : List (Nat × Nat)) :
    (e'.bucketLines below buckets).map MetricLine.text = (e.bucketLines below buckets).map MetricLine.text := by
  have hbucket : ∀ bound n, (e'.bucket bound n).text = (e.bucket bound n).text := by
    intro bound n
    simp only [bucket, text_sample, metric, hfamily, hbound]
  induction buckets generalizing below with
  | nil => exact congrArg ([·]) (hbucket "+Inf" below)
  | cons b rest ih =>
    rw [bucketLines, bucketLines, List.map_append, List.map_append, ih]
    split
    · rfl
    · rw [List.map_singleton, List.map_singleton, hbucket]

include hblock hbound in
theorem text_congr : e'.text s = e.text s := by
  have hlines : (e'.lines s).map MetricLine.text = (e.lines s).map MetricLine.text := by
    simp only [lines, counters, gauges, histogram, List.map_append, List.map_flatMap, List.map_cons,
      single_congr hfamily hblock, header_congr hfamily, bucketLines_congr hfamily hbound,
      sample_congr hfamily hblock]
  have htexts : ∀ e : Exporter, e.text s = String.join (((e.lines s).map MetricLine.text).map (· ++ "\n")) := by
    intro e
    rw [text, List.map_map]
    rfl
  rw [htexts, htexts, hlines]

end

theorem text_imitated (front : List (String × String)) (k v k' v' : String) (back : List (String × String))
    (h : e.labels = front ++ (k, v) :: (k', v') :: back) :
    { e with labels := front ++ (k, v ++ "\"," ++ k' ++ "=\"" ++ v') :: back }.text s = e.text s := by
  refine text_congr rfl ?_ fun bound => ?_
  · rw [h]
    exact labelBlock_imitated front back k v k' v'
  · rw [h, List.append_assoc, List.append_assoc]
    exact labelBlock_imitated front (back ++ [("le", bound)]) k v k' v'

/-- Every sample carries the labels of the exporter, but values are written as they are. There is one line for
each that is written just when no value has a line feed. Where no value has a quote, the labels of every
sample are read back from its line, and exporters with such labels never write the same text for different
ones. Values with quotes do not keep them apart: for any two labels side by side there is one label that is
written in the same way. -/
theorem labels_read_back (e : Exporter) (s : Snapshot) (hfamily : '\n' ∉ e.family.toList)
    (hkeys : ∀ label ∈ e.labels, isLabelName label.1 = true) :
    ((e.text s).toList.splitOn '\n' = (e.lines s).map (·.text.toList) ++ [[]] ↔
      ∀ label ∈ e.labels, '\n' ∉ label.2.toList) ∧
    (∀ x, .sample x ∈ e.lines s → x.labels = e.labels ∨ ∃ bound, x.labels = e.labels ++ [("le", bound)]) ∧
    ((∀ label ∈ e.labels, '"' ∉ label.2.toList) →
      (∀ x, .sample x ∈ e.lines s → labelsOf x.name (MetricLine.sample x).text = x.labels) ∧
      ∀ e' : Exporter, e'.family = e.family → (∀ label ∈ e'.labels, isReadable label = true) →
        e'.text s = e.text s → e'.labels = e.labels) ∧
    ∀ front k v k' v' back, e.labels = front ++ (k, v) :: (k', v') :: back →
      { e with labels := front ++ (k, v ++ "\"," ++ k' ++ "=\"" ++ v') :: back }.text s = e.text s := by
  refine ⟨splitOn_text_iff hfamily hkeys, fun x hx => ?_, fun hvalues => ?_, text_imitated⟩
  · obtain hlabels | ⟨bound, -, -, hlabels⟩ := (writes_of_mem hx).carries
    · exact .inl hlabels
    · exact .inr ⟨bound, hlabels⟩
  · have hreadable : ∀ label ∈ e.labels, isReadable label = true := fun label hl =>
      Bool.and_eq_true_iff.mpr ⟨hkeys label hl, decide_eq_true (hvalues label hl)⟩
    exact ⟨fun x hx => labelsOf_text ((writes_of_mem hx).isReadable hreadable),
      fun e' hfamily' he' htext => labels_of_text_eq hfamily' hreadable he' htext⟩

def plain : Exporter := { labels := [("session", "s"), ("host", "h")] }

def broken : Exporter := { labels := [("session", "a\nb")] }

/-- A value with quotes that looks like two. -/
def imitating : Exporter := { labels := [("session", "s\",host=\"h")] }

theorem labels_read_back_plain :
    '\n' ∉ plain.family.toList ∧ (∀ label ∈ plain.labels, isLabelName label.1 = true) ∧
    (plain.text lagging).toList.splitOn '\n' = (plain.lines lagging).map (·.text.toList) ++ [[]] ∧
    (plain.withLabel "role" "writer").text lagging ≠ plain.text lagging := by
  have hfamily : '\n' ∉ plain.family.toList := by simp [plain]
  have hkeys : ∀ label ∈ plain.labels, isLabelName label.1 = true := by simp [plain, isLabelName]
  obtain ⟨hlines, -, hread, -⟩ := labels_read_back plain lagging hfamily hkeys
  obtain ⟨-, hdiffer⟩ := hread (by simp [plain])
  refine ⟨hfamily, hkeys, hlines.mpr (by simp [plain]), fun htext => ?_⟩
  have heq := hdiffer (plain.withLabel "role" "writer") rfl
    (by simp [plain, withLabel, isReadable, isLabelName]) htext
  simp [withLabel] at heq

theorem labels_break_and_imitate :
    (∀ label ∈ broken.labels ++ imitating.labels ++ plain.labels, isLabelName label.1 = true) ∧
    (broken.text lagging).toList.splitOn '\n' ≠ (broken.lines lagging).map (·.text.toList) ++ [[]] ∧
    imitating.text lagging = plain.text lagging ∧ imitating.labels ≠ plain.labels := by
  have hkeys : ∀ label ∈ broken.labels ++ imitating.labels ++ plain.labels, isLabelName label.1 = true := by
    simp [broken, imitating, plain, isLabelName]
  have hsplit : (broken.text lagging).toList.splitOn '\n' ≠
      (broken.lines lagging).map (·.text.toList) ++ [[]] := by
    rw [Ne, splitOn_text_iff (by simp [broken]) (by simp [broken, isLabelName])]
    simp [broken]
  have hvalue : "s" ++ "\"," ++ "host" ++ "=\"" ++ "h" = "s\",host=\"h" := rfl
  have htext := text_imitated (e := plain) (s := lagging) [] "session" "s" "host" "h" [] rfl
  rw [hvalue] at htext
  exact ⟨hkeys, hsplit, htext, by simp [imitating, plain]⟩

end Exporter

end WriteBehind
