import Mathlib.Algebra.BigOperators.Group.Finset.Basic
import Mathlib.Data.List.DropRight
import Mathlib.Data.List.Infix
import WriteBehind.Proofs.Stats.Durations
import WriteBehind.Proofs.Stats.Histogram
import WriteBehind.Stats.Snapshot

/-!
# The window of the counters

Counters and histogram describe the operations since they were last cleared, and nothing else. How many
workers are busy is a matter of the whole history: a drain may begin before the counters are cleared and
end after that.
-/

namespace WriteBehind.Counters

inductive Op where
  | enqueue (coalesced : Bool)
  | flush
  | stall
  | reject
  | beginDrain
  | endDrain (micros : Nat) (ok : Bool)
  | clear
  deriving DecidableEq, Repr

namespace Op

def isEnqueue : Op → Bool
  | enqueue _ => true
  | _ => false

def isCoalesced : Op → Bool
  | enqueue coalesced => coalesced
  | _ => false

def isEnd : Op → Bool
  | endDrain _ _ => true
  | _ => false

def isFailure : Op → Bool
  | endDrain _ ok => !ok
  | _ => false

def duration? : Op → Option Nat
  | endDrain micros _ => some (wrap micros)
  | _ => none

end Op

def apply (c : Counters) : Op → Counters
  | .enqueue coalesced => c.recordEnqueue coalesced
  | .flush => c.recordFlush
  | .stall => c.recordStall
  | .reject => c.recordRejected
  | .beginDrain => c.beginDrain
  | .endDrain micros ok => c.endDrain micros ok
  | .clear => c.clear

def after (ops : List Op) : Counters := ops.foldl apply {}

/-- The operations since the counters were last cleared. -/
def window (ops : List Op) : List Op := ops.rtakeWhile (· ≠ .clear)

def durations (ops : List Op) : List Nat := (window ops).filterMap Op.duration?

/-- The drains that began and have not ended, whenever that was. -/
def openDrains (ops : List Op) : Nat := ops.count .beginDrain - ops.countP Op.isEnd

/-- No drain ends that has not begun. -/
def Balanced (ops : List Op) : Prop :=
  ∀ before, before <+: ops → before.countP Op.isEnd ≤ before.count .beginDrain

/-- The drains that were open when a drain of the window began, added up over these. -/
def companions (ops : List Op) : Nat :=
  ∑ i ∈ Finset.range ops.length,
    if ops[i]? = some .beginDrain ∧ .clear ∉ ops.drop i then openDrains (ops.take i) else 0

variable {ops : List Op} {op : Op}

/-! ## One operation more -/

theorem after_concat (ops : List Op) (op : Op) : after (ops ++ [op]) = (after ops).apply op := by
  unfold after
  rw [List.foldl_append]
  rfl

theorem window_clear (ops : List Op) : window (ops ++ [.clear]) = [] :=
  List.rtakeWhile_concat_neg _ _ _ (by simp)

theorem window_concat (h : op ≠ .clear) : window (ops ++ [op]) = window ops ++ [op] :=
  List.rtakeWhile_concat_pos _ _ _ (decide_eq_true h)

theorem Balanced.init (h : Balanced (ops ++ [op])) : Balanced ops :=
  fun before hbefore => h before (hbefore.trans (List.prefix_append _ _))

theorem Balanced.ends_le (h : Balanced ops) : ops.countP Op.isEnd ≤ ops.count .beginDrain :=
  h ops (List.prefix_refl _)

theorem openDrains_begin (h : Balanced ops) : openDrains (ops ++ [.beginDrain]) = openDrains ops + 1 := by
  have := h.ends_le
  simp only [openDrains, List.count_append, List.countP_append, List.count_singleton_self,
    List.countP_singleton, Op.isEnd]
  simp
  omega

theorem openDrains_end {micros : Nat} {ok : Bool} (h : Balanced (ops ++ [.endDrain micros ok])) :
    openDrains ops = openDrains (ops ++ [.endDrain micros ok]) + 1 := by
  have hle := h.ends_le
  simp only [openDrains, List.count_append, List.countP_append, List.countP_singleton, Op.isEnd,
    List.count_singleton] at hle ⊢
  simp at hle ⊢
  omega

theorem openDrains_other (hbegin : op ≠ .beginDrain) (hend : op.isEnd = false) :
    openDrains (ops ++ [op]) = openDrains ops := by
  simp [openDrains, hbegin, hend]

theorem companions_concat (h : op ≠ .clear) : companions (ops ++ [op]) =
    companions ops + if op = .beginDrain then openDrains ops else 0 := by
  have hterm : ∀ i ∈ Finset.range ops.length,
      (if (ops ++ [op])[i]? = some .beginDrain ∧ .clear ∉ (ops ++ [op]).drop i then
        openDrains ((ops ++ [op]).take i) else 0) =
      if ops[i]? = some .beginDrain ∧ .clear ∉ ops.drop i then openDrains (ops.take i) else 0 := by
    intro i hi
    have hi := Finset.mem_range.mp hi
    rw [List.getElem?_append_left hi, List.drop_append_of_le_length (Nat.le_of_lt hi),
      List.take_append_of_le_length (Nat.le_of_lt hi)]
    simp [Ne.symm h]
  unfold companions
  rw [List.length_append, List.length_singleton, Finset.sum_range_succ, Finset.sum_congr rfl hterm]
  simp [Ne.symm h]

theorem companions_clear (ops : List Op) : companions (ops ++ [.clear]) = 0 := by
  refine Finset.sum_eq_zero fun i hi => if_neg fun hterm => hterm.2 ?_
  have hlength : i < ops.length + 1 := by simpa using hi
  rw [List.drop_append_of_le_length (by omega)]
  simp

/-! ## A history of operations -/

theorem counted {f : Counters → Nat} {p : Op → Bool} (hempty : f {} = 0)
    (hstep : ∀ (c : Counters) op, f (c.apply op) = if op = .clear then 0 else f c + (p op).toNat)
    (ops : List Op) : f (after ops) = (window ops).countP p := by
  induction ops using List.reverseRecOn with
  | nil => exact hempty
  | append_singleton ops op ih =>
    rw [after_concat, hstep]
    by_cases h : op = .clear
    · rw [if_pos h, h, window_clear, List.countP_nil]
    · rw [if_neg h, ih, window_concat h, List.countP_append, List.countP_singleton]
      cases p op <;> rfl

theorem after_items (ops : List Op) : (after ops).items = (window ops).countP Op.isEnqueue :=
  counted rfl (fun _ op => by cases op <;> rfl) ops

theorem after_duplicates (ops : List Op) : (after ops).duplicates = (window ops).countP Op.isCoalesced :=
  counted rfl (fun _ op => by cases op <;> rfl) ops

theorem after_drained (ops : List Op) : (after ops).drained = (window ops).countP Op.isEnd :=
  counted rfl (fun _ op => by cases op <;> rfl) ops

theorem after_failed (ops : List Op) : (after ops).failed = (window ops).countP Op.isFailure :=
  counted rfl (fun _ op => by cases op <;> rfl) ops

theorem after_flushes (ops : List Op) : (after ops).flushes = (window ops).count .flush :=
  counted rfl (fun _ op => by cases op <;> rfl) ops

theorem after_stalls (ops : List Op) : (after ops).stalls = (window ops).count .stall :=
  counted rfl (fun _ op => by cases op <;> rfl) ops

theorem after_rejected (ops : List Op) : (after ops).rejected = (window ops).count .reject :=
  counted rfl (fun _ op => by cases op <;> rfl) ops

theorem after_drains (ops : List Op) : (after ops).drains.Holds (durations ops) := by
  induction ops using List.reverseRecOn with
  | nil => exact .empty
  | append_singleton ops op ih =>
    rw [after_concat]
    by_cases h : op = .clear
    · rw [h, durations, window_clear]
      exact .empty
    rw [durations, window_concat h, List.filterMap_append]
    cases op with
    | endDrain micros ok => exact ih.record (Nat.le_pred_of_lt (wrap_lt micros))
    | clear => exact absurd rfl h
    | enqueue | flush | stall | reject | beginDrain =>
      simp only [List.filterMap_cons, List.filterMap_nil, Op.duration?, List.append_nil]
      exact ih

theorem length_durations (ops : List Op) : (durations ops).length = (window ops).countP Op.isEnd := by
  rw [durations, List.length_filterMap_eq_countP]
  exact congrArg (List.countP · _) (funext fun op => by cases op <;> rfl)

theorem after_busy (h : Balanced ops) : (after ops).busy = wrap (openDrains ops) := by
  induction ops using List.reverseRecOn with
  | nil => rfl
  | append_singleton ops op ih =>
    have hops := ih h.init
    rw [after_concat]
    cases op with
    | beginDrain =>
      rw [openDrains_begin h.init]
      change wrap ((after ops).busy + 1) = _
      rw [hops, wrap_wrap_add]
    | endDrain micros ok =>
      change wrap ((after ops).busy + maxWord) = _
      rw [hops, wrap_wrap_add, openDrains_end h, wrap_add_maxWord]
    | enqueue | flush | stall | reject | clear =>
      rw [openDrains_other (by simp) rfl]
      exact hops

theorem after_concurrent (h : Balanced ops) : (after ops).concurrent = wrap (companions ops) := by
  induction ops using List.reverseRecOn with
  | nil => rfl
  | append_singleton ops op ih =>
    have hops := ih h.init
    rw [after_concat]
    cases op with
    | clear =>
      rw [companions_clear]
      rfl
    | beginDrain =>
      rw [companions_concat (by simp), if_pos rfl]
      change wrap ((after ops).concurrent + (after ops).busy) = _
      rw [hops, after_busy h.init, wrap_wrap_add, Nat.add_comm, wrap_wrap_add, Nat.add_comm]
    | enqueue | flush | stall | reject | endDrain =>
      rw [companions_concat (by simp), if_neg (by simp)]
      exact hops

/-! ## Snapshots -/

/-- A snapshot describes the operations since the counters were last cleared. The buckets hold the durations
of this window, each in the first bucket whose bound it does not exceed, and their total are the drains;
a duration is recorded in microseconds, modulo `2 ^ 64`. What is counted apart is a part of what it is
counted of, so the differences are exact. The sum of the durations is taken modulo `2 ^ 64`; where it needs
no more than that, the average lies between the extremes. The workers that are busy are those of the whole
history, and the drains that were open when one of the window began are added up, both modulo `2 ^ 64`. -/
theorem snapshot_describes_window (gauges : Gauges) (h : Balanced ops) :
    let s := (after ops).snapshot gauges
    let ds := durations ops
    s.buckets = bucketBounds.map (fun bound => (bound, ds.countP (bucketOf · = bound))) ∧
    (∀ d ∈ ds, bucketOf d ∈ bucketBounds ∧ d ≤ bucketOf d ∧
      ∀ b ∈ bucketBounds, b < bucketOf d → b < d) ∧
    (s.buckets.map (·.2)).sum = s.drained ∧ s.drained = ds.length ∧
    (s.items = (window ops).countP Op.isEnqueue ∧ s.duplicates = (window ops).countP Op.isCoalesced ∧
      s.failed = (window ops).countP Op.isFailure ∧ s.flushes = (window ops).count .flush ∧
      s.stalls = (window ops).count .stall ∧ s.rejected = (window ops).count .reject) ∧
    (s.duplicates ≤ s.items ∧ s.enqueued + s.duplicates = s.items) ∧
    (s.failed ≤ s.drained ∧ s.succeeded + s.failed = s.drained) ∧
    s.drainTime = wrap ds.sum ∧
    (ds ≠ [] → (∀ d ∈ ds, d < maxWord) → ds.sum < wordSize →
      (s.latency.min ∈ ds ∧ ∀ d ∈ ds, s.latency.min ≤ d) ∧
      (s.latency.max ∈ ds ∧ ∀ d ∈ ds, d ≤ s.latency.max) ∧
      s.latency.min ≤ s.latency.avg ∧ s.latency.avg ≤ s.latency.max) ∧
    (ops.countP Op.isEnd ≤ ops.count .beginDrain ∧
      s.busy = wrap (ops.count .beginDrain - ops.countP Op.isEnd)) ∧
    s.concurrent = wrap (companions ops) := by
  intro s ds
  have hh := after_drains ops
  have hdrained : s.drained = ds.length := (after_drained ops).trans (length_durations ops).symm
  have hduplicates : s.duplicates ≤ s.items := by
    change (after ops).duplicates ≤ (after ops).items
    rw [after_duplicates, after_items]
    exact List.countP_mono_left fun op _ hop => by cases op <;> first | rfl | cases hop
  have hfailed : s.failed ≤ s.drained := by
    change (after ops).failed ≤ (after ops).drained
    rw [after_failed, after_drained]
    exact List.countP_mono_left fun op _ hop => by cases op <;> first | rfl | cases hop
  exact ⟨hh.buckets, fun d hd => bucketOf_least (hh.words d hd), hh.total.trans hdrained.symm, hdrained,
    ⟨after_items ops, after_duplicates ops, after_failed ops, after_flushes ops, after_stalls ops,
      after_rejected ops⟩,
    ⟨hduplicates, Nat.sub_add_cancel hduplicates⟩, ⟨hfailed, Nat.sub_add_cancel hfailed⟩, hh.sum,
    fun hne hless hsum => ⟨hh.minimum_mem hne hless, ⟨hh.greatest_mem_of_ne_nil hne, hh.le_greatest⟩,
      hh.average_between hne hless hsum⟩,
    ⟨h.ends_le, after_busy h⟩, after_concurrent h⟩

/-- The first drain to begin ends in the next window. -/
def straddling : List Op :=
  [.beginDrain, .beginDrain, .endDrain 50 true, .enqueue false, .clear, .enqueue true, .enqueue false,
    .beginDrain, .endDrain 700 false, .stall, .endDrain 300 true, .beginDrain]

theorem snapshot_describes_window_straddling :
    let s := (after straddling).snapshot ⟨2, 1, 1, ⟨10, 5⟩, false, 2, 1, 2⟩
    Balanced straddling ∧ durations straddling = [700, 300] ∧ s.drained = 2 ∧
    s.buckets = bucketBounds.map (fun bound => (bound, [700, 300].countP (bucketOf · = bound))) ∧
    s.enqueued + 1 = 2 ∧ s.succeeded + 1 = 2 ∧ s.drainTime = 1000 ∧
    (s.latency.min ∈ [700, 300] ∧ ∀ d ∈ [700, 300], s.latency.min ≤ d) ∧
    s.latency.min ≤ s.latency.avg ∧ s.latency.avg ≤ s.latency.max ∧ s.busy = 1 ∧ s.concurrent = 1 := by
  have hbalanced : Balanced straddling := by
    have hall : ∀ before ∈ straddling.inits, before.countP Op.isEnd ≤ before.count .beginDrain := by decide
    exact fun before hbefore => hall before ((List.mem_inits _ _).mpr hbefore)
  have hdurations : durations straddling = [700, 300] := rfl
  have hcompanions : companions straddling = 1 := by decide
  obtain ⟨hbuckets, -, -, hdrained, -, ⟨-, henqueued⟩, ⟨-, hsucceeded⟩, htime, hlatency, ⟨-, hbusy⟩,
      hconcurrent⟩ := snapshot_describes_window ⟨2, 1, 1, ⟨10, 5⟩, false, 2, 1, 2⟩ hbalanced
  rw [hdurations] at hbuckets hdrained htime hlatency
  obtain ⟨hmin, -, havg⟩ := hlatency (by decide) (by decide) (by decide)
  exact ⟨hbalanced, hdurations, hdrained, hbuckets, henqueued, hsucceeded, htime, hmin, havg.1, havg.2, hbusy,
    hcompanions ▸ hconcurrent⟩

end WriteBehind.Counters
