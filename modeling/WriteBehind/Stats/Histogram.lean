import WriteBehind.Word

/-!
# Histogram of durations

Durations are whole microseconds below `2 ^ 64`. Each falls into the first bucket whose bound it does
not exceed; the last bucket has no real bound. Next to the buckets the histogram keeps the number of
durations, their sum modulo `2 ^ 64` and the extremes.
-/

namespace WriteBehind

/-- The upper bounds of the buckets. Durations are round trips to a backend, so the range starts at
100us; the last bucket takes everything over 10s. -/
def bucketBounds : List Nat :=
  [100, 500, 1000, 5000, 10000, 50000, 100000, 500000, 1000000, 5000000, 10000000, maxWord]

structure Histogram where
  buckets : List (Nat × Nat) := bucketBounds.map fun bound => (bound, 0)
  count : Nat := 0
  /-- The sum, modulo `2 ^ 64`. -/
  sum : Nat := 0
  least : Nat := maxWord
  greatest : Nat := 0
  deriving DecidableEq, Repr

namespace Histogram

def countIn (micros : Nat) : List (Nat × Nat) → List (Nat × Nat)
  | [] => []
  | (bound, n) :: rest =>
    if micros ≤ bound then (bound, n + 1) :: rest else (bound, n) :: countIn micros rest

def record (h : Histogram) (micros : Nat) : Histogram where
  buckets := countIn micros h.buckets
  count := h.count + 1
  sum := wrap (h.sum + micros)
  least := min h.least micros
  greatest := max h.greatest micros

def minimum (h : Histogram) : Nat := if h.least = maxWord then 0 else h.least

/-- How many durations a percentile asks for. The product is binary64. -/
def target (h : Histogram) (percentile : Float) : Nat := ceilToWord (wordToFloat h.count * percentile)

/-- The bound of the first bucket up to which `target` durations are counted, `below` of them before
the first of these buckets; the greatest word if there are not so many. -/
def rankBound (target : Nat) : Nat → List (Nat × Nat) → Nat
  | _, [] => maxWord
  | below, (bound, n) :: rest =>
    if target ≤ below + n then bound else rankBound target (below + n) rest

def percentile (h : Histogram) (p : Float) : Nat :=
  if h.count = 0 then 0 else rankBound (h.target p) 0 h.buckets

end Histogram

structure Latency where
  avg : Nat
  min : Nat
  max : Nat
  p50 : Nat
  p90 : Nat
  p99 : Nat
  deriving DecidableEq, Repr

def Histogram.latency (h : Histogram) : Latency where
  avg := h.sum / h.count
  min := h.minimum
  max := h.greatest
  p50 := h.percentile 0.5
  p90 := h.percentile 0.9
  p99 := h.percentile 0.99

end WriteBehind
