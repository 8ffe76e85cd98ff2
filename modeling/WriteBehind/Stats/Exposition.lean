import WriteBehind.Decimal.Layout
import WriteBehind.Stats.Snapshot

/-!
# Metrics exposition

A snapshot in the text format that metric collectors read: for each metric a line of help, a line with
its type, and its samples. All samples carry the labels of the exporter. Buckets of the histogram are
cumulative; the last one, without bound, is the sum of all.
-/

namespace WriteBehind

structure Sample where
  name : String
  labels : List (String × String)
  value : Float

inductive MetricLine where
  | help (name text : String)
  | type (name kind : String)
  | sample (s : Sample)

namespace MetricLine

def layout : Decimal.Layout where
  inFull := fun _ => true
  pointZero := false

def labelText (label : String × String) : String := label.1 ++ "=\"" ++ label.2 ++ "\""

def text : MetricLine → String
  | help name text => "# HELP " ++ name ++ " " ++ text
  | type name kind => "# TYPE " ++ name ++ " " ++ kind
  | sample s =>
    if s.labels.isEmpty then
      s.name ++ " " ++ layout.text s.value
    else
      s.name ++ "\x7b" ++ ",".intercalate (s.labels.map labelText) ++ "\x7d " ++ layout.text s.value

end MetricLine

structure Exporter where
  family : String := "atomio"
  labels : List (String × String) := []

namespace Exporter

def withLabel (e : Exporter) (key value : String) : Exporter :=
  { e with labels := e.labels ++ [(key, value)] }

def metric (e : Exporter) (name : String) : String := e.family ++ "_" ++ name

def sample (e : Exporter) (name : String) (value : Float) : MetricLine :=
  .sample { name := e.metric name, labels := e.labels, value }

def header (e : Exporter) (name help kind : String) : List MetricLine :=
  [.help (e.metric name) help, .type (e.metric name) kind]

def single (e : Exporter) (kind name help : String) (value : Float) : List MetricLine :=
  e.header name help kind ++ [e.sample name value]

def counters (e : Exporter) (s : Snapshot) : List MetricLine :=
  [ ("writeback_items_total", "Total enqueue calls", s.items),
    ("writeback_duplicates_total", "Enqueues coalesced into a pending entry", s.duplicates),
    ("writeback_flushes_total", "Total barriers issued", s.flushes),
    ("writeback_drains_total", "Total store attempts", s.drained),
    ("writeback_failures_total", "Failed store attempts", s.failed),
    ("writeback_stalls_total", "Producers stalled above the high watermark", s.stalls),
    ("writeback_rejected_total", "Non-blocking enqueues refused at the high watermark",
      s.rejected) ].flatMap
    fun (name, help, value) => e.single "counter" name help (wordToFloat value)

def gauges (e : Exporter) (s : Snapshot) : List MetricLine :=
  let g := s.gauges
  [ ("writeback_depth", "Outstanding entries, pending plus in flight", g.depth),
    ("writeback_pending", "Entries waiting for a worker", g.pending),
    ("writeback_in_flight", "Entries being stored", g.inFlight),
    ("writeback_busy_workers", "Workers currently storing", s.busy),
    ("writeback_workers", "Configured workers", g.workers),
    ("writeback_high_watermark", "Depth above which producers stall", g.watermarks.high),
    ("writeback_low_watermark", "Depth at which stalled producers resume", g.watermarks.low),
    ("pool_available_connections", "Idle pooled connections", g.poolAvailable),
    ("pool_capacity", "Pooled connections", g.poolCapacity),
    ("writeback_stalling", "Whether producers stall (1) or not (0)",
      if g.stalling then 1 else 0) ].flatMap
    fun (name, help, value) => e.single "gauge" name help (wordToFloat value)

def drainMetric : String := "writeback_drain_seconds"

def boundText (micros : Nat) : String := MetricLine.layout.text (microsToSecs micros)

def bucket (e : Exporter) (bound : String) (value : Nat) : MetricLine :=
  .sample {
    name := e.metric (drainMetric ++ "_bucket")
    labels := e.labels ++ [("le", bound)]
    value := wordToFloat value }

def bucketLines (e : Exporter) : Nat → List (Nat × Nat) → List MetricLine
  | below, [] => [e.bucket "+Inf" below]
  | below, (bound, n) :: rest =>
    let total := below + n
    (if bound = maxWord then [] else [e.bucket (boundText bound) total]) ++ e.bucketLines total rest

def bucketTotal (buckets : List (Nat × Nat)) : Nat := buckets.foldr (fun b n => b.2 + n) 0

def histogram (e : Exporter) (s : Snapshot) : List MetricLine :=
  e.header drainMetric "Store attempt latency" "histogram" ++ e.bucketLines 0 s.buckets ++
    [ e.sample (drainMetric ++ "_sum") (microsToSecs s.drainTime),
      e.sample (drainMetric ++ "_count") (wordToFloat (bucketTotal s.buckets)) ]

def lines (e : Exporter) (s : Snapshot) : List MetricLine :=
  e.counters s ++ e.gauges s ++ e.histogram s

def text (e : Exporter) (s : Snapshot) : String :=
  String.join ((e.lines s).map fun line => line.text ++ "\n")

end Exporter

end WriteBehind
