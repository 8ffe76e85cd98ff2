import WriteBehind.Decimal.Fixed
import WriteBehind.Stats.Snapshot

/-!
# Report of a queue

The report is seven lines of text. Ratios and times have six places.
-/

namespace WriteBehind

namespace Snapshot

def figure (x : Float) : String := Decimal.fixed 6 x

def reportLines (s : Snapshot) : List String :=
  let g := s.gauges
  [ s!"{g.watermarks.text} stalling={g.stalling}",
    s!"write items={s.items} dup={s.duplicates} dupe_frac={figure s.duplicateFraction} " ++
      s!"flushes={s.flushes} flush_ratio={figure s.flushRatio}",
    s!"drains={s.drained} failed={s.failed} fill_fraction={figure s.fillFraction} " ++
      s!"concurrency={figure s.concurrency}",
    s!"avg drain time={figure s.avgDrainSecs} seconds; " ++
      s!"longest drain time={figure s.slowestDrainSecs}; p99 <= {s.latency.p99}us",
    s!"stalls={s.stalls} rejected={s.rejected}",
    s!"currently busy={s.busy} of {g.workers} workers; " ++
      s!"depth={g.depth} (pending={g.pending} in_flight={g.inFlight})",
    s!"current conn_pool free={g.poolAvailable} of {g.poolCapacity}" ]

def report (s : Snapshot) : String := "\n".intercalate s.reportLines

end Snapshot

end WriteBehind
