import WriteBehind.Calendar
import WriteBehind.Stats.Report

/-!
# Report of a session

A session counts the writes it was asked for, by kind; its report puts them before the report of its
queue.
-/

namespace WriteBehind

structure CallCounts where
  stores : Nat := 0
  valueStores : Nat := 0
  removes : Nat := 0
  deriving DecidableEq, Repr

structure SessionStats where
  name : String
  since : Int
  counts : CallCounts
  queue : Snapshot
  deriving DecidableEq, Repr

namespace SessionStats

def report (s : SessionStats) : String :=
  s!"{s.name} stats since {Calendar.momentText s.since}\n\n" ++
    s!"store_count={s.counts.stores} value_stores={s.counts.valueStores} " ++
    s!"atom_removes={s.counts.removes}\n\n{s.queue.report}\n"

end SessionStats

end WriteBehind
