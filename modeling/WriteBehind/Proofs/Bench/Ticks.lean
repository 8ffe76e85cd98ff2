import WriteBehind.Bench.Step
import WriteBehind.Proofs.Session.Runs

/-!
# Ticks of a bench

`step_cases` lists what can happen to a bench in one tick, with what it needs and what the bench is like
afterwards.
-/

namespace WriteBehind.Bench

open Session (Action Command World)

variable {name : String → String} {luck : Luck} {w : Workload} {s t u : State} {tick : Tick}
  {ticks later : List Tick}

namespace State

/-! ## Steps -/

inductive Steps (name : String → String) (luck : Luck) (w : Workload) (s : State) : Tick → State → Prop where
  | set (k : Nat) (p : Producer) (id : AtomId) (value : Json.Value) (todo : List Move) (world : World)
    (present : s.producers[k]? = some p) (next : p.todo = .set id value :: todo)
    (moved : World.step name s.world (.set id valueKey value) = some world) :
    Steps name luck w s (.produce k) { s with world, producers := s.producers.set k { todo } }
  | ordered (k : Nat) (p : Producer) (command : Command) (todo : List Move) (world : World)
    (present : s.producers[k]? = some p) (next : p.todo = .call command :: todo)
    (moved : World.step name s.world (.call s.next command) = some world) :
    Steps name luck w s (.produce k) { s with
      world
      counts := command.count s.counts
      next := s.next + 1
      producers := s.producers.set k { todo, call := some s.next }
      orders := s.orders ++ [{ round := s.round, producer := k, command }] }
  | fenced (world : World) (early : s.round < w.rounds) (free : s.fence = none)
    (done : ∀ p ∈ s.producers, p.todo = [])
    (moved : World.step name s.world (.call s.next .barrier) = some world) :
    Steps name luck w s .fence { s with world, next := s.next + 1, fence := some s.next }
  | proceeded (call : Nat) (fence : s.fence = some call) (finished : s.world.queue.call? call = none) :
    Steps name luck w s .proceed { s with
      round := s.round + 1
      producers := crew luck w (s.round + 1)
      fence := none
      results := s.results ++ [(returned? call s.world.notices).getD (.ok ())] }
  | stirred (action : Action) (world : World) (stirs : action.isStir = true)
    (moved : World.step name s.world action = some world) :
    Steps name luck w s (.stir action) { s with
      world
      failed := if fails name s.world action then s.failed ++ [s.round] else s.failed }

theorem issue_eq_some {command : Command} (h : s.issue name command = some t) :
    ∃ world, World.step name s.world (.call s.next command) = some world ∧
      t = { s with world, counts := command.count s.counts, next := s.next + 1 } := by
  obtain ⟨world, hw, ht⟩ := Option.bind_eq_some_iff.mp h
  exact ⟨world, hw, (Option.some.inj ht).symm⟩

theorem step_cases (h : step name luck w s tick = some t) : Steps name luck w s tick t := by
  cases tick with
  | produce k =>
    obtain ⟨p, present, hp⟩ := Option.bind_eq_some_iff.mp h
    split at hp
    · cases hp
    · unfold move at hp
      split at hp
      · cases hp
      · rename_i id value todo next
        obtain ⟨world, moved, ht⟩ := Option.bind_eq_some_iff.mp hp
        cases ht
        exact .set k p id value todo world present next moved
      · rename_i command todo next
        obtain ⟨u, hu, ht⟩ := Option.bind_eq_some_iff.mp hp
        obtain ⟨world, moved, rfl⟩ := issue_eq_some hu
        cases ht
        exact .ordered k p command todo world present next moved
  | fence =>
    simp only [step] at h
    split at h
    · rename_i hc
      obtain ⟨early, free, done⟩ := hc
      obtain ⟨u, hu, ht⟩ := Option.bind_eq_some_iff.mp h
      obtain ⟨world, moved, rfl⟩ := issue_eq_some hu
      cases ht
      refine .fenced world early (by simpa using free) (fun p hp => ?_) moved
      have hdone := List.all_eq_true.mp done p hp
      simp only [Bool.and_eq_true, List.isEmpty_iff] at hdone
      exact hdone.1
    · cases h
  | proceed =>
    obtain ⟨call, fence, hc⟩ := Option.bind_eq_some_iff.mp h
    split at hc
    · cases hc
    · rename_i finished
      cases hc
      exact .proceeded call fence (by simpa [isWaiting] using finished)
  | stir action =>
    simp only [step] at h
    split at h
    · obtain ⟨world, moved, ht⟩ := Option.bind_eq_some_iff.mp h
      cases ht
      exact .stirred action world (by assumption) moved
    · cases h

/-! ## Runs -/

theorem run_nil : run name luck w s [] = some t ↔ t = s := by
  simp [run, eq_comm]

theorem run_append : run name luck w s (ticks ++ later) = some t ↔
    ∃ u, run name luck w s ticks = some u ∧ run name luck w u later = some t := foldlM_append_eq_some

theorem run_singleton : run name luck w s [tick] = some t ↔ step name luck w s tick = some t := by
  simp [run]

theorem run_induction {P : State → Prop} (start : P s)
    (next : ∀ s tick t, P s → step name luck w s tick = some t → P t)
    (h : run name luck w s ticks = some t) : P t :=
  foldlM_induction (P := fun _ t => P t) start (fun _ s tick t _ hs => next s tick t hs) h

end State

end WriteBehind.Bench
