import Mathlib.Data.List.Induction

/-!
# Runs as folds

A system whose steps are not always enabled runs by a fold of its step, and the run fails with the first step
that is not enabled. Such a run can be cut anywhere, and what survives every step of it holds after it.
-/

namespace WriteBehind

variable {σ α : Type} {step : σ → α → Option σ} {s t : σ} {run later : List α}

theorem foldlM_append_eq_some : (run ++ later).foldlM step s = some t ↔
    ∃ u, run.foldlM step s = some u ∧ later.foldlM step u = some t := by
  rw [List.foldlM_append]
  exact Option.bind_eq_some_iff

theorem foldlM_cons_eq_some {a : α} : (a :: later).foldlM step s = some t ↔
    ∃ u, step s a = some u ∧ later.foldlM step u = some t := by
  rw [List.foldlM_cons]
  exact Option.bind_eq_some_iff

theorem foldlM_induction {P : List α → σ → Prop} (start : P [] s)
    (next : ∀ run u a v, run.foldlM step s = some u → P run u → step u a = some v → P (run ++ [a]) v)
    (h : run.foldlM step s = some t) : P run t := by
  induction run using List.reverseRecOn generalizing t with
  | nil =>
    cases h
    exact start
  | append_singleton run a ih =>
    obtain ⟨u, hu, h⟩ := foldlM_append_eq_some.mp h
    obtain ⟨v, hv, h⟩ := foldlM_cons_eq_some.mp h
    cases h
    exact next run u a t hu (ih hu) hv

end WriteBehind
