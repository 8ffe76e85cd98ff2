import WriteBehind.Proofs.Queue.Frame

/-!
# Runs and what they leave behind

A run can be cut anywhere, and whatever an observer notes of it is cut at the same place. What holds at
the start and survives every step holds after every run.
-/

namespace WriteBehind.Queue

variable {κ ι α : Type}

/-! ## Accepted writes -/

structure Acceptance (κ ι : Type) where
  call : Nat
  key : κ
  item : ι
  receipt : Receipt

def Acceptance.sequence (a : Acceptance κ ι) : Sequence := a.receipt.sequence

def Notice.receipt? : Notice κ ι → Option Receipt
  | .accepted _ receipt | .returned _ (.ok (.receipt receipt)) => some receipt
  | _ => none

def CallPhase.receipt? : CallPhase → Option Receipt
  | .stalled receipt _ => some receipt
  | _ => none

/-- The receipt that a step gives a call: told at once, or kept while the producer is held back. -/
def receipt? (id : Nat) (effect : Effect κ ι) : Option Receipt :=
  effect.2.findSome? Notice.receipt? <|> (effect.1.call? id).bind fun c => c.phase.receipt?

def accepted? : Event κ ι → Effect κ ι → Option (Acceptance κ ι)
  | .enqueue id key item _, effect | .tryEnqueue id key item, effect =>
    (receipt? id effect).map (⟨id, key, item, ·⟩)
  | _, _ => none

/-! ## Notices about entries -/

def Notice.entry? : Notice κ ι → Option (Claimed κ ι)
  | .invoked _ entry _ | .drained entry _ => some entry
  | _ => none

def Notice.invoked? : Notice κ ι → Option (Claimed κ ι)
  | .invoked _ entry _ => some entry
  | _ => none

def invocations (out : List (Notice κ ι)) : List (Claimed κ ι) := out.filterMap Notice.invoked?

theorem mem_invocations {out : List (Notice κ ι)} {e : Claimed κ ι} :
    e ∈ invocations out ↔ ∃ w c, .invoked w e c ∈ out := by
  unfold invocations
  rw [List.mem_filterMap]
  constructor
  · intro ⟨n, hn, he⟩
    cases n with
    | invoked w entry c => cases he; exact ⟨w, c, hn⟩
    | _ => cases he
  · intro ⟨w, c, hn⟩
    exact ⟨_, hn, rfl⟩

theorem invocations_append (o₁ o₂ : List (Notice κ ι)) :
    invocations (o₁ ++ o₂) = invocations o₁ ++ invocations o₂ := List.filterMap_append

theorem invocations_of_quiet {out : List (Notice κ ι)} (h : ∀ n ∈ out, n.entry? = none) :
    invocations out = [] := by
  refine List.filterMap_eq_nil_iff.mpr fun n hn => ?_
  have := h n hn
  cases n <;> simp_all [Notice.entry?, Notice.invoked?]

/-! ## Runs -/

variable [DecidableEq κ] [Named κ] {s t u : State κ ι} {out o o' : List (Notice κ ι)}
  {events later : List (Event κ ι)} {e : Event κ ι}

/-- A queue as it starts over these connections. -/
def Begins (config : QueueConfig) (connections : List Connection) (s : State κ ι) : Prop :=
  ∃ pool, Pool.ofConnections connections = .ok pool ∧ State.start config pool = .ok s

theorem run_nil : run s [] = some (u, out) ↔ u = s ∧ out = [] := by
  simp [run, eq_comm]

theorem run_cons : run s (e :: later) = some (u, out) ↔
    ∃ t o o', step s e = some (t, o) ∧ run t later = some (u, o') ∧ out = o ++ o' := by
  simp only [run, bind, Option.bind_eq_some_iff, Prod.exists, pure, Option.some.injEq, Prod.mk.injEq]
  constructor
  · rintro ⟨t, o, hs, u', o', hr, rfl, rfl⟩
    exact ⟨t, o, o', hs, hr, rfl⟩
  · rintro ⟨t, o, o', hs, hr, rfl⟩
    exact ⟨t, o, hs, u, o', hr, rfl, rfl⟩

theorem run_append : run s (events ++ later) = some (u, out) ↔
    ∃ t o o', run s events = some (t, o) ∧ run t later = some (u, o') ∧ out = o ++ o' := by
  induction events generalizing s out with
  | nil =>
    constructor
    · exact fun h => ⟨s, [], out, rfl, h, rfl⟩
    · rintro ⟨t, o, o', hn, h, rfl⟩
      obtain ⟨rfl, rfl⟩ := run_nil.mp hn
      exact h
  | cons e events ih =>
    rw [List.cons_append, run_cons]
    constructor
    · rintro ⟨t, o, _, hs, hr, rfl⟩
      obtain ⟨t', o₁, o₂, h₁, h₂, rfl⟩ := ih.mp hr
      exact ⟨t', o ++ o₁, o₂, run_cons.mpr ⟨t, o, o₁, hs, h₁, rfl⟩, h₂, by simp⟩
    · rintro ⟨t', _, o₂, hr, h₂, rfl⟩
      obtain ⟨t, o, o₁, hs, h₁, rfl⟩ := run_cons.mp hr
      exact ⟨t, o, o₁ ++ o₂, hs, ih.mpr ⟨t', o₁, o₂, h₁, h₂, rfl⟩, by simp⟩

theorem run_singleton : run s [e] = some (t, o) ↔ step s e = some (t, o) := by
  rw [run_cons]
  constructor
  · rintro ⟨t', o', _, hs, hn, rfl⟩
    obtain ⟨rfl, rfl⟩ := run_nil.mp hn
    simpa using hs
  · exact fun h => ⟨t, o, [], h, rfl, by simp⟩

theorem run_snoc (h : run s events = some (t, o)) (he : step t e = some (u, o')) :
    run s (events ++ [e]) = some (u, o ++ o') :=
  run_append.mpr ⟨t, o, o', h, run_singleton.mpr he, rfl⟩

theorem run_induction {P : List (Event κ ι) → List (Notice κ ι) → State κ ι → Prop}
    (start : P [] [] s)
    (next : ∀ events o t e u o', run s events = some (t, o) → P events o t → step t e = some (u, o') →
      P (events ++ [e]) (o ++ o') u)
    (h : run s events = some (t, out)) : P events out t := by
  suffices hs : ∀ (later done : List (Event κ ι)) o t, run s done = some (t, o) → P done o t →
      ∀ u o', run t later = some (u, o') → P (done ++ later) (o ++ o') u by
    simpa using hs events [] [] s rfl start t out h
  intro later
  induction later with
  | nil =>
    intro done o t _ hp u o' hr
    obtain ⟨rfl, rfl⟩ := run_nil.mp hr
    simpa using hp
  | cons e later ih =>
    intro done o t hd hp u o' hr
    obtain ⟨t', o₁, o₂, hs, hl, rfl⟩ := run_cons.mp hr
    have := ih (done ++ [e]) (o ++ o₁) t' (run_snoc hd hs) (next done o t e t' o₁ hd hp hs) u o₂ hl
    simpa using this

theorem run_preserves {P : State κ ι → Prop} (next : ∀ {s e t o}, P s → step s e = some (t, o) → P t)
    (hs : P s) (h : run s events = some (t, out)) : P t :=
  run_induction (P := fun _ _ t => P t) hs (fun _ _ _ _ _ _ _ hp he => next hp he) h

/-! ## Observers -/

def observe (note : State κ ι → Event κ ι → Effect κ ι → List α) (s : State κ ι) :
    List (Event κ ι) → List α
  | [] => []
  | e :: later =>
    match step s e with
    | some effect => note s e effect ++ observe note effect.1 later
    | none => []

variable {note : State κ ι → Event κ ι → Effect κ ι → List α}

theorem observe_append (h : run s events = some (t, o)) :
    observe note s (events ++ later) = observe note s events ++ observe note t later := by
  induction events generalizing s o with
  | nil => obtain ⟨rfl, rfl⟩ := run_nil.mp h; rfl
  | cons e events ih =>
    obtain ⟨t', o₁, o₂, hs, hr, rfl⟩ := run_cons.mp h
    rw [List.cons_append]
    simp only [observe, hs]
    rw [ih hr, List.append_assoc]

theorem observe_snoc (h : run s events = some (t, o)) (he : step t e = some (u, o')) :
    observe note s (events ++ [e]) = observe note s events ++ note t e (u, o') := by
  rw [observe_append h]
  simp [observe, he]

theorem mem_observe {x : α} (h : run s events = some (t, out)) (hx : x ∈ observe note s events) :
    ∃ before e after u v o₁ o₂ o₃, events = before ++ e :: after ∧ run s before = some (u, o₁) ∧
      step u e = some (v, o₂) ∧ run v after = some (t, o₃) ∧ out = o₁ ++ o₂ ++ o₃ ∧
      x ∈ note u e (v, o₂) := by
  induction events generalizing s out with
  | nil => cases hx
  | cons e events ih =>
    obtain ⟨u, o, o', hs, hr, rfl⟩ := run_cons.mp h
    simp only [observe, hs, List.mem_append] at hx
    rcases hx with hx | hx
    · exact ⟨[], e, events, s, u, [], o, o', rfl, rfl, hs, hr, rfl, hx⟩
    · obtain ⟨before, e', after, u', v, o₁, o₂, o₃, rfl, h₁, h₂, h₃, rfl, hn⟩ := ih hr hx
      refine ⟨e :: before, e', after, u', v, o ++ o₁, o₂, o₃, rfl, ?_, h₂, h₃, by simp, hn⟩
      exact run_cons.mpr ⟨u, o, o₁, hs, h₁, rfl⟩

def acceptances (s : State κ ι) (events : List (Event κ ι)) : List (Acceptance κ ι) :=
  observe (fun _ e effect => (accepted? e effect).toList) s events

theorem acceptances_append (h : run s events = some (t, o)) :
    acceptances s (events ++ later) = acceptances s events ++ acceptances t later := observe_append h

theorem acceptances_snoc (h : run s events = some (t, o)) (he : step t e = some (u, o')) :
    acceptances s (events ++ [e]) = acceptances s events ++ (accepted? e (u, o')).toList :=
  observe_snoc h he

end WriteBehind.Queue
