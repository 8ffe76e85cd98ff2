import Mathlib.Data.List.Nodup
import WriteBehind.Proofs.Queue.Closing

/-!
# Shutdown of the workers

A closed queue refuses every write, so nothing becomes pending behind a worker that exits. What is then
outstanding is with workers that still run, and each of them retires its entry before it exits.
-/

namespace WriteBehind.Queue

variable {κ ι : Type} [DecidableEq κ] {s₀ s t u : State κ ι} {out o : List (Notice κ ι)}
  {events later : List (Event κ ι)} {a? : Option (Acceptance κ ι)} {e : Event κ ι} {w : Nat}

/-! ## Entries that have retired -/

omit [DecidableEq κ] in
def Notice.drained? : Notice κ ι → Option (Claimed κ ι)
  | .drained entry _ => some entry
  | _ => none

omit [DecidableEq κ] in
def retired (out : List (Notice κ ι)) : List (Claimed κ ι) := out.filterMap Notice.drained?

omit [DecidableEq κ] in
theorem mem_retired {d : Claimed κ ι} : d ∈ retired out ↔ ∃ r, .drained d r ∈ out := by
  unfold retired
  rw [List.mem_filterMap]
  constructor
  · intro ⟨n, hn, hd⟩
    cases n with
    | drained d' r => cases hd; exact ⟨r, hn⟩
    | _ => cases hd
  · intro ⟨r, hn⟩
    exact ⟨_, hn, rfl⟩

omit [DecidableEq κ] in
theorem retired_append (out o : List (Notice κ ι)) : retired (out ++ o) = retired out ++ retired o :=
  List.filterMap_append

theorem Turn.retired_cases (h : Turn s t o a?) :
    retired o = [] ∨ ∃ (w : Nat) (d : Claimed κ ι) (r : Outcome),
      retired o = [d] ∧ s.workers[w]? = some (.retiring d r) := by
  by_cases hr : retired o = []
  · exact .inl hr
  · obtain ⟨d, hd⟩ := List.exists_mem_of_ne_nil _ hr
    obtain ⟨r, hn⟩ := mem_retired.mp hd
    obtain ⟨ho, _, _, w, move⟩ := h.drained hn
    exact .inr ⟨w, d, r, by rw [ho]; rfl, move.before⟩

/-! ## Workers that have exited -/

theorem Turn.keeps_exited (h : Turn s t o a?) (hw : s.workers[w]? = some .exited) :
    t.workers[w]? = some .exited := by
  rcases h.moves with hs | ⟨w', ph, ph', move, hp, _⟩
  · rw [hs]
    exact hw
  · rw [move.worker]
    by_cases heq : w' = w
    · subst heq
      have hb := move.before
      rw [hw] at hb
      cases hb
      cases hp
    · rw [if_neg heq]
      exact hw

omit [DecidableEq κ] in
theorem State.running_of_draining {d : Claimed κ ι} (h : s.draining w = some d) :
    ∃ ph, s.workers[w]? = some ph ∧ ph.isExited = false ∧ ph.entry? = some d := by
  obtain ⟨ph, hw, he⟩ := Option.bind_eq_some_iff.mp h
  refine ⟨ph, hw, ?_, he⟩
  cases ph with
  | exited => cases he
  | _ => rfl

variable [Named κ] {config : QueueConfig} {connections : List Connection}

theorem exited_lasts (hs : Tended s) (hw : s.workers[w]? = some .exited) (hr : run s events = some (t, out)) :
    t.workers[w]? = some .exited := by
  apply run_induction (P := fun _ _ t => t.workers[w]? = some .exited) hw _ hr
  intro events o t e u o' hr hw he
  exact (step_turn (hs.run hr).balanced he).keeps_exited hw

omit [Named κ] in
theorem Staffed.outstanding {n : Nat} {q : Sequence} (h : Staffed n s) (hs : Tended s)
    (hw : s.workers[w]? = some .exited) (hq : q ∈ s.buffer.outstanding) :
    ∃ (w' : Nat) (ph : Phase κ ι) (d : Claimed κ ι), s.workers[w']? = some ph ∧ ph.isExited = false ∧
      ph.entry? = some d ∧ d.sequence = q ∧ s.buffer.inFlight.get? d.key = some q := by
  rcases (hs.valid.mem_outstanding q).mp hq with ⟨k, p, hp, _⟩ | ⟨k, hk⟩
  · rw [(h.exited w hw).2 k] at hp
    cases hp
  · obtain ⟨w', d, hd, rfl, rfl⟩ := (hs.flight k q).mp hk
    obtain ⟨ph, hph, hrun, he⟩ := State.running_of_draining hd
    exact ⟨w', ph, d, hph, hrun, he, rfl, hk⟩

/-! ## Closed queues -/

theorem closed_lasts (hc : s.closed = true) (hr : run s events = some (t, out)) : t.closed = true :=
  run_preserves (P := fun s => s.closed = true) (fun hc he => (step_shift he).1 hc) hc hr

theorem closed_refuses {id : Nat} (hc : s.closed = true) (owned : s.abandoned = false)
    (free : s.call? id = none) (key : κ) (item : ι) :
    (∀ fenced, step s (.enqueue id key item fenced) = some (s, [.returned id (.error .closed)])) ∧
      step s (.tryEnqueue id key item) = some (s, [.returned id (.error .closed)]) := by
  constructor
  · intro fenced
    apply issue_eq_some.mpr
    simp [owned, free, State.enqueue, hc]
  · apply issue_eq_some.mpr
    simp [owned, free, State.tryEnqueue, hc]

/-! ## Runs -/

theorem Begins.retired_nodup (h : Begins config connections s₀) (hr : run s₀ events = some (t, out)) :
    ((retired out).map (·.sequence)).Nodup := by
  apply run_induction (P := fun _ out _ => ((retired out).map (·.sequence)).Nodup) _ _ hr
  · simp [retired]
  · intro events o t e u o' hr hn he
    have ht := h.tended.run hr
    rw [retired_append, List.map_append]
    rcases (step_turn ht.balanced he).retired_cases with ho | ⟨w, d, r, ho, hw⟩
    · rw [ho]
      simpa using hn
    · -- The entry is in flight, and what has retired is not outstanding any more.
      have hd : t.draining w = some d := by
        unfold State.draining
        rw [hw]
        rfl
      have hmem := ht.valid.flight_mem (ht.flight_of hd)
      have hnew : d.sequence ∉ (retired o).map (·.sequence) := by
        intro hm
        obtain ⟨d', hd', hq⟩ := List.mem_map.mp hm
        obtain ⟨r', hn'⟩ := mem_retired.mp hd'
        apply (h.attempts hr).gone d' r' hn'
        rw [hq]
        exact hmem
      rw [ho]
      refine List.nodup_append.mpr ⟨hn, by simp, ?_⟩
      intro q hq q' hq' he
      rw [List.map_singleton, List.mem_singleton] at hq'
      exact hnew (hq' ▸ he ▸ hq)

/-- Workers shut down safely. A worker exits only when the queue is closed and nothing is pending. From
the moment the queue is closed it refuses every write. Once a worker has exited nothing is pending, and
what is outstanding is in flight on workers that have not exited; once all have exited the depth is 0 and
the entry of every accepted write has been drained exactly once. -/
theorem workers_exit_safely (h₀ : Begins config connections s₀) (hr : run s₀ events = some (t, out)) :
    (∀ e u o (w : Nat), step t e = some (u, o) → t.workers[w]? ≠ some .exited → u.workers[w]? = some .exited →
      t.closed = true ∧ ∀ k, t.buffer.pending.get? k = none) ∧
    (t.closed = true → ∀ later u o, run t later = some (u, o) → ∀ id, u.abandoned = false →
      u.call? id = none → ∀ key item,
        (∀ fenced, step u (.enqueue id key item fenced) = some (u, [.returned id (.error .closed)])) ∧
        step u (.tryEnqueue id key item) = some (u, [.returned id (.error .closed)])) ∧
    (∀ w : Nat, t.workers[w]? = some .exited → ∀ later u o, run t later = some (u, o) →
      (∀ k, u.buffer.pending.get? k = none) ∧
      ∀ q ∈ u.buffer.outstanding, ∃ (w' : Nat) (ph : Phase κ ι) (d : Claimed κ ι), u.workers[w']? = some ph ∧
        ph.isExited = false ∧ ph.entry? = some d ∧ d.sequence = q ∧ u.buffer.inFlight.get? d.key = some q) ∧
    (AllExited t → t.depth = 0 ∧
      ∀ a ∈ acceptances s₀ events, ((retired out).map (·.sequence)).count a.sequence = 1) := by
  have ht := h₀.tended.run hr
  refine ⟨?_, ?_, ?_, ?_⟩
  · intro e u o w he hn hw
    obtain ⟨hc, hp⟩ := ((step_turn ht.balanced he).exited hw).resolve_left hn
    exact ⟨hc, Table.size_eq_zero.mp hp⟩
  · intro hc later u o hu id owned free key item
    exact closed_refuses (closed_lasts hc hu) owned free key item
  · intro w hw later u o hu
    have hsu := run_append.mpr ⟨t, out, o, hr, hu, rfl⟩
    have hstaff := (h₀.staffed hsu).2
    have hw' := exited_lasts ht hw hu
    exact ⟨(hstaff.exited w hw').2, fun q hq => hstaff.outstanding (h₀.tended.run hsu) hw' hq⟩
  · intro hx
    obtain ⟨hpos, hstaff⟩ := h₀.staffed hr
    have hnil := hstaff.drained hpos ht hx
    refine ⟨congrArg List.length hnil, ?_⟩
    intro a ha
    have hsettled := (h₀.attempts hr).settled a ha
    rw [hnil] at hsettled
    obtain ⟨d, r, hd, hq, _⟩ := hsettled.resolve_left (by simp)
    apply List.count_eq_one_of_mem (h₀.retired_nodup hr)
    exact List.mem_map.mpr ⟨d, mem_retired.mpr ⟨r, hd⟩, hq⟩

def letGo : List (Event String Nat) :=
  [.enqueue 1 "a" 1 false, .work 0, .work 0, .work 0, .work 0, .enqueue 1 "a" 2 false, .abandon, .expire,
    .finish 0 (.ok ()), .work 0, .work 0, .work 1, .work 1, .work 0, .work 0]

def wornDown : List (Event String Nat) :=
  [.work 1, .work 1, .finish 1 (.error .timeout), .work 1, .work 1, .work 1, .work 1]

theorem workers_exit_safely_abandoned : ∃ (s₀ t u : State String Nat) (out o : _),
    Begins pair [⟨0, 0⟩] s₀ ∧ run s₀ letGo = some (t, out) ∧ run t wornDown = some (u, o) ∧
    t.workers[0]? = some .exited ∧ t.buffer.outstanding = [⟨2⟩] ∧
    (∃ (w : Nat) (ph : Phase String Nat) (d : Claimed String Nat), t.workers[w]? = some ph ∧
      ph.isExited = false ∧ ph.entry? = some d ∧ d.sequence = ⟨2⟩ ∧
      t.buffer.inFlight.get? d.key = some ⟨2⟩) ∧
    AllExited u ∧ u.depth = 0 ∧ (acceptances s₀ (letGo ++ wornDown)).map (·.item) = [1, 2] ∧
    ∀ a ∈ acceptances s₀ (letGo ++ wornDown),
      ((retired (out ++ o)).map (·.sequence)).count a.sequence = 1 := by
  obtain ⟨s₀, t, u, out, o, h₀, ht, hu, hw, ho, hx, ha⟩ : ∃ (s₀ t u : State String Nat) (out o : _),
      Begins pair [⟨0, 0⟩] s₀ ∧ run s₀ letGo = some (t, out) ∧ run t wornDown = some (u, o) ∧
      t.workers[0]? = some .exited ∧ t.buffer.outstanding = [⟨2⟩] ∧
      u.workers = List.replicate 2 .exited ∧ (acceptances s₀ (letGo ++ wornDown)).map (·.item) = [1, 2] :=
    ⟨_, _, _, _, _, ⟨_, rfl, rfl⟩, rfl, rfl, rfl, rfl, rfl, rfl⟩
  have hall : AllExited u := by
    intro w ph hph
    rw [hx] at hph
    rw [(List.mem_replicate.mp (List.mem_of_getElem? hph)).2]
    rfl
  have hsu := run_append.mpr ⟨t, out, o, ht, hu, rfl⟩
  have hflight := ((workers_exit_safely h₀ ht).2.2.1 0 hw [] t [] rfl).2 ⟨2⟩ (by rw [ho]; simp)
  have hdrained := (workers_exit_safely h₀ hsu).2.2.2 hall
  exact ⟨s₀, t, u, out, o, h₀, ht, hu, hw, ho, hflight, hall, hdrained.1, ha, hdrained.2⟩

end WriteBehind.Queue
