import Mathlib.Logic.Relation
import WriteBehind.Proofs.Queue.Rest
import WriteBehind.Queue.Schedule

/-!
# Workers on their schedule

The schedule lets workers run in a fixed order, and stops after so many moves. It never stops too early: no
worker can move then.
-/

namespace WriteBehind.Queue

variable {σ κ ι : Type} {s₀ s t u : State κ ι} {out : List (Notice κ ι)} {e : Event κ ι}
  {events later : List (Event κ ι)} {id w n : Nat} {c : Call} {ph ph' : Phase κ ι}

/-! ## Calls that sleep -/

def State.Dozing (s : State κ ι) : Prop :=
  ∀ id c, s.call? id = some c → c.woken = false → c.phase.dozes = true

variable [DecidableEq κ] [Named κ]

theorem State.Dozing.woken (hs : s.Dozing) (hc : s.call? id = some c) (h : step s (.look id) = some (t, out)) :
    c.woken = true := by
  by_contra hw
  have hw : c.woken = false := by simpa using hw
  have hnone := State.look_dozing hc hw (hs id c hc hw)
  rw [show step s (.look id) = s.look id from rfl, hnone] at h
  cases h

theorem State.Dozing.step (hs : s.Dozing) (hd : s.Distinct) (hb : s.pool.Balanced)
    (h : step s e = some (t, out)) : t.Dozing := by
  intro id c hc hw
  by_cases hid : e.call? = some id
  · cases step_cases h with
    | made id' _ _ _ owned a? free makes =>
      cases hid.symm.trans makes.call
      obtain ⟨phase?, hnew, _⟩ := (makes.made hb owned free).issued
      rw [hc] at hnew
      obtain ⟨phase, _, rfl⟩ := Option.map_eq_some_iff.mp hnew.symm
      cases hw
    | request _ conn holds =>
      cases hid
      obtain ⟨c', hc', hp⟩ := Option.map_eq_some_iff.mp holds
      rw [State.call?_goOn hc'] at hc
      cases hc
      have hdozes := hs id c' hc' hw
      rw [hp] at hdozes
      cases hdozes
    | giveBack =>
      cases hid
      rw [State.call?_leave, if_pos rfl] at hc
      cases hc
    | look _ c' _ _ hc' looks =>
      cases hid
      obtain ⟨rfl, _, _, blocked⟩ | further := looks.furthers hd hc'
      · have hself := State.call?_mapCall_self (f := fun c => { c with woken := false }) (fun _ => rfl) hc'
        cases hself.symm.trans hc
        exact blocked.dozes
      · rw [further.awake (hs.woken hc' h) c hc] at hw
        cases hw
    | _ => cases hid
  · obtain ⟨hsame, _⟩ | hwake := (step_aside h hid).call
    · exact hs id c (hsame ▸ hc) hw
    · rw [hwake] at hc
      obtain ⟨c', _, rfl⟩ := Option.map_eq_some_iff.mp hc
      cases hw

structure Coherent (s : State κ ι) : Prop where
  tended : Tended s
  distinct : s.Distinct
  lending : Lending s
  dozing : s.Dozing

theorem Coherent.step (hs : Coherent s) (h : step s e = some (t, out)) : Coherent t :=
  ⟨hs.tended.step h, hs.distinct.step h, hs.lending.step hs.tended.balanced hs.distinct h,
    hs.dozing.step hs.distinct hs.tended.balanced h⟩

theorem Coherent.run (hs : Coherent s) (h : run s events = some (t, out)) : Coherent t :=
  run_preserves (fun hs he => hs.step he) hs h

theorem Begins.coherent {config : QueueConfig} {connections : List Connection}
    (h : Begins config connections s) : Coherent s := by
  have hstart : run s [] = some (s, []) := rfl
  refine ⟨h.tended, h.distinct hstart, h.lending hstart, fun id c hc => ?_⟩
  rw [h.call? id] at hc
  cases hc

/-! ## Moves of a worker in a scene -/

def Scene.Plays (r r' : Scene σ κ ι) : Prop :=
  ∃ events out, run r.queue events = some (r'.queue, out) ∧ r'.notices = r.notices ++ out

section
variable {r r' r'' : Scene σ κ ι} {stores : Stores σ κ ι} {drain : Drain κ ι} {conn : Connection}

namespace Scene

theorem Plays.refl (r : Scene σ κ ι) : r.Plays r := ⟨[], [], run_nil.mpr ⟨rfl, rfl⟩, by simp⟩

theorem Plays.trans (h : r.Plays r') (h' : r'.Plays r'') : r.Plays r'' := by
  obtain ⟨events, out, hr, hn⟩ := h
  obtain ⟨later, out', hr', hn'⟩ := h'
  exact ⟨events ++ later, out ++ out', run_append.mpr ⟨_, out, out', hr, hr', rfl⟩,
    by rw [hn', hn, List.append_assoc]⟩

theorem Plays.single (he : step r.queue e = some (t, out)) (hq : r'.queue = t)
    (hn : r'.notices = r.notices ++ out) : r.Plays r' :=
  ⟨[e], out, run_singleton.mpr (hq ▸ he), hn⟩

theorem Plays.coherent (h : r.Plays r') (hr : Coherent r.queue) : Coherent r'.queue := by
  obtain ⟨events, out, hrun, _⟩ := h
  exact hr.run hrun

theorem apply_eq (he : step r.queue e = some (t, out)) :
    r.apply e = { r with queue := t, notices := r.notices ++ out } := by
  unfold apply
  rw [he]

theorem apply_of_none (he : step r.queue e = none) : r.apply e = r := by
  unfold apply
  rw [he]

theorem apply_plays (r : Scene σ κ ι) (e : Event κ ι) : r.Plays (r.apply e) := by
  cases he : step r.queue e with
  | none =>
    rw [apply_of_none he]
    exact .refl r
  | some effect =>
    rw [apply_eq he]
    exact .single he rfl rfl

theorem moveWorker_eq_none : r.moveWorker stores w = none ↔ step r.queue (.work w) = none := by
  unfold moveWorker
  cases step r.queue (.work w) with
  | none => simp
  | some effect =>
    simp only [bind, Option.bind_some, reduceCtorEq, iff_false]
    split
    · simp
    · split <;> simp

end Scene

def Scene.invoke (r : Scene σ κ ι) (w : Nat) (drain : Drain κ ι) (c : Connection) (shared : σ) :
    Scene σ κ ι where
  queue := r.queue.setWorker w (.storing drain c.use)
  shared := shared
  notices := r.notices ++ [.invoked w drain.entry c.use]

/-- How a worker moves in a scene. A store that ends at once has ended after the move. -/
inductive Scene.Moved (stores : Stores σ κ ι) (w : Nat) (r : Scene σ κ ι) : Scene σ κ ι → Prop where
  | moves (t : State κ ι) (out : List (Notice κ ι)) (work : step r.queue (.work w) = some (t, out))
    (silent : Scene.invoked? out = none) : Moved stores w r { r with queue := t, notices := r.notices ++ out }
  | begins (drain : Drain κ ι) (c : Connection) (shared : σ)
    (before : r.queue.workers[w]? = some (.ready drain c))
    (begin : stores.begin r.shared r.queue.now w drain.entry = (none, shared)) :
    Moved stores w r (r.invoke w drain c shared)
  | stores (drain : Drain κ ι) (c : Connection) (shared : σ) (outcome : Outcome)
    (before : r.queue.workers[w]? = some (.ready drain c))
    (begin : stores.begin r.shared r.queue.now w drain.entry = (some outcome, shared)) :
    Moved stores w r ((r.invoke w drain c shared).apply (.finish w outcome))

theorem moveWorker_cases (h : r.moveWorker stores w = some r') : Scene.Moved stores w r r' := by
  unfold Scene.moveWorker at h
  obtain ⟨⟨t, out⟩, hs, h⟩ := Option.bind_eq_some_iff.mp h
  cases hi : Scene.invoked? out with
  | none =>
    simp only [hi] at h
    cases h
    exact .moves t out hs hi
  | some entry =>
    cases work_cases hs with
    | begun drain c before =>
      cases hi
      cases hb : stores.begin r.shared r.queue.now w drain.entry with
      | mk outcome? shared =>
        have hb' : stores.begin r.shared (r.queue.setWorker w (.storing drain c.use)).now w drain.entry =
          (outcome?, shared) := hb
        simp only [Scene.invoked?, hb'] at h
        cases outcome? with
        | none =>
          cases h
          exact .begins drain c shared before hb
        | some outcome =>
          cases h
          exact .stores drain c shared outcome before hb
    | _ => cases hi

theorem invoke_plays (before : r.queue.workers[w]? = some (.ready drain conn)) (shared : σ) :
    r.Plays (r.invoke w drain conn shared) := by
  have hwork : step r.queue (.work w) =
      some (r.queue.setWorker w (.storing drain conn.use), [.invoked w drain.entry conn.use]) := by
    show r.queue.work w = _
    unfold State.work
    rw [before]
    rfl
  exact .single hwork rfl rfl

theorem invoke_finish (before : r.queue.workers[w]? = some (.ready drain conn)) (shared : σ)
    (outcome : Outcome) : step (r.invoke w drain conn shared).queue (.finish w outcome) =
      some ({ (r.invoke w drain conn shared).queue with pool := r.queue.pool.giveBack conn.use }.endDrain w
        drain outcome, []) := by
  have hlt : w < r.queue.workers.length := (List.getElem?_eq_some_iff.mp before).1
  have hself : (r.invoke w drain conn shared).queue.workers[w]? = some (.storing drain conn.use) := by
    simp [Scene.invoke, State.setWorker, hlt]
  exact step_finish hself outcome

theorem Scene.Moved.plays (h : Scene.Moved stores w r r') : r.Plays r' := by
  cases h with
  | moves t out work => exact .single work rfl rfl
  | begins drain c shared before => exact invoke_plays before shared
  | stores drain c shared outcome before =>
    have hfinish := invoke_finish before shared outcome
    refine (invoke_plays before shared).trans (.single hfinish ?_ ?_)
    · rw [Scene.apply_eq hfinish]
    · rw [Scene.apply_eq hfinish]

theorem Scene.Moved.phases (h : Scene.Moved stores w r r') : r'.queue.phases = r.queue.phases := by
  cases h with
  | moves t out work => exact (work_cases work).phases
  | begins => rfl
  | stores drain c shared outcome before =>
    rw [Scene.apply_eq (invoke_finish before shared outcome)]
    rfl

/-! ## Runs of a worker -/

/-- No more moves than this are left to the workers, if nobody else moves. -/
def State.labour (s : State κ ι) : Nat := 3 * (s.workers.length + 1) * s.toil + s.unrest

omit [DecidableEq κ] [Named κ] in
theorem labour_lt_of_toil (hw : t.workers.length = s.workers.length) (h : t.toil < s.toil) :
    t.labour < s.labour := by
  have hunrest := unrest_le t
  have hmore : 3 * (s.workers.length + 1) * (t.toil + 1) ≤ 3 * (s.workers.length + 1) * s.toil :=
    Nat.mul_le_mul_left _ h
  rw [Nat.mul_succ] at hmore
  unfold State.labour
  rw [hw] at hunrest ⊢
  omega

omit [Named κ] in
theorem Works.labour (hv : s.buffer.Valid) (h : Works s w t out) : t.labour < s.labour := by
  obtain ⟨_, _, move, _⟩ := h.moves
  obtain htoil | ⟨htoil, _, hunrest⟩ := h.toil hv
  · exact labour_lt_of_toil move.length htoil
  · unfold State.labour
    rw [move.length, htoil]
    exact Nat.add_lt_add_left hunrest _

omit [DecidableEq κ] [Named κ] in
theorem Scene.labour_lt_reach (r : Scene σ κ ι) : r.queue.labour < r.reach := by
  have hunrest := unrest_le r.queue
  have htally : r.queue.tally Phase.effort ≤ r.queue.workers.length * 7 :=
    tally_le _ fun ph => by cases ph <;> simp [Phase.effort]
  have htoil : r.queue.toil + 1 ≤ 7 * r.queue.workers.length + 8 * r.queue.buffer.order.length + 1 := by
    unfold State.toil
    omega
  have hmore : 3 * (r.queue.workers.length + 1) * (r.queue.toil + 1) ≤ r.reach := Nat.mul_le_mul_left _ htoil
  rw [Nat.mul_succ] at hmore
  unfold State.labour
  omega

theorem Scene.Moved.labour (hr : Coherent r.queue) (h : Scene.Moved stores w r r') :
    r'.queue.labour < r.queue.labour := by
  cases h with
  | moves t out work => exact (work_cases work).labour hr.tended.valid
  | begins drain c shared before =>
    exact Works.labour hr.tended.valid (.begun drain c before)
  | stores drain c shared outcome before =>
    rw [Scene.apply_eq (invoke_finish before shared outcome)]
    have move : Moves r.queue ({ (r.invoke w drain c shared).queue with
        pool := r.queue.pool.giveBack c.use }.endDrain w drain outcome) w (.ready drain c)
      (.ended drain.entry outcome) := ⟨before, List.set_set ..⟩
    exact labour_lt_of_toil move.length (move.toil rfl (by simp [Phase.effort]))

def Scene.Runs (stores : Stores σ κ ι) (r r' : Scene σ κ ι) : Prop := ∃ w, r.moveWorker stores w = some r'

theorem runs_plays (h : Relation.ReflTransGen (Scene.Runs stores) r r') : r.Plays r' := by
  induction h with
  | refl => exact .refl r
  | tail _ hm ih =>
    obtain ⟨w, hm⟩ := hm
    exact ih.trans (moveWorker_cases hm).plays

theorem runs_phases (h : Relation.ReflTransGen (Scene.Runs stores) r r') :
    r'.queue.phases = r.queue.phases := by
  induction h with
  | refl => rfl
  | tail _ hm ih =>
    obtain ⟨w, hm⟩ := hm
    exact (moveWorker_cases hm).phases.trans ih

variable (r stores) in
theorem runSteps_runs (w n : Nat) : Relation.ReflTransGen (Scene.Runs stores) r (r.runSteps stores w n) := by
  induction n generalizing r with
  | zero => exact .refl
  | succ n ih =>
    unfold Scene.runSteps
    cases hm : r.moveWorker stores w with
    | none => exact .refl
    | some r' => exact .head ⟨w, hm⟩ (ih r')

theorem Scene.Runs.labour (hr : Coherent r.queue) (h : Scene.Runs stores r r') :
    Coherent r'.queue ∧ r'.queue.labour < r.queue.labour := by
  obtain ⟨w, hm⟩ := h
  have hmoved := moveWorker_cases hm
  exact ⟨hmoved.plays.coherent hr, hmoved.labour hr⟩

theorem runs_labour (hr : Coherent r.queue) (h : Relation.ReflTransGen (Scene.Runs stores) r r') :
    Coherent r'.queue ∧ r'.queue.labour ≤ r.queue.labour := by
  induction h with
  | refl => exact ⟨hr, Nat.le_refl _⟩
  | tail _ hm ih =>
    obtain ⟨hcoherent, hless⟩ := hm.labour ih.1
    exact ⟨hcoherent, hless.le.trans ih.2⟩

variable (stores) in
theorem runWorker_labour (hr : Coherent r.queue) (hw : step r.queue (.work w) ≠ none) :
    (r.runWorker stores w).queue.labour < r.queue.labour := by
  obtain ⟨n, hreach⟩ := Nat.exists_eq_succ_of_ne_zero (Nat.ne_zero_of_lt r.labour_lt_reach)
  unfold Scene.runWorker
  rw [hreach, Scene.runSteps]
  cases hm : r.moveWorker stores w with
  | none => exact absurd (Scene.moveWorker_eq_none.mp hm) hw
  | some r' =>
    obtain ⟨hr', hless⟩ := Scene.Runs.labour hr ⟨w, hm⟩
    exact (runs_labour hr' (runSteps_runs r' stores w n)).2.trans_lt hless

/-! ## Runs of all workers -/

/-- No worker can move. -/
def State.AtRest (s : State κ ι) : Prop := ∀ w, step s (.work w) = none

omit [Named κ] in
theorem work_of_none (hw : s.workers[w]? = none) : s.work w = none := by
  unfold State.work
  rw [hw]
  rfl

theorem nextWorker?_eq_none : Scene.nextWorker? s = none ↔ s.AtRest := by
  unfold Scene.nextWorker?
  rw [List.find?_eq_none]
  constructor
  · intro h w
    by_cases hw : w < s.workers.length
    · have hm : w ∈ Scene.candidates s := by simp [Scene.candidates, hw]
      simpa using h w hm
    · exact work_of_none (List.getElem?_eq_none (Nat.not_lt.mp hw))
  · intro h w _
    simp [h w]

theorem runTurns_of_rest (h : r.queue.AtRest) (n : Nat) : r.runTurns stores n = r := by
  cases n with
  | zero => rfl
  | succ n =>
    unfold Scene.runTurns
    rw [nextWorker?_eq_none.mpr h]

variable (r stores) in
theorem runTurns_runs (n : Nat) : Relation.ReflTransGen (Scene.Runs stores) r (r.runTurns stores n) := by
  induction n generalizing r with
  | zero => exact .refl
  | succ n ih =>
    unfold Scene.runTurns
    cases Scene.nextWorker? r.queue with
    | none => exact .refl
    | some w => exact (runSteps_runs r stores w r.reach).trans (ih _)

variable (stores) in
theorem runTurns_rest (hr : Coherent r.queue) (hn : r.queue.labour < n) :
    (r.runTurns stores n).queue.AtRest := by
  induction n generalizing r with
  | zero => cases hn
  | succ n ih =>
    unfold Scene.runTurns
    cases hnext : Scene.nextWorker? r.queue with
    | none => exact nextWorker?_eq_none.mp hnext
    | some w =>
      have hmoves : step r.queue (.work w) ≠ none := by
        have := List.find?_some hnext
        simpa [Option.isSome_iff_ne_none] using this
      have hless := runWorker_labour stores hr hmoves
      exact ih (runs_labour hr (runSteps_runs r stores w r.reach)).1 (by omega)

variable (stores) in
theorem runWorkers_rest (hr : Coherent r.queue) : (r.runWorkers stores).queue.AtRest :=
  runTurns_rest stores hr r.labour_lt_reach

variable (r stores) in
theorem runWorkers_runs : Relation.ReflTransGen (Scene.Runs stores) r (r.runWorkers stores) :=
  runTurns_runs r stores _

theorem runWorkers_of_rest (h : r.queue.AtRest) : r.runWorkers stores = r := runTurns_of_rest h _

end

end WriteBehind.Queue
