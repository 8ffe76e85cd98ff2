import WriteBehind.Proofs.Queue.Schedule

/-!
# Rounds of the schedule

When no worker can move, the calls that wait look, and all begins again. There are rounds enough: the queue
is at rest after the last one.
-/

namespace WriteBehind.Queue

variable {σ κ ι : Type} {s t u : State κ ι} {out : List (Notice κ ι)} {id w n : Nat} {c : Call}
  {ph : Phase κ ι}

theorem State.further_le (s : State κ ι) : s.further ≤ s.calls.length * 5 := by
  have hle := List.sum_le_card_nsmul (s.phases.map CallPhase.effort) 5 fun n hn => by
    obtain ⟨phase, _, rfl⟩ := List.mem_map.mp hn
    cases phase <;> simp [CallPhase.effort]
  simpa [State.further, State.phases] using hle

theorem isAsleep_eq_false : Scene.isAsleep s id = false ↔ ∀ c, s.call? id = some c → c.woken = true := by
  unfold Scene.isAsleep
  cases s.call? id <;> simp

variable [DecidableEq κ] [Named κ] {r r' : Scene σ κ ι} {stores : Stores σ κ ι}

/-! ## Looks -/

/-- Nothing has happened from one state to the other but that some calls fell asleep. -/
structure Lulled (s t : State κ ι) : Prop where
  workers : t.workers = s.workers
  bell : t.bell = s.bell
  pool : t.pool = s.pool
  looks : ∀ id, s.look id = none → t.look id = none

omit [DecidableEq κ] in
theorem Lulled.refl (s : State κ ι) : Lulled s s := ⟨rfl, rfl, rfl, fun _ h => h⟩

omit [DecidableEq κ] in
theorem Lulled.trans (h : Lulled s t) (h' : Lulled t u) : Lulled s u :=
  ⟨h'.workers.trans h.workers, h'.bell.trans h.bell, h'.pool.trans h.pool,
    fun id hn => h'.looks id (h.looks id hn)⟩

omit [Named κ] in
theorem Keeps.work (h : Keeps s w ph) (hw : s.workers[w]? = some ph) : s.work w = none := by
  unfold State.work
  simp only [hw, bind, Option.bind_some]
  cases h with
  | idle listed unready => simp [listed, unready]
  | borrowing drain opened turn => simp [Pool.collect, opened, turn]
  | storing | exited => rfl

theorem Lulled.atRest (h : Lulled s t) (hs : s.AtRest) : t.AtRest := by
  intro w
  cases hw : t.workers[w]? with
  | none => exact work_of_none hw
  | some ph =>
    refine Keeps.work ?_ hw
    cases keeps_of_work (h.workers ▸ hw) (hs w) with
    | idle listed unready => exact .idle (h.bell ▸ listed) (h.bell ▸ unready)
    | borrowing drain opened turn =>
      exact .borrowing drain (by rw [h.pool]; exact opened) (by rw [h.pool]; exact turn)
    | storing drain conn => exact .storing drain conn
    | exited => exact .exited

omit [DecidableEq κ] in
theorem look_asleep_lulled (hc : s.call? id = some c) (dozes : c.phase.dozes = true) :
    Lulled s (s.mapCall id fun c => { c with woken := false }) ∧
      (s.mapCall id fun c => { c with woken := false }).look id = none := by
  have hself := State.call?_mapCall_self (f := fun c => { c with woken := false }) (fun _ => rfl) hc
  have hnone := State.look_dozing hself rfl dozes
  refine ⟨⟨rfl, rfl, rfl, fun id' hn => ?_⟩, hnone⟩
  by_cases hid : id = id'
  · subst hid
    exact hnone
  · have hother := State.call?_mapCall_of_ne s (fun c => { c with woken := false }) (fun _ => rfl) hid
    cases hc' : s.call? id' with
    | none =>
      rw [hc'] at hother
      unfold State.look
      rw [hother]
      rfl
    | some c' =>
      have hcall := hother.trans hc'
      unfold State.look at hn ⊢
      simp only [hc', hcall, bind, Option.bind_some] at hn ⊢
      cases hp : c'.phase with
      | stalled | fence | closing =>
        simp only [hp] at hn ⊢
        split at hn
        · rename_i hw
          rw [if_pos hw]
        · split at hn <;> cases hn
      | joining flushed workers =>
        simp only [hp] at hn ⊢
        split at hn
        · cases hn
        · rename_i hall
          exact if_neg hall
      | borrowing =>
        simp only [hp] at hn ⊢
        split at hn
        · cases hn
        · rename_i hl
          have hl : (s.mapCall id fun c => { c with woken := false }).pool.collect (.call id') = _ := hl
          rw [hl]
        · cases hn
      | holding => rfl
      | _ => simp [hp] at hn

def Scene.look? (r : Scene σ κ ι) (id : Nat) : Option (Scene σ κ ι) :=
  (step r.queue (.look id)).map fun effect =>
    { r with queue := effect.1, notices := r.notices ++ effect.2 }

theorem lookTimes_succ (n : Nat) : r.lookTimes id (n + 1) =
    match r.look? id with
    | none => (false, r)
    | some r' => if Scene.isAsleep r'.queue id then (false, r') else (true, (r'.lookTimes id n).2) := by
  unfold Scene.look?
  rw [Scene.lookTimes]
  cases step r.queue (.look id) <;> rfl

theorem look?_plays (h : r.look? id = some r') : r.Plays r' := by
  obtain ⟨⟨t, out⟩, hs, rfl⟩ := Option.map_eq_some_iff.mp h
  exact .single hs rfl rfl

theorem look?_further (hr : Coherent r.queue) (h : r.look? id = some r') :
    Scene.isAsleep r'.queue id = true ∧ Lulled r.queue r'.queue ∧ r'.queue.look id = none ∧
        r'.queue.further = r.queue.further ∨
      Scene.isAsleep r'.queue id = false ∧ r'.queue.further < r.queue.further := by
  obtain ⟨⟨t, out⟩, hs, rfl⟩ := Option.map_eq_some_iff.mp h
  obtain ⟨c, hc, looks⟩ := look_cases hs
  obtain ⟨rfl, rfl, _, blocked⟩ | further := looks.furthers hr.distinct hc
  · obtain ⟨hlulled, hnone⟩ := look_asleep_lulled hc blocked.dozes
    refine .inl ⟨?_, hlulled, hnone, ?_⟩
    · unfold Scene.isAsleep
      rw [State.call?_mapCall_self (f := fun c => { c with woken := false }) (fun _ => rfl) hc]
      rfl
    · show (r.queue.mapCall id fun c => { c with woken := false }).further = _
      have hphases := State.phases_mapCall r.queue id (h := fun c => { c with woken := false }) fun _ => rfl
      unfold State.further
      rw [hphases]
  · exact .inr ⟨isAsleep_eq_false.mpr (further.awake (hr.dozing.woken hc hs)), further.further⟩

variable (r) in
theorem lookTimes_looks (id n : Nat) :
    Relation.ReflTransGen (fun r r' => Scene.look? r id = some r') r (r.lookTimes id n).2 := by
  induction n generalizing r with
  | zero => exact .refl
  | succ n ih =>
    rw [lookTimes_succ]
    cases hl : r.look? id with
    | none => exact .refl
    | some r' =>
      simp only
      split
      · exact .single hl
      · exact .head hl (ih r')

variable (r) in
theorem lookTimes_plays (id n : Nat) : r.Plays (r.lookTimes id n).2 := by
  have hlooks := lookTimes_looks r id n
  generalize (r.lookTimes id n).2 = r' at hlooks
  induction hlooks with
  | refl => exact .refl r
  | tail _ hl ih => exact ih.trans (look?_plays hl)

theorem lookTimes_further (hr : Coherent r.queue) (id n : Nat) :
    (r.lookTimes id n).2.queue.further ≤ r.queue.further ∧
      ((r.lookTimes id n).1 = true → (r.lookTimes id n).2.queue.further < r.queue.further) := by
  induction n generalizing r with
  | zero => exact ⟨Nat.le_refl _, nofun⟩
  | succ n ih =>
    rw [lookTimes_succ]
    cases hl : r.look? id with
    | none => exact ⟨Nat.le_refl _, nofun⟩
    | some r' =>
      rcases look?_further hr hl with ⟨asleep, _, _, hsame⟩ | ⟨awake, hless⟩
      · simp only [asleep, if_true]
        exact ⟨hsame.le, nofun⟩
      · obtain ⟨hle, _⟩ := ih ((look?_plays hl).coherent hr)
        simp only [awake, Bool.false_eq_true, if_false]
        exact ⟨by omega, fun _ => by omega⟩

theorem lookTimes_lulled (hr : Coherent r.queue) (h : (r.lookTimes id (n + 1)).1 = false) :
    Lulled r.queue (r.lookTimes id (n + 1)).2.queue ∧ (r.lookTimes id (n + 1)).2.queue.look id = none := by
  rw [lookTimes_succ] at h ⊢
  cases hl : r.look? id with
  | none => exact ⟨.refl _, Option.map_eq_none_iff.mp hl⟩
  | some r' =>
    rw [hl] at h
    rcases look?_further hr hl with ⟨asleep, hlulled, hnone, _⟩ | ⟨awake, _⟩
    · simp only [asleep, if_true]
      exact ⟨hlulled, hnone⟩
    · simp [awake] at h

/-! ## Looks of all calls -/

variable (r) in
theorem lookAll_plays (ids : List Nat) : r.Plays (Scene.lookAll Scene.lookAt ids r).2 := by
  induction ids generalizing r with
  | nil => exact .refl r
  | cons id rest ih => exact (lookTimes_plays r id 5).trans (ih (r.lookTimes id 5).2)

theorem lookAll_further (hr : Coherent r.queue) (ids : List Nat) :
    (Scene.lookAll Scene.lookAt ids r).2.queue.further ≤ r.queue.further ∧
      ((Scene.lookAll Scene.lookAt ids r).1 = true →
        (Scene.lookAll Scene.lookAt ids r).2.queue.further < r.queue.further) := by
  induction ids generalizing r with
  | nil => exact ⟨Nat.le_refl _, nofun⟩
  | cons id rest ih =>
    have hr' := (lookTimes_plays r id 5).coherent hr
    obtain ⟨hle, hless⟩ := lookTimes_further hr id 5
    obtain ⟨hle', hless'⟩ := ih hr'
    refine ⟨hle'.trans hle, fun hmoved => ?_⟩
    rcases Bool.or_eq_true_iff.mp hmoved with hmoved | hmoved
    · exact hle'.trans_lt (hless hmoved)
    · exact (hless' hmoved).trans_le hle

theorem lookAll_lulled (hr : Coherent r.queue) {ids : List Nat}
    (h : (Scene.lookAll Scene.lookAt ids r).1 = false) :
    Lulled r.queue (Scene.lookAll Scene.lookAt ids r).2.queue ∧
      ∀ id ∈ ids, (Scene.lookAll Scene.lookAt ids r).2.queue.look id = none := by
  induction ids generalizing r with
  | nil => exact ⟨.refl _, nofun⟩
  | cons id rest ih =>
    obtain ⟨hfirst, hrest⟩ := Bool.or_eq_false_iff.mp h
    have hr' := (lookTimes_plays r id 5).coherent hr
    obtain ⟨hlulled, hnone⟩ := lookTimes_lulled (n := 4) hr hfirst
    obtain ⟨hlulled', hnone'⟩ := ih hr' hrest
    refine ⟨hlulled.trans hlulled', fun id' hm => ?_⟩
    rcases List.mem_cons.mp hm with rfl | hm
    · exact hlulled'.looks _ hnone
    · exact hnone' id' hm

/-! ## Rounds -/

def Scene.lookEach (r : Scene σ κ ι) : Bool × Scene σ κ ι :=
  Scene.lookAll Scene.lookAt (r.queue.calls.map (·.id)) r

theorem rounds_succ (n : Nat) : r.rounds stores Scene.lookAt (n + 1) =
    if ((r.runWorkers stores).apply .expire).lookEach.1 then
      ((r.runWorkers stores).apply .expire).lookEach.2.rounds stores Scene.lookAt n
    else ((r.runWorkers stores).apply .expire).lookEach.2.runWorkers stores := by
  rw [Scene.rounds]
  unfold Scene.lookEach
  split <;> rename_i hl <;> simp [hl]

variable (r stores) in
theorem runWorkers_further : (r.runWorkers stores).queue.further = r.queue.further := by
  unfold State.further
  rw [runs_phases (runWorkers_runs r stores)]

omit [DecidableEq κ] in
theorem look_of_absent (h : s.call? id = none) : s.look id = none := by
  unfold State.look
  rw [h]
  rfl

theorem lookEach_plays (r : Scene σ κ ι) : r.Plays r.lookEach.2 := lookAll_plays r _

theorem lookEach_further (hr : Coherent r.queue) : r.lookEach.2.queue.further ≤ r.queue.further ∧
    (r.lookEach.1 = true → r.lookEach.2.queue.further < r.queue.further) := lookAll_further hr _

theorem lookEach_settled (hr : Coherent r.queue) (hrest : r.queue.AtRest) (h : r.lookEach.1 = false) :
    Settled r.lookEach.2.queue := by
  obtain ⟨hlulled, hnone⟩ := lookAll_lulled hr h
  refine ⟨hlulled.atRest hrest, fun id => ?_⟩
  by_cases hm : id ∈ r.queue.calls.map (·.id)
  · exact hnone id hm
  · exact hlulled.looks id (look_of_absent (State.call?_eq_none.mpr hm))

theorem rounds_plays (r : Scene σ κ ι) (stores : Stores σ κ ι) (n : Nat) :
    r.Plays (r.rounds stores Scene.lookAt n) := by
  induction n generalizing r with
  | zero => exact .refl r
  | succ n ih =>
    have hworkers := runs_plays (runWorkers_runs r stores)
    have hlooks := (hworkers.trans (Scene.apply_plays _ .expire)).trans (lookEach_plays _)
    rw [rounds_succ]
    split
    · exact hlooks.trans (ih _)
    · exact hlooks.trans (runs_plays (runWorkers_runs _ stores))

variable (stores) in
theorem rounds_settled (hr : Coherent r.queue) (hn : r.queue.further < n) :
    Settled (r.rounds stores Scene.lookAt n).queue := by
  induction n generalizing r with
  | zero => omega
  | succ n ih =>
    have hr₁ := (runs_plays (runWorkers_runs r stores)).coherent hr
    have hrest := runWorkers_rest stores hr
    have hfurther := runWorkers_further r stores
    rw [rounds_succ]
    generalize r.runWorkers stores = r₁ at hr₁ hrest hfurther ⊢
    cases hexpire : step r₁.queue .expire with
    | none =>
      rw [Scene.apply_of_none hexpire]
      split
      · rename_i hmoved
        have hless := (lookEach_further hr₁).2 hmoved
        exact ih ((lookEach_plays r₁).coherent hr₁) (by omega)
      · rename_i hstill
        have hsettled := lookEach_settled hr₁ hrest (by simpa using hstill)
        rwa [runWorkers_of_rest hsettled.1]
    | some effect =>
      -- The last call has returned before, and what is left are the workers.
      obtain ⟨t, out⟩ := effect
      rw [Scene.apply_eq hexpire]
      cases step_cases hexpire with
      | made _ _ _ _ _ _ _ makes => cases makes.call
      | expire abandoned alone opened =>
        have hr₂ : Coherent r₁.queue.shutDown := hr₁.step hexpire
        have hcalls : r₁.queue.shutDown.calls = [] := by
          show r₁.queue.calls.map _ = []
          rw [alone]
          rfl
        simp only [Scene.lookEach, hcalls, List.map_nil, Scene.lookAll, Bool.false_eq_true, if_false]
        refine ⟨runWorkers_rest stores hr₂, fun id => look_of_absent ?_⟩
        have hphases := runs_phases (runWorkers_runs
          { r₁ with queue := r₁.queue.shutDown, notices := r₁.notices ++ [Notice.closed] } stores)
        have hnone : r₁.queue.shutDown.phases = [] := List.map_eq_nil_iff.mpr hcalls
        have hnone := List.map_eq_nil_iff.mp (hphases.trans hnone)
        exact State.call?_eq_none.mpr (by simp [hnone])

/-- What happens on the schedule is a run, and it stops where nothing can move. -/
theorem settle_settled (stores : Stores σ κ ι) (hr : Coherent r.queue) :
    r.Plays (r.settle stores Scene.lookAt) ∧ Settled (r.settle stores Scene.lookAt).queue := by
  refine ⟨rounds_plays r stores _, rounds_settled stores hr ?_⟩
  have hle := r.queue.further_le
  omega

end WriteBehind.Queue
