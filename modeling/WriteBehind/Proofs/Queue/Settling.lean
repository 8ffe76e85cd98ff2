import Mathlib.Algebra.Order.BigOperators.Group.Finset
import Mathlib.Data.List.Basic
import WriteBehind.Proofs.Queue.Barrier
import WriteBehind.Proofs.Queue.Closing
import WriteBehind.Proofs.Queue.Lending
import WriteBehind.Proofs.Queue.Wakeups

/-!
# Settling

Left to themselves, the workers and the waiting calls come to rest after so many moves at most. At rest
everybody who waits has a reason to: a store that has not ended, or a connection that a caller keeps.
-/

namespace WriteBehind.Queue

variable {κ ι : Type} {s₀ s t u : State κ ι} {out o : List (Notice κ ι)} {e : Event κ ι} {id w : Nat}
  {c : Call} {events moves : List (Event κ ι)}

/-! ## What is left to do -/

def Phase.effort : Phase κ ι → Nat
  | .exited => 0
  | .idle => 1
  | .retiring .. => 2
  | .ended .. => 3
  | .storing .. => 4
  | .ready .. => 5
  | .borrowing _ => 6
  | .claimed _ => 7

def CallPhase.effort : CallPhase → Nat
  | .fence _ | .ending _ | .holding _ => 1
  | .stalled .. | .joining .. | .borrowing => 2
  | .stopping _ => 3
  | .flushed _ => 4
  | .closing _ => 5

def State.toil (s : State κ ι) : Nat := s.tally Phase.effort + 8 * s.buffer.order.length

def State.further (s : State κ ι) : Nat := (s.phases.map CallPhase.effort).sum

/-- What lowers this number is done once and for all. -/
def State.ahead (s : State κ ι) : Nat := s.toil + s.further + if s.closed then 0 else 1

/-- What an idle worker does before it sleeps: it asks if it is not on the list, and looks. -/
def Bell.unrest (b : Bell) (v : Nat) : Phase κ ι → Nat
  | .idle => (if v ∈ b.alert then 1 else 0) + if v ∈ b.waiters then 0 else 2
  | _ => 0

def State.unrest (s : State κ ι) : Nat :=
  weigh s.bell.unrest s.workers + if s.bell.permit then 2 else 0

def State.awake (s : State κ ι) : Nat := s.calls.countP (·.woken)

/-- No more moves than this are left. Each thing that is done may wake all calls and all workers, and each
of them then looks once. -/
def State.effort (s : State κ ι) : Nat :=
  (s.calls.length + 3 * (s.workers.length + 1)) * s.ahead + s.awake + s.unrest

def Event.advances : Event κ ι → Bool
  | .work _ | .look _ | .finish .. | .giveBack .. | .expire => true
  | _ => false

theorem weigh_le {f : Nat → Phase κ ι → Nat} {n : Nat} (h : ∀ v ph, f v ph ≤ n) (workers : List (Phase κ ι)) :
    weigh f workers ≤ n * workers.length := by
  have hle : weigh f workers ≤ ∑ _v ∈ Finset.range workers.length, n := by
    refine Finset.sum_le_sum fun v _ => ?_
    cases workers[v]? with
    | none => exact Nat.zero_le n
    | some ph => exact h v ph
  simpa [Nat.mul_comm] using hle

theorem unrest_le (s : State κ ι) : s.unrest < 3 * (s.workers.length + 1) := by
  have hle := weigh_le (f := s.bell.unrest) (n := 3) (fun v ph => by
    cases ph with
    | idle => simp only [Bell.unrest]; split <;> split <;> omega
    | _ => exact Nat.zero_le 3) s.workers
  unfold State.unrest
  split <;> omega

theorem State.further_eq (s : State κ ι) : s.further = s.total (fun _ => 0) CallPhase.effort := by
  simp [State.further, State.total]

theorem effort_lt_of_ahead (hc : t.calls.length ≤ s.calls.length) (hw : t.workers.length = s.workers.length)
    (ha : t.ahead < s.ahead) : t.effort < s.effort := by
  have hawake : t.awake ≤ t.calls.length := List.countP_le_length
  have hunrest := unrest_le t
  have hmono : (t.calls.length + 3 * (t.workers.length + 1)) * t.ahead ≤
      (s.calls.length + 3 * (s.workers.length + 1)) * t.ahead := Nat.mul_le_mul_right _ (by omega)
  have hmore : (s.calls.length + 3 * (s.workers.length + 1)) * (t.ahead + 1) ≤
      (s.calls.length + 3 * (s.workers.length + 1)) * s.ahead := Nat.mul_le_mul_left _ ha
  rw [Nat.mul_succ] at hmore
  unfold State.effort
  omega

theorem ahead_lt_of_toil (htoil : t.toil < s.toil) (hfurther : t.further = s.further)
    (hclosed : t.closed = s.closed) : t.ahead < s.ahead := by
  unfold State.ahead
  rw [hfurther, hclosed]
  omega

/-! ### Workers -/

theorem Moves.length {ph ph' : Phase κ ι} (move : Moves s t w ph ph') : t.workers.length = s.workers.length := by
  rw [move.after, List.length_set]

theorem Moves.toil {ph ph' : Phase κ ι} (move : Moves s t w ph ph') (horder : t.buffer.order = s.buffer.order)
    (hl : ph'.effort < ph.effort) : t.toil < s.toil := by
  have hsum := move.tally Phase.effort
  unfold State.toil
  rw [horder]
  omega

theorem unrest_lt (before : s.workers[w]? = some .idle) (workers : t.workers = s.workers)
    (agrees : ∀ v, v ≠ w → s.bell.Agrees t.bell v)
    (less : t.bell.unrest w (.idle : Phase κ ι) + (if t.bell.permit then 2 else 0) <
      s.bell.unrest w (.idle : Phase κ ι) + if s.bell.permit then 2 else 0) : t.unrest < s.unrest := by
  have hsum := weigh_congr (f := s.bell.unrest) (g := t.bell.unrest) before fun v hv ph => by
    have h := agrees v hv
    cases ph <;> simp [Bell.unrest, h.alert, h.waiters]
  unfold State.unrest
  rw [workers]
  omega

theorem Works.toil [DecidableEq κ] (hv : s.buffer.Valid) (h : Works s w t out) :
    t.toil < s.toil ∨ t.toil = s.toil ∧ t.calls = s.calls ∧ t.unrest < s.unrest := by
  cases h with
  | asked before unready unlisted =>
    refine .inr ⟨rfl, rfl, unrest_lt before rfl (fun v hv => s.bell.ask_agrees hv) ?_⟩
    show (s.bell.ask w).unrest w (.idle : Phase κ ι) + (if (s.bell.ask w).permit then 2 else 0) < _
    rw [Bell.ask_eq]
    by_cases hp : s.bell.permit = true <;> simp [hp, Bell.unrest, unready, unlisted]
  | claimed entry buffer before alert claim =>
    -- The entry leaves the order, which weighs more than a worker that has claimed one.
    obtain ⟨_, _, l₁, l₂, horder, _, hbuffer⟩ := hv.claim_some claim
    have move : Moves s ({ s with
        buffer
        bell := s.bell.look w
        counters := s.counters.beginDrain }.setWorker w (.claimed ⟨entry, s.now⟩)) w .idle
        (.claimed ⟨entry, s.now⟩) := ⟨before, rfl⟩
    have hsum := move.tally Phase.effort
    have hafter : buffer.order = l₁ ++ l₂ := by rw [hbuffer]
    refine .inl ?_
    unfold State.toil
    simp only [Phase.effort] at hsum
    show _ + 8 * buffer.order.length < _
    rw [horder, hafter, List.length_append, List.length_append, List.length_cons]
    omega
  | exited _ before => exact .inl (Moves.toil ⟨before, rfl⟩ rfl (by simp [Phase.effort]))
  | slept _ before alert =>
    refine .inr ⟨rfl, rfl, unrest_lt before rfl (fun v hv => s.bell.look_agrees hv) ?_⟩
    have hlist : (s.bell.look w).waiters = s.bell.waiters := rfl
    have hnot : w ∉ (s.bell.look w).alert := by simp [Bell.look]
    show (s.bell.look w).unrest w (.idle : Phase κ ι) + (if s.bell.permit then 2 else 0) < _
    simp only [Bell.unrest, hnot, hlist, alert, if_true, if_false]
    omega
  | lent drain c pool asks =>
    obtain ⟨before, _⟩ | ⟨before, _⟩ := asks
    · exact .inl (Moves.toil ⟨before, rfl⟩ rfl (by simp [Phase.effort]))
    · exact .inl (Moves.toil ⟨before, rfl⟩ rfl (by simp [Phase.effort]))
  | waits drain pool before => exact .inl (Moves.toil ⟨before, rfl⟩ rfl (by simp [Phase.effort]))
  | refused drain e pool asks =>
    obtain ⟨before, _⟩ | ⟨before, _⟩ := asks
    · exact .inl (Moves.toil ⟨before, rfl⟩ rfl (by simp [Phase.effort]))
    · exact .inl (Moves.toil ⟨before, rfl⟩ rfl (by simp [Phase.effort]))
  | begun drain c before => exact .inl (Moves.toil ⟨before, rfl⟩ rfl (by simp [Phase.effort]))
  | noted entry outcome before =>
    cases outcome with
    | ok | error => exact .inl (Moves.toil ⟨before, rfl⟩ rfl (by simp [Phase.effort]))
  | retired entry outcome before => exact .inl (Moves.toil ⟨before, rfl⟩ rfl (by simp [Phase.effort]))

theorem Works.closed [DecidableEq κ] (h : Works s w t out) : t.closed = s.closed := by
  cases h with
  | noted _ outcome => cases outcome <;> rfl
  | _ => rfl

theorem Works.phases [DecidableEq κ] (h : Works s w t out) : t.phases = s.phases := by
  cases h with
  | noted _ outcome => cases outcome <;> rfl
  | retired => exact State.phases_wakeAll s
  | _ => rfl

theorem Works.calls_length [DecidableEq κ] (h : Works s w t out) : t.calls.length = s.calls.length := by
  have hlength := congrArg List.length h.phases
  simpa [State.phases] using hlength

theorem Works.effort [DecidableEq κ] (hv : s.buffer.Valid) (h : Works s w t out) : t.effort < s.effort := by
  have hfurther : t.further = s.further := by unfold State.further; rw [h.phases]
  obtain ⟨_, _, move, _⟩ := h.moves
  obtain htoil | ⟨htoil, hcalls, hunrest⟩ := h.toil hv
  · exact effort_lt_of_ahead h.calls_length.le move.length (ahead_lt_of_toil htoil hfurther h.closed)
  · have hahead : t.ahead = s.ahead := by
      unfold State.ahead
      rw [htoil, hfurther, h.closed]
    unfold State.effort State.awake
    rw [hcalls, move.length, hahead]
    exact Nat.add_lt_add_left hunrest _

/-! ### Calls -/

structure Furthers (s t : State κ ι) (id : Nat) (woken : Bool) : Prop where
  further : t.further < s.further
  length : t.calls.length ≤ s.calls.length
  workers : t.workers = s.workers
  order : t.buffer.order = s.buffer.order
  closed : s.closed = true → t.closed = true
  awake : woken = true → ∀ d, t.call? id = some d → d.woken = true

theorem Furthers.effort {woken : Bool} (h : Furthers s t id woken) : t.effort < s.effort := by
  have hfurther := h.further
  refine effort_lt_of_ahead h.length (congrArg _ h.workers) ?_
  unfold State.ahead State.toil
  rw [h.order, tally_congr h.workers]
  by_cases hc : s.closed = true
  · simp only [hc, h.closed hc, if_true]
    omega
  · simp only [hc]
    split <;> simp <;> omega

theorem Alike.goOn_furthers {phase : CallPhase} (h : Alike s u id c) (hlength : u.calls.length = s.calls.length)
    (horder : u.buffer.order = s.buffer.order) (hclosed : s.closed = true → u.closed = true)
    (hawake : c.woken = true → ∀ d, u.call? id = some d → d.woken = true)
    (hl : phase.effort < c.phase.effort) : Furthers s (u.goOn id phase) id c.woken := by
  refine ⟨?_, ((List.length_map _).trans hlength).le, h.workers, horder, hclosed, fun hw d hd => ?_⟩
  · have hsum := h.total_goOn (f := fun _ => 0) (g := CallPhase.effort) phase
    rw [State.further_eq, State.further_eq]
    omega
  · obtain ⟨c', hc', _⟩ := h.call
    rw [State.call?_goOn hc'] at hd
    cases hd
    exact hawake hw c' hc'

theorem Alike.leave_furthers (h : Alike s u id c) (hlength : u.calls.length = s.calls.length)
    (horder : u.buffer.order = s.buffer.order) (hclosed : u.closed = s.closed) (hl : 0 < c.phase.effort) :
    Furthers s (u.leave id) id c.woken := by
  refine ⟨?_, (List.length_filter_le _ _).trans hlength.le, h.workers, horder, fun hc => hclosed.trans hc,
    fun _ d hd => ?_⟩
  · have hsum := h.total_leave (f := fun _ => 0) (g := CallPhase.effort)
    rw [State.further_eq, State.further_eq]
    omega
  · rw [State.call?_leave, if_pos rfl] at hd
    cases hd

theorem Looks.furthers [Named κ] (hd : s.Distinct) (hc : s.call? id = some c) (h : Looks s id c t out) :
    t = (s.mapCall id fun c => { c with woken := false }) ∧ out = [] ∧ c.woken = true ∧ Blocked s c.phase ∨
      Furthers s t id c.woken := by
  have awake : c.woken = true → ∀ d, s.call? id = some d → d.woken = true := by
    intro hw d hd
    rw [hc] at hd
    cases hd
    exact hw
  cases h with
  | asleep woken blocked => exact .inl ⟨rfl, rfl, woken, blocked⟩
  | released receipt phase =>
    exact .inr ((hd.alike hc rfl rfl).leave_furthers rfl rfl rfl (by simp [phase, CallPhase.effort]))
  | fenced receipt phase =>
    refine .inr ⟨?_, ?_, rfl, rfl, fun h => h, fun _ d hd => ?_⟩
    · have hsum := State.total_wait (f := fun _ => 0) (g := CallPhase.effort)
        { s.leave id with counters := (s.leave id).counters.recordFlush } id (.fence s.buffer.last)
      have hleave := (hd.alike hc rfl rfl).total_leave (f := fun _ => 0) (g := CallPhase.effort)
      have hsum : ((s.leave id).barrier id).1.total (fun _ => 0) CallPhase.effort =
        (s.leave id).total (fun _ => 0) CallPhase.effort + 1 := hsum
      rw [phase] at hleave
      simp only [CallPhase.effort] at hleave
      rw [State.further_eq, State.further_eq]
      omega
    · have hbefore := (State.calls_leave hd hc).length_eq
      have hafter := (State.calls_wait { s.leave id with counters := (s.leave id).counters.recordFlush } id
        (.fence s.buffer.last)).length_eq
      simp only [List.length_cons] at hbefore hafter
      exact Nat.le_of_eq (hafter.trans hbefore.symm)
    · rw [State.call?_barrier] at hd
      cases hd
      rfl
  | reported target phase =>
    exact .inr ((hd.alike hc (u := { s with failure := none }) rfl rfl).leave_furthers rfl rfl rfl
      (by simp [phase, CallPhase.effort]))
  | flushed target phase =>
    exact .inr ((hd.alike hc (u := { s with failure := none }) rfl rfl).goOn_furthers rfl rfl (fun h => h) awake
      (by simp [phase, CallPhase.effort]))
  | shut flushed phase =>
    refine .inr ((hd.alike_shut hc).goOn_furthers (List.length_map _) rfl (fun _ => rfl) (fun _ d hd => ?_)
      (by simp [phase, CallPhase.effort]))
    rw [State.call?_shutDown hc] at hd
    cases hd
    rfl
  | taken flushed phase =>
    exact .inr ((hd.alike hc (u := { s with unjoined := [] }) rfl rfl).goOn_furthers rfl rfl (fun h => h) awake
      (by simp [phase, CallPhase.effort]))
  | joined flushed workers phase =>
    exact .inr ((hd.alike hc (u := { s with pool := s.pool.close.2 }) rfl rfl).goOn_furthers rfl rfl
      (fun h => h) awake (by simp [phase, CallPhase.effort]))
  | ended flushed phase =>
    exact .inr ((hd.alike hc (u := { s with failure := heldBehind s.failure flushed }) rfl rfl).leave_furthers
      rfl rfl rfl (by simp [phase, CallPhase.effort]))
  | lent conn pool phase =>
    exact .inr ((hd.alike hc (u := { s with pool }) rfl rfl).goOn_furthers rfl rfl (fun h => h) awake
      (by simp [phase, CallPhase.effort]))
  | refused error pool phase =>
    exact .inr ((hd.alike hc (u := { s with pool }) rfl rfl).leave_furthers rfl rfl rfl
      (by simp [phase, CallPhase.effort]))

theorem Looks.effort [Named κ] (hd : s.Distinct) (hc : s.call? id = some c) (h : Looks s id c t out) :
    t.effort < s.effort := by
  obtain ⟨rfl, _, woken, _⟩ | further := h.furthers hd hc
  · -- Nothing is done, but one call less is awake.
    have hbefore := (State.calls_leave hd hc).countP_eq (·.woken)
    have hafter := (State.calls_mapCall hd hc fun c => { c with woken := false }).countP_eq (·.woken)
    have hphases : (s.mapCall id fun c => { c with woken := false }).phases = s.phases :=
      State.phases_mapCall s id fun _ => rfl
    have hahead : (s.mapCall id fun c => { c with woken := false }).ahead = s.ahead := by
      unfold State.ahead State.further
      rw [hphases]
      rfl
    have hlength : (s.mapCall id fun c => { c with woken := false }).calls.length = s.calls.length :=
      List.length_map _
    have hawake : (s.mapCall id fun c => { c with woken := false }).awake < s.awake := by
      unfold State.awake
      rw [hbefore, hafter]
      simp [woken]
    show _ * _ + _ + s.unrest < _
    rw [hahead, hlength]
    exact Nat.add_lt_add_right (Nat.add_lt_add_left hawake _) _
  · exact further.effort

/-! ### Runs -/

variable [DecidableEq κ] [Named κ]

theorem step_effort (hv : s.buffer.Valid) (hd : s.Distinct) (ha : e.advances = true)
    (h : step s e = some (t, out)) : t.effort < s.effort := by
  cases step_cases h with
  | giveBack id conn result holds =>
    obtain ⟨c, hc, hphase⟩ := Option.map_eq_some_iff.mp holds
    have hleaves := (hd.alike hc (u := { s with pool := s.pool.giveBack conn }) rfl rfl).leave_furthers
      rfl rfl rfl (by simp [hphase, CallPhase.effort])
    exact hleaves.effort
  | work w _ _ works => exact works.effort hv
  | finish w outcome drain conn before =>
    have move : Moves s ({ s with pool := s.pool.giveBack conn }.endDrain w drain outcome) w _
      (.ended drain.entry outcome) := ⟨before, rfl⟩
    have htoil := move.toil rfl (by simp [Phase.effort])
    exact effort_lt_of_ahead (Nat.le_refl _) move.length (ahead_lt_of_toil htoil rfl rfl)
  | look _ _ _ _ call looks => exact looks.effort hd call
  | expire _ alone opened =>
    refine effort_lt_of_ahead (List.length_map _).le rfl ?_
    have hphases : s.shutDown.phases = s.phases :=
      State.phases_wakeAll { s with closed := true, bell := s.bell.ringAll }
    unfold State.ahead State.further
    rw [hphases, opened]
    exact Nat.lt_succ_self _
  | made id e _ _ _ _ _ makes =>
    cases makes with
    | refused _ _ asks => cases e <;> simp [Event.asks, Event.advances] at asks ha
    | _ => cases ha
  | _ => cases ha

theorem run_effort (hs : Tended s) (hd : s.Distinct) (ha : ∀ e ∈ moves, e.advances = true)
    (hr : run s moves = some (t, out)) : moves.length + t.effort ≤ s.effort := by
  induction moves generalizing s out with
  | nil =>
    obtain ⟨rfl, rfl⟩ := run_nil.mp hr
    simp
  | cons e moves ih =>
    obtain ⟨u, o, o', he, hu, rfl⟩ := run_cons.mp hr
    have hlt := step_effort hs.valid hd (ha e (by simp)) he
    have hrest := ih (hs.step he) (hd.step he) (fun e' he' => ha e' (List.mem_cons_of_mem _ he')) hu
    rw [List.length_cons]
    omega

/-! ## Queues at rest -/

/-- No worker and no waiting call can move. -/
def Settled (s : State κ ι) : Prop := (∀ w, step s (.work w) = none) ∧ ∀ id, step s (.look id) = none

theorem settled_iff : Settled s ↔
    (∀ w < s.workers.length, (step s (.work w)).isNone = true) ∧
      ∀ c ∈ s.calls, (step s (.look c.id)).isNone = true := by
  simp only [Settled, Option.isNone_iff_eq_none]
  constructor
  · intro ⟨hw, hl⟩
    exact ⟨fun w _ => hw w, fun c _ => hl c.id⟩
  · intro ⟨hw, hl⟩
    refine ⟨fun w => ?_, fun id => ?_⟩
    · by_cases hlt : w < s.workers.length
      · exact hw w hlt
      · have hnone : s.workers[w]? = none := by simpa using hlt
        simp [step, State.work, hnone]
    · cases hc : s.call? id with
      | none => simp [step, State.look, hc]
      | some c =>
        have := hl c (List.mem_of_find?_eq_some hc)
        rwa [State.call?_id hc] at this

instance (s : State κ ι) : Decidable (Settled s) := decidable_of_iff' _ settled_iff

theorem moves_of_not_settled (h : ¬ Settled s) : ∃ e : Event κ ι, ((∃ w, e = .work w) ∨ ∃ id, e = .look id) ∧
    e.advances = true ∧ ∃ t o, step s e = some (t, o) := by
  simp only [Settled, not_and_or, not_forall, Option.ne_none_iff_exists'] at h
  obtain ⟨w, ⟨t, o⟩, he⟩ | ⟨id, ⟨t, o⟩, he⟩ := h
  · exact ⟨.work w, .inl ⟨w, rfl⟩, rfl, t, o, he⟩
  · exact ⟨.look id, .inr ⟨id, rfl⟩, rfl, t, o, he⟩

theorem exists_settled (hs : Tended s) (hd : s.Distinct) :
    ∃ moves t o, (∀ e ∈ moves, (∃ w, e = .work w) ∨ ∃ id, e = .look id) ∧ run s moves = some (t, o) ∧
      Settled t := by
  generalize hn : s.effort = n
  induction n using Nat.strong_induction_on generalizing s with
  | _ n ih =>
    by_cases hsettled : Settled s
    · exact ⟨[], s, [], by simp, rfl, hsettled⟩
    · obtain ⟨e, hown, hadv, t, o, he⟩ := moves_of_not_settled hsettled
      have hlt := step_effort hs.valid hd hadv he
      obtain ⟨moves, u, o', hmoves, hr, hu⟩ := ih t.effort (hn ▸ hlt) (hs.step he) (hd.step he) rfl
      refine ⟨e :: moves, u, o ++ o', ?_, run_cons.mpr ⟨t, o, o', he, hr, rfl⟩, hu⟩
      intro e' he'
      rcases List.mem_cons.mp he' with rfl | hm
      · exact hown
      · exact hmoves e' hm

end WriteBehind.Queue
