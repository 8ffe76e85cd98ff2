import WriteBehind.Proofs.Queue.Accounts
import WriteBehind.Proofs.Queue.Custody
import WriteBehind.Proofs.Queue.Wakeups

/-!
# What a drain gives back

A drain ends in three steps of its worker, and others may come in between. The attempt ends and the connection
goes back, a failure is held, and the entry retires; then the worker is idle, and it asks to be woken and
claims what can be claimed. None of it depends on how the store ended.
-/

namespace WriteBehind.Queue

variable {κ ι : Type} [DecidableEq κ] {s₀ s t u : State κ ι} {out o : List (Notice κ ι)}
  {events : List (Event κ ι)}
  {e : Event κ ι} {w : Nat} {c : Connection} {drain : Drain κ ι} {ph : Phase κ ι} {outcome : Outcome}
  {entry : Claimed κ ι}

/-! ## Workers that are left alone -/

omit [DecidableEq κ] in
def Event.worker? : Event κ ι → Option Nat
  | .work w | .finish w _ => some w
  | _ => none

omit [DecidableEq κ] in
def Phase.isStoring : Phase κ ι → Bool
  | storing .. => true
  | _ => false

omit [DecidableEq κ] in
def failure? (entry : Claimed κ ι) : Outcome → Option (Failure κ)
  | .ok () => none
  | .error cause => some ⟨entry.key, entry.sequence, cause⟩

omit [DecidableEq κ] in
theorem hold_eq (s : State κ ι) (entry : Claimed κ ι) (outcome : Outcome) :
    s.hold entry outcome = { s with failure := s.failure <|> failure? entry outcome } := by
  cases outcome with
  | ok =>
    obtain ⟨⟩ := s
    simp [State.hold, failure?]
  | error => rfl

/-! ## The three steps -/

omit [DecidableEq κ] in
/-- The attempt of a drain has ended: one worker is less busy, and the drain counts as a failure unless its
outcome is good. -/
structure Ends (s t : State κ ι) (w : Nat) (entry : Claimed κ ι) (outcome : Outcome) : Prop where
  worker : t.workers = s.workers.set w (.ended entry outcome)
  busy : t.counters.busy + 1 = s.counters.busy
  drained : t.counters.drained = s.counters.drained + 1
  failed : t.counters.failed = s.counters.failed + (!outcome.isOk).toNat
  buffer : t.buffer = s.buffer
  failure : t.failure = s.failure

structure Notes (s t : State κ ι) (w : Nat) (entry : Claimed κ ι) (outcome : Outcome) : Prop where
  worker : t.workers = s.workers.set w (.retiring entry outcome)
  failure : t.failure = (s.failure <|> failure? entry outcome)
  buffer : t.buffer = s.buffer
  counters : t.counters = s.counters
  pool : t.pool = s.pool

/-- An entry has retired: its identity is not in flight any more, and of the sequences that had not drained
its own is gone. -/
structure Retires (s t : State κ ι) (w : Nat) (entry : Claimed κ ι) : Prop where
  worker : t.workers = s.workers.set w .idle
  awake : w ∉ t.bell.waiters
  flight : ∀ k, t.buffer.inFlight.get? k = if entry.key = k then none else s.buffer.inFlight.get? k
  outstanding : ∀ q, q ∈ t.buffer.outstanding ↔ q ∈ s.buffer.outstanding ∧ q ≠ entry.sequence
  depth : t.depth + 1 = s.depth
  pending : t.buffer.pending = s.buffer.pending
  failure : t.failure = s.failure
  counters : t.counters = s.counters
  pool : t.pool = s.pool

omit [DecidableEq κ] in
theorem Audited.ends (ha : Audited s) (hw : s.workers[w]? = some ph) (hph : ph.working = 1)
    (pool : Pool Connection Borrower) (drain : Drain κ ι) (outcome : Outcome) :
    Ends s ({ s with pool }.endDrain w drain outcome) w drain.entry outcome := by
  obtain ⟨_, length, busy, _, _⟩ := ha
  have hle := tally_le s Phase.working_le
  have hword : maxWorkers < wordSize := by decide
  have move : Moves s ({ s with pool }.endDrain w drain outcome) w ph (.ended drain.entry outcome) :=
    ⟨hw, rfl⟩
  have hworking := move.tally Phase.working
  have hended : (Phase.ended drain.entry outcome).working = 0 := rfl
  rw [hph, hended] at hworking
  obtain ⟨n, hn⟩ : ∃ n, s.counters.busy = n + 1 := ⟨s.counters.busy - 1, by omega⟩
  refine ⟨rfl, ?_, rfl, rfl, rfl, rfl⟩
  show wrap (s.counters.busy + maxWord) + 1 = s.counters.busy
  rw [hn, Counters.wrap_pred (by omega)]

/-! ## Workers that are left alone -/

variable [Named κ]

structure Bell.Spares (b b' : Bell) (w : Nat) : Prop where
  awake : w ∉ b.waiters → w ∉ b'.waiters
  alert : w ∈ b.alert → w ∈ b'.alert

omit [DecidableEq κ] [Named κ] in
theorem Bell.Spares.refl (b : Bell) (w : Nat) : b.Spares b w := ⟨id, id⟩

omit [DecidableEq κ] [Named κ] in
theorem Bell.Spares.of_subset {b b' : Bell} (hw : b'.waiters ⊆ b.waiters) (ha : b'.alert = b.alert) (w : Nat) :
    b.Spares b' w :=
  ⟨fun hn hm => hn (hw hm), fun hm => ha ▸ hm⟩

omit [DecidableEq κ] [Named κ] in
theorem Bell.Agrees.spares {b b' : Bell} (h : b.Agrees b' w) : b.Spares b' w :=
  ⟨fun hn hm => hn (h.waiters.mp hm), h.alert.mpr⟩

omit [DecidableEq κ] [Named κ] in
theorem Bell.Spares.trans {b b' b'' : Bell} (h : b.Spares b' w) (h' : b'.Spares b'' w) : b.Spares b'' w :=
  ⟨fun hn => h'.awake (h.awake hn), fun hm => h'.alert (h.alert hm)⟩

omit [DecidableEq κ] [Named κ] in
theorem Bell.ringOne_spares (b : Bell) (w : Nat) : b.Spares b.ringOne w :=
  .of_subset b.ringOne_subset b.ringOne_alert w

omit [DecidableEq κ] [Named κ] in
theorem Bell.ringAll_spares (b : Bell) (w : Nat) : b.Spares b.ringAll w := ⟨fun _ => List.not_mem_nil, id⟩

omit [DecidableEq κ] [Named κ] in
theorem Bell.leave_spares (b : Bell) (w' w : Nat) : b.Spares (b.leave w') w :=
  .of_subset (b.leave_subset w') (b.leave_alert w') w

omit [DecidableEq κ] [Named κ] in
theorem rung_spares (s : State κ ι) (claimable : Bool) (w : Nat) : s.bell.Spares (s.rung claimable) w :=
  .of_subset (s.rung_subset claimable) (s.rung_alert claimable) w

omit [Named κ] in
theorem Works.spares {w' : Nat} (h : Works s w' t out) (hne : w ≠ w') : s.bell.Spares t.bell w := by
  cases h with
  | asked => exact (s.bell.ask_agrees hne).spares
  | claimed | slept => exact (s.bell.look_agrees hne).spares
  | exited => exact (s.bell.look_agrees hne).spares.trans (Bell.leave_spares _ w' w)
  | noted entry outcome => cases outcome <;> exact .refl _ _
  | retired => exact (rung_spares s _ w).trans (Bell.leave_spares _ w' w)
  | _ => exact .refl _ _

theorem step_spares (h : step s e = some (t, out)) (he : e.worker? ≠ some w) : s.bell.Spares t.bell w := by
  have haccept : ∀ key item, s.bell.Spares (s.accept key item).2.bell w := by
    intro key item
    show s.bell.Spares (if _ then _ else _) w
    split
    · exact .refl _ _
    · exact s.bell.ringOne_spares w
  cases step_cases h with
  | made _ _ _ _ _ _ _ makes =>
    cases makes with
    | tried key item => exact haccept key item
    | written key item => exact haccept key item
    | fenced key item => exact haccept key item
    | stalled key item => exact haccept key item
    | _ => exact .refl _ _
  | work w' _ _ works => exact works.spares fun heq => he (congrArg some heq.symm)
  | look _ _ _ _ _ looks =>
    cases looks with
    | shut => exact s.bell.ringAll_spares w
    | _ => exact .refl _ _
  | expire => exact s.bell.ringAll_spares w
  | _ => exact .refl _ _

theorem step_worker_lasts (h : step s e = some (t, out)) (hw : s.workers[w]? = some ph)
    (he : e.worker? ≠ some w) : t.workers[w]? = some ph := by
  have hmove : ∀ {w' ph₀ ph₁}, Moves s t w' ph₀ ph₁ → e.worker? = some w' →
      t.workers[w]? = some ph := by
    intro w' ph₀ ph₁ move hw'
    obtain ⟨rfl, _⟩ | ⟨_, ht⟩ := move.at hw
    · exact absurd hw' he
    · exact ht
  cases step_cases h with
  | made _ _ _ _ _ _ _ makes => cases makes <;> exact hw
  | work w' _ _ works =>
    obtain ⟨_, _, move, _⟩ := works.moves
    exact hmove move rfl
  | finish w' outcome drain c before => exact hmove ⟨before, rfl⟩ rfl
  | look _ _ _ _ _ looks => cases looks <;> exact hw
  | _ => exact hw

theorem worker_lasts (hr : run s events = some (t, out)) (hw : s.workers[w]? = some ph)
    (he : ∀ e ∈ events, e.worker? ≠ some w) : t.workers[w]? = some ph ∧ s.bell.Spares t.bell w := by
  refine run_induction
    (P := fun events _ t => (∀ e ∈ events, e.worker? ≠ some w) →
      t.workers[w]? = some ph ∧ s.bell.Spares t.bell w)
    (fun _ => ⟨hw, .refl _ _⟩) ?_ hr he
  intro events o t e u o' _ ih hstep he
  obtain ⟨hbefore, hspared⟩ := ih fun e' he' => he e' (List.mem_append_left _ he')
  have he' := he e (by simp)
  exact ⟨step_worker_lasts hstep hbefore he', hspared.trans (step_spares hstep he')⟩

/-! ## Drains -/

/-- Every drain of a state gives everything back. Each worker that drains can take the step that is due, as it
is said here, and until it does so it stays where it is, whatever the others do. When its entry has retired
it is awake, and it claims an entry as soon as it has asked to be woken. -/
structure GivesBack (s : State κ ι) : Prop where
  stored : ∀ {w drain c}, s.workers[w]? = some (.storing drain c) → ∀ outcome, ∃ t,
    step s (.finish w outcome) = some (t, []) ∧
    t.pool = s.pool.giveBack c ∧ t.pool.idle = c :: s.pool.idle ∧
      Ends s t w drain.entry outcome
  refused : ∀ {w drain}, s.workers[w]? = some (.claimed drain) ∨ s.workers[w]? = some (.borrowing drain) →
    s.pool.closed = true → ∃ t, step s (.work w) = some (t, []) ∧ t.pool.idle = s.pool.idle ∧
      Ends s t w drain.entry refusal
  noted : ∀ {w entry outcome}, s.workers[w]? = some (.ended entry outcome) → ∃ t,
    step s (.work w) = some (t, []) ∧ Notes s t w entry outcome
  retired : ∀ {w entry outcome}, s.workers[w]? = some (.retiring entry outcome) → ∃ t,
    step s (.work w) = some (t, [.drained entry outcome]) ∧ Retires s t w entry
  asks : ∀ {w}, s.workers[w]? = some .idle → w ∉ s.bell.waiters → w ∉ s.bell.alert → ∃ t,
    step s (.work w) = some (t, []) ∧ t.workers = s.workers ∧ w ∈ t.bell.alert ∧ t.buffer = s.buffer
  claims : ∀ {w entry buffer}, s.workers[w]? = some .idle → w ∈ s.bell.alert →
    s.buffer.claim = (some entry, buffer) → ∃ t, step s (.work w) = some (t, []) ∧
      t.workers[w]? = some (.claimed ⟨entry, s.now⟩) ∧ t.buffer = buffer
  lasts : ∀ {w ph later t o}, s.workers[w]? = some ph → run s later = some (t, o) →
    (∀ e ∈ later, e.worker? ≠ some w) → t.workers[w]? = some ph ∧
      (w ∉ s.bell.waiters → w ∉ t.bell.waiters) ∧ (w ∈ s.bell.alert → w ∈ t.bell.alert)

theorem step_refused (ha : Audited s)
    (hw : s.workers[w]? = some (.claimed drain) ∨ s.workers[w]? = some (.borrowing drain))
    (hc : s.pool.closed = true) : ∃ t, step s (.work w) = some (t, []) ∧ t.pool.idle = s.pool.idle ∧
      Ends s t w drain.entry refusal := by
  obtain hw | hw := hw
  · have hacquire : s.pool.acquire (.worker w) = (.refused .closed, s.pool) := by simp [Pool.acquire, hc]
    refine ⟨s.endDrain w drain refusal, ?_, rfl, ha.ends hw rfl s.pool drain refusal⟩
    show s.work w = _
    simp [State.work, hw, hacquire, refusal]
  · obtain ⟨pool, hcollect⟩ : ∃ pool, s.pool.collect (.worker w) = (.refused .closed, pool) := by
      simp [Pool.collect, hc]
    refine ⟨{ s with pool }.endDrain w drain refusal, ?_, ?_, ha.ends hw rfl pool drain refusal⟩
    · show s.work w = _
      simp [State.work, hw, hcollect, refusal]
    · exact (Pool.collect_idle hcollect).symm

theorem step_retires (hs : Tended s) (hw : s.workers[w]? = some (.retiring entry outcome)) :
    ∃ t, step s (.work w) = some (t, [.drained entry outcome]) ∧ Retires s t w entry := by
  have hflight : s.buffer.inFlight.get? entry.key = some entry.sequence :=
    hs.flight_of (w := w) (by simp [State.draining, hw, Phase.entry?])
  refine ⟨s.retire w entry, ?_, rfl, Bell.not_mem_leave _ _, Buffer.complete_flight hflight,
    Buffer.mem_complete_outstanding _ _ _, ?_, rfl, rfl, rfl, rfl⟩
  · show s.work w = _
    simp [State.work, hw]
  · exact (hs.valid.complete_depth hflight).symm

theorem Tended.gives_back (hs : Tended s) (ha : Audited s) : GivesBack s where
  stored hw outcome :=
    ⟨_, step_finish hw outcome, rfl, Pool.giveBack_idle s.pool _, ha.ends hw rfl _ _ outcome⟩
  refused hw hc := step_refused ha hw hc
  noted {w entry outcome} hw := by
    refine ⟨(s.hold entry outcome).setWorker w (.retiring entry outcome), ?_, ?_⟩
    · show s.work w = _
      simp [State.work, hw]
    · rw [hold_eq]
      exact ⟨rfl, rfl, rfl, rfl, rfl⟩
  retired hw := step_retires hs hw
  asks {w} hw unlisted unready := by
    refine ⟨{ s with bell := s.bell.ask w }, ?_, rfl, ?_, rfl⟩
    · show s.work w = _
      simp [State.work, hw, unlisted, unready]
    · rw [Bell.ask_eq]
      split <;> simp
  claims {w entry buffer} hw alert hclaim := by
    have hlt : w < s.workers.length := (List.getElem?_eq_some_iff.mp hw).1
    refine ⟨{ s with buffer, bell := s.bell.look w, counters := s.counters.beginDrain }.setWorker w
      (.claimed { entry, since := s.now }), ?_, ?_, rfl⟩
    · show s.work w = _
      simp [State.work, State.search, hw, alert, hclaim]
    · simp [State.setWorker, hlt]
  lasts hw hr he := by
    obtain ⟨hlast, hspared⟩ := worker_lasts hr hw he
    exact ⟨hlast, hspared.awake, hspared.alert⟩

/-! ## Connections -/

variable {config : QueueConfig} {connections : List Connection}

omit [DecidableEq κ] [Named κ] in
theorem Phase.connection?_of_storing (h : ph.isStoring = true) : ph.connection?.isSome = true := by
  cases ph with
  | storing => rfl
  | _ => cases h

/-- Where the connections of a pool are after a run: each is in one place, and no two stores share one. All
requests that were made over them are counted. -/
structure Placed (config : QueueConfig) (connections : List Connection) (events : List (Event κ ι))
    (t : State κ ι) (out : List (Notice κ ι)) : Prop where
  all : ((t.places out).map (·.2.id)).Perm (connections.map (·.id))
  place : (connections.map (·.id)).Nodup →
    ∀ c ∈ connections, ∃! place, ∃ c', t.Has out place c' ∧ c'.id = c.id
  apart : (connections.map (·.id)).Nodup → ∀ (w w' : Nat) (drain drain' : Drain κ ι) (c c' : Connection),
    t.workers[w]? = some (.storing drain c) → t.workers[w']? = some (.storing drain' c') →
      c.id = c'.id → w = w'
  stores : t.workers.countP Phase.isStoring ≤ min config.workers connections.length
  uses : ((t.places out).map (·.2.requests)).sum =
    (connections.map (·.requests)).sum + ((invocations out).length + events.countP Event.requests)

theorem Begins.stores_le (h : Begins config connections s₀) (hr : run s₀ events = some (t, out)) :
    t.workers.countP Phase.isStoring ≤ connections.length := by
  have hcount : t.workers.countP Phase.isStoring ≤ (t.workers.filterMap Phase.connection?).length := by
    rw [List.length_filterMap_eq_countP]
    exact List.countP_mono_left fun ph _ hph => Phase.connection?_of_storing hph
  have hall := (h.places_perm hr).length_eq
  rw [List.length_map, List.length_map] at hall
  have hplaces := congrArg List.length (places_connections t out)
  rw [List.length_map] at hplaces
  simp only [List.length_append] at hplaces
  omega

theorem Begins.placed (h : Begins config connections s₀) (hr : run s₀ events = some (t, out)) :
    Placed config connections events t out where
  all := h.places_perm hr
  place hn c hc := by
    obtain ⟨place, c', hat, hid⟩ := h.some_place hr hc
    refine ⟨place, ⟨c', hat, hid⟩, fun place' ⟨c'', hat', hid'⟩ => ?_⟩
    exact h.one_place hr hn hat' hat (hid'.trans hid.symm)
  apart hn w w' drain drain' c c' hw hw' hid := by
    have hc : t.Has out (.worker w) c := ⟨_, hw, rfl⟩
    have hc' : t.Has out (.worker w') c' := ⟨_, hw', rfl⟩
    simpa using h.one_place hr hn hc hc' hid
  stores := by
    have hworkers : t.workers.length = config.workers := (h.staffed hr).2.size
    exact Nat.le_min.mpr ⟨hworkers ▸ List.countP_le_length, h.stores_le hr⟩
  uses := by
    have huses := h.places_weight hr (m := (·.requests)) (k := 1) fun _ => rfl
    rwa [Nat.one_mul] at huses

omit [Named κ] in
theorem Tended.idle_places (hs : Tended s) (hd : s.Distinct) (hflight : s.buffer.inFlight.size = 0)
    (hcalls : ∀ id c, s.phase? id ≠ some (.holding c)) (hgiven : surrendered out = []) :
    (s.places out).map (·.2) = s.pool.idle := by
  have hworkers : s.workers.filterMap Phase.connection? = [] := by
    refine List.filterMap_eq_nil_iff.mpr fun ph hph => ?_
    obtain ⟨w, hw⟩ := List.getElem?_of_mem hph
    have hnone : s.draining w = none := by
      refine Option.eq_none_iff_forall_not_mem.mpr fun entry hentry => ?_
      have := Table.size_eq_zero.mp hflight entry.key
      rw [hs.flight_of hentry] at this
      cases this
    have hentry : ph.entry? = none := by simpa [State.draining, hw] using hnone
    cases ph with
    | ready | storing => cases hentry
    | _ => rfl
  have hphases : s.phases.filterMap CallPhase.connection? = [] := by
    refine List.filterMap_eq_nil_iff.mpr fun phase hphase => ?_
    obtain ⟨call, hcall, rfl⟩ := List.mem_map.mp hphase
    have hp := State.phase?_of_call (hd.call?_of_mem hcall)
    cases hc : call.phase with
    | holding c => exact absurd (hp.trans (congrArg some hc)) (hcalls _ c)
    | _ => rfl
  rw [places_connections, hworkers, hphases, hgiven]
  simp

/-- Whatever a store ends in, its drain gives everything back: the connection, the mark in flight, the
sequence, the place among the busy workers, and a failure if it is the oldest. So every connection is in one
place at any time, and when nothing is in flight, no caller has a connection and none was given away, all are
idle, used as often as stores began and callers made requests. -/
theorem every_drain_gives_back (h : Begins config connections s₀) (hr : run s₀ events = some (t, out)) :
    Placed config connections events t out ∧ GivesBack t ∧
    (t.buffer.inFlight.size = 0 → (∀ id c, t.phase? id ≠ some (.holding c)) → surrendered out = [] →
      (t.pool.idle.map (·.id)).Perm (connections.map (·.id)) ∧
      (t.pool.idle.map (·.requests)).sum = (connections.map (·.requests)).sum +
        ((invocations out).length + events.countP Event.requests)) := by
  have hs := h.tended.run hr
  have hplaced := h.placed hr
  refine ⟨hplaced, hs.gives_back (h.audited.run h.tended hr), fun hflight hcalls hgiven => ?_⟩
  have hidle := hs.idle_places (h.distinct hr) hflight hcalls hgiven
  rw [← hidle, List.map_map, List.map_map]
  exact ⟨hplaced.all, hplaced.uses⟩

def taken : List (Event String Nat) :=
  [.enqueue 1 "a" 1 false, .enqueue 2 "b" 2 false, .work 0, .work 0, .work 0, .work 0, .borrow 3, .work 1,
    .work 1, .work 1]

def restored : List (Event String Nat) :=
  [.finish 0 (.error (.crashed "boom")), .work 1, .work 0, .work 1, .giveBack 3 (.ok none), .work 0,
    .finish 1 (.ok ()), .work 1, .work 1]

theorem every_drain_gives_back_crashed :
    ∃ (s₀ s t u : State String Nat) (out o : _) (drain : Drain String Nat),
    Begins strict [⟨0, 0⟩, ⟨1, 0⟩] s₀ ∧ run s₀ taken = some (s, out) ∧
    run s restored = some (t, o) ∧
    s.workers[0]? = some (.storing drain ⟨1, 1⟩) ∧ s.phase? 3 = some (.holding ⟨0, 0⟩) ∧
    (∃! place, ∃ c, s.Has out place c ∧ c.id = 1) ∧ s.workers.countP Phase.isStoring ≤ 2 ∧
    step s (.finish 0 (.error (.crashed "boom"))) = some (u, []) ∧ ⟨1, 1⟩ ∈ u.pool.idle ∧
    Ends s u 0 drain.entry (.error (.crashed "boom")) ∧
    (t.pool.idle.map (·.id)).Perm [0, 1] ∧ (t.pool.idle.map (·.requests)).sum = 2 := by
  obtain ⟨s₀, s, t, out, o, drain, h, hs, ht, hstoring, hholding, hflight, hcalls, hgiven, hinvoked⟩ :
      ∃ (s₀ s t : State String Nat) (out o : _) (drain : Drain String Nat),
      Begins strict [⟨0, 0⟩, ⟨1, 0⟩] s₀ ∧ run s₀ taken = some (s, out) ∧
      run s restored = some (t, o) ∧
      s.workers[0]? = some (.storing drain ⟨1, 1⟩) ∧ s.phase? 3 = some (.holding ⟨0, 0⟩) ∧
      t.buffer.inFlight.size = 0 ∧ t.calls = [] ∧ surrendered (out ++ o) = [] ∧
      (invocations (out ++ o)).length = 2 :=
    ⟨_, _, _, _, _, _, ⟨_, rfl, rfl⟩, rfl, rfl, rfl, rfl, rfl, rfl, rfl, rfl⟩
  obtain ⟨hplaced, hback, _⟩ := every_drain_gives_back h hs
  obtain ⟨u, hu, _, hidle, hends⟩ := hback.stored hstoring (.error (.crashed "boom"))
  have hnobody : ∀ id c, t.phase? id ≠ some (.holding c) := by
    intro id c hp
    simp [State.phase?, State.call?, hcalls] at hp
  obtain ⟨_, _, hrest⟩ := every_drain_gives_back h (run_append.mpr ⟨s, out, o, hs, ht, rfl⟩)
  obtain ⟨hall, huses⟩ := hrest hflight hnobody hgiven
  rw [hinvoked] at huses
  refine ⟨s₀, s, t, u, out, o, drain, h, hs, ht, hstoring, hholding, ?_, hplaced.stores, hu, ?_, hends,
    hall, huses⟩
  · exact hplaced.place (by decide) ⟨1, 0⟩ (by simp)
  · rw [hidle]
    exact List.mem_cons_self

end WriteBehind.Queue
