import Mathlib.Data.List.Nodup
import WriteBehind.Proofs.Pool.Moves
import WriteBehind.Proofs.Queue.Lending

/-!
# Where the connections are

Every connection is idle in the pool, with one worker, with one caller, or given away by a close. A step moves
connections between these places and counts the requests that are made over them; it makes none and loses
none. What the connections weigh together tells both: with one weight it counts a connection, with another the
requests.
-/

namespace WriteBehind

/-! ## The pool -/

def Loan.connections {γ : Type} : Loan γ → List γ
  | .lent c => [c]
  | .waits | .refused _ => []

namespace Pool

variable {γ τ : Type} {p p' : Pool γ τ} {ticket : τ} {loan : Loan γ}

theorem giveBack_idle (p : Pool γ τ) (c : γ) : (p.giveBack c).idle = c :: p.idle := returnPermit_idle _

theorem lend_idle (h : p.lend = (loan, p')) : p.idle = loan.connections ++ p'.idle := by
  unfold lend checkout at h
  cases hi : p.idle with
  | nil =>
    simp only [hi] at h
    cases h
    exact (returnPermit_idle p).trans hi |>.symm
  | cons c idle =>
    simp only [hi] at h
    cases h
    rfl

theorem acquire_idle (h : p.acquire ticket = (loan, p')) : p.idle = loan.connections ++ p'.idle := by
  unfold acquire at h
  split at h
  · cases h
    rfl
  · split at h
    · cases h
      rfl
    · exact lend_idle (p := { p with free := p.free - 1 }) h

theorem collect_idle [DecidableEq τ] (h : p.collect ticket = (loan, p')) :
    p.idle = loan.connections ++ p'.idle := by
  unfold collect at h
  split at h
  · split at h <;> cases h <;> rfl
  · split at h
    · exact lend_idle (p := { p with promised := p.promised.erase ticket }) h
    · cases h
      rfl

end Pool

namespace Queue

variable {κ ι : Type} {s₀ s t u : State κ ι} {out o : List (Notice κ ι)} {events : List (Event κ ι)}
  {e : Event κ ι} {id w : Nat} {c : Connection} {m : Connection → Nat} {k : Nat} {drain : Drain κ ι}
  {loan : Loan Connection} {pool : Pool Connection Borrower}

/-! ## Places -/

inductive Place where
  | idle
  | worker (w : Nat)
  | call (id : Nat)
  | given
  deriving DecidableEq, Repr

def CallPhase.connection? : CallPhase → Option Connection
  | holding c => some c
  | _ => none

def Notice.given : Notice κ ι → List Connection
  | .surrendered connections => connections
  | _ => []

def surrendered (out : List (Notice κ ι)) : List Connection := out.flatMap Notice.given

theorem surrendered_append (out o : List (Notice κ ι)) :
    surrendered (out ++ o) = surrendered out ++ surrendered o := List.flatMap_append

namespace State

def Has (s : State κ ι) (out : List (Notice κ ι)) : Place → Connection → Prop
  | .idle, c => c ∈ s.pool.idle
  | .worker w, c => ∃ ph, s.workers[w]? = some ph ∧ ph.connection? = some c
  | .call id, c => s.phase? id = some (.holding c)
  | .given, c => ∃ connections, .surrendered connections ∈ out ∧ c ∈ connections

def places (s : State κ ι) (out : List (Notice κ ι)) : List (Place × Connection) :=
  s.pool.idle.map (.idle, ·) ++
    s.workers.zipIdx.filterMap (fun (ph, w) => ph.connection?.map (.worker w, ·)) ++
    s.calls.filterMap (fun call => call.phase.connection?.map (.call call.id, ·)) ++
    (surrendered out).map (.given, ·)

theorem mem_places (hd : s.Distinct) {place : Place} : (place, c) ∈ s.places out ↔ s.Has out place c := by
  unfold places
  simp only [List.mem_append, List.mem_map, List.mem_filterMap, Option.map_eq_some_iff, Prod.mk.injEq]
  cases place with
  | idle => simp [Has]
  | worker w =>
    simp only [Has, reduceCtorEq, false_and, and_false, exists_false, false_or, or_false, Place.worker.injEq]
    constructor
    · rintro ⟨⟨ph, _⟩, hm, _, hc, rfl, rfl⟩
      exact ⟨ph, List.mem_zipIdx_iff_getElem?.mp hm, hc⟩
    · rintro ⟨ph, hw, hc⟩
      exact ⟨(ph, w), List.mem_zipIdx_iff_getElem?.mpr hw, c, hc, rfl, rfl⟩
  | call id =>
    simp only [Has, reduceCtorEq, false_and, and_false, exists_false, false_or, or_false, Place.call.injEq]
    constructor
    · rintro ⟨call, hm, _, hc, rfl, rfl⟩
      rw [phase?_of_call (hd.call?_of_mem hm)]
      cases hp : call.phase with
      | holding c' =>
        rw [hp] at hc
        cases hc
        rfl
      | _ =>
        rw [hp] at hc
        cases hc
    · intro hp
      obtain ⟨call, hcall, hphase⟩ := Option.map_eq_some_iff.mp hp
      exact ⟨call, List.mem_of_find?_eq_some hcall, c, by rw [hphase]; rfl, call?_id hcall, rfl⟩
  | given =>
    simp only [Has, surrendered, reduceCtorEq, false_and, and_false, exists_false, false_or, true_and,
      exists_eq_right, List.mem_flatMap]
    constructor
    · rintro ⟨n, hn, hc⟩
      cases n with
      | surrendered connections => exact ⟨connections, hn, hc⟩
      | _ => cases hc
    · rintro ⟨connections, hn, hc⟩
      exact ⟨_, hn, hc⟩

end State

/-! ## Weights -/

def Phase.weight (m : Connection → Nat) (ph : Phase κ ι) : Nat := (ph.connection?.map m).getD 0

def CallPhase.weight (m : Connection → Nat) (phase : CallPhase) : Nat := (phase.connection?.map m).getD 0

/-- What the connections weigh that have not been given away. -/
def State.weight (m : Connection → Nat) (s : State κ ι) : Nat :=
  (s.pool.idle.map m).sum + s.total (Phase.weight m) (CallPhase.weight m)

theorem sum_filterMap {α : Type} (f : α → Option Connection) (m : Connection → Nat) (l : List α) :
    ((l.filterMap f).map m).sum = (l.map fun a => ((f a).map m).getD 0).sum := by
  induction l with
  | nil => rfl
  | cons a l ih =>
    cases hf : f a with
    | none => simp [hf, ih]
    | some c => simp [hf, ih]

theorem places_connections (s : State κ ι) (out : List (Notice κ ι)) :
    (s.places out).map (·.2) = s.pool.idle ++ s.workers.filterMap Phase.connection? ++
      s.phases.filterMap CallPhase.connection? ++ surrendered out := by
  have hworkers : (s.workers.zipIdx.filterMap fun (ph, w) =>
      ph.connection?.map (Place.worker w, ·)).map (·.2) = s.workers.filterMap Phase.connection? := by
    rw [List.map_filterMap, ← List.zipIdx_map_fst 0 s.workers, List.filterMap_map, List.zipIdx_map_fst]
    congr 1
    funext p
    simp [Function.comp_def]
  have hcalls : (s.calls.filterMap fun call => call.phase.connection?.map (Place.call call.id, ·)).map (·.2) =
      s.phases.filterMap CallPhase.connection? := by
    rw [List.map_filterMap, State.phases, List.filterMap_map]
    congr 1
    funext call
    simp [Function.comp_def]
  unfold State.places
  rw [List.map_append, List.map_append, List.map_append, hworkers, hcalls]
  simp [Function.comp_def]

theorem places_weight (s : State κ ι) (out : List (Notice κ ι)) (m : Connection → Nat) :
    ((s.places out).map fun p => m p.2).sum = s.weight m + ((surrendered out).map m).sum := by
  have hsum : ((s.places out).map fun p => m p.2).sum = (((s.places out).map (·.2)).map m).sum := by
    rw [List.map_map]
    rfl
  rw [hsum, places_connections]
  simp only [List.map_append, List.sum_append, sum_filterMap]
  unfold State.weight State.total Phase.weight CallPhase.weight
  omega

/-! ## What a step does to the weights -/

def Event.requests : Event κ ι → Bool
  | .request _ => true
  | _ => false

def Weighs (m : Connection → Nat) (k : Nat) (s t : State κ ι) (out : List (Notice κ ι))
    (asked : Nat) : Prop :=
  t.weight m + ((surrendered out).map m).sum = s.weight m + k * ((invocations out).length + asked)

theorem Weighs.trans {n n' : Nat} (h : Weighs m k s t out n) (h' : Weighs m k t u o n') :
    Weighs m k s u (out ++ o) (n + n') := by
  unfold Weighs at h h' ⊢
  rw [surrendered_append, invocations_append, List.map_append, List.sum_append, List.length_append]
  rw [Nat.mul_add] at h h' ⊢
  simp only [Nat.mul_add]
  omega

theorem weight_congr (hp : t.pool.idle = s.pool.idle) (hw : t.workers = s.workers) (hc : t.phases = s.phases) :
    t.weight m = s.weight m := by
  unfold State.weight State.total
  rw [hp, hw, hc]

theorem Weighs.of_same (hp : t.pool.idle = s.pool.idle) (hw : t.workers = s.workers)
    (hc : t.phases = s.phases) (hi : invocations out = []) (hs : surrendered out = []) :
    Weighs m k s t out 0 := by
  unfold Weighs
  rw [weight_congr hp hw hc, hi, hs]
  simp

theorem Moves.weighs {ph ph' : Phase κ ι} (move : Moves s t w ph ph') (hc : t.phases = s.phases)
    (books : (t.pool.idle.map m).sum + ph'.weight m + ((surrendered out).map m).sum =
      (s.pool.idle.map m).sum + ph.weight m + k * (invocations out).length) : Weighs m k s t out 0 := by
  have hsum := State.total_worker (f := Phase.weight m) (g := CallPhase.weight m) move.before move.after hc
  unfold Weighs State.weight
  rw [Nat.add_zero]
  omega

theorem Moves.weighs_quiet {ph ph' : Phase κ ι} (move : Moves s t w ph ph') (hc : t.phases = s.phases)
    (hp : t.pool.idle = s.pool.idle) (hph : ph'.connection? = ph.connection?) (hi : invocations out = [])
    (hs : surrendered out = []) : Weighs m k s t out 0 := by
  refine move.weighs hc ?_
  rw [hp, hi, hs]
  simp [Phase.weight, hph]

theorem loan_weight (h : s.pool.idle = loan.connections ++ pool.idle) (m : Connection → Nat) :
    (s.pool.idle.map m).sum = (loan.connections.map m).sum + (pool.idle.map m).sum := by
  rw [h, List.map_append, List.sum_append]

theorem Asks.idle (h : Asks s w drain loan pool) : s.pool.idle = loan.connections ++ pool.idle := by
  obtain ⟨_, hl⟩ | ⟨_, hl⟩ := h
  · exact Pool.acquire_idle hl
  · exact Pool.collect_idle hl

theorem Asks.before (h : Asks s w drain loan pool) :
    ∃ ph, s.workers[w]? = some ph ∧ ph.connection? = none := by
  obtain ⟨hw, _⟩ | ⟨hw, _⟩ := h <;> exact ⟨_, hw, rfl⟩

theorem Works.weighs [DecidableEq κ] (hm : ∀ c, m c.use = m c + k) (h : Works s w t out) :
    Weighs m k s t out 0 := by
  cases h with
  | asked before | slept _ before => exact Moves.weighs_quiet (.stay before rfl) rfl rfl rfl rfl rfl
  | claimed entry buffer before => exact Moves.weighs_quiet ⟨before, rfl⟩ rfl rfl rfl rfl rfl
  | exited _ before => exact Moves.weighs_quiet ⟨before, rfl⟩ rfl rfl rfl rfl rfl
  | lent drain c pool asks =>
    obtain ⟨ph, before, hph⟩ := asks.before
    refine Moves.weighs ⟨before, rfl⟩ rfl ?_
    rw [loan_weight asks.idle m]
    have hnone : ph.weight m = 0 := by simp [Phase.weight, hph]
    have hlent : (Phase.ready drain c).weight m = m c := rfl
    rw [hnone, hlent]
    simp [State.setWorker, Loan.connections, surrendered, invocations]
    omega
  | waits drain pool before acquire =>
    exact Moves.weighs_quiet ⟨before, rfl⟩ rfl (Pool.acquire_idle acquire).symm rfl rfl rfl
  | refused drain e pool asks =>
    obtain ⟨ph, before, hph⟩ := asks.before
    exact Moves.weighs_quiet ⟨before, rfl⟩ rfl asks.idle.symm hph.symm rfl rfl
  | begun drain c before =>
    refine Moves.weighs ⟨before, rfl⟩ rfl ?_
    simp [State.setWorker, Phase.weight, Phase.connection?, hm, surrendered, Notice.given, invocations,
      Notice.invoked?]
    omega
  | noted entry outcome before =>
    cases outcome with
    | ok | error => exact Moves.weighs_quiet ⟨before, rfl⟩ rfl rfl rfl rfl rfl
  | retired entry outcome before =>
    exact Moves.weighs_quiet ⟨before, rfl⟩ (State.phases_wakeAll s) rfl rfl rfl rfl

/-! ### Calls -/

variable {call : Call} {a? : Option (Acceptance κ ι)}

theorem wait_weighs {phase : CallPhase} (hw : u.workers = s.workers) (hc : u.phases = s.phases)
    (books : (u.pool.idle.map m).sum + phase.weight m = (s.pool.idle.map m).sum) (hi : invocations out = [])
    (hs : surrendered out = []) : Weighs m k s (u.wait id phase) out 0 := by
  have hsum := State.total_wait (f := Phase.weight m) (g := CallPhase.weight m) u id phase
  have hsame : u.total (Phase.weight m) (CallPhase.weight m) =
      s.total (Phase.weight m) (CallPhase.weight m) := by
    unfold State.total
    rw [hw, hc]
  have hpool : (u.wait id phase).pool = u.pool := rfl
  unfold Weighs State.weight
  rw [hi, hs, hpool]
  simp
  omega

theorem Makes.weighs [DecidableEq κ] (h : Makes s id e t out a?) : Weighs m k s t out 0 := by
  cases h with
  | fenced => exact wait_weighs rfl rfl rfl rfl rfl
  | stalled => exact wait_weighs rfl rfl rfl rfl rfl
  | barrier => exact wait_weighs rfl rfl rfl rfl rfl
  | closing => exact wait_weighs rfl rfl rfl rfl rfl
  | lent c pool _ acquire =>
    refine wait_weighs (u := { s with pool }) rfl rfl ?_ rfl rfl
    rw [loan_weight (Pool.acquire_idle acquire) m]
    simp [CallPhase.weight, CallPhase.connection?, Loan.connections]
    omega
  | borrowing pool _ acquire =>
    refine wait_weighs (u := { s with pool }) rfl rfl ?_ rfl rfl
    have hidle : s.pool.idle = pool.idle := Pool.acquire_idle acquire
    rw [hidle]
    rfl
  | unlent error pool _ acquire => exact .of_same (Pool.acquire_idle acquire).symm rfl rfl rfl rfl
  | _ => exact .of_same rfl rfl rfl rfl rfl

theorem Makes.requests [DecidableEq κ] (h : Makes s id e t out a?) : e.requests = false := by
  cases h with
  | refused _ _ asks => cases e <;> cases asks <;> rfl
  | _ => rfl

theorem Alike.weighs_goOn (h : Alike s u id call) {phase : CallPhase} {asked : Nat}
    (books : (u.pool.idle.map m).sum + phase.weight m + ((surrendered out).map m).sum =
      (s.pool.idle.map m).sum + call.phase.weight m + k * asked) (hi : invocations out = []) :
    Weighs m k s (u.goOn id phase) out asked := by
  have hsum := h.total_goOn (f := Phase.weight m) (g := CallPhase.weight m) phase
  have hpool : (u.goOn id phase).pool = u.pool := rfl
  unfold Weighs State.weight
  rw [hi, hpool]
  simp only [List.length_nil, Nat.zero_add]
  omega

theorem Alike.weighs_leave (h : Alike s u id call)
    (books : (u.pool.idle.map m).sum = (s.pool.idle.map m).sum + call.phase.weight m)
    (hi : invocations out = []) (hs : surrendered out = []) : Weighs m k s (u.leave id) out 0 := by
  have hsum := h.total_leave (f := Phase.weight m) (g := CallPhase.weight m)
  have hpool : (u.leave id).pool = u.pool := rfl
  unfold Weighs State.weight
  rw [hi, hs, hpool]
  simp
  omega

theorem Looks.weighs [Named κ] (hd : s.Distinct) (hc : s.call? id = some call) (h : Looks s id call t out) :
    Weighs m k s t out 0 := by
  cases h with
  | asleep => exact .of_same rfl rfl (State.phases_mapCall s id fun _ => rfl) rfl rfl
  | released receipt phase =>
    refine (hd.alike hc rfl rfl).weighs_leave ?_ rfl rfl
    rw [phase]
    rfl
  | fenced receipt phase =>
    have hleave : Weighs m k s (s.leave id) [.accepted id receipt] 0 := by
      refine (hd.alike hc rfl rfl).weighs_leave ?_ rfl rfl
      rw [phase]
      rfl
    exact hleave.trans (wait_weighs rfl rfl rfl rfl rfl : Weighs m k (s.leave id) _ [] 0)
  | reported target phase =>
    refine (hd.alike hc (u := { s with failure := none }) rfl rfl).weighs_leave ?_ rfl rfl
    rw [phase]
    rfl
  | flushed target phase =>
    refine (hd.alike hc (u := { s with failure := none }) rfl rfl).weighs_goOn ?_ rfl
    rw [phase]
    rfl
  | shut flushed phase =>
    refine (hd.alike_shut hc).weighs_goOn ?_ rfl
    rw [phase]
    rfl
  | taken flushed phase =>
    refine (hd.alike hc (u := { s with unjoined := [] }) rfl rfl).weighs_goOn ?_ rfl
    rw [phase]
    rfl
  | joined flushed workers phase =>
    refine (hd.alike hc (u := { s with pool := s.pool.close.2 }) rfl rfl).weighs_goOn ?_ rfl
    rw [phase]
    simp [CallPhase.weight, CallPhase.connection?, surrendered, Notice.given, Pool.close]
  | ended flushed phase =>
    refine (hd.alike hc (u := { s with failure := heldBehind s.failure flushed }) rfl rfl).weighs_leave
      ?_ rfl rfl
    rw [phase]
    rfl
  | lent conn pool phase collect =>
    refine (hd.alike hc (u := { s with pool }) rfl rfl).weighs_goOn ?_ rfl
    rw [phase, loan_weight (Pool.collect_idle collect) m]
    simp [CallPhase.weight, CallPhase.connection?, Loan.connections, surrendered, Notice.given]
    omega
  | refused error pool phase collect =>
    refine (hd.alike hc (u := { s with pool }) rfl rfl).weighs_leave ?_ rfl rfl
    have hidle : s.pool.idle = pool.idle := Pool.collect_idle collect
    rw [phase, hidle]
    rfl

/-! ### Steps -/

variable [DecidableEq κ] [Named κ]

theorem step_weighs (hd : s.Distinct) (hm : ∀ c, m c.use = m c + k) (h : step s e = some (t, out)) :
    Weighs m k s t out e.requests.toNat := by
  cases step_cases h with
  | made id _ _ _ _ _ _ makes =>
    rw [makes.requests]
    exact makes.weighs
  | request id c holds =>
    obtain ⟨call, hc, hphase⟩ := Option.map_eq_some_iff.mp holds
    refine (hd.alike hc rfl rfl).weighs_goOn ?_ rfl
    rw [hphase]
    simp [CallPhase.weight, CallPhase.connection?, hm, surrendered, Event.requests]
    omega
  | giveBack id c result holds =>
    obtain ⟨call, hc, hphase⟩ := Option.map_eq_some_iff.mp holds
    refine (hd.alike hc (u := { s with pool := s.pool.giveBack c }) rfl rfl).weighs_leave ?_ rfl rfl
    rw [hphase, Pool.giveBack_idle]
    simp [CallPhase.weight, CallPhase.connection?]
    omega
  | closePool =>
    have htotal : { s with pool := s.pool.close.2 }.total (Phase.weight m) (CallPhase.weight m) =
        s.total (Phase.weight m) (CallPhase.weight m) := rfl
    have hquiet : invocations ([.surrendered s.pool.close.1] : List (Notice κ ι)) = [] := rfl
    unfold Weighs State.weight
    rw [htotal, hquiet]
    simp [surrendered, Notice.given, Pool.close, Event.requests]
    omega
  | work w _ _ works => exact works.weighs hm
  | finish w outcome drain c before =>
    refine Moves.weighs ⟨before, rfl⟩ rfl ?_
    have hpool : ({ s with pool := s.pool.giveBack c }.endDrain w drain outcome).pool.idle = c :: s.pool.idle :=
      Pool.giveBack_idle s.pool c
    rw [hpool]
    simp [Phase.weight, Phase.connection?, surrendered, invocations]
    omega
  | look _ _ _ _ call looks => exact looks.weighs hd call
  | expire => exact .of_same rfl rfl (State.phases_wakeAll _) rfl rfl
  | _ => exact .of_same rfl rfl rfl rfl rfl

/-! ## Runs -/

variable {config : QueueConfig} {connections : List Connection}

omit [DecidableEq κ] [Named κ] in
theorem Begins.weight (h : Begins config connections s₀) (m : Connection → Nat) :
    s₀.weight m = (connections.map m).sum := by
  obtain ⟨pool, hp, _, rfl⟩ := h.eq
  obtain ⟨-, rfl⟩ := Pool.ofConnections_eq_ok.mp hp
  simp [State.weight, State.total, State.phases, Phase.weight, Phase.connection?]

theorem Begins.weighs (h : Begins config connections s₀) (hr : run s₀ events = some (t, out))
    (hm : ∀ c, m c.use = m c + k) : Weighs m k s₀ t out (events.countP Event.requests) := by
  refine run_induction (P := fun events out t => Weighs m k s₀ t out (events.countP Event.requests)) ?_ ?_ hr
  · exact .of_same rfl rfl rfl rfl rfl
  · intro events o t e u o' hr ih he
    have hstep := ih.trans (step_weighs (h.distinct hr) hm he)
    rw [List.countP_append, List.countP_singleton]
    cases hq : e.requests <;> simpa [hq] using hstep

theorem Begins.places_weight (h : Begins config connections s₀) (hr : run s₀ events = some (t, out))
    (hm : ∀ c, m c.use = m c + k) : ((t.places out).map fun p => m p.2).sum =
      (connections.map m).sum + k * ((invocations out).length + events.countP Event.requests) := by
  rw [Queue.places_weight, ← h.weight m]
  exact h.weighs hr hm

theorem sum_indicator {α : Type} [DecidableEq α] (a : α) (l : List α) :
    (l.map fun x => if x = a then 1 else 0).sum = l.count a := by
  induction l with
  | nil => rfl
  | cons b l ih =>
    rw [List.map_cons, List.sum_cons, ih, List.count_cons]
    simp [Nat.add_comm]

/-- The connections at all places are those of the pool, each as often as the pool has it. -/
theorem Begins.places_perm (h : Begins config connections s₀) (hr : run s₀ events = some (t, out)) :
    ((t.places out).map (·.2.id)).Perm (connections.map (·.id)) := by
  refine List.perm_iff_count.mpr fun i => ?_
  have hweight := h.places_weight hr (m := fun c => if c.id = i then 1 else 0) (k := 0) fun _ => rfl
  rw [Nat.zero_mul, Nat.add_zero] at hweight
  rw [← sum_indicator, ← sum_indicator, List.map_map, List.map_map]
  exact hweight

theorem Begins.one_place (h : Begins config connections s₀) (hr : run s₀ events = some (t, out))
    (hn : (connections.map (·.id)).Nodup) {place place' : Place} {c c' : Connection}
    (hc : t.Has out place c) (hc' : t.Has out place' c') (hid : c.id = c'.id) : place = place' := by
  have hnodup := (h.places_perm hr).nodup_iff.mpr hn
  have hd := h.distinct hr
  have heq := List.inj_on_of_nodup_map hnodup ((State.mem_places hd).mpr hc) ((State.mem_places hd).mpr hc') hid
  exact congrArg Prod.fst heq

theorem Begins.some_place (h : Begins config connections s₀) (hr : run s₀ events = some (t, out))
    (hc : c ∈ connections) : ∃ place c', t.Has out place c' ∧ c'.id = c.id := by
  have hm := (h.places_perm hr).mem_iff.mpr (List.mem_map_of_mem hc)
  obtain ⟨⟨place, c'⟩, hp, hid⟩ := List.mem_map.mp hm
  exact ⟨place, c', (State.mem_places (h.distinct hr)).mp hp, hid⟩

end Queue

end WriteBehind
