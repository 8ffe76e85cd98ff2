import WriteBehind.Backend.Scripted
import WriteBehind.Proofs.Pool.Moves
import WriteBehind.Proofs.Queue.Rest
import WriteBehind.Proofs.Session.Requests

/-!
# Callers and workers share a pool

Nothing in the pool keeps a connection for anybody. A session opens one for each worker and some more, and a
worker has one at most. So the callers together can count on the rest, and the workers on one each, in
whatever order they come.
-/

namespace WriteBehind

/-! ## The capacity of a pool -/

namespace Pool

variable {γ τ : Type} {p p' : Pool γ τ}

theorem lend_capacity (p : Pool γ τ) : p.lend.2.capacity = p.capacity := by
  unfold lend checkout
  cases p.idle with
  | nil => exact returnPermit_capacity p
  | cons => rfl

theorem acquire_capacity (p : Pool γ τ) (ticket : τ) : (p.acquire ticket).2.capacity = p.capacity := by
  unfold acquire
  split
  · rfl
  · split
    · rfl
    · exact lend_capacity _

theorem giveBack_capacity (p : Pool γ τ) (c : γ) : (p.giveBack c).capacity = p.capacity :=
  returnPermit_capacity _

theorem Served.capacity [DecidableEq τ] {closes : Prop} (h : p.Served closes p') :
    p'.capacity = p.capacity := by
  cases h with
  | same => rfl
  | acquire ticket => exact acquire_capacity p ticket
  | collect ticket =>
    unfold Pool.collect
    split
    · split <;> rfl
    · split
      · exact lend_capacity _
      · rfl
  | giveBack c => exact giveBack_capacity p c
  | close => rfl

theorem ofConnections_capacity {connections : List γ} (h : ofConnections connections = .ok p) :
    p.capacity = connections.length := by
  obtain ⟨-, rfl⟩ := ofConnections_eq_ok.mp h
  rfl

end Pool

namespace Queue

variable {κ ι : Type} {s₀ s t : State κ ι} {out : List (Notice κ ι)} {events : List (Event κ ι)}
  {w : Nat}
  {config : QueueConfig} {connections : List Connection}

/-! ## Who has a connection -/

/-- How many callers have a connection. -/
def State.guests (s : State κ ι) : Nat := (s.phases.map CallPhase.lent).sum

theorem State.lent_eq (s : State κ ι) : s.lent = s.tally Phase.lent + s.guests := rfl

theorem Phase.lent_le (ph : Phase κ ι) : ph.lent ≤ 1 := by
  unfold Phase.lent
  split <;> decide

theorem lent_lt {ph : Phase κ ι} (hw : s.workers[w]? = some ph) (hph : ph.lent = 0) (drain : Drain κ ι) :
    s.tally Phase.lent < s.workers.length := by
  -- One more would be with them if this one had one.
  have hset := sum_map_set Phase.lent hw (.ready drain default)
  have hle := tally_le (s.setWorker w (.ready drain default)) Phase.lent_le
  have hready : (Phase.ready drain default : Phase κ ι).lent = 1 := rfl
  simp only [State.tally, State.setWorker, List.length_set] at hle ⊢
  omega

variable [DecidableEq κ] [Named κ]

theorem Begins.capacity (h : Begins config connections s₀) (hr : run s₀ events = some (t, out)) :
    t.pool.capacity = connections.length := by
  refine run_preserves (P := fun t => t.pool.capacity = connections.length) ?_ ?_ hr
  · intro s e t o hs he
    exact (step_pool he).capacity.trans hs
  · obtain ⟨pool, hp, _, rfl⟩ := h.eq
    exact Pool.ofConnections_capacity hp

theorem Begins.pool_open (h : Begins config connections s₀) (hr : run s₀ events = some (t, out))
    (alone : .closePool ∉ events) (hc : t.closed = false) : t.pool.closed = false := by
  refine run_induction
    (P := fun events _ t => .closePool ∉ events → t.closed = false → t.pool.closed = false)
    ?_ ?_ hr alone hc
  · intro _ _
    obtain ⟨pool, hp, _, rfl⟩ := h.eq
    exact Pool.ofConnections_closed hp
  · intro events o t e u o' hr ih he alone hc
    have ht : t.closed = false := by
      by_contra hn
      rw [(step_shift he).1 (by simpa using hn)] at hc
      cases hc
    have hopen := ih (fun hm => alone (List.mem_append_left _ hm)) ht
    rcases (step_pool he).closed_iff (h.tended.run hr).balanced with hsame | ⟨hcloses, _⟩
    · rw [hsame, hopen]
    · rcases hcloses with rfl | ⟨id, c, flushed, workers, rfl, hcall, hphase⟩
      · exact absurd (by simp) alone
      · have hbehind := (h.staffed hr).2.behind id c.phase (State.phase?_of_call hcall) (by rw [hphase]; rfl)
        rw [ht] at hbehind
        cases hbehind

/-! ## At rest -/

theorem Begins.permits (h : Begins config connections s₀) (hr : run s₀ events = some (t, out))
    (settled : Settled t) : t.pool.free + t.tally Phase.lent + t.guests = connections.length := by
  have hl := h.lending hr
  have hturns : t.pool.promised = [] := List.eq_nil_iff_forall_not_mem.mpr (settled.no_turn hl)
  have hpermits := hl.kept.permits
  rw [hturns, List.length_nil, State.lent_eq, h.capacity hr] at hpermits
  omega

theorem Begins.all_lent (h : Begins config connections s₀) (hr : run s₀ events = some (t, out))
    (settled : Settled t) {b : Borrower} (hb : t.Borrows b) : t.pool.free = 0 := by
  have hl := h.lending hr
  have hwaits := (List.mem_append.mp ((hl.enrolled b).mpr hb)).resolve_right (settled.no_turn hl b)
  have hopen : t.pool.closed = false := by
    cases b with
    | worker w =>
      obtain ⟨drain, hw⟩ := State.borrows_worker.mp hb
      cases settled.keeps hw with
      | borrowing _ opened => exact opened
    | call id =>
      obtain ⟨_, _, _, hholds⟩ := settled.holds (State.borrows_call.mp hb)
      cases hholds with
      | borrowing opened => exact opened
  exact hl.kept.queued hopen (List.ne_nil_of_mem hwaits)

theorem Begins.lent_le (h : Begins config connections s₀) (hr : run s₀ events = some (t, out)) :
    t.tally Phase.lent ≤ config.workers := by
  have hle := tally_le t Phase.lent_le
  rw [(h.staffed hr).2.size] at hle
  omega

theorem step_borrow {id : Nat} (hb : t.pool.Balanced) (hopen : t.pool.closed = false) (hfree : 0 < t.pool.free)
    (hc : t.closed = false) (owned : t.abandoned = false) (free : t.call? id = none) :
    ∃ c u, step t (.borrow id) = some (u, [.lent id c]) ∧ u.phase? id = some (.holding c) := by
  have hidle := hb.idle_ne_nil hopen (by omega)
  obtain ⟨c, idle, _, hl⟩ := Pool.lend_of_idle (p := { t.pool with free := t.pool.free - 1 }) hidle
  have hacquire : t.pool.acquire (.call id) = (.lent c, { t.pool with free := t.pool.free - 1, idle }) := by
    unfold Pool.acquire
    rw [if_neg (by simp [hopen]), if_neg (by omega)]
    exact hl
  refine ⟨c, { t with pool := { t.pool with free := t.pool.free - 1, idle } }.wait id (.holding c), ?_,
    State.phase?_wait_self _ _ _⟩
  refine issue_eq_some.mpr ⟨owned, free, ?_⟩
  simp [State.borrow, hc, hacquire]

end Queue

namespace Session

open Queue (Begins Settled State)

variable {β : Type} {b : Backend β} {config : SessionConfig} {since : Int} {store store' : β}
  {s : Session β}
  {events : List (Queue.Event AtomId Write)} {t : State AtomId Write} {out : List (Queue.Notice AtomId Write)}

/-- Callers past the queue and its workers do not starve each other. In a session that has come to rest,
and whose pool nobody else closes, the workers have one connection each at most. So while fewer callers
have one than the session keeps for them, no caller waits and the next one gets a connection at once,
whatever is queued and whatever the backend does not end. While no more callers have one than that, no
worker waits that has claimed an entry. -/
theorem nobody_starves (h : start b config since store = (.ok s, store'))
    (hr : Queue.run s.queue events = some (t, out)) (alone : .closePool ∉ events) (settled : Settled t) :
    t.tally Queue.Phase.lent ≤ config.queue.workers ∧
    (t.guests < config.foreground →
      (∀ id, t.phase? id ≠ some .borrowing) ∧
      (t.closed = false → t.abandoned = false → ∀ id (command : Command), t.call? id = none →
        command.foreground?.isSome = true → ∃ c u,
          Queue.step t (command.event id) = some (u, [.lent id c]) ∧ u.phase? id = some (.holding c))) ∧
    (t.guests ≤ config.foreground → ∀ (w : Nat) drain,
      t.workers[w]? ≠ some (.claimed drain) ∧ t.workers[w]? ≠ some (.borrowing drain)) := by
  obtain ⟨connections, hlength, hbegins⟩ := (start_fresh h).begins
  have hworkers := hbegins.lent_le hr
  have hpermits := hbegins.permits hr settled
  rw [hlength, SessionConfig.poolSize] at hpermits
  refine ⟨hworkers, fun hguests => ⟨fun id hp => ?_, ?_⟩,
    fun hguests w drain => ⟨fun hw => ?_, fun hw => ?_⟩⟩
  · have := hbegins.all_lent hr settled (State.borrows_call.mpr hp)
    omega
  · intro hc owned id command free hforeground
    have hevent : command.event id = .borrow id := by
      cases command with
      | direct | take => rfl
      | _ => cases hforeground
    rw [hevent]
    exact Queue.step_borrow (hbegins.tended.run hr).balanced (hbegins.pool_open hr alone hc) (by omega)
      hc owned free
  · cases settled.keeps hw
  · have hnone := hbegins.all_lent hr settled (State.borrows_worker.mpr ⟨drain, hw⟩)
    have hfewer := Queue.lent_lt hw rfl drain
    rw [(hbegins.staffed hr).2.size] at hfewer
    omega

def narrow : SessionConfig := { foreground := 1, queue := { workers := 1 } }

/-- The backend does not end the store of one atom, and the write of another one waits behind it. -/
def stuck : List (Queue.Event AtomId Write) :=
  [.enqueue 1 ⟨7⟩ ⟨⟨7⟩, .store⟩ false, .work 0, .work 0, .work 0, .work 0,
    .enqueue 2 ⟨8⟩ ⟨⟨8⟩, .remove⟩ false]

theorem nobody_starves_stuck : ∃ (s : Session Script) (store : Script) (t u : State AtomId Write)
    (out : List (Queue.Notice AtomId Write)) (c : Connection),
    start Script.backend narrow 0 {} = (.ok s, store) ∧
    Queue.run s.queue stuck = some (t, out) ∧ Settled t ∧
    t.depth = 2 ∧ t.tally Queue.Phase.lent ≤ 1 ∧ t.guests = 0 ∧
    Queue.step t (Command.take.event 3) = some (u, [.lent 3 c]) ∧ u.phase? 3 = some (.holding c) ∧
    (∀ drain, t.workers[0]? ≠ some (.borrowing drain)) := by
  obtain ⟨s, store, t, out, hs, hr, settled, hdepth, hguests, hclosed, howned, hcalls⟩ :
      ∃ (s : Session Script) (store : Script) (t : State AtomId Write)
        (out : List (Queue.Notice AtomId Write)),
      start Script.backend narrow 0 {} = (.ok s, store) ∧
      Queue.run s.queue stuck = some (t, out) ∧ Settled t ∧
      t.depth = 2 ∧ t.guests = 0 ∧ t.closed = false ∧ t.abandoned = false ∧ t.calls = [] :=
    ⟨_, _, _, _, rfl, rfl, by decide, rfl, rfl, rfl, rfl, rfl⟩
  have hfree : t.call? 3 = none := by simp [State.call?, hcalls]
  obtain ⟨hworkers, hcallers, hclaimed⟩ := nobody_starves hs hr (by simp [stuck]) settled
  obtain ⟨c, u, hu, hphase⟩ := (hcallers (by rw [hguests]; decide)).2 hclosed howned 3 .take hfree rfl
  exact ⟨s, store, t, u, out, c, hs, hr, settled, hdepth, hworkers, hguests, hu, hphase,
    fun drain => (hclaimed (by rw [hguests]; decide) 0 drain).2⟩

end Session

end WriteBehind
