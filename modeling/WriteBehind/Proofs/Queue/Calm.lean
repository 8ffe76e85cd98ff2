import WriteBehind.Proofs.Queue.Accounts

/-!
# Calm queues

A queue that is only written to and waited for: writes are not fenced, and nobody closes anything. No worker
is refused a connection then, every call that waits is a producer that is held back or a barrier, and a
failure is in one of two places until a barrier takes it: with the worker that is about to note it, or held.
-/

namespace WriteBehind.Queue

variable {κ ι : Type} {s t : State κ ι} {out : List (Notice κ ι)} {e : Event κ ι} {id w : Nat}

/-! ## Calm states -/

def Event.drifts : Event κ ι → Bool
  | .work _ | .look _ | .pass _ | .expire => true
  | _ => false

def Event.isCalm : Event κ ι → Bool
  | .enqueue _ _ _ fenced => !fenced
  | .barrier _ | .finish .. => true
  | e => e.drifts

def CallPhase.isCalm : CallPhase → Bool
  | .stalled _ fenced => !fenced
  | .fence _ => true
  | _ => false

structure Calm (s : State κ ι) : Prop where
  opened : s.closed = false
  owned : s.abandoned = false
  lending : s.pool.closed = false
  phases : ∀ id phase, s.phase? id = some phase → phase.isCalm = true

theorem Calm.call (h : Calm s) {c : Call} (hc : s.call? id = some c) : c.phase.isCalm = true :=
  h.phases id c.phase (State.phase?_of_call hc)

/-! ## Failures on their way -/

def Phase.unnoted : Phase κ ι → Nat
  | ended _ (.error _) => 1
  | _ => 0

def State.Troubled (s : State κ ι) : Prop := s.failure.isSome = true ∨ 0 < s.tally Phase.unnoted

theorem tally_of_idle {f : Phase κ ι → Nat} (idle : ∀ w, s.draining w = none)
    (hf : ∀ ph : Phase κ ι, ph.entry? = none → f ph = 0) : s.tally f = 0 := by
  refine List.sum_eq_zero fun n hn => ?_
  obtain ⟨ph, hm, rfl⟩ := List.mem_map.mp hn
  obtain ⟨w, hw⟩ := List.getElem?_of_mem hm
  have hnone := idle w
  unfold State.draining at hnone
  rw [hw] at hnone
  exact hf ph hnone

structure Level (s t : State κ ι) : Prop where
  troubled : t.Troubled ↔ s.Troubled
  drained : t.counters.drained = s.counters.drained
  failed : t.counters.failed = s.counters.failed

theorem Level.of_workers (hw : t.workers = s.workers) (hf : t.failure = s.failure)
    (hd : t.counters.drained = s.counters.drained) (hc : t.counters.failed = s.counters.failed) : Level s t := by
  refine ⟨?_, hd, hc⟩
  unfold State.Troubled
  rw [tally_congr hw, hf]

theorem Level.of_moves {ph ph' : Phase κ ι} (move : Moves s t w ph ph') (hp : ph'.unnoted = ph.unnoted)
    (hf : t.failure = s.failure) (hd : t.counters.drained = s.counters.drained)
    (hc : t.counters.failed = s.counters.failed) : Level s t := by
  refine ⟨?_, hd, hc⟩
  have htally := move.tally Phase.unnoted
  unfold State.Troubled
  rw [hf, show t.tally Phase.unnoted = s.tally Phase.unnoted by omega]

variable [DecidableEq κ]

theorem Makes.level {a? : Option (Acceptance κ ι)} (h : Makes s id e t out a?) : Level s t := by
  cases h <;> exact .of_workers rfl rfl rfl rfl

theorem Works.level (hb : s.pool.Balanced) (lending : s.pool.closed = false) (h : Works s w t out) :
    Level s t := by
  cases h with
  | asked | slept => exact .of_workers rfl rfl rfl rfl
  | claimed entry buffer before => exact .of_moves ⟨before, rfl⟩ rfl rfl rfl rfl
  | exited buffer before => exact .of_moves ⟨before, rfl⟩ rfl rfl rfl rfl
  | lent drain c pool asks =>
    obtain ⟨before, _⟩ | ⟨before, _⟩ := asks <;> exact .of_moves ⟨before, rfl⟩ rfl rfl rfl rfl
  | waits drain pool before => exact .of_moves ⟨before, rfl⟩ rfl rfl rfl rfl
  | refused drain error pool asks =>
    -- Only a closed pool refuses.
    have hclosed : s.pool.closed = true := by
      obtain ⟨_, hl⟩ | ⟨_, hl⟩ := asks
      · exact ((hb.acquire (.worker w)).2.2 error (by rw [hl])).1
      · exact ((hb.collect (.worker w)).2.2 error (by rw [hl])).1
    rw [lending] at hclosed
    cases hclosed
  | begun drain c before => exact .of_moves ⟨before, rfl⟩ rfl rfl rfl rfl
  | noted entry outcome before =>
    cases outcome with
    | ok => exact .of_moves ⟨before, rfl⟩ rfl rfl rfl rfl
    | error cause =>
      refine ⟨?_, rfl, rfl⟩
      have htally := Moves.tally (t := (s.hold entry (.error cause)).setWorker w (.retiring entry (.error cause)))
        ⟨before, rfl⟩ Phase.unnoted
      simp only [Phase.unnoted] at htally
      have hheld : ((s.hold entry (.error cause)).setWorker w (.retiring entry (.error cause))).failure.isSome =
          true := by
        simp only [State.setWorker, State.hold]
        cases s.failure <;> rfl
      exact ⟨fun _ => .inr (by omega), fun _ => .inl hheld⟩
  | retired entry outcome before => exact .of_moves ⟨before, rfl⟩ rfl rfl rfl rfl

variable [Named κ]

/-! ## What a calm queue does by itself -/

/-- What can become of a calm queue by itself. A barrier that returns reports the failure that is held. -/
inductive Drifts (s t : State κ ι) : List (Notice κ ι) → Prop where
  | still {out : List (Notice κ ι)} (level : Level s t) (fence : ∀ id, t.fence? id = s.fence? id)
    (last : t.buffer.last = s.buffer.last)
    (outstanding : ∀ q ∈ t.buffer.outstanding, q ∈ s.buffer.outstanding) : Drifts s t out
  | reports (id : Nat) (target : Sequence) (waits : s.fence? id = some target)
    (drained : s.buffer.isDrainedThrough target = true) (failure : t.failure = none)
    (workers : t.workers = s.workers) (counters : t.counters = s.counters) (buffer : t.buffer = s.buffer)
    (fence : ∀ id', t.fence? id' = if id = id' then none else s.fence? id') :
    Drifts s t [.returned id ((surfaced s.failure).map fun _ => .done)]

omit [DecidableEq κ] [Named κ] in
theorem fence?_congr (h : t.phase? id = s.phase? id) : t.fence? id = s.fence? id := by
  rw [State.fence?_eq, State.fence?_eq, h]

omit [DecidableEq κ] [Named κ] in
theorem fence?_leave (s : State κ ι) (id id' : Nat) :
    (s.leave id).fence? id' = if id = id' then none else s.fence? id' := by
  unfold State.fence?
  rw [State.call?_leave]
  split <;> rfl

theorem Works.drifts (hs : Tended s) (calm : Calm s) (h : Works s w t out) : Drifts s t out := by
  refine .still (h.level hs.balanced calm.lending) (fun id => h.aside.fence?) ?_ ?_
  · cases h with
    | claimed _ _ _ _ claim => exact Buffer.claim_last claim
    | noted _ outcome => cases outcome <;> rfl
    | _ => rfl
  · intro q hq
    cases h with
    | claimed _ _ _ _ claim => exact Buffer.claim_outstanding claim ▸ hq
    | noted _ outcome => cases outcome <;> exact hq
    | retired => exact ((Buffer.mem_complete_outstanding _ _ _ q).mp hq).1
    | _ => exact hq

omit [DecidableEq κ] in
theorem Looks.drifts {c : Call} (calm : Calm s) (hc : s.call? id = some c) (h : Looks s id c t out) :
    Drifts s t out := by
  have hcalm := calm.call hc
  have haside := fun id' (hid : id ≠ id') => h.aside hid
  have hlevel : ∀ {t : State κ ι}, t.workers = s.workers → t.failure = s.failure → t.counters = s.counters →
      Level s t := fun hw hf hcounters => .of_workers hw hf (by rw [hcounters]) (by rw [hcounters])
  cases h with
  | asleep =>
    refine .still (hlevel rfl rfl rfl) (fun id' => fence?_congr ?_) rfl fun _ hq => hq
    by_cases hid : id = id'
    · subst hid
      rw [State.phase?_asleep hc, State.phase?_of_call hc]
    · exact (haside id' hid).phase?
  | released receipt phase =>
    refine .still (hlevel rfl rfl rfl) (fun id' => ?_) rfl fun _ hq => hq
    rw [fence?_leave]
    split
    · subst_vars
      rw [State.fence?_eq, State.phase?_of_call hc, phase]
      rfl
    · rfl
  | reported target phase drained =>
    refine .reports id target ?_ drained rfl rfl rfl rfl (fence?_leave _ id)
    rw [State.fence?_eq, State.phase?_of_call hc, phase]
    rfl
  | fenced _ phase | flushed _ phase | shut _ phase | taken _ phase | joined _ _ phase | ended _ phase
  | lent _ _ phase | refused _ _ phase =>
    rw [phase] at hcalm
    cases hcalm

theorem Calm.drifts (calm : Calm s) (hs : Tended s) (hd : e.drifts = true) (h : step s e = some (t, out)) :
    Drifts s t out := by
  cases step_cases h with
  | made _ _ _ _ _ _ _ makes =>
    cases makes with
    | refused _ closed =>
      rw [calm.opened] at closed
      cases closed
    | _ => cases hd
  | pass => exact .still (.of_workers rfl rfl rfl rfl) (fun _ => rfl) rfl fun _ hq => hq
  | work _ _ _ works => exact works.drifts hs calm
  | look _ _ _ _ call looks => exact looks.drifts calm call
  | expire abandoned =>
    rw [calm.owned] at abandoned
    cases abandoned
  | _ => cases hd

theorem finish_ends {outcome : Outcome} (h : step s (.finish w outcome) = some (t, out)) :
    (∃ drain c, Moves s t w (.storing drain c) (.ended drain.entry outcome)) ∧ out = [] ∧
    t.buffer = s.buffer ∧ t.calls = s.calls ∧
    t.counters.drained = s.counters.drained + 1 ∧
    t.counters.failed = s.counters.failed + (if outcome.isOk then 0 else 1) ∧
    (t.Troubled ↔ s.Troubled ∨ outcome.isOk = false) := by
  obtain ⟨drain, c, before, rfl, rfl⟩ := finish_cases h
  have move : Moves s ({ s with pool := s.pool.giveBack c }.endDrain w drain outcome) w (.storing drain c)
    (.ended drain.entry outcome) := ⟨before, rfl⟩
  have htally := move.tally Phase.unnoted
  refine ⟨⟨drain, c, move⟩, rfl, rfl, rfl, rfl, ?_, ?_⟩
  · cases outcome <;> rfl
  · have hfailure : ({ s with pool := s.pool.giveBack c }.endDrain w drain outcome).failure = s.failure := rfl
    unfold State.Troubled
    rw [hfailure]
    cases outcome with
    | ok =>
      simp only [Phase.unnoted, Nat.add_zero] at htally
      simp [htally, Except.isOk, Except.toBool]
    | error =>
      simp only [Phase.unnoted] at htally
      simp only [Except.isOk, Except.toBool, or_true, iff_true]
      omega

/-! ## What is asked of a calm queue -/

omit [DecidableEq κ] [Named κ] in
theorem phase?_wait (s : State κ ι) (id id' : Nat) (phase : CallPhase) :
    (s.wait id phase).phase? id' = if id = id' then some phase else s.phase? id' := by
  unfold State.phase?
  rw [State.call?_wait]
  split <;> rfl

omit [DecidableEq κ] [Named κ] in
theorem fence?_wait (s : State κ ι) (id id' : Nat) (phase : CallPhase) :
    (s.wait id phase).fence? id' = if id = id' then phase.target? else s.fence? id' := by
  rw [State.fence?_eq, State.fence?_eq, phase?_wait]
  split <;> rfl

theorem Calm.accepts (calm : Calm s) {key : κ} {item : ι}
    (h : step s (.enqueue id key item false) = some (t, out)) :
    (∃ a, accepted? (.enqueue id key item false) (t, out) = some a ∧ a.item = item) ∧ Level s t ∧
      s.call? id = none ∧ ∀ id', t.fence? id' = s.fence? id' := by
  obtain ⟨_, free, he⟩ := issue_eq_some.mp h
  obtain ⟨a?, makes⟩ := enqueue_cases he
  have hnone : s.fence? id = none := by
    unfold State.fence?
    rw [free]
    rfl
  rw [makes.accepted free]
  refine ⟨?_, makes.level, free, ?_⟩
  · cases makes with
    | refused _ closed =>
      rw [calm.opened] at closed
      cases closed
    | _ => exact ⟨_, rfl, rfl⟩
  · cases makes with
    | stalled =>
      intro id'
      rw [fence?_wait]
      split
      · subst_vars
        exact hnone.symm
      · rfl
    | _ => exact fun _ => rfl

theorem barrier_waits (h : step s (.barrier id) = some (t, out)) :
    out = [] ∧ Level s t ∧ t.buffer = s.buffer ∧ s.call? id = none ∧
      ∀ id', t.fence? id' = if id = id' then some s.buffer.last else s.fence? id' := by
  obtain ⟨_, free, he⟩ := issue_eq_some.mp h
  cases he
  exact ⟨rfl, Makes.barrier.level, rfl, free, fun id' => fence?_wait _ _ id' _⟩

/-! ## Steps -/

omit [Named κ] in
theorem Makes.calm {a? : Option (Acceptance κ ι)} (calm : Calm s) (he : e.isCalm = true)
    (h : Makes s id e t out a?) : Calm t := by
  have hwait : ∀ {t : State κ ι} (phase : CallPhase), Calm t → phase.isCalm = true → Calm (t.wait id phase) := by
    intro t phase ht hphase
    refine ⟨ht.opened, ht.owned, ht.lending, fun id' phase' hp => ?_⟩
    rw [phase?_wait] at hp
    split at hp
    · cases hp
      exact hphase
    · exact ht.phases id' phase' hp
  have hsame : ∀ {t : State κ ι}, t.closed = s.closed → t.abandoned = s.abandoned → t.pool = s.pool →
      t.calls = s.calls → Calm t := by
    intro t hclosed howned hpool hcalls
    refine ⟨hclosed.trans calm.opened, howned.trans calm.owned, hpool ▸ calm.lending, fun id phase hp => ?_⟩
    refine calm.phases id phase ?_
    unfold State.phase? State.call? at hp ⊢
    rwa [hcalls] at hp
  cases h with
  | refused _ closed =>
    rw [calm.opened] at closed
    cases closed
  | written => exact hsame rfl rfl rfl rfl
  | stalled => exact hwait _ (hsame rfl rfl rfl rfl) he
  | barrier => exact hwait _ (hsame rfl rfl rfl rfl) rfl
  | _ => cases he

theorem Calm.pool (calm : Calm s) (hb : s.pool.Balanced) (he : e.isCalm = true)
    (h : step s e = some (t, out)) : t.pool.closed = false := by
  rcases (step_pool h).closed_iff hb with hsame | ⟨hcloses, _⟩
  · exact hsame.trans calm.lending
  · rcases hcloses with rfl | ⟨id, c, flushed, workers, _, hcall, hphase⟩
    · cases he
    · have hjoining := calm.call hcall
      rw [hphase] at hjoining
      cases hjoining

omit [DecidableEq κ] in
theorem Looks.calm {c : Call} (calm : Calm s) (hc : s.call? id = some c) (h : Looks s id c t out) :
    t.closed = false ∧ t.abandoned = false ∧ ∀ phase, t.phase? id = some phase → phase.isCalm = true := by
  have hcalm := calm.call hc
  cases h with
  | asleep =>
    refine ⟨calm.opened, calm.owned, fun phase hp => ?_⟩
    rw [State.phase?_asleep hc] at hp
    cases hp
    exact hcalm
  | released =>
    refine ⟨calm.opened, calm.owned, fun phase hp => ?_⟩
    rw [State.phase?_leave_self] at hp
    cases hp
  | reported =>
    refine ⟨calm.opened, calm.owned, fun phase hp => ?_⟩
    rw [State.phase?_leave_self] at hp
    cases hp
  | fenced _ phase | flushed _ phase | shut _ phase | taken _ phase | joined _ _ phase | ended _ phase
  | lent _ _ phase | refused _ _ phase =>
    rw [phase] at hcalm
    cases hcalm

theorem Calm.step (calm : Calm s) (hb : s.pool.Balanced) (he : e.isCalm = true)
    (h : step s e = some (t, out)) : Calm t := by
  have hpool := calm.pool hb he h
  have hphases : (∀ id, e.call? ≠ some id) → ∀ id phase, t.phase? id = some phase → phase.isCalm = true :=
    fun hnone id phase hp => calm.phases id phase ((step_aside h (hnone id)).phase? ▸ hp)
  cases step_cases h with
  | made _ _ _ _ _ _ _ makes => exact makes.calm calm he
  | pass => exact ⟨calm.opened, calm.owned, hpool, hphases (by simp [Event.call?])⟩
  | work _ _ _ works =>
    refine ⟨?_, ?_, hpool, hphases (by simp [Event.call?])⟩
    · cases works with
      | noted _ outcome => cases outcome <;> exact calm.opened
      | _ => exact calm.opened
    · cases works with
      | noted _ outcome => cases outcome <;> exact calm.owned
      | _ => exact calm.owned
  | finish => exact ⟨calm.opened, calm.owned, hpool, hphases (by simp [Event.call?])⟩
  | look id _ _ _ call looks =>
    obtain ⟨hopen, howned, hself⟩ := looks.calm calm call
    refine ⟨hopen, howned, hpool, fun id' phase hp => ?_⟩
    by_cases hid : id = id'
    · subst hid
      exact hself phase hp
    · exact calm.phases id' phase ((looks.aside hid).phase? ▸ hp)
  | expire abandoned =>
    rw [calm.owned] at abandoned
    cases abandoned
  | _ => cases he

variable {config : QueueConfig} {connections : List Connection} {events : List (Event κ ι)}

omit [DecidableEq κ] [Named κ] in
theorem Begins.calm (h : Begins config connections s) : Calm s := by
  have hphase := h.phase?
  obtain ⟨pool, hp, _, rfl⟩ := h.eq
  exact ⟨rfl, rfl, Pool.ofConnections_closed hp, by simp [hphase]⟩

omit [DecidableEq κ] [Named κ] in
theorem Begins.not_troubled (h : Begins config connections s) : ¬ s.Troubled := by
  have hnone := h.tally (f := Phase.unnoted) rfl
  obtain ⟨pool, _, _, rfl⟩ := h.eq
  rintro (hf | hf)
  · cases hf
  · omega

end WriteBehind.Queue
