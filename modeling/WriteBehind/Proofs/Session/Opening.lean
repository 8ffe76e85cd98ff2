import WriteBehind.Backend.Scripted
import WriteBehind.Session.Basic

/-!
# Opening a session

A session opens its connections one after the other, prepares the backend on one of them and only then starts
its workers. The first thing that fails ends it, and nothing of a session is left. What the backend is asked
for is seen by a backend that notes it.
-/

namespace WriteBehind

/-! ## Valid configurations -/

def QueueConfig.Valid (c : QueueConfig) : Prop :=
  1 ≤ c.workers ∧ c.workers ≤ maxWorkers ∧ c.watermarks.Valid

instance (c : QueueConfig) : Decidable c.Valid := inferInstanceAs (Decidable (_ ∧ _))

def SessionConfig.Valid (c : SessionConfig) : Prop := c.queue.Valid

instance (c : SessionConfig) : Decidable c.Valid := inferInstanceAs (Decidable c.queue.Valid)

theorem QueueConfig.validate_eq_ok_iff {c : QueueConfig} : c.validate = .ok () ↔ c.Valid := by
  unfold validate Valid
  split
  · simp; omega
  · split
    · simp; omega
    · rw [Watermarks.validate_eq_ok_iff]
      constructor
      · exact fun h => ⟨by omega, by omega, h⟩
      · exact fun h => h.2.2

theorem Watermarks.validate_error {w : Watermarks} {e : Error} (h : w.validate = .error e) :
    ∃ text, e = .config text := by
  unfold validate at h
  split at h
  · cases h; exact ⟨_, rfl⟩
  · split at h <;> cases h
    exact ⟨_, rfl⟩

theorem QueueConfig.validate_error {c : QueueConfig} {e : Error} (h : c.validate = .error e) :
    ∃ text, e = .config text := by
  unfold validate at h
  split at h
  · cases h; exact ⟨_, rfl⟩
  · split at h
    · cases h; exact ⟨_, rfl⟩
    · exact Watermarks.validate_error h

theorem QueueConfig.validate_of_not_valid {c : QueueConfig} (h : ¬ c.Valid) :
    ∃ text, c.validate = .error (.config text) := by
  cases hv : c.validate with
  | ok => exact absurd (validate_eq_ok_iff.mp hv) h
  | error e =>
    obtain ⟨text, rfl⟩ := validate_error hv
    exact ⟨text, rfl⟩

/-! ## What a backend is asked for -/

inductive Contact where
  | connect (answer : Except StoreError Connection)
  | prepare (connection : Connection) (answer : Except StoreError Connection)
  | receive (write : Write)
  | carryOut (write : Write) (outcome : Queue.Outcome)

namespace Backend

variable {β : Type} {b : Backend β} {s s' s'' : β} {c : Connection} {cs : List Connection} {e : StoreError}
  {n : Nat}

def watched (b : Backend β) : Backend (β × List Contact) where
  connect s :=
    let (answer, store) := b.connect s.1
    (answer, store, s.2 ++ [.connect answer])
  prepare s c :=
    let (answer, store) := b.prepare s.1 c
    (answer, store, s.2 ++ [.prepare c answer])
  receive s w := (b.receive s.1 w, s.2 ++ [.receive w])
  latency s := b.latency s.1
  carryOut s catalog w :=
    let (outcome, store) := b.carryOut s.1 catalog w
    (outcome, store, s.2 ++ [.carryOut w outcome])
  isHealthy s := b.isHealthy s.1

inductive Grants (b : Backend β) : β → List Connection → β → Prop
  | none (s : β) : Grants b s [] s
  | more {s s' s'' : β} {c : Connection} {cs : List Connection} (first : b.connect s = (.ok c, s'))
      (rest : Grants b s' cs s'') : Grants b s (c :: cs) s''

def granted (cs : List Connection) : List Contact := cs.map fun c => .connect (.ok c)

theorem watched_connect {answer : Except StoreError Connection} (h : b.connect s = (answer, s'))
    (calls : List Contact) :
    b.watched.connect (s, calls) = (answer, s', calls ++ [.connect answer]) := by
  simp only [watched, h]

theorem watched_prepare {answer : Except StoreError Connection} (h : b.prepare s c = (answer, s'))
    (calls : List Contact) :
    b.watched.prepare (s, calls) c = (answer, s', calls ++ [.prepare c answer]) := by
  simp only [watched, h]

theorem Grants.watched (h : b.Grants s cs s') (calls : List Contact) :
    b.watched.Grants (s, calls) cs (s', calls ++ granted cs) := by
  induction h generalizing calls with
  | none s => simpa [granted] using Grants.none (b := b.watched) (s, calls)
  | @more s s' s'' c cs first rest ih =>
    have later := ih (calls ++ [.connect (.ok c)])
    rw [List.append_assoc] at later
    exact .more (watched_connect first calls) later

theorem Grants.openAll (h : b.Grants s cs s') : Pool.openAll b.connect cs.length s = (.ok cs, s') := by
  induction h with
  | none => rfl
  | more first rest ih => simp only [List.length_cons, Pool.openAll, first, ih]

theorem Grants.openAll_refused (h : b.Grants s cs s') (refused : b.connect s' = (.error e, s''))
    (hn : cs.length < n) : Pool.openAll b.connect n s = (.error e, s'') := by
  obtain ⟨n, rfl⟩ := Nat.exists_eq_add_one_of_ne_zero (Nat.ne_zero_of_lt hn)
  induction h generalizing n with
  | none => simp only [Pool.openAll, refused]
  | @more s s' _ c cs first rest ih =>
    obtain ⟨n, rfl⟩ := Nat.exists_eq_add_one_of_ne_zero (n := n) (by simp at hn; omega)
    have later := ih refused n (by simpa using hn)
    rw [Pool.openAll]
    simp only [first, later]

theorem grants_or_refused (b : Backend β) (n : Nat) (s : β) :
    ∃ cs s', b.Grants s cs s' ∧
      (cs.length = n ∨ cs.length < n ∧ ∃ e s'', b.connect s' = (.error e, s'')) := by
  induction n generalizing s with
  | zero => exact ⟨[], s, .none s, .inl rfl⟩
  | succ n ih =>
    cases hc : b.connect s with
    | mk answer s₁ =>
      cases answer with
      | error e => exact ⟨[], s, .none s, .inr ⟨n.succ_pos, e, s₁, hc⟩⟩
      | ok c =>
        obtain ⟨cs, s', hg, hcases⟩ := ih s₁
        refine ⟨c :: cs, s', .more hc hg, hcases.imp (congrArg (· + 1)) ?_⟩
        exact fun ⟨hlt, refused⟩ => ⟨Nat.succ_lt_succ hlt, refused⟩

end Backend

namespace Pool

variable {γ τ : Type}

def full (connections : List γ) : Pool γ τ where
  idle := connections.reverse
  free := connections.length
  capacity := connections.length

def lentLast (front : List γ) : Pool γ τ where
  idle := front.reverse
  free := front.length
  capacity := front.length + 1

theorem ofConnections_full (front : List γ) (c : γ) :
    (ofConnections (front ++ [c]) : Except Error (Pool γ τ)) = .ok (full (front ++ [c])) := by
  simp [ofConnections, full]

theorem full_acquire (front : List γ) (c : γ) (ticket : τ) :
    (full (front ++ [c])).acquire ticket = (.lent c, lentLast front) := by
  simp [acquire, full, lend, checkout, lentLast]

theorem lentLast_giveBack (front : List γ) (c : γ) :
    (lentLast front : Pool γ τ).giveBack c = full (front ++ [c]) := by
  simp [giveBack, returnPermit, full, lentLast]

end Pool

namespace Session

open Backend (granted)

variable {β : Type} {b : Backend β} {config : SessionConfig} {since : Int} {store s s' : β}
  {c c' : Connection} {cs front : List Connection} {e : StoreError}

theorem poolSize_ne_zero (h : config.Valid) : config.poolSize ≠ 0 :=
  Nat.ne_of_gt (Nat.lt_of_lt_of_le h.1 (Nat.le_add_left _ _))

theorem validate_valid (h : config.Valid) : config.validate = .ok () :=
  QueueConfig.validate_eq_ok_iff.mpr h

theorem start_not_valid {text : String} (h : config.validate = .error (.config text)) :
    start b config since store = (.error (.config text), store) := by
  simp only [start, h]

theorem start_refused (valid : config.Valid) (grants : b.Grants store cs s)
    (hn : cs.length < config.poolSize) (refused : b.connect s = (.error e, s')) :
    start b config since store = (.error (.store e), s') := by
  simp only [start, validate_valid valid, Pool.connect, if_neg (poolSize_ne_zero valid),
    grants.openAll_refused refused hn]

theorem connect_full (valid : config.Valid) (grants : b.Grants store (front ++ [c]) s)
    (hn : (front ++ [c]).length = config.poolSize) :
    Pool.connect (τ := Queue.Borrower) b.connect config.poolSize store = (.ok (.full (front ++ [c])), s) := by
  have hopen := grants.openAll
  rw [hn] at hopen
  simp only [Pool.connect, if_neg (poolSize_ne_zero valid), hopen, Pool.ofConnections_full]

theorem start_unprepared (valid : config.Valid) (grants : b.Grants store (front ++ [c]) s)
    (hn : (front ++ [c]).length = config.poolSize) (refused : b.prepare s c = (.error e, s')) :
    start b config since store = (.error (.store e), s') := by
  simp only [start, validate_valid valid, connect_full valid grants hn, Pool.full_acquire, refused]

theorem queue_starts (valid : config.Valid) (pool : Pool Connection Queue.Borrower) :
    ∃ queue : Queue.State AtomId Write, Queue.State.start config.queue pool = .ok queue ∧
      queue.pool = pool ∧ queue.depth = 0 ∧ queue.closed = false ∧
      queue.workers = List.replicate config.queue.workers .idle := by
  have hqueue : config.queue.validate = .ok () := validate_valid valid
  have hstart : Queue.State.start config.queue pool = .ok ({
      watermarks := config.queue.watermarks
      stalling := config.queue.stall
      pool
      workers := List.replicate config.queue.workers .idle
      unjoined := List.range config.queue.workers } : Queue.State AtomId Write) := by
    simp only [Queue.State.start, hqueue]
    rfl
  exact ⟨_, hstart, rfl, rfl, rfl, rfl⟩

theorem start_opens (valid : config.Valid) (grants : b.Grants store (front ++ [c]) s)
    (hn : (front ++ [c]).length = config.poolSize) (prepared : b.prepare s c = (.ok c', s'))
    {queue : Queue.State AtomId Write}
    (started : Queue.State.start config.queue (.full (front ++ [c'])) = .ok queue) :
    start b config since store =
      (.ok { name := config.name, since, stage := { queue, shared := { store := s' } } }, s') := by
  simp only [start, validate_valid valid, connect_full valid grants hn, Pool.full_acquire, prepared,
    Pool.lentLast_giveBack, started]

/-- In opening a session the backend is asked for this, and for nothing else. -/
def Asks (b : Backend β) (config : SessionConfig) (since : Int) (store : β) (calls : List Contact) : Prop :=
  (start b.watched config since (store, [])).2 = ((start b config since store).2, calls)

/-- **A session opens as a whole or not at all.** A configuration that is not valid is refused, and the backend
is not asked for anything. Else connections are opened one at a time; the first that is refused ends it with
its failure, and so does the backend if it cannot be prepared on one of them, which is tried once. Only when
that succeeds there is a session, with every connection back in an open pool, and with nothing to do. -/
theorem opens_all_or_nothing (b : Backend β) (config : SessionConfig) (since : Int) (store : β) :
    (¬ config.Valid → ∃ text,
      start b config since store = (.error (.config text), store) ∧ Asks b config since store []) ∧
    (config.Valid →
      (∀ cs s e s', b.Grants store cs s → cs.length < config.poolSize → b.connect s = (.error e, s') →
        start b config since store = (.error (.store e), s') ∧
        Asks b config since store (granted cs ++ [.connect (.error e)])) ∧
      (∀ cs s, b.Grants store cs s → cs.length = config.poolSize → ∃ front c, cs = front ++ [c] ∧
        (∀ e s', b.prepare s c = (.error e, s') →
          start b config since store = (.error (.store e), s') ∧
          Asks b config since store (granted cs ++ [.prepare c (.error e)])) ∧
        ∀ c' s', b.prepare s c = (.ok c', s') → ∃ t : Session β,
          start b config since store = (.ok t, s') ∧
          Asks b config since store (granted cs ++ [.prepare c (.ok c')]) ∧
          t.queue.pool.idle.Perm (front ++ [c']) ∧ t.queue.pool.size = config.poolSize ∧
          t.queue.pool.free = config.poolSize ∧ t.queue.pool.capacity = config.poolSize ∧
          t.queue.pool.waiters = [] ∧ t.queue.pool.promised = [] ∧ t.queue.pool.closed = false ∧
          t.queue.depth = 0 ∧ t.queue.closed = false ∧
          t.queue.workers = List.replicate config.queue.workers .idle ∧ t.store = s' ∧ t.name = config.name) ∧
      ∃ cs s, b.Grants store cs s ∧ (cs.length = config.poolSize ∨
        cs.length < config.poolSize ∧ ∃ e s', b.connect s = (.error e, s'))) := by
  refine ⟨fun invalid => ?_, fun valid => ⟨?_, ?_, b.grants_or_refused config.poolSize store⟩⟩
  · obtain ⟨text, hv⟩ : ∃ text, config.validate = .error (.config text) :=
      QueueConfig.validate_of_not_valid invalid
    refine ⟨text, start_not_valid hv, ?_⟩
    simp only [Asks, start_not_valid hv]
  · intro cs s e s' grants hn refused
    have hstart : start b config since store = _ := start_refused valid grants hn refused
    refine ⟨hstart, ?_⟩
    rw [Asks, hstart, start_refused valid (grants.watched []) hn (Backend.watched_connect refused _)]
    rfl
  · intro cs s grants hn
    obtain ⟨front, c, rfl⟩ : ∃ front c, cs = front ++ [c] := by
      obtain rfl | ⟨front, c, rfl⟩ := cs.eq_nil_or_concat
      · exact absurd hn.symm (poolSize_ne_zero valid)
      · exact ⟨front, c, by simp⟩
    refine ⟨front, c, rfl, fun e s' refused => ?_, fun c' s' prepared => ?_⟩
    · have hstart : start b config since store = _ := start_unprepared valid grants hn refused
      refine ⟨hstart, ?_⟩
      rw [Asks, hstart, start_unprepared valid (grants.watched []) hn (Backend.watched_prepare refused _)]
      rfl
    · obtain ⟨queue, hqueue, hpool, hdepth, hclosed, hworkers⟩ := queue_starts valid (.full (front ++ [c']))
      have hstart : start b config since store = _ := start_opens valid grants hn prepared hqueue
      have hlength : (front ++ [c']).length = config.poolSize := by simpa using hn
      refine ⟨_, hstart, ?_, ?_, ?_, ?_, ?_, ?_, ?_, ?_, hdepth, hclosed, hworkers, rfl, rfl⟩
      · rw [Asks, hstart, start_opens valid (grants.watched []) hn (Backend.watched_prepare prepared _) hqueue]
        rfl
      all_goals simp only [Session.queue, hpool]
      · exact List.reverse_perm _
      · exact (List.length_reverse ..).trans hlength
      · exact hlength
      · exact hlength
      · rfl
      · rfl
      · rfl

def three : SessionConfig := { name := "three", foreground := 1, queue := { workers := 2 } }

theorem opens_all_or_nothing_refused :
    ∃ s s' : Script, three.Valid ∧
    Script.backend.Grants { refusal := some (1, .timeout) } [⟨0, 0⟩] s ∧
    Script.backend.connect s = (.error .timeout, s') ∧ s'.connects = 2 ∧
    start Script.backend three 0 { refusal := some (1, .timeout) } = (.error (.store .timeout), s') ∧
    Asks Script.backend three 0 { refusal := some (1, .timeout) }
      [.connect (.ok ⟨0, 0⟩), .connect (.error .timeout)] ∧
    ∃ t : Session Script, Asks Script.backend three 0 {} [.connect (.ok ⟨0, 0⟩), .connect (.ok ⟨1, 0⟩),
      .connect (.ok ⟨2, 0⟩), .prepare ⟨2, 0⟩ (.ok ⟨2, 0⟩)] ∧
    start Script.backend three 0 {} = (.ok t, { connects := 3 }) ∧
    t.queue.pool.idle.Perm [⟨0, 0⟩, ⟨1, 0⟩, ⟨2, 0⟩] ∧ t.queue.depth = 0 := by
  have valid : three.Valid := by decide
  have refuses : Script.backend.Grants { refusal := some (1, .timeout) } [⟨0, 0⟩]
      { refusal := some (1, .timeout), connects := 1 } := .more rfl (.none _)
  have grants : Script.backend.Grants {} [⟨0, 0⟩, ⟨1, 0⟩, ⟨2, 0⟩] { connects := 3 } :=
    .more rfl (.more rfl (.more rfl (.none _)))
  obtain ⟨hrefused, _⟩ :=
    (opens_all_or_nothing Script.backend three 0 { refusal := some (1, .timeout) }).2 valid
  obtain ⟨_, hgranted, _⟩ := (opens_all_or_nothing Script.backend three 0 {}).2 valid
  obtain ⟨hstart, hasks⟩ := hrefused _ _ .timeout _ refuses (by decide) rfl
  obtain ⟨front, c, hcs, _, hopens⟩ := hgranted _ _ grants rfl
  have hcs : ([⟨0, 0⟩, ⟨1, 0⟩] : List Connection) ++ [⟨2, 0⟩] = front ++ [c] := hcs
  obtain ⟨rfl, hc⟩ := List.append_inj' hcs rfl
  cases hc
  obtain ⟨t, hstart', hasks', hidle, _, _, _, _, _, _, hdepth, _⟩ := hopens _ _ rfl
  exact ⟨_, _, valid, refuses, rfl, rfl, hstart, hasks, t, hasks', hstart', hidle, hdepth⟩

end Session

end WriteBehind
