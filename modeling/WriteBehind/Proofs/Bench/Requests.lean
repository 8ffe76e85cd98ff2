import Mathlib.Data.Nat.ModEq
import WriteBehind.Bench.Run
import WriteBehind.Proofs.Bench.Orders
import WriteBehind.Proofs.Queue.Calm
import WriteBehind.Proofs.Session.Requests

/-!
# Requests of a bench

The session of a bench is calm, and each of its entries asks for a store of one of the atoms. So the backend
refuses a request only if its number is a multiple of the one that the settings give, and the queue has counted
as many failures as there are such numbers.
-/

namespace WriteBehind

/-! ## What a request meets -/

namespace Memory

variable {name : String → String} {m m' : Memory}

/-- What the fate of the next request depends on, besides its atom. -/
def rules (m : Memory) : Nat × List AtomId × Nat := (m.failEvery, m.failing, m.requests)

theorem carryOut_rules {catalog : Catalog} {k n : Nat} {id : AtomId} {a : Atom} {outcome : Queue.Outcome}
    (hm : m.rules = (k, [], n)) (known : catalog.get? id = some a)
    (h : carryOut name m catalog ⟨id, .store⟩ = (outcome, m')) :
    m'.rules = (k, [], n + 1) ∧ (outcome.isOk = false ↔ k ≠ 0 ∧ (n + 1) % k = 0) := by
  obtain ⟨rfl, hfailing, rfl⟩ : m.failEvery = k ∧ m.failing = [] ∧ m.requests = n := by simpa [rules] using hm
  simp only [carryOut, failure?] at h
  split_ifs at h with hk hin
  · cases h
    exact ⟨by simp [rules, hfailing], by simpa [Except.isOk, Except.toBool] using hk⟩
  · rw [hfailing] at hin
    cases hin
  · rw [known] at h
    cases h
    exact ⟨by simp [rules, hfailing], by simpa [Except.isOk, Except.toBool] using hk⟩

end Memory

namespace Session

open Queue (Notice)

variable {name : String → String} {w u : World} {action : Action} {e : Queue.Event AtomId Write}

theorem World.move_rules (h : w.move e = some u) : u.store.rules = w.store.rules := by
  obtain ⟨⟨queue, out⟩, _, hu⟩ := Option.bind_eq_some_iff.mp h
  cases hu
  dsimp only
  split <;> rfl

theorem World.call_rules {id : Nat} {command : Command} (h : World.step name w (.call id command) = some u) :
    u.store.rules = w.store.rules := by
  simp only [World.step] at h
  split at h
  · exact move_rules h
  · cases h

inductive Stirs (name : String → String) (w : World) : Action → World → Prop where
  | read (worker : Nat) (request : Write) (carries : w.request? worker = some request) :
    Stirs name w (.read worker) { w with drafts := w.drafts.set worker w.catalog }
  | drifted (e : Queue.Event AtomId Write) (u : World) (out : List (Notice AtomId Write))
    (drifts : e.drifts = true) (moved : World.Moved w u e out) (rules : u.store.rules = w.store.rules) :
    Stirs name w (.queue e) u
  | wrote (worker : Nat) (request : Write) (draft : Catalog) (outcome : Queue.Outcome) (store : Memory) (u : World)
    (out : List (Notice AtomId Write)) (carries : w.request? worker = some request)
    (found : w.drafts.get? worker = some draft)
    (carried : Memory.carryOut name w.store draft request = (outcome, store))
    (moved : World.Moved { w with store, drafts := w.drafts.erase worker } u (.finish worker outcome) out)
    (rules : u.store.rules = store.rules) : Stirs name w (.write worker) u

theorem stirs_cases (hs : action.isStir = true) (h : World.step name w action = some u) :
    Stirs name w action u := by
  cases action with
  | queue e =>
    have hd : e.drifts = true := by cases e <;> first | rfl | cases hs
    simp only [World.step] at h
    split at h
    · obtain ⟨out, hm⟩ := World.move_cases h
      exact .drifted e u out hd hm (World.move_rules h)
    · cases h
  | read worker =>
    obtain ⟨request, hr, hu⟩ := Option.bind_eq_some_iff.mp h
    cases hu
    exact .read worker request hr
  | write worker =>
    obtain ⟨request, hr, hd⟩ := Option.bind_eq_some_iff.mp h
    obtain ⟨draft, hd, hu⟩ := Option.bind_eq_some_iff.mp hd
    obtain ⟨out, hm⟩ := World.move_cases hu
    exact .wrote worker request draft _ _ u out hr hd rfl hm (World.move_rules (w := { w with
      store := (Memory.carryOut name w.store draft request).2, drafts := w.drafts.erase worker }) hu)
  | _ => cases hs

end Session

namespace Bench

open Queue (Begins Calm Notice Tended)
open Session (Stirs World)

variable {name : String → String} {luck : Luck} {w : Workload} {s t : State} {tick : Tick} {ticks : List Tick}
  {config : QueueConfig} {connections : List Connection} {s₀ : Queue.State AtomId Write}
  {e : Queue.Event AtomId Write} {out : List (Notice AtomId Write)}

/-! ## The queue of a bench -/

def Luck.IsItem (luck : Luck) (w : Workload) (item : Write) : Prop := ∃ i < w.atoms, item = ⟨luck.id i, .store⟩

/-- The queue has come to be what it is by calm events, of which one for each order accepts a write. -/
def Ran (luck : Luck) (w : Workload) (s₀ : Queue.State AtomId Write) (s : State) : Prop :=
  ∃ events, Queue.run s₀ events = some (s.world.queue, s.world.notices) ∧ (∀ e ∈ events, e.isCalm = true) ∧
    (Queue.acceptances s₀ events).length = s.orders.length ∧
    ∀ a ∈ Queue.acceptances s₀ events, luck.IsItem w a.item

theorem Ran.tended (h₀ : Begins config connections s₀) (h : Ran luck w s₀ s) : Tended s.world.queue := by
  obtain ⟨events, hr, _⟩ := h
  exact h₀.tended.run hr

theorem Ran.calm (h₀ : Begins config connections s₀) (h : Ran luck w s₀ s) : Calm s.world.queue := by
  obtain ⟨events, hr, hcalm, _⟩ := h
  refine Queue.run_induction (P := fun events _ t => (∀ e ∈ events, e.isCalm = true) → Calm t)
    (fun _ => h₀.calm) ?_ hr hcalm
  intro events out t e u o hr ih he hcalm
  exact (ih fun e hm => hcalm e (List.mem_append_left _ hm)).step (h₀.tended.run hr).balanced
    (hcalm e (by simp)) he

theorem Ran.item (h₀ : Begins config connections s₀) (h : Ran luck w s₀ s) {n : Nat} {entry : Claimed AtomId Write}
    (hd : s.world.queue.draining n = some entry) : luck.IsItem w entry.item := by
  obtain ⟨events, hr, _, _, hitems⟩ := h
  obtain ⟨a, hlatest, _, hi⟩ := (h₀.ledger hr).draining n entry hd
  exact hi ▸ hitems a (List.mem_filter.mp (List.mem_of_getLast? hlatest)).1

theorem Ran.accounted (h₀ : Begins config connections s₀) (h : Ran luck w s₀ s) :
    Queue.Accounted s₀ s.world.queue s.orders.length (Queue.failedDrains s.world.notices) := by
  obtain ⟨events, hr, hcalm, hlength, _⟩ := h
  rw [← hlength]
  refine Queue.run_accounted h₀.tended hr fun hm => ?_
  cases hcalm _ hm

theorem Ran.same (h : Ran luck w s₀ s) (queue : t.world.queue = s.world.queue)
    (notices : t.world.notices = s.world.notices) (orders : t.orders = s.orders) : Ran luck w s₀ t := by
  unfold Ran
  rw [queue, notices, orders]
  exact h

theorem Ran.moved (h : Ran luck w s₀ s) (he : Queue.step s.world.queue e = some (t.world.queue, out))
    (notices : t.world.notices = s.world.notices ++ out) (calm : e.isCalm = true)
    (length : t.orders.length = s.orders.length + (Queue.accepted? e (t.world.queue, out)).toList.length)
    (items : ∀ a, Queue.accepted? e (t.world.queue, out) = some a → luck.IsItem w a.item) : Ran luck w s₀ t := by
  obtain ⟨events, hr, hcalm, hlength, hitems⟩ := h
  refine ⟨events ++ [e], notices ▸ Queue.run_snoc hr he, ?_, ?_, ?_⟩
  · simpa [or_imp, forall_and] using ⟨hcalm, calm⟩
  · rw [Queue.acceptances_snoc hr he, List.length_append, hlength, length]
  · rw [Queue.acceptances_snoc hr he]
    intro a ha
    rcases List.mem_append.mp ha with ha | ha
    · exact hitems a ha
    · exact items a (Option.mem_toList.mp ha)

theorem isCalm_of_drifts (h : e.drifts = true) : e.isCalm = true := by
  cases e <;> first | rfl | cases h

theorem accepted_of_drifts {effect : Queue.Effect AtomId Write} (h : e.drifts = true) :
    Queue.accepted? e effect = none := by
  cases e <;> first | rfl | cases h

theorem Booked.event (h : Booked luck w s) {k : Nat} {p : Producer} {command : Session.Command} {todo : List Move}
    (present : s.producers[k]? = some p) (next : p.todo = .call command :: todo) :
    ∃ i < w.atoms, i % w.producers = k ∧
      ∀ id, command.event id = .enqueue id (luck.id i) ⟨luck.id i, .store⟩ false := by
  obtain ⟨_, i, hi, hk, hm⟩ := h.todo (m := .call command) present (by rw [next]; exact List.mem_cons_self)
  refine ⟨i, hi, hk, fun id => ?_⟩
  rcases mem_moves hm with hm | hm | hm <;> cases hm <;> rfl

theorem Ran.step (h₀ : Begins config connections s₀) (hb : Booked luck w s) (h : Ran luck w s₀ s)
    (hs : State.step name luck w s tick = some t) : Ran luck w s₀ t := by
  cases State.step_cases hs with
  | set k p id value todo world present next moved =>
    cases World.step_cases moved with
    | created _ _ made => cases made
    | set => exact h.same rfl rfl rfl
  | ordered k p command todo world present next moved =>
    obtain ⟨i, hi, _, hevent⟩ := hb.event present next
    cases World.step_cases moved with
    | created _ _ made => cases made
    | called _ _ _ out _ moved =>
      have he := moved.step
      rw [hevent] at he
      obtain ⟨⟨a, ha, hitem⟩, _⟩ := (h.calm h₀).accepts he
      refine h.moved he moved.notices rfl ?_ ?_
      · rw [ha]
        simp
      · intro b hb
        rw [ha] at hb
        cases hb
        exact ⟨i, hi, hitem⟩
  | fenced world early free done moved =>
    cases World.step_cases moved with
    | created _ _ made => cases made
    | called _ _ _ out _ moved => exact h.moved moved.step moved.notices rfl rfl fun a ha => by cases ha
  | proceeded => exact h.same rfl rfl rfl
  | stirred action world stirs moved =>
    cases Session.stirs_cases stirs moved with
    | read => exact h.same rfl rfl rfl
    | drifted e _ out drifts moved =>
      have hnone : Queue.accepted? e (world.queue, out) = none := accepted_of_drifts drifts
      refine h.moved moved.step moved.notices (isCalm_of_drifts drifts) ?_ ?_
      · rw [hnone]
        rfl
      · rw [hnone]
        exact fun a ha => by cases ha
    | wrote worker _ _ outcome _ _ out _ _ _ moved =>
      exact h.moved moved.step moved.notices rfl rfl fun a ha => by cases ha

/-! ## Requests that fail -/

def Luck.Knows (luck : Luck) (w : Workload) (c : Catalog) : Prop := ∀ i < w.atoms, (c.get? (luck.id i)).isSome = true

theorem Luck.Knows.insert {c : Catalog} (h : luck.Knows w c) (a : Atom) : luck.Knows w (c.insert a) := by
  intro i hi
  rw [Catalog.get?_insert]
  split
  · rfl
  · exact h i hi

/-- How the requests of a bench stand if every `k`-th is to fail. -/
structure Requested (luck : Luck) (w : Workload) (k : Nat) (s : State) : Prop where
  rules : s.world.store.rules = (k, [], s.world.queue.counters.drained)
  failed : s.world.queue.counters.failed = s.world.queue.counters.drained / k
  noted : s.failed.length = s.world.queue.counters.failed
  known : luck.Knows w s.world.catalog
  drafts : ∀ n draft, s.world.drafts.get? n = some draft → luck.Knows w draft

variable {k : Nat}

theorem Requested.still (h : Requested luck w k s) (rules : t.world.store.rules = s.world.store.rules)
    (counted : t.world.queue.counters.drained = s.world.queue.counters.drained ∧
      t.world.queue.counters.failed = s.world.queue.counters.failed)
    (failed : t.failed = s.failed) (catalog : t.world.catalog = s.world.catalog)
    (drafts : t.world.drafts = s.world.drafts) : Requested luck w k t where
  rules := by rw [rules, h.rules, counted.1]
  failed := by rw [counted.2, counted.1, h.failed]
  noted := by rw [failed, counted.2, h.noted]
  known := catalog ▸ h.known
  drafts := drafts ▸ h.drafts

theorem Requested.wrote {worker : Nat} {draft : Catalog} {outcome : Queue.Outcome} {store : Memory} {id : AtomId}
    {a : Atom} (h : Requested luck w k s) (known : draft.get? id = some a)
    (carried : Memory.carryOut name s.world.store draft ⟨id, .store⟩ = (outcome, store))
    (moved : World.Moved { s.world with store, drafts := s.world.drafts.erase worker } t.world
      (.finish worker outcome) out) (rules : t.world.store.rules = store.rules)
    (failed : t.failed = if outcome.isOk then s.failed else s.failed ++ [s.round]) : Requested luck w k t := by
  obtain ⟨hrules, houtcome⟩ := Memory.carryOut_rules h.rules known carried
  obtain ⟨_, _, _, _, hdrained, hfailed, _⟩ := Queue.finish_ends moved.step
  have hdrained : t.world.queue.counters.drained = s.world.queue.counters.drained + 1 := hdrained
  have hfailed : t.world.queue.counters.failed =
      s.world.queue.counters.failed + if outcome.isOk then 0 else 1 := hfailed
  constructor
  case rules => rw [rules, hrules, hdrained]
  case failed =>
    have hmultiple : k ∣ s.world.queue.counters.drained + 1 ↔ outcome.isOk = false := by
      rw [houtcome, Nat.dvd_iff_mod_eq_zero]
      refine (and_iff_right_of_imp ?_).symm
      rintro hm rfl
      simp at hm
    rw [hfailed, h.failed, hdrained, Nat.succ_div]
    cases ho : outcome.isOk <;> simp [hmultiple, ho]
  case noted =>
    rw [failed, hfailed, ← h.noted]
    cases outcome.isOk <;> simp
  case known =>
    rw [moved.catalog]
    exact h.known
  case drafts =>
    rw [moved.drafts]
    intro n d hd
    rw [Table.get?_erase] at hd
    split at hd
    · cases hd
    · exact h.drafts n d hd

theorem Requested.step (h₀ : Begins config connections s₀) (hran : Ran luck w s₀ s) (hb : Booked luck w s)
    (h : Requested luck w k s) (hs : State.step name luck w s tick = some t) : Requested luck w k t := by
  cases State.step_cases hs with
  | set _ _ _ _ _ world _ _ moved =>
    cases World.step_cases moved with
    | created _ _ made => cases made
    | set => exact ⟨h.rules, h.failed, h.noted, h.known.insert _, h.drafts⟩
  | ordered k' p command todo world present next moved =>
    obtain ⟨i, _, _, hevent⟩ := hb.event present next
    have hrules := Session.World.call_rules moved
    cases World.step_cases moved with
    | created _ _ made => cases made
    | called _ _ _ out _ moved =>
      have he := moved.step
      rw [hevent] at he
      have hlevel := ((hran.calm h₀).accepts he).2.1
      exact h.still hrules ⟨hlevel.drained, hlevel.failed⟩ rfl moved.catalog moved.drafts
  | fenced world early free done moved =>
    have hrules := Session.World.call_rules moved
    cases World.step_cases moved with
    | created _ _ made => cases made
    | called _ _ _ out _ moved =>
      have hlevel := (Queue.barrier_waits moved.step).2.1
      exact h.still hrules ⟨hlevel.drained, hlevel.failed⟩ rfl moved.catalog moved.drafts
  | proceeded => exact ⟨h.rules, h.failed, h.noted, h.known, h.drafts⟩
  | stirred action world stirs moved =>
    cases Session.stirs_cases stirs moved with
    | read worker =>
      refine ⟨h.rules, h.failed, h.noted, h.known, fun n draft hd => ?_⟩
      rw [Table.get?_set] at hd
      split at hd
      · cases hd
        exact h.known
      · exact h.drafts n draft hd
    | drifted e _ out drifts moved rules =>
      refine h.still rules ?_ rfl moved.catalog moved.drafts
      cases (hran.calm h₀).drifts (hran.tended h₀) drifts moved.step with
      | still level => exact ⟨level.drained, level.failed⟩
      | reports _ _ _ _ _ _ counters => exact ⟨congrArg _ counters, congrArg _ counters⟩
    | wrote worker request draft outcome store _ out carries found carried moved rules =>
      obtain ⟨drain, c, hworker, hitem⟩ := World.request?_eq_some.mp carries
      have hdraining : s.world.queue.draining worker = some drain.entry := by
        unfold Queue.State.draining
        rw [hworker]
        rfl
      obtain ⟨i, hi, hwrite⟩ := hran.item h₀ hdraining
      obtain ⟨a, known⟩ := Option.isSome_iff_exists.mp (h.drafts worker draft found i hi)
      obtain rfl : request = ⟨luck.id i, .store⟩ := hitem.symm.trans hwrite
      refine h.wrote known carried moved rules ?_
      simp only [fails, carries, found, carried]
      cases outcome.isOk <;> rfl

/-! ## The start -/

theorem start_rules {config : SessionConfig} {since : Int} {store store' : Memory} {session : Session Memory}
    (h : Session.start (Memory.backendNaming name) config since store = (.ok session, store')) :
    session.store.rules = store.rules :=
  Session.start_preserves (P := fun m => m.rules = store.rules) (fun _ hm => hm) (fun _ _ hm => hm) rfl h

def Luck.bare (luck : Luck) (i : Nat) : Atom := .node (luck.id i) "ConceptNode" ("atom-" ++ toString i)

theorem catalog_succ (luck : Luck) (n : Nat) : luck.catalog (n + 1) = (luck.catalog n).insert (luck.bare n) := by
  unfold Luck.catalog
  rw [List.range_succ, List.foldl_append]
  rfl

theorem knows_catalog (luck : Luck) (n : Nat) {i : Nat} (hi : i < n) :
    ((luck.catalog n).get? (luck.id i)).isSome = true := by
  induction n with
  | zero => cases hi
  | succ n ih =>
    rw [catalog_succ, Catalog.get?_insert]
    split
    · rfl
    · rename_i hne
      refine ih (Nat.lt_of_le_of_ne (Nat.le_of_lt_succ hi) ?_)
      rintro rfl
      exact hne rfl

structure Opened (settings : Settings) (luck : Luck) (s : State) : Prop where
  begins : ∃ connections, Begins settings.session.queue connections s.world.queue
  notices : s.world.notices = []
  rules : s.world.store.rules = (settings.failEvery, [], 0)
  counts : s.counts = {}
  catalog : s.world.catalog = luck.catalog settings.workload.atoms
  drafts : s.world.drafts = {}
  orders : s.orders = []
  failed : s.failed = []

theorem open_cases {settings : Settings} {since : Int} {d : Desk} (h : settings.open? luck since = .ok d) :
    ∃ (session : Session Memory) (store : Memory),
      Session.start (Memory.backendNaming fun text => contentId text.toUTF8) settings.session since
        { latency := if settings.latency = 0 then none else some settings.latency
          failEvery := settings.failEvery } = (.ok session, store) ∧
      d = { session := session.mapCatalog fun _ => luck.catalog settings.workload.atoms } := by
  unfold Settings.open? at h
  simp only [Memory.backend] at h
  cases hs : Session.start (Memory.backendNaming fun text => contentId text.toUTF8) settings.session since
      { latency := if settings.latency = 0 then none else some settings.latency
        failEvery := settings.failEvery } with
  | mk result store =>
    rw [hs] at h
    cases result with
    | error => cases h
    | ok session =>
      cases h
      exact ⟨session, store, rfl, rfl⟩

theorem opened {settings : Settings} {since : Int} {d : Desk} (h : settings.open? luck since = .ok d) :
    Opened settings luck (.start luck settings.workload d) := by
  obtain ⟨session, store, hs, rfl⟩ := open_cases h
  obtain ⟨⟨connections, _, hbegins⟩, _, hnotices, hcounts⟩ := Session.start_fresh hs
  exact ⟨⟨connections, hbegins⟩, hnotices, start_rules hs, hcounts, rfl, rfl, rfl, rfl⟩

theorem Opened.ran {settings : Settings} (h : Opened settings luck s) : Ran luck w s.world.queue s :=
  ⟨[], by rw [h.notices]; rfl, by simp, by rw [h.orders]; rfl, by simp [Queue.acceptances, Queue.observe]⟩

theorem Opened.counted {settings : Settings} (h : Opened settings luck s) : Counted s := by
  constructor <;> simp [h.counts, h.orders]

theorem Opened.requested {settings : Settings} (h : Opened settings luck s) :
    Requested luck settings.workload settings.failEvery s := by
  obtain ⟨connections, hb⟩ := h.begins
  have hcounters : s.world.queue.counters = {} := by
    obtain ⟨_, _, _, hq⟩ := hb.eq
    rw [hq]
  refine ⟨?_, ?_, ?_, ?_, ?_⟩
  · rw [h.rules, hcounters]
  · rw [hcounters]
    exact (Nat.zero_div _).symm
  · rw [h.failed, hcounters]
    rfl
  · rw [h.catalog]
    exact fun i hi => knows_catalog luck _ hi
  · rw [h.drafts]
    exact fun n draft hd => by cases hd

end Bench

end WriteBehind
