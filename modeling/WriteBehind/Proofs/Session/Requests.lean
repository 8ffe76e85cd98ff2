import WriteBehind.Proofs.Queue.Attempts
import WriteBehind.Proofs.Session.Values

/-!
# Requests of a session

A session starts with an empty queue. Each entry of its queue asks for something to be done to the atom
that is its key, and a worker reads the atoms only while it carries out a request.
-/

namespace WriteBehind.Session

open Queue (Acceptance Begins Notice Tended)

variable {name : String → String} {config : SessionConfig} {w₀ w u : World} {actions : List Action}
  {action : Action} {n : Nat}

/-! ## The start -/

/-- A session has been started over a backend that holds no documents. -/
def Opens (name : String → String) (config : SessionConfig) (w : World) : Prop :=
  ∃ since store store' s, store.contents = {} ∧
    Session.start (Memory.backendNaming name) config since store = (.ok s, store') ∧ w = .ofSession s

section
variable {β : Type} {b : Backend β} {since : Int} {store store' : β} {s : Session β}

theorem start_eq_ok (h : start b config since store = (.ok s, store')) :
    ∃ pool lent c c' opened, Pool.connect b.connect config.poolSize store = (.ok pool, opened) ∧
      pool.acquire (.call 0) = (.lent c, lent) ∧ b.prepare opened c = (.ok c', store') ∧
      Queue.State.start config.queue (lent.giveBack c') = .ok s.queue ∧
      s = { name := config.name, since, stage := { queue := s.queue, shared := { store := store' } } } := by
  simp only [start] at h
  split at h
  · cases h
  split at h <;> rename_i hc
  · cases h
  split at h <;> rename_i ha
  · cases h
  · cases h
  split at h <;> rename_i hp
  · cases h
  split at h <;> rename_i hq
  · cases h
  · cases h
    exact ⟨_, _, _, _, _, hc, ha, hp, hq, rfl⟩

theorem lent_back {connections : List Connection} {pool pool' : Pool Connection Queue.Borrower}
    {ticket : Queue.Borrower} {c : Connection} (hp : Pool.ofConnections connections = .ok pool)
    (ha : pool.acquire ticket = (.lent c, pool')) (c' : Connection) :
    ∃ connections', connections'.length = connections.length ∧
      Pool.ofConnections connections' = .ok (pool'.giveBack c') := by
  obtain ⟨hne, rfl⟩ := Pool.ofConnections_eq_ok.mp hp
  have hpos : connections.length ≠ 0 := by simpa using hne
  obtain ⟨first, rest, hrest⟩ := List.exists_cons_of_ne_nil (l := connections.reverse) (by simpa using hne)
  have hlength : connections.length = rest.length + 1 := by
    rw [← List.length_reverse, hrest, List.length_cons]
  simp only [Pool.acquire, hpos, Bool.false_eq_true, if_false, Pool.lend, Pool.checkout, hrest,
    Prod.mk.injEq] at ha
  obtain ⟨-, rfl⟩ := ha
  refine ⟨(c' :: rest).reverse, by simp [hlength], Pool.ofConnections_eq_ok.mpr ⟨by simp, ?_⟩⟩
  simp [Pool.giveBack, Pool.returnPermit, hlength]

structure Fresh (config : SessionConfig) (s : Session β) : Prop where
  begins : ∃ connections, connections.length = config.poolSize ∧ Begins config.queue connections s.queue
  shared : s.stage.shared = { store := s.store }
  notices : s.stage.notices = []
  counts : s.counts = {}

theorem start_fresh (h : start b config since store = (.ok s, store')) : Fresh config s := by
  obtain ⟨pool, lent, c, c', opened, hc, ha, _, hq, hs⟩ := start_eq_ok h
  obtain ⟨connections, hlength, hpool⟩ := Pool.connect_eq_ok hc
  obtain ⟨connections', hlength', hback⟩ := lent_back hpool ha c'
  rw [hs]
  exact ⟨⟨connections', hlength'.trans hlength, _, hback, hq⟩, rfl, rfl, rfl⟩

theorem start_preserves {P : β → Prop} (connects : ∀ m, P m → P (b.connect m).2)
    (prepares : ∀ m c, P m → P (b.prepare m c).2) (hp : P store)
    (h : start b config since store = (.ok s, store')) : P s.store := by
  obtain ⟨pool, lent, c, c', opened, hc, _, hprepare, _, hs⟩ := start_eq_ok h
  have hopened := Pool.connect_preserves (τ := Queue.Borrower) connects config.poolSize hp
  rw [hc] at hopened
  have hprepared := prepares opened c hopened
  rw [hprepare] at hprepared
  rw [hs]
  exact hprepared

end

theorem Opens.begins (h : Opens name config w) : ∃ connections, Begins config.queue connections w.queue := by
  obtain ⟨since, store, store', s, _, hs, rfl⟩ := h
  obtain ⟨connections, _, hb⟩ := (start_fresh hs).begins
  exact ⟨connections, hb⟩

theorem Opens.empty (h : Opens name config w) :
    w.store.contents = {} ∧ w.catalog = {} ∧ w.drafts = {} ∧ w.notices = [] := by
  obtain ⟨since, store, store', s, hempty, hs, rfl⟩ := h
  have hcontents : s.store.contents = {} :=
    start_preserves (P := fun m => m.contents = {}) (fun _ hm => hm) (fun _ _ hm => hm) hempty hs
  exact ⟨hcontents, congrArg Backstage.catalog (start_fresh hs).shared, rfl, (start_fresh hs).notices⟩

/-! ## Accepted writes -/

theorem Command.accepted_atom {id : Nat} {command : Command} {effect : Queue.Effect AtomId Write}
    {a : Acceptance AtomId Write} (h : Queue.accepted? (command.event id) effect = some a) :
    a.item.atom = a.key := by
  cases command with
  | store | storeValue | remove | storeAndWait =>
    obtain ⟨_, _, rfl⟩ := Option.map_eq_some_iff.mp h
    rfl
  | _ => cases h

namespace World

theorem accepted_atom {a : Acceptance AtomId Write} (h : w.accepted? action = some a) :
    a.item.atom = a.key := by
  cases action with
  | call id command =>
    obtain ⟨effect, _, ha⟩ := Option.bind_eq_some_iff.mp h
    exact Command.accepted_atom ha
  | _ => cases h

theorem acceptances_atom (w : World) (actions : List Action) :
    ∀ a ∈ acceptances name w actions, a.item.atom = a.key := by
  induction actions generalizing w with
  | nil => simp [acceptances, observe]
  | cons action actions ih =>
    intro a ha
    simp only [acceptances, observe] at ha
    split at ha
    · rcases List.mem_append.mp ha with ha | ha
      · exact accepted_atom (Option.mem_toList.mp ha)
      · exact ih _ a ha
    · cases ha

end World

theorem Opens.tended (h₀ : Opens name config w₀) (hr : World.run name w₀ actions = some w) :
    Tended w.queue := by
  obtain ⟨_, hb⟩ := h₀.begins
  obtain ⟨events, out, hq, _⟩ := World.queue_run hr
  exact hb.tended.run hq

theorem Opens.atoms (h₀ : Opens name config w₀) (hr : World.run name w₀ actions = some w) :
    ∀ n e, w.queue.draining n = some e → e.item.atom = e.key := by
  obtain ⟨_, hb⟩ := h₀.begins
  obtain ⟨events, out, hq, _, ha⟩ := World.queue_run hr
  intro n e he
  obtain ⟨a, hlatest, hk, hi⟩ := (hb.ledger hq).draining n e he
  have hmem := (List.mem_filter.mp (List.mem_of_getLast? hlatest)).1
  rw [ha] at hmem
  rw [← hk, ← hi]
  exact World.acceptances_atom w₀ actions a hmem

theorem Opens.gone (h₀ : Opens name config w₀) (hr : World.run name w₀ actions = some w) :
    ∀ e r, .drained e r ∈ w.notices → e.sequence ∉ w.queue.buffer.outstanding := by
  obtain ⟨_, hb⟩ := h₀.begins
  obtain ⟨events, out, hq, hn, _⟩ := World.queue_run hr
  rw [hn, h₀.empty.2.2.2]
  exact (hb.attempts hq).gone

theorem Opens.recorded (h₀ : Opens name config w₀) (hr : World.run name w₀ actions = some w) :
    Recorded actions w.catalog := by
  have hstart : Recorded [] w₀.catalog := h₀.empty.2.1 ▸ recorded_empty
  exact hstart.run hr

/-! ## Drafts -/

namespace World

theorem request?_eq_some {r : Write} : w.request? n = some r ↔
    ∃ drain c, w.queue.workers[n]? = some (.storing drain c) ∧ drain.entry.item = r := by
  unfold request?
  split
  · rename_i drain c hw
    rw [hw, Option.some.injEq]
    constructor
    · exact fun h => ⟨drain, c, rfl, h⟩
    · rintro ⟨_, _, h, rfl⟩
      cases h
      rfl
  · rename_i hw
    simp only [reduceCtorEq, false_iff]
    rintro ⟨drain, c, h, _⟩
    exact hw drain c h

theorem Moved.request {r : Write} {e : Queue.Event AtomId Write} {out : List (Notice AtomId Write)}
    (h : Moved w u e out) (hr : w.request? n = some r) (he : ∀ outcome, e ≠ .finish n outcome) :
    u.request? n = some r := by
  obtain ⟨drain, c, hw, hi⟩ := request?_eq_some.mp hr
  exact request?_eq_some.mpr ⟨drain, c, Queue.storing_lasts h.step hw he, hi⟩

theorem finish_ne_event {id : Nat} {command : Command} {outcome : Queue.Outcome} :
    command.event id ≠ .finish n outcome := by
  cases command <;> simp [Command.event]

theorem finish_ne_plain {e : Queue.Event AtomId Write} {outcome : Queue.Outcome} (h : isPlain e = true) :
    e ≠ .finish n outcome := by
  rintro rfl
  cases h

end World

/-- Drafts are what the workers have read that carry out a request. -/
structure Drafted (w : World) : Prop where
  identified : ∀ n draft, w.drafts.get? n = some draft → draft.Identified
  carries : ∀ n draft, w.drafts.get? n = some draft → ∃ request, w.request? n = some request

theorem Drafted.moved {e : Queue.Event AtomId Write} {out : List (Notice AtomId Write)} (h : Drafted w)
    (hm : World.Moved w u e out) (he : ∀ n draft, w.drafts.get? n = some draft → ∀ r, e ≠ .finish n r) :
    Drafted u := by
  constructor
  case identified =>
    rw [hm.drafts]
    exact h.identified
  case carries =>
    rw [hm.drafts]
    intro n draft hd
    obtain ⟨request, hr⟩ := h.carries n draft hd
    exact ⟨request, hm.request hr (he n draft hd)⟩

theorem Drafted.step (h : Drafted w) (hi : w.catalog.Identified) (hs : World.step name w action = some u) :
    Drafted u := by
  cases World.step_cases hs with
  | called _ _ _ _ _ moved => exact h.moved moved fun _ _ _ _ => World.finish_ne_event
  | moved _ _ _ plain moved => exact h.moved moved fun _ _ _ _ => World.finish_ne_plain plain
  | read worker request carries =>
    constructor
    case identified =>
      intro n draft hd
      rw [Table.get?_set] at hd
      split at hd
      · cases hd
        exact hi
      · exact h.identified n draft hd
    case carries =>
      intro n draft hd
      rw [Table.get?_set] at hd
      split at hd
      · subst_vars
        exact ⟨request, carries⟩
      · exact h.carries n draft hd
  | wrote worker request draft outcome store _ _ _ _ _ moved =>
    have herased : ∀ n d, (w.drafts.erase worker).get? n = some d → worker ≠ n ∧ w.drafts.get? n = some d := by
      intro n d hd
      rw [Table.get?_erase] at hd
      split at hd
      · cases hd
      · exact ⟨by assumption, hd⟩
    have hrest : Drafted { w with store, drafts := w.drafts.erase worker } :=
      ⟨fun n d hd => h.identified n d (herased n d hd).2, fun n d hd => h.carries n d (herased n d hd).2⟩
    refine hrest.moved moved fun n d hd r heq => ?_
    cases heq
    exact (herased _ d hd).1 rfl
  | _ => exact ⟨h.identified, h.carries⟩

theorem Opens.drafted (h₀ : Opens name config w₀) (hr : World.run name w₀ actions = some w) : Drafted w := by
  refine World.run_induction (P := fun _ w => Drafted w) ?_ ?_ hr
  · have hnone := h₀.empty.2.2.1
    exact ⟨by simp [hnone], by simp [hnone]⟩
  · intro actions v action u hv hp hs
    exact hp.step (h₀.recorded hv).identified hs

end WriteBehind.Session
