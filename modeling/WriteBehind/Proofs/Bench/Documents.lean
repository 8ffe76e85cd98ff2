import WriteBehind.Proofs.Atom.Document
import WriteBehind.Proofs.Bench.Fences
import WriteBehind.Proofs.Json.Fractions
import WriteBehind.Proofs.Session.Readable

/-!
# Documents of a bench

In each round a producer sets the value of an atom before it stores the atom, and nobody else does anything
with it. So the last write of an atom was accepted after its last value was set, and when no request fails the
document of the atom carries the number of the last round.
-/

namespace WriteBehind.Bench

open Queue (Acceptance Begins Calm Notice Tended)
open Session (Action Command Opens World settings)

variable {name : String → String} {luck : Luck} {w : Workload} {s t : State} {tick : Tick}
  {config : SessionConfig} {w₀ : World} {actions : List Action} {action : Action} {c : Catalog} {i j k : Nat}

/-! ## Atoms -/

def Luck.atom (luck : Luck) (i round : Nat) : Atom := (luck.bare i).set valueKey (luck.value round i)

theorem atom_set (luck : Luck) (i j j' : Nat) :
    (luck.atom i j).set valueKey (luck.value j' i) = luck.atom i j' := by
  unfold Luck.atom Luck.bare Atom.node Atom.set
  simp [Json.Members.set]

theorem ofDocument?_atom {round : Nat} (h0 : 0 ≤ luck.strength round i) (h1 : luck.strength round i < 1)
    (hround : round < wordSize) : ∃ strength, Atom.ofDocument? (luck.atom i round).document =
      some { luck.bare i with
        values := [(valueKey, .array [.number (.real strength), .number (.int round)])] } := by
  obtain ⟨strength, hstrength⟩ := Json.Value.ofTree?_fraction h0 h1 124
  have hnumber : Json.Value.ofTree? 124 (Json.Value.number (.int round)).tree =
      some (.number (.int round)) := by
    have hrange : (Json.Number.int round).InRange := ⟨by omega, by exact_mod_cast hround⟩
    rw [Json.Value.tree, Json.Value.ofTree?, Json.Numeral.value?_ofInt hrange]
    rfl
  have hvalue : Json.Value.ofTree? 125 (luck.value round i).tree =
      some (.array [.number (.real strength), .number (.int round)]) := by
    simp only [Luck.value, Json.Value.tree, Json.Value.treeElements, Json.Value.ofTree?,
      Json.Value.ofElements?] at hstrength hnumber ⊢
    rw [hstrength, hnumber]
    rfl
  have hvalues : Atom.decodeValues? (Json.Value.object (luck.atom i round).values).tree =
      some [(valueKey, .array [.number (.real strength), .number (.int round)])] := by
    have hatom : (luck.atom i round).values = [(valueKey, luck.value round i)] := rfl
    have hbudget : Json.Value.maxNesting - 1 = 125 + 1 := rfl
    rw [hatom, Atom.decodeValues?, hbudget, Json.Value.tree, Json.Value.treeMembers, Json.Value.treeMembers,
      Json.Value.ofTree?]
    simp only [Json.Value.ofMembers?, Json.Piece.string?_written, hvalue]
    rfl
  exact ⟨strength, (Atom.ofDocument?_eq _).trans (Atom.decode?_of_values hvalues)⟩

def Luck.Distinct (luck : Luck) (w : Workload) : Prop :=
  ∀ i < w.atoms, ∀ i' < w.atoms, luck.id i = luck.id i' → i = i'

def Luck.documents (luck : Luck) (w : Workload) : Set String :=
  {d | ∃ i < w.atoms, ∃ j < w.rounds, d = (luck.atom i j).document}

def Luck.Valued (luck : Luck) (w : Workload) (c : Catalog) (i : Nat) : Prop :=
  ∃ j < w.rounds, c.get? (luck.id i) = some (luck.atom i j)

theorem get?_insert_atom (hd : luck.Distinct w) {i i' : Nat} (hi : i < w.atoms) (hi' : i' < w.atoms) (j : Nat) :
    (c.insert (luck.atom i j)).get? (luck.id i') = if i = i' then some (luck.atom i j) else c.get? (luck.id i') := by
  rw [Catalog.get?_insert, show (luck.atom i j).id = luck.id i from rfl]
  by_cases h : i = i'
  · subst h
    simp
  · rw [if_neg h, if_neg fun heq => h (hd i hi i' hi' heq)]

theorem Luck.Valued.insert (hd : luck.Distinct w) (hi : i < w.atoms) (hj : j < w.rounds) {i' : Nat}
    (hi' : i' < w.atoms) (h : luck.Valued w c i') : luck.Valued w (c.insert (luck.atom i j)) i' := by
  obtain ⟨j', hj', hc⟩ := h
  unfold Luck.Valued
  rw [get?_insert_atom hd hi hi']
  by_cases hii : i = i'
  · subst hii
    exact ⟨j, hj, if_pos rfl⟩
  · exact ⟨j', hj', (if_neg hii).trans hc⟩

/-! ## What is left to be done with an atom -/

def Move.atom? : Move → Option AtomId
  | .set id _ => some id
  | .call command => command.atom?

def about (id : AtomId) (todo : List Move) : List Move := todo.filter fun m => decide (m.atom? = some id)

theorem atom?_of_mem_moves {m : Move} (h : m ∈ luck.moves j i) : m.atom? = some (luck.id i) := by
  rcases mem_moves h with rfl | rfl | rfl <;> rfl

theorem about_cons (id : AtomId) (m : Move) (todo : List Move) :
    about id (m :: todo) = if m.atom? = some id then m :: about id todo else about id todo := by
  unfold about
  rw [List.filter_cons]
  simp only [decide_eq_true_eq]

theorem flatMap_ite {α : Type} {l : List Nat} {i : Nat} (nodup : l.Nodup) (hi : i ∈ l) (out : List α) :
    (l.flatMap fun i' => if i' = i then out else []) = out := by
  induction l with
  | nil => cases hi
  | cons n l ih =>
    obtain ⟨hn, hl⟩ := List.nodup_cons.mp nodup
    rw [List.flatMap_cons]
    rcases List.mem_cons.mp hi with rfl | hi
    · have hnone : (l.flatMap fun i' => if i' = i then out else []) = [] :=
        List.flatMap_eq_nil_iff.mpr fun i' hi' => if_neg fun (heq : i' = i) => hn (heq ▸ hi')
      rw [if_pos rfl, hnone, List.append_nil]
    · rw [if_neg fun (heq : n = i) => hn (heq ▸ hi), ih hl hi, List.nil_append]

theorem about_assigned (hd : luck.Distinct w) (hi : i < w.atoms) (j : Nat) :
    about (luck.id i) (assigned luck w j (i % w.producers)) = luck.moves j i := by
  have hone : ∀ i' ∈ share w (i % w.producers),
      about (luck.id i) (luck.moves j i') = if i' = i then luck.moves j i else [] := by
    intro i' hi'
    unfold about
    split
    · subst_vars
      exact List.filter_eq_self.mpr fun m hm => by simp [atom?_of_mem_moves hm]
    · rename_i hne
      refine List.filter_eq_nil_iff.mpr fun m hm => ?_
      simp only [atom?_of_mem_moves hm, Option.some.injEq, decide_eq_true_eq]
      exact fun heq => hne (hd i' (mem_share.mp hi').1 i hi heq)
  calc
    about (luck.id i) (assigned luck w j (i % w.producers))
      = (share w (i % w.producers)).flatMap fun i' => about (luck.id i) (luck.moves j i') := List.filter_flatMap
    _ = (share w (i % w.producers)).flatMap fun i' => if i' = i then luck.moves j i else [] :=
      List.flatMap_congr hone
    _ = luck.moves j i := flatMap_ite (List.nodup_range.filter _) (mem_share.mpr ⟨hi, rfl⟩) _

/-- What is left to be done with an atom in this round. -/
def left (luck : Luck) (w : Workload) (s : State) (i : Nat) : List Move :=
  (s.producers[i % w.producers]?).elim [] fun p => about (luck.id i) p.todo

theorem left_of_producer {p : Producer} (hk : s.producers[i % w.producers]? = some p) :
    left luck w s i = about (luck.id i) p.todo := by
  unfold left
  rw [hk]
  rfl

theorem Booked.left_suffix (hb : Booked luck w s) (hd : luck.Distinct w) (hi : i < w.atoms) :
    left luck w s i <:+ luck.moves s.round i := by
  cases hk : s.producers[i % w.producers]? with
  | some p =>
    obtain ⟨_, _, done, hdone, _⟩ := hb.underway _ p hk
    rw [left_of_producer hk, ← about_assigned hd hi, ← hdone]
    exact (List.suffix_append done p.todo).filter _
  | none =>
    unfold left
    rw [hk]
    exact List.nil_suffix

theorem left_crew (hd : luck.Distinct w) (hp : 0 < w.producers) (hi : i < w.atoms) {round : Nat}
    (hr : round < w.rounds) (h : s.producers = crew luck w round) : left luck w s i = luck.moves round i := by
  have hk : s.producers[i % w.producers]? = some { todo := assigned luck w round (i % w.producers) } := by
    rw [h]
    exact crew_getElem.mpr ⟨hr, Nat.mod_lt i hp, rfl⟩
  rw [left_of_producer hk]
  exact about_assigned hd hi round

theorem left_of_done (done : ∀ p ∈ s.producers, p.todo = []) (i : Nat) : left luck w s i = [] := by
  cases hk : s.producers[i % w.producers]? with
  | some p =>
    rw [left_of_producer hk, done p (List.mem_of_getElem? hk)]
    rfl
  | none =>
    unfold left
    rw [hk]
    rfl

theorem left_move (hd : luck.Distinct w) {p q : Producer} {m : Move} (present : s.producers[k]? = some p)
    (next : p.todo = m :: q.todo) (hi : i < w.atoms) (hk : i % w.producers = k) (hm : m.atom? = some (luck.id i))
    (producers : t.producers = s.producers.set k q) {i' : Nat} (hi' : i' < w.atoms) :
    left luck w s i' = if i = i' then m :: left luck w t i' else left luck w t i' := by
  have hlt := (List.getElem?_eq_some_iff.mp present).1
  by_cases hsame : i' % w.producers = k
  · have hafter : t.producers[i' % w.producers]? = some q := by
      rw [producers, hsame, List.getElem?_set_self hlt]
    rw [left_of_producer (hsame ▸ present), left_of_producer hafter, next, about_cons, hm]
    simp only [Option.some.injEq]
    by_cases h : i = i'
    · subst h
      simp
    · rw [if_neg h, if_neg fun heq => h (hd i hi i' hi' heq)]
  · have hne : i ≠ i' := by
      rintro rfl
      exact hsame hk
    unfold left
    rw [if_neg hne, producers, List.getElem?_set_ne (Ne.symm hsame)]

theorem left_last {m : Move} (h : [m] <:+ luck.moves j i) : m = .call (.store (luck.id i)) := by
  have hlast : (luck.moves j i).getLast? = some (.call (.store (luck.id i))) := by
    unfold Luck.moves
    cases luck.valueFirst j i <;> rfl
  obtain ⟨before, hbefore⟩ := h
  rw [← hbefore, List.getLast?_append] at hlast
  simpa using hlast

/-! ## The last store of an atom -/

/-- An atom was stored, and since then no write of it was accepted and no value of it set. -/
def Stored (name : String → String) (luck : Luck) (w₀ : World) (actions : List Action) (i : Nat) : Prop :=
  ∃ first id rest v u a, actions = first ++ .call id (.store (luck.id i)) :: rest ∧
    World.run name w₀ first = some v ∧ World.step name v (.call id (.store (luck.id i))) = some u ∧
    v.accepted? (.call id (.store (luck.id i))) = some a ∧
    (∀ b ∈ World.acceptances name u rest, b.key ≠ a.key) ∧ ∀ key, settings (luck.id i) key rest = []

theorem store_accepted {v : World} {id : Nat} {atom : AtomId} {a : Acceptance AtomId Write}
    (h : v.accepted? (.call id (.store atom)) = some a) : a.key = atom ∧ a.item = ⟨atom, .store⟩ := by
  obtain ⟨effect, _, ha⟩ := Option.bind_eq_some_iff.mp h
  obtain ⟨_, _, rfl⟩ := Option.map_eq_some_iff.mp ha
  exact ⟨rfl, rfl⟩

theorem stored_now {v u : World} {id : Nat} {a : Acceptance AtomId Write} (hr : World.run name w₀ actions = some v)
    (hs : World.step name v (.call id (.store (luck.id i))) = some u)
    (ha : v.accepted? (.call id (.store (luck.id i))) = some a) :
    Stored name luck w₀ (actions ++ [.call id (.store (luck.id i))]) i :=
  ⟨actions, id, [], v, u, a, rfl, hr, hs, ha, by simp [World.acceptances, World.observe], fun _ => rfl⟩

theorem Stored.snoc {v u : World} (h : Stored name luck w₀ actions i) (hr : World.run name w₀ actions = some v)
    (hs : World.step name v action = some u) (accepted : ∀ b, v.accepted? action = some b → b.key ≠ luck.id i)
    (unset : ∀ key, settings (luck.id i) key [action] = []) : Stored name luck w₀ (actions ++ [action]) i := by
  obtain ⟨first, id, rest, v₁, u₁, a, rfl, hv, hu, ha, hlast, hset⟩ := h
  refine ⟨first, id, rest ++ [action], v₁, u₁, a, by simp, hv, hu, ha, ?_, fun key => ?_⟩
  · obtain ⟨v', hv', hrest⟩ := World.run_append.mp hr
    rw [hv] at hv'
    cases hv'
    obtain ⟨u', hu', hrest⟩ := World.run_cons.mp hrest
    rw [hu] at hu'
    cases hu'
    rw [World.acceptances_snoc hrest hs, (store_accepted ha).1]
    intro b hb
    rcases List.mem_append.mp hb with hb | hb
    · exact (store_accepted ha).1 ▸ hlast b hb
    · exact accepted b (Option.mem_toList.mp hb)
  · rw [Session.settings_append, hset, unset]
    rfl

/-! ## What is known of every atom -/

structure Progress (name : String → String) (luck : Luck) (w : Workload) (w₀ : World) (actions : List Action)
    (s : State) (i : Nat) : Prop where
  valued : s.round < w.rounds → left luck w s i = luck.moves s.round i ∨
    s.world.catalog.get? (luck.id i) = some (luck.atom i s.round)
  stored : s.round < w.rounds → left luck w s i = [] → Stored name luck w₀ actions i
  finished : s.round = w.rounds → 0 < w.rounds →
    s.world.catalog.get? (luck.id i) = some (luck.atom i (w.rounds - 1)) ∧ Stored name luck w₀ actions i

def Luck.Drafted (luck : Luck) (w : Workload) (u : World) : Prop :=
  ∀ n draft request, u.drafts.get? n = some draft → u.request? n = some request →
    ∃ i < w.atoms, request = ⟨luck.id i, .store⟩ ∧ luck.Valued w draft i

/-- What a bench has done in its session. Nothing is stored but atoms with values of some round. -/
structure Recalls (name : String → String) (luck : Luck) (w : Workload) (w₀ : World) (actions : List Action)
    (s : State) : Prop where
  run : World.run name w₀ actions = some s.world
  values : ∀ i < w.atoms, s.world.catalog.get? (luck.id i) = some (luck.bare i) ∨ luck.Valued w s.world.catalog i
  accepted : ∀ a ∈ World.acceptances name w₀ actions,
    ∃ i < w.atoms, a.item = ⟨luck.id i, .store⟩ ∧ luck.Valued w s.world.catalog i
  drafts : luck.Drafted w s.world
  encoded : ∀ d ∈ World.encodings name w₀ actions, d ∈ luck.documents w
  progress : ∀ i < w.atoms, Progress name luck w w₀ actions s i

theorem Recalls.request (h₀ : Opens name config w₀) (h : Recalls name luck w w₀ actions s) {n : Nat}
    {request : Write} (hr : s.world.request? n = some request) :
    ∃ i < w.atoms, request = ⟨luck.id i, .store⟩ ∧ luck.Valued w s.world.catalog i := by
  obtain ⟨drain, c, hworker, rfl⟩ := World.request?_eq_some.mp hr
  obtain ⟨_, hb⟩ := h₀.begins
  obtain ⟨events, out, hq, _, hacceptances⟩ := World.queue_run h.run
  have hdraining : s.world.queue.draining n = some drain.entry := by
    unfold Queue.State.draining
    rw [hworker]
    rfl
  obtain ⟨a, hlatest, _, hitem⟩ := (hb.ledger hq).draining n drain.entry hdraining
  have hmem := (List.mem_filter.mp (List.mem_of_getLast? hlatest)).1
  rw [hacceptances] at hmem
  rw [← hitem]
  exact h.accepted a hmem

theorem Recalls.drafts_moved (h₀ : Opens name config w₀) (h : Recalls name luck w w₀ actions s) {v u : World}
    {e : Queue.Event AtomId Write} {out : List (Notice AtomId Write)} (moved : World.Moved v u e out)
    (queue : v.queue = s.world.queue) (kept : ∀ n draft, v.drafts.get? n = some draft →
      s.world.drafts.get? n = some draft ∧ ∀ outcome, e ≠ .finish n outcome) : luck.Drafted w u := by
  intro n draft request hdraft hrequest
  rw [moved.drafts] at hdraft
  obtain ⟨hdraft, hgoes⟩ := kept n draft hdraft
  obtain ⟨before, hbefore⟩ := (h₀.drafted h.run).carries n draft hdraft
  have hv : v.request? n = some before := by
    unfold World.request? at hbefore ⊢
    rwa [queue]
  have hafter := moved.request hv hgoes
  rw [hrequest] at hafter
  cases hafter
  exact h.drafts n draft request hdraft hbefore

theorem Recalls.called (h₀ : Opens name config w₀) (h : Recalls name luck w w₀ actions s) {u : World} {id : Nat}
    {command : Command} (hs : World.step name s.world (.call id command) = some u) :
    u.catalog = s.world.catalog ∧ luck.Drafted w u := by
  cases World.step_cases hs with
  | created _ _ made => cases made
  | called _ _ _ out _ moved =>
    exact ⟨moved.catalog, h.drafts_moved h₀ moved rfl fun n draft hd => ⟨hd, fun _ => World.finish_ne_event⟩⟩

/-! ## Steps -/

theorem Progress.aside (h : Progress name luck w w₀ actions s i) (hr : World.run name w₀ actions = some s.world)
    (hs : World.step name s.world action = some t.world)
    (accepted : ∀ b, s.world.accepted? action = some b → b.key ≠ luck.id i)
    (unset : ∀ key, settings (luck.id i) key [action] = []) (round : t.round = s.round)
    (todo : left luck w s i = left luck w t i)
    (catalog : t.world.catalog.get? (luck.id i) = s.world.catalog.get? (luck.id i)) :
    Progress name luck w w₀ (actions ++ [action]) t i where
  valued := by
    rw [round, catalog, ← todo]
    exact h.valued
  stored := by
    rw [round, ← todo]
    exact fun early hnone => (h.stored early hnone).snoc hr hs accepted unset
  finished := by
    rw [round, catalog]
    exact fun late hrounds => ⟨(h.finished late hrounds).1, (h.finished late hrounds).2.snoc hr hs accepted unset⟩

theorem Recalls.aside (h : Recalls name luck w w₀ actions s) (hs : World.step name s.world action = some t.world)
    (accepted : s.world.accepted? action = none) (unset : ∀ id key, settings id key [action] = [])
    (catalog : t.world.catalog = s.world.catalog) (round : t.round = s.round)
    (producers : t.producers = s.producers) (drafts : luck.Drafted w t.world)
    (encoded : ∀ d, s.world.encoded? action = some d → d ∈ luck.documents w) :
    Recalls name luck w w₀ (actions ++ [action]) t where
  run := World.run_snoc h.run hs
  values := by
    rw [catalog]
    exact h.values
  accepted := by
    rw [World.acceptances_snoc h.run hs, accepted, catalog]
    simpa using h.accepted
  drafts := drafts
  encoded := by
    rw [World.encodings_snoc h.run hs]
    intro d hd
    rcases List.mem_append.mp hd with hd | hd
    · exact h.encoded d hd
    · exact encoded d (Option.mem_toList.mp hd)
  progress i hi := by
    refine (h.progress i hi).aside h.run hs ?_ (unset _) round ?_ (by rw [catalog])
    · simp [accepted]
    · unfold left
      rw [producers]

theorem Recalls.set (hb : Booked luck w s) (hd : luck.Distinct w) (h : Recalls name luck w w₀ actions s)
    {p : Producer} {id : AtomId} {value : Json.Value} {todo : List Move} {world : World}
    (present : s.producers[k]? = some p) (next : p.todo = .set id value :: todo)
    (moved : World.step name s.world (.set id valueKey value) = some world) :
    Recalls name luck w w₀ (actions ++ [.set id valueKey value])
      { s with world, producers := s.producers.set k { todo } } := by
  obtain ⟨early, i, hi, hk, hm⟩ := hb.todo present (by rw [next]; exact List.mem_cons_self)
  obtain ⟨rfl, rfl⟩ : id = luck.id i ∧ value = luck.value s.round i := by
    rcases mem_moves hm with hm | hm | hm <;> cases hm
    exact ⟨rfl, rfl⟩
  have hleft := fun i' (hi' : i' < w.atoms) => left_move
    (t := { s with world, producers := s.producers.set k { todo } }) (q := { todo }) hd present next hi hk rfl rfl hi'
  have hcatalog : world.catalog = s.world.catalog.insert (luck.atom i s.round) := by
    cases World.step_cases moved with
    | created _ _ made => cases made
    | set _ _ _ a known =>
      rcases h.values i hi with hc | ⟨j, _, hc⟩
      · rw [known] at hc
        cases hc
        rfl
      · rw [known] at hc
        cases hc
        exact congrArg s.world.catalog.insert (atom_set luck i j s.round)
  have hget := fun i' (hi' : i' < w.atoms) => get?_insert_atom (c := s.world.catalog) hd hi hi' s.round
  have hvalued : ∀ i' < w.atoms, luck.Valued w s.world.catalog i' → luck.Valued w world.catalog i' := by
    intro i' hi' hv
    rw [hcatalog]
    exact hv.insert hd hi early hi'
  constructor
  case run => exact World.run_snoc h.run moved
  case values =>
    intro i' hi'
    rcases h.values i' hi' with hc | hc
    · rw [hcatalog]
      unfold Luck.Valued
      rw [hget i' hi']
      by_cases hii : i = i'
      · subst hii
        exact .inr ⟨s.round, early, if_pos rfl⟩
      · exact .inl ((if_neg hii).trans hc)
    · exact .inr (hvalued i' hi' hc)
  case accepted =>
    rw [World.acceptances_snoc h.run moved]
    intro a ha
    obtain ⟨i', hi', hitem, hv⟩ := h.accepted a (by simpa [World.accepted?] using ha)
    exact ⟨i', hi', hitem, hvalued i' hi' hv⟩
  case drafts =>
    cases World.step_cases moved with
    | created _ _ made => cases made
    | set => exact h.drafts
  case encoded =>
    rw [World.encodings_snoc h.run moved]
    simpa [World.encoded?] using h.encoded
  case progress =>
    intro i' hi'
    by_cases hii : i = i'
    · subst hii
      constructor
      case valued =>
        have hcatalog := congrArg (Catalog.get? · (luck.id i)) hcatalog
        exact fun _ => .inr (hcatalog.trans ((hget i hi).trans (if_pos rfl)))
      case stored =>
        -- The value was not the last thing to be done.
        intro _ hnone
        have hlast := hb.left_suffix hd hi
        rw [hleft i hi, if_pos rfl, hnone] at hlast
        cases left_last hlast
      case finished => exact fun late => absurd late (Nat.ne_of_lt early)
    · refine (h.progress i' hi').aside h.run moved (fun b hb => by cases hb) (fun key => ?_) rfl ?_ ?_
      · rw [Session.settings_set, if_neg fun heq => hii (hd i hi i' hi' heq.1)]
      · rw [hleft i' hi', if_neg hii]
      · exact (congrArg (Catalog.get? · _) hcatalog).trans ((hget i' hi').trans (if_neg hii))

theorem accepts (hc : Calm s.world.queue) {u : World} {command : Command} {id : Nat}
    (hevent : command.event id = .enqueue id (luck.id i) ⟨luck.id i, .store⟩ false)
    (h : World.step name s.world (.call id command) = some u) :
    ∃ a, s.world.accepted? (.call id command) = some a ∧ a.key = luck.id i ∧ a.item = ⟨luck.id i, .store⟩ := by
  cases World.step_cases h with
  | created _ _ made => cases made
  | called _ _ _ out _ moved =>
    have he := moved.step
    rw [hevent] at he
    obtain ⟨⟨a, ha, hitem⟩, _⟩ := hc.accepts he
    rw [moved.accepted, hevent]
    exact ⟨a, ha, (Session.Command.accepted_atom (hevent ▸ ha)).symm.trans (by rw [hitem]), hitem⟩

theorem valued_before {command : Command} {rest : List Move} : .call command :: rest ≠ luck.moves j i := by
  unfold Luck.moves
  exact fun h => by cases h

theorem Recalls.ordered (h₀ : Opens name config w₀) (hc : Calm s.world.queue) (hb : Booked luck w s)
    (hd : luck.Distinct w) (h : Recalls name luck w w₀ actions s) {p : Producer} {command : Command}
    {todo : List Move} {world : World} (present : s.producers[k]? = some p) (next : p.todo = .call command :: todo)
    (moved : World.step name s.world (.call s.next command) = some world)
    (ht : t.world = world) (round : t.round = s.round)
    (producers : t.producers = s.producers.set k { todo, call := some s.next }) :
    Recalls name luck w w₀ (actions ++ [.call s.next command]) t := by
  subst ht
  obtain ⟨early, i, hi, hk, hm⟩ := hb.todo present (by rw [next]; exact List.mem_cons_self)
  have hleft := fun i' (hi' : i' < w.atoms) => left_move (q := { todo, call := some s.next }) hd present next hi hk
    (atom?_of_mem_moves hm) producers hi'
  have hevent : command.event s.next = .enqueue s.next (luck.id i) ⟨luck.id i, .store⟩ false := by
    rcases mem_moves hm with hm | hm | hm <;> cases hm <;> rfl
  obtain ⟨a, ha, hkey, hitem⟩ := accepts hc hevent moved
  obtain ⟨hcatalog, hdrafts⟩ := h.called h₀ moved
  have hvalue : s.world.catalog.get? (luck.id i) = some (luck.atom i s.round) := by
    refine ((h.progress i hi).valued early).resolve_left fun hmoves => ?_
    rw [hleft i hi, if_pos rfl] at hmoves
    exact valued_before hmoves
  constructor
  case run => exact World.run_snoc h.run moved
  case values =>
    rw [hcatalog]
    exact h.values
  case accepted =>
    rw [World.acceptances_snoc h.run moved, ha, hcatalog]
    intro b hb
    rcases List.mem_append.mp hb with hb | hb
    · exact h.accepted b hb
    · obtain rfl : b = a := by simpa using hb
      exact ⟨i, hi, hitem, s.round, early, hvalue⟩
  case drafts => exact hdrafts
  case encoded =>
    rw [World.encodings_snoc h.run moved]
    simpa [World.encoded?] using h.encoded
  case progress =>
    intro i' hi'
    by_cases hii : i = i'
    · subst hii
      rw [← round] at hvalue
      constructor
      case valued =>
        rw [hcatalog]
        exact fun _ => .inr hvalue
      case stored =>
        intro _ hnone
        have hlast := hb.left_suffix hd hi
        rw [hleft i hi, if_pos rfl, hnone] at hlast
        cases left_last hlast
        exact stored_now h.run moved ha
      case finished => exact fun late => absurd (round ▸ late) (Nat.ne_of_lt early)
    · refine (h.progress i' hi').aside h.run moved ?_ (fun _ => rfl) round ?_ (by rw [hcatalog])
      · intro b hb
        rw [ha] at hb
        cases hb
        rw [hkey]
        exact fun heq => hii (hd i hi i' hi' heq)
      · rw [hleft i' hi', if_neg hii]

/-- The fence of a round has returned: every atom has got its value of the round, and was stored after that. -/
theorem Recalls.proceeded (hb : Booked luck w s) (hd : luck.Distinct w) (hp : 0 < w.producers)
    (h : Recalls name luck w w₀ actions s) (waits : s.fence.isSome = true) (world : t.world = s.world)
    (round : t.round = s.round + 1) (producers : t.producers = crew luck w (s.round + 1)) :
    Recalls name luck w w₀ actions t := by
  obtain ⟨early, done⟩ := hb.early waits
  have hstored : ∀ i < w.atoms, s.world.catalog.get? (luck.id i) = some (luck.atom i s.round) ∧
      Stored name luck w₀ actions i := by
    intro i hi
    have hnone : left luck w s i = [] := left_of_done done i
    refine ⟨((h.progress i hi).valued early).resolve_left ?_, (h.progress i hi).stored early hnone⟩
    rw [hnone]
    exact fun heq => by cases heq
  constructor
  case run => exact world ▸ h.run
  case values => exact world ▸ h.values
  case accepted => exact world ▸ h.accepted
  case drafts => exact world ▸ h.drafts
  case encoded => exact h.encoded
  case progress =>
    intro i hi
    have hleft : s.round + 1 < w.rounds → left luck w t i = luck.moves t.round i := fun hr => by
      rw [left_crew hd hp hi hr producers, round]
    constructor
    case valued => exact fun hr => .inl (hleft (round ▸ hr))
    case stored =>
      intro hr hnone
      rw [hleft (round ▸ hr)] at hnone
      cases hnone
    case finished =>
      intro late _
      rw [world, show w.rounds - 1 = s.round from by omega]
      exact hstored i hi

theorem Recalls.stirred (h₀ : Opens name config w₀) (h : Recalls name luck w w₀ actions s)
    (stirs : action.isStir = true) (moved : World.step name s.world action = some t.world)
    (round : t.round = s.round) (producers : t.producers = s.producers) :
    Recalls name luck w w₀ (actions ++ [action]) t := by
  have hunset : ∀ id key, settings id key [action] = [] := by
    intro id key
    cases action <;> first | rfl | cases stirs
  have haccepted : s.world.accepted? action = none := by
    cases action <;> first | rfl | cases stirs
  obtain ⟨hcatalog, hencoded, hdrafts⟩ : t.world.catalog = s.world.catalog ∧
      (∀ d, s.world.encoded? action = some d → d ∈ luck.documents w) ∧ luck.Drafted w t.world := by
    generalize t.world = world at moved
    cases Session.stirs_cases stirs moved with
    | read worker =>
      refine ⟨rfl, fun d hd => (by cases hd), fun n draft request hd hr => ?_⟩
      rw [Table.get?_set] at hd
      split at hd
      · cases hd
        exact h.request h₀ hr
      · exact h.drafts n draft request hd hr
    | drifted e _ out drifts moved =>
      refine ⟨moved.catalog, fun d hd => (by cases hd), h.drafts_moved h₀ moved rfl fun n draft hd => ⟨hd, ?_⟩⟩
      rintro outcome rfl
      cases drifts
    | wrote worker request draft outcome store _ out carries found carried moved =>
      refine ⟨moved.catalog, fun d hd => ?_, h.drafts_moved h₀ moved rfl fun n draft' hd => ?_⟩
      · obtain ⟨i, hi, rfl, j, hj, hget⟩ := h.drafts worker draft request found carries
        have henc : s.world.store.encoded? draft ⟨luck.id i, .store⟩ = some d := by
          simpa [World.encoded?, carries, found] using hd
        obtain ⟨a, ha, rfl⟩ := Memory.encoded?_eq henc
        rw [hget] at ha
        cases ha
        exact ⟨i, hi, j, hj, rfl⟩
      · rw [Table.get?_erase] at hd
        split at hd
        · cases hd
        · rename_i hne
          refine ⟨hd, ?_⟩
          rintro _ heq
          cases heq
          exact hne rfl
  exact h.aside moved haccepted hunset hcatalog round producers hdrafts hencoded

theorem Recalls.step (h₀ : Opens name config w₀) (hc : Calm s.world.queue) (hb : Booked luck w s)
    (hd : luck.Distinct w) (hp : 0 < w.producers) (h : Recalls name luck w w₀ actions s)
    (hs : State.step name luck w s tick = some t) : ∃ later, Recalls name luck w w₀ (actions ++ later) t := by
  cases State.step_cases hs with
  | set k p id value todo world present next moved => exact ⟨_, h.set hb hd present next moved⟩
  | ordered k p command todo world present next moved =>
    exact ⟨_, h.ordered h₀ hc hb hd present next moved rfl rfl rfl⟩
  | fenced world early free done moved =>
    obtain ⟨hcatalog, hdrafts⟩ := h.called h₀ moved
    refine ⟨_, h.aside moved ?_ (fun _ _ => rfl) hcatalog rfl rfl hdrafts fun d hd => ?_⟩
    · exact Option.bind_eq_none_iff.mpr fun _ _ => rfl
    · cases hd
  | proceeded call waits =>
    exact ⟨[], (List.append_nil actions).symm ▸ h.proceeded hb hd hp (by rw [waits]; rfl) rfl rfl rfl⟩
  | stirred action world stirs moved => exact ⟨[action], h.stirred h₀ stirs moved rfl rfl⟩

/-! ## The start -/

theorem catalog_get? (hd : luck.Distinct w) {n : Nat} (hn : n ≤ w.atoms) (hi : i < w.atoms) :
    (luck.catalog n).get? (luck.id i) = if i < n then some (luck.bare i) else none := by
  induction n with
  | zero => rfl
  | succ n ih =>
    rw [catalog_succ, Catalog.get?_insert, ih (Nat.le_of_succ_le hn), show (luck.bare n).id = luck.id n from rfl]
    by_cases hni : n = i
    · subst hni
      rw [if_pos rfl, if_pos (Nat.lt_succ_self n)]
    · rw [if_neg fun heq => hni (hd n hn i hi heq)]
      exact if_congr (by omega) rfl rfl

def Luck.making (luck : Luck) (n : Nat) : List Action :=
  (List.range n).map fun i => .node (luck.id i) "ConceptNode" ("atom-" ++ toString i)

theorem run_making (name : String → String) (hd : luck.Distinct w) (empty : w₀.catalog = {}) {n : Nat}
    (hn : n ≤ w.atoms) :
    World.run name w₀ (luck.making n) = some { w₀ with catalog := luck.catalog n } ∧
      World.acceptances name w₀ (luck.making n) = [] ∧ World.encodings name w₀ (luck.making n) = [] := by
  induction n with
  | zero => exact ⟨by rw [← show w₀.catalog = luck.catalog 0 from empty]; rfl, rfl, rfl⟩
  | succ n ih =>
    obtain ⟨hrun, haccepted, hencoded⟩ := ih (Nat.le_of_succ_le hn)
    have hfresh : (luck.catalog n).get? (luck.bare n).id = none :=
      (catalog_get? hd (Nat.le_of_succ_le hn) hn).trans (if_neg (Nat.lt_irrefl n))
    have hstep : World.step name { w₀ with catalog := luck.catalog n }
        (.node (luck.id n) "ConceptNode" ("atom-" ++ toString n)) =
          some { w₀ with catalog := luck.catalog (n + 1) } := by
      show World.create _ (luck.bare n) = _
      unfold World.create
      rw [hfresh, catalog_succ]
      rfl
    have hsnoc : luck.making (n + 1) =
        luck.making n ++ [.node (luck.id n) "ConceptNode" ("atom-" ++ toString n)] := by
      unfold Luck.making
      rw [List.range_succ, List.map_append]
      rfl
    rw [hsnoc, World.acceptances_snoc hrun hstep, World.encodings_snoc hrun hstep, haccepted, hencoded]
    exact ⟨World.run_snoc hrun hstep, rfl, rfl⟩

theorem progress_start (hd : luck.Distinct w) (hp : 0 < w.producers) (hi : i < w.atoms) (d : Desk) :
    Progress name luck w w₀ actions (.start luck w d) i := by
  have hleft : 0 < w.rounds → left luck w (.start luck w d) i = luck.moves 0 i :=
    fun hr => left_crew hd hp hi hr rfl
  refine ⟨fun hr => .inl (hleft hr), fun hr hnone => ?_, fun late hrounds => absurd late (Nat.ne_of_lt hrounds)⟩
  rw [hleft hr] at hnone
  cases hnone

theorem recalls_start {settings : Settings} {since : Int} {d : Desk} (h : settings.open? luck since = .ok d)
    (hd : luck.Distinct settings.workload) (hp : 0 < settings.workload.producers) :
    ∃ w₀ actions, Opens Session.byContent settings.session w₀ ∧
      Recalls Session.byContent luck settings.workload w₀ actions (.start luck settings.workload d) := by
  obtain ⟨session, store, hs, rfl⟩ := open_cases h
  have hopens : Opens Session.byContent settings.session (.ofSession session) :=
    ⟨since, _, store, session, rfl, hs, rfl⟩
  obtain ⟨hrun, haccepted, hencoded⟩ :=
    run_making Session.byContent hd hopens.empty.2.1 (Nat.le_refl settings.workload.atoms)
  refine ⟨_, _, hopens, hrun, fun i hi => .inl ?_, ?_, fun n draft request hget => ?_, ?_,
    fun i hi => progress_start hd hp hi _⟩
  · exact (catalog_get? hd (Nat.le_refl _) hi).trans (if_pos hi)
  · rw [haccepted]
    exact fun a ha => by cases ha
  · cases hget
  · rw [hencoded]
    exact fun d hd => by cases hd

/-! ## The end -/

theorem Recalls.document (h₀ : Opens name config w₀) (h : Recalls name luck w w₀ actions s)
    (distinct : Set.InjOn name (luck.documents w)) (hi : i < w.atoms) (late : s.round = w.rounds)
    (hr : 0 < w.rounds) (empty : s.world.queue.buffer.outstanding = [])
    (sound : Queue.failedDrains s.world.notices = 0) :
    s.world.store.contents.document? (luck.id i) = some (luck.atom i (w.rounds - 1)).document := by
  obtain ⟨hvalue, first, id, rest, v, u, a, hactions, hv, hu, ha, hlast, hunset⟩ := (h.progress i hi).finished late hr
  obtain ⟨hkey, hitem⟩ := store_accepted ha
  have hrun := h.run
  rw [hactions] at hrun
  obtain ⟨v', hv', hrest⟩ := World.run_append.mp hrun
  rw [hv] at hv'
  cases hv'
  obtain ⟨u', hu', hrest⟩ := World.run_cons.mp hrest
  rw [hu] at hu'
  cases hu'
  have hwu := World.run_snoc hv hu
  have hfollows := h₀.follows hv hu hrest distinct (hactions ▸ h.encoded) ha hlast
  -- The last write of the atom has drained, and without a failure.
  obtain ⟨e, he, hsequence⟩ : ∃ e, .drained e (.ok ()) ∈ s.world.notices ∧ e.sequence = a.sequence := by
    obtain ⟨_, hb⟩ := h₀.begins
    obtain ⟨events, out, hq, hn, hacceptances⟩ := World.queue_run h.run
    have hmem : a ∈ Queue.acceptances w₀.queue events := by
      have hsplit : actions = (first ++ [.call id (.store (luck.id i))]) ++ rest := by simp [hactions]
      rw [hacceptances, hsplit, show World.acceptances name w₀ _ = _ from World.observe_append hwu]
      refine List.mem_append_left _ ?_
      rw [show World.observe name _ w₀ _ = _ from World.acceptances_snoc hv hu, ha]
      simp
    rw [h₀.empty.2.2.2, List.nil_append] at hn
    obtain ⟨e, r, he, hsequence, _⟩ := ((hb.attempts hq).settled a hmem).resolve_left (by simp [empty])
    rw [← hn] at he
    cases r with
    | ok => exact ⟨e, he, hsequence⟩
    | error r =>
      have hfails := List.countP_eq_zero.mp sound _ he
      exact absurd rfl hfails
  have hshows := hfollows.shows (h₀.tended h.run) (h₀.gone h.run) he hsequence
  have hreadable := hshows.readable h₀ hwu hrest (World.accepted_atom ha)
  unfold Session.Readable at hreadable
  rw [hitem, hkey] at hreadable
  obtain ⟨_, _, _, _, atom, _, _, _, _, hdocument, _, hsame⟩ := hreadable
  rw [hsame hunset] at hvalue
  cases hvalue
  exact hdocument

end WriteBehind.Bench
