import Mathlib.Algebra.GroupWithZero.Nat
import Mathlib.Algebra.Order.BigOperators.Group.List
import Mathlib.Algebra.Order.Group.Nat
import Mathlib.Data.List.Perm.Basic
import WriteBehind.Proofs.Bench.Ticks

/-!
# Orders of a bench

The atoms are dealt out to the producers, and in each round each producer orders what belongs to its share, in
this order. So when the rounds are over every atom was ordered once in each of them, whatever came in between.
-/

namespace WriteBehind.Bench

open Session (Command)

variable {name : String → String} {luck : Luck} {w : Workload} {s t : State} {tick : Tick} {ticks : List Tick}
  {j k : Nat}

/-! ## Dealing out -/

theorem heaps_perm {α : Type} (mark : α → Nat) (l : List α) (n : Nat) :
    ((List.range n).flatMap fun k => l.filter fun a => decide (mark a = k)).Perm
      (l.filter fun a => decide (mark a < n)) := by
  induction n with
  | zero => simp
  | succ n ih =>
    rw [List.range_succ, List.flatMap_append, List.flatMap_singleton]
    have hbelow : (l.filter fun a => decide (mark a < n + 1)).filter (fun a => decide (mark a < n)) =
        l.filter fun a => decide (mark a < n) := by
      rw [List.filter_filter]
      exact List.filter_congr fun a _ => by grind
    have htop : (l.filter fun a => decide (mark a < n + 1)).filter (fun a => !decide (mark a < n)) =
        l.filter fun a => decide (mark a = n) := by
      rw [List.filter_filter]
      exact List.filter_congr fun a _ => by grind
    have hsplit := List.filter_append_perm (fun a => decide (mark a < n))
      (l.filter fun a => decide (mark a < n + 1))
    rw [hbelow, htop] at hsplit
    exact (ih.append_right _).trans hsplit

theorem heaps_perm_of_lt {α : Type} {mark : α → Nat} {l : List α} {n : Nat} (h : ∀ a ∈ l, mark a < n) :
    ((List.range n).flatMap fun k => l.filter fun a => decide (mark a = k)).Perm l := by
  have hall : (l.filter fun a => decide (mark a < n)) = l := List.filter_eq_self.mpr (by simpa using h)
  exact (heaps_perm mark l n).trans (.of_eq hall)

def share (w : Workload) (k : Nat) : List Nat := (List.range w.atoms).filter fun i => decide (i % w.producers = k)

theorem mem_share {i : Nat} : i ∈ share w k ↔ i < w.atoms ∧ i % w.producers = k := by
  simp [share]

theorem shares_perm (hp : 0 < w.producers) :
    ((List.range w.producers).flatMap (share w)).Perm (List.range w.atoms) :=
  heaps_perm_of_lt fun i _ => Nat.mod_lt i hp

/-! ## What is to be done -/

def Move.command? : Move → Option Command
  | .set _ _ => none
  | .call command => some command

def commandsOf (moves : List Move) : List Command := moves.filterMap Move.command?

def Luck.commands (luck : Luck) (round i : Nat) : List Command :=
  (if luck.valueFirst round i then [.storeValue (luck.id i) valueKey] else []) ++ [.store (luck.id i)]

theorem commandsOf_moves (luck : Luck) (round i : Nat) :
    commandsOf (luck.moves round i) = luck.commands round i := by
  unfold commandsOf Luck.moves Luck.commands
  cases luck.valueFirst round i <;> rfl

def assigned (luck : Luck) (w : Workload) (round k : Nat) : List Move := (share w k).flatMap (luck.moves round)

theorem commandsOf_assigned (luck : Luck) (w : Workload) (round k : Nat) :
    commandsOf (assigned luck w round k) = (share w k).flatMap (luck.commands round) := by
  unfold assigned
  induction share w k with
  | nil => rfl
  | cons i rest ih =>
    rw [List.flatMap_cons, commandsOf, List.filterMap_append, List.flatMap_cons]
    exact congrArg₂ _ (commandsOf_moves luck round i) ih

theorem crew_getElem {p : Producer} {round : Nat} : (crew luck w round)[k]? = some p ↔
    round < w.rounds ∧ k < w.producers ∧ p = { todo := assigned luck w round k } := by
  unfold crew
  split
  · rename_i hr
    simp only [producers, List.getElem?_map, Option.map_eq_some_iff, hr, true_and]
    constructor
    · rintro ⟨i, hi, rfl⟩
      obtain ⟨hlt, rfl⟩ := List.getElem?_eq_some_iff.mp hi
      simp at hlt
      exact ⟨hlt, by simp; rfl⟩
    · rintro ⟨hlt, rfl⟩
      exact ⟨k, by simp [hlt], rfl⟩
  · rename_i hr
    simp [hr]

def Luck.orders (luck : Luck) (w : Workload) : List Order :=
  (List.range w.rounds).flatMap fun j => (List.range w.atoms).flatMap fun i =>
    (luck.commands j i).map fun command => { round := j, producer := i % w.producers, command }

/-! ## What has been ordered -/

def State.ordered (s : State) (j k : Nat) : List Command :=
  (s.orders.filter fun o => decide (o.round = j ∧ o.producer = k)).map (·.command)

/-- What was ordered and what is still to be done make up the shares. -/
structure Booked (luck : Luck) (w : Workload) (s : State) : Prop where
  within : ∀ o ∈ s.orders, o.round ≤ s.round ∧ o.round < w.rounds ∧ o.producer < w.producers
  early : s.fence.isSome = true → s.round < w.rounds ∧ ∀ p ∈ s.producers, p.todo = []
  size : s.producers.length = (crew luck w s.round).length
  underway : ∀ (k : Nat) p, s.producers[k]? = some p → s.round < w.rounds ∧ k < w.producers ∧
    ∃ done, done ++ p.todo = assigned luck w s.round k ∧ s.ordered s.round k = commandsOf done
  past : ∀ j k, j < s.round → j < w.rounds → s.ordered j k = commandsOf (assigned luck w j k)

theorem ordered_snoc {o : Order} (h : t.orders = s.orders ++ [o]) (j k : Nat) :
    t.ordered j k = s.ordered j k ++ if o.round = j ∧ o.producer = k then [o.command] else [] := by
  unfold State.ordered
  rw [h, List.filter_append, List.map_append]
  by_cases ho : o.round = j ∧ o.producer = k <;> simp [ho]

theorem Booked.move (h : Booked luck w s) {p q : Producer} {m : Move} (present : s.producers[k]? = some p)
    (next : p.todo = m :: q.todo) (round : t.round = s.round) (fence : t.fence = s.fence)
    (producers : t.producers = s.producers.set k q)
    (ordered : ∀ j' k', t.ordered j' k' =
      s.ordered j' k' ++ if s.round = j' ∧ k = k' then m.command?.toList else [])
    (within : ∀ o ∈ t.orders, o ∈ s.orders ∨ o.round = s.round ∧ o.producer = k) : Booked luck w t := by
  obtain ⟨hround, hk, done, hdone, hordered⟩ := h.underway k p present
  constructor
  case within =>
    intro o ho
    rw [round]
    rcases within o ho with ho | ⟨hr, hproducer⟩
    · exact h.within o ho
    · exact ⟨hr.le, hr ▸ hround, hproducer ▸ hk⟩
  case early =>
    intro hf
    have hnone := (h.early (fence ▸ hf)).2 p (List.mem_of_getElem? present)
    rw [next] at hnone
    cases hnone
  case size =>
    rw [producers, round, List.length_set]
    exact h.size
  case underway =>
    intro k' p' hp
    rw [producers, List.getElem?_set] at hp
    split at hp
    · subst_vars
      split at hp
      · cases hp
        refine ⟨round ▸ hround, hk, done ++ [m], ?_, ?_⟩
        · rw [round, ← hdone, next, List.append_assoc]
          rfl
        · rw [round, ordered, hordered, if_pos ⟨rfl, rfl⟩]
          unfold commandsOf
          rw [List.filterMap_append]
          cases m <;> rfl
      · cases hp
    · obtain ⟨hround', hk', done', hdone', hordered'⟩ := h.underway k' p' hp
      refine ⟨round ▸ hround', hk', done', round ▸ hdone', ?_⟩
      rw [round, ordered, hordered', if_neg (fun heq => by simp_all), List.append_nil]
  case past =>
    intro j' k' hj hr
    rw [round] at hj
    rw [ordered, if_neg (fun heq => by omega), List.append_nil]
    exact h.past j' k' hj hr

theorem Booked.step (hp : 0 < w.producers) (h : Booked luck w s) (hs : State.step name luck w s tick = some t) :
    Booked luck w t := by
  cases State.step_cases hs with
  | set k p id value todo world present next =>
    exact h.move (q := { todo }) present next rfl rfl rfl (by simp [Move.command?, State.ordered])
      (fun o ho => .inl ho)
  | ordered k p command todo world present next =>
    refine h.move (q := { todo, call := some s.next }) present next rfl rfl rfl
      (fun j' k' => ordered_snoc (s := s) (o := ⟨s.round, k, command⟩) rfl j' k') ?_
    intro o ho
    rcases List.mem_append.mp ho with ho | ho
    · exact .inl ho
    · rw [List.mem_singleton] at ho
      exact .inr ⟨by rw [ho], by rw [ho]⟩
  | fenced world early free done => exact ⟨h.within, fun _ => ⟨early, done⟩, h.size, h.underway, h.past⟩
  | proceeded call fence =>
    obtain ⟨early, done⟩ := h.early (by simp [fence])
    constructor
    case within =>
      intro o ho
      obtain ⟨hle, hrest⟩ := h.within o ho
      exact ⟨Nat.le_succ_of_le hle, hrest⟩
    case early => simp
    case size => rfl
    case underway =>
      intro k p hk
      obtain ⟨hround, hlt, rfl⟩ := crew_getElem.mp hk
      refine ⟨hround, hlt, [], rfl, ?_⟩
      -- Nobody has ordered anything in the round to come.
      unfold State.ordered
      rw [List.filter_eq_nil_iff.mpr]
      · rfl
      · intro o ho
        have := (h.within o ho).1
        simp only [decide_eq_true_eq]
        omega
    case past =>
      intro j k hj hr
      rcases Nat.lt_succ_iff_lt_or_eq.mp hj with hj | rfl
      · exact h.past j k hj hr
      · by_cases hk : k < w.producers
        · have hlt : k < s.producers.length := by
            rw [h.size]
            exact (List.getElem?_eq_some_iff.mp (crew_getElem.mpr ⟨hr, hk, rfl⟩)).1
          obtain ⟨_, _, finished, hall, hordered⟩ := h.underway k _ (List.getElem?_eq_getElem hlt)
          rw [done _ (List.getElem_mem hlt), List.append_nil] at hall
          exact hall ▸ hordered
        · have hnone : share w k = [] := List.filter_eq_nil_iff.mpr fun i _ => by
            have := Nat.mod_lt i hp
            simp only [decide_eq_true_eq]
            omega
          unfold assigned State.ordered
          rw [hnone, List.filter_eq_nil_iff.mpr]
          · rfl
          · intro o ho
            have := (h.within o ho).2.2
            simp only [decide_eq_true_eq]
            omega
  | stirred => exact ⟨h.within, h.early, h.size, h.underway, h.past⟩

theorem booked_start (luck : Luck) (w : Workload) (d : Desk) : Booked luck w (.start luck w d) where
  within := by simp [State.start]
  early := by simp [State.start]
  size := rfl
  underway k p hk := by
    obtain ⟨hround, hlt, rfl⟩ := crew_getElem.mp hk
    exact ⟨hround, hlt, [], rfl, rfl⟩
  past j k hj := absurd hj (Nat.not_lt_zero j)

theorem Booked.todo (h : Booked luck w s) {p : Producer} {m : Move} (present : s.producers[k]? = some p)
    (hm : m ∈ p.todo) : s.round < w.rounds ∧ ∃ i < w.atoms, i % w.producers = k ∧ m ∈ luck.moves s.round i := by
  obtain ⟨hround, _, done, hdone, _⟩ := h.underway k p present
  have hassigned : m ∈ assigned luck w s.round k := hdone ▸ List.mem_append_right _ hm
  obtain ⟨i, hi, hmoves⟩ := List.mem_flatMap.mp hassigned
  obtain ⟨hlt, hk⟩ := mem_share.mp hi
  exact ⟨hround, i, hlt, hk, hmoves⟩

theorem mem_moves {m : Move} {round i : Nat} (h : m ∈ luck.moves round i) :
    m = .set (luck.id i) (luck.value round i) ∨ m = .call (.storeValue (luck.id i) valueKey) ∨
      m = .call (.store (luck.id i)) := by
  unfold Luck.moves at h
  cases hv : luck.valueFirst round i <;> simp [hv] at h
  · exact h.imp_right .inr
  · exact h

/-! ## Counts -/

def Order.isStore (o : Order) : Bool :=
  match o.command with
  | .store _ => true
  | _ => false

def Order.isValueStore (o : Order) : Bool :=
  match o.command with
  | .storeValue _ _ => true
  | _ => false

/-- Each order is one store or one store of a value, and is counted as such. -/
structure Counted (s : State) : Prop where
  stores : s.counts.stores = s.orders.countP Order.isStore
  valueStores : s.counts.valueStores = s.orders.countP Order.isValueStore
  all : s.orders.length = s.counts.stores + s.counts.valueStores

theorem Counted.step (h : Counted s) (hb : Booked luck w s) (hs : State.step name luck w s tick = some t) :
    Counted t := by
  obtain ⟨hstores, hvalues, hall⟩ := h
  cases State.step_cases hs with
  | ordered k p command todo world present next =>
    obtain ⟨_, i, _, _, hm⟩ := hb.todo (m := .call command) present (by rw [next]; exact List.mem_cons_self)
    have hcommand : command = .storeValue (luck.id i) valueKey ∨ command = .store (luck.id i) := by
      rcases mem_moves hm with hm | hm | hm <;> cases hm
      · exact .inl rfl
      · exact .inr rfl
    rcases hcommand with rfl | rfl
    · refine ⟨?_, ?_, ?_⟩
      · rw [List.countP_append, ← hstores]
        rfl
      · rw [List.countP_append, ← hvalues]
        rfl
      · rw [List.length_append, hall]
        rfl
    · refine ⟨?_, ?_, ?_⟩
      · rw [List.countP_append, ← hstores]
        rfl
      · rw [List.countP_append, ← hvalues]
        rfl
      · rw [List.length_append, hall]
        exact Nat.add_right_comm _ _ 1
  | _ => exact ⟨hstores, hvalues, hall⟩

/-! ## When the rounds are over -/

theorem Booked.complete (h : Booked luck w s) (hp : 0 < w.producers) (finished : s.round = w.rounds) :
    s.orders.Perm (luck.orders w) := by
  have hrounds : ((List.range w.rounds).flatMap fun j => s.orders.filter fun o => decide (o.round = j)).Perm
      s.orders := heaps_perm_of_lt fun o ho => (h.within o ho).2.1
  refine hrounds.symm.trans (List.Perm.flatMap_left _ fun j hj => ?_)
  have hj : j < w.rounds := List.mem_range.mp hj
  have hproducers : ((List.range w.producers).flatMap fun k =>
      (s.orders.filter fun o => decide (o.round = j)).filter fun o => decide (o.producer = k)).Perm
      (s.orders.filter fun o => decide (o.round = j)) :=
    heaps_perm_of_lt fun o ho => (h.within o (List.mem_filter.mp ho).1).2.2
  -- What a producer has ordered in the round is its share of the atoms.
  have hshare : ∀ k, (s.orders.filter fun o => decide (o.round = j)).filter (fun o => decide (o.producer = k)) =
      (share w k).flatMap fun i =>
        (luck.commands j i).map fun command => { round := j, producer := i % w.producers, command } := by
    intro k
    have hpast : (s.orders.filter fun o => decide (o.round = j ∧ o.producer = k)).map (·.command) =
        (share w k).flatMap (luck.commands j) :=
      (h.past j k (finished ▸ hj) hj).trans (commandsOf_assigned luck w j k)
    have hboth : (s.orders.filter fun o => decide (o.round = j)).filter (fun o => decide (o.producer = k)) =
        s.orders.filter fun o => decide (o.round = j ∧ o.producer = k) := by
      rw [List.filter_filter]
      exact List.filter_congr fun o _ => by grind
    calc
      _ = ((s.orders.filter fun o => decide (o.round = j ∧ o.producer = k)).map (·.command)).map
          fun command => { round := j, producer := k, command } := by
        rw [hboth, List.map_map]
        refine (List.map_id _).symm.trans (List.map_congr_left fun o ho => ?_)
        obtain ⟨rfl, rfl⟩ : o.round = j ∧ o.producer = k := by simpa using (List.mem_filter.mp ho).2
        rfl
      _ = _ := by
        rw [hpast, List.map_flatMap]
        refine List.flatMap_congr fun i hi => ?_
        rw [(mem_share.mp hi).2]
  simp only [hshare] at hproducers
  refine hproducers.symm.trans ?_
  rw [← List.flatMap_assoc]
  exact (shares_perm hp).flatMap_right _

theorem countP_orders (luck : Luck) (w : Workload) (p : Order → Bool) :
    (luck.orders w).countP p = ((List.range w.rounds).map fun j => ((List.range w.atoms).map fun i =>
      (luck.commands j i).countP fun command => p { round := j, producer := i % w.producers, command }).sum).sum := by
  unfold Luck.orders
  simp only [List.countP_flatMap, List.countP_map, Function.comp_def]

theorem countP_commands_store (luck : Luck) (j i k : Nat) :
    ((luck.commands j i).countP fun command => Order.isStore { round := j, producer := k, command }) = 1 := by
  unfold Luck.commands
  cases luck.valueFirst j i <;> rfl

theorem countP_commands_value (luck : Luck) (j i k : Nat) :
    ((luck.commands j i).countP fun command => Order.isValueStore { round := j, producer := k, command }) ≤ 1 := by
  unfold Luck.commands
  cases luck.valueFirst j i
  · exact Nat.zero_le 1
  · exact Nat.le_refl 1

theorem countP_store_orders (luck : Luck) (w : Workload) :
    (luck.orders w).countP Order.isStore = w.atoms * w.rounds := by
  rw [countP_orders]
  simp only [countP_commands_store, List.map_const', List.sum_replicate_nat, List.length_range, Nat.mul_one]
  exact Nat.mul_comm _ _

theorem sum_map_range_le {f : Nat → Nat} {m : Nat} (n : Nat) (h : ∀ i, f i ≤ m) :
    ((List.range n).map f).sum ≤ n * m := by
  have hle := List.sum_le_card_nsmul ((List.range n).map f) m fun x hx => by
    obtain ⟨i, _, rfl⟩ := List.mem_map.mp hx
    exact h i
  simpa using hle

theorem countP_value_orders (luck : Luck) (w : Workload) :
    (luck.orders w).countP Order.isValueStore ≤ w.atoms * w.rounds := by
  rw [countP_orders, Nat.mul_comm]
  refine sum_map_range_le w.rounds fun j => ?_
  have hle := sum_map_range_le w.atoms fun i => countP_commands_value luck j i (i % w.producers)
  rwa [Nat.mul_one] at hle

theorem Counted.complete (h : Counted s) (hb : Booked luck w s) (hp : 0 < w.producers)
    (finished : s.round = w.rounds) :
    s.counts.stores = w.atoms * w.rounds ∧ s.counts.valueStores ≤ w.atoms * w.rounds := by
  have hperm := hb.complete hp finished
  rw [h.stores, h.valueStores, hperm.countP_eq, hperm.countP_eq, countP_store_orders]
  exact ⟨rfl, countP_value_orders luck w⟩

end WriteBehind.Bench
