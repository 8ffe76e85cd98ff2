import Mathlib.Data.String.Basic
import WriteBehind.Proofs.Json.Scan

/-!
# Values read back

A value that is in form reads back from its tree, if it is not nested too deeply, and whatever is read
from a tree is in form. So reading and writing a value again changes nothing, whatever text it came from.
-/

namespace WriteBehind.Json

/-! ## Members -/

namespace Members

variable {α : Type} {key : String} {value : α} {members : List (String × α)}

instance : Decidable (Ordered members) :=
  inferInstanceAs (Decidable ((members.map (·.1)).Pairwise (· < ·)))

theorem set_last (h : ∀ m ∈ members, m.1 < key) : set key value members = members ++ [(key, value)] := by
  induction members with
  | nil => rfl
  | cons m rest ih =>
    have later : m.1 < key := h m List.mem_cons_self
    rw [set, if_neg (lt_asymm later), if_neg later.ne', ih fun n hn => h n (List.mem_cons_of_mem _ hn)]
    rfl

theorem mem_set {m : String × α} (h : m ∈ set key value members) : m = (key, value) ∨ m ∈ members := by
  induction members with
  | nil => exact .inl (List.mem_singleton.mp h)
  | cons n rest ih =>
    rw [set] at h
    split at h
    · exact List.mem_cons.mp h
    split at h
    · exact (List.mem_cons.mp h).imp_right (List.mem_cons_of_mem _)
    · rcases List.mem_cons.mp h with rfl | h
      · exact .inr List.mem_cons_self
      · exact (ih h).imp_right (List.mem_cons_of_mem _)

theorem ordered_nil : Ordered ([] : List (String × α)) := List.Pairwise.nil

theorem ordered_cons {m : String × α} {rest : List (String × α)} :
    Ordered (m :: rest) ↔ (∀ n ∈ rest, m.1 < n.1) ∧ Ordered rest := by
  simp [Ordered]

theorem Ordered.set (h : Ordered members) (key : String) (value : α) :
    Ordered (Members.set key value members) := by
  induction members with
  | nil => simp [Members.set, Ordered]
  | cons m rest ih =>
    obtain ⟨first, tail⟩ := ordered_cons.mp h
    rw [Members.set]
    split
    case isTrue before =>
      refine ordered_cons.mpr ⟨fun n hn => ?_, h⟩
      rcases List.mem_cons.mp hn with rfl | hn
      · exact before
      · exact before.trans (first n hn)
    split
    case isTrue same => exact ordered_cons.mpr ⟨same ▸ first, tail⟩
    case isFalse before same =>
      refine ordered_cons.mpr ⟨fun n hn => ?_, ih tail⟩
      rcases mem_set hn with rfl | hn
      · exact lt_of_le_of_ne (not_lt.mp before) (Ne.symm same)
      · exact first n hn

theorem Ordered.before {front : List (String × α)} {m : String × α} {rest : List (String × α)}
    (h : Ordered (front ++ m :: rest)) : ∀ n ∈ front, n.1 < m.1 := by
  simp only [Ordered, List.map_append, List.map_cons] at h
  exact fun n hn => (List.pairwise_append.mp h).2.2 n.1 (List.mem_map_of_mem hn) m.1 List.mem_cons_self

end Members

namespace Value

/-! ## Values in form -/

/-- The form in which values are kept: numbers are in range and the members of an object in order. -/
inductive Formed : Value → Prop
  | null : Formed .null
  | bool (b : Bool) : Formed (.bool b)
  | number {n : Number} (h : n.InRange) : Formed (.number n)
  | string (s : String) : Formed (.string s)
  | array {elements : List Value} (h : ∀ v ∈ elements, v.Formed) : Formed (.array elements)
  | object {members : List (String × Value)} (ordered : Members.Ordered members)
      (h : ∀ m ∈ members, m.2.Formed) : Formed (.object members)

theorem nestingElements_le {budget : Nat} {elements : List Value} :
    nestingElements elements ≤ budget ↔ ∀ v ∈ elements, v.nesting ≤ budget := by
  induction elements with
  | nil => simp [nestingElements]
  | cons v rest ih => simp [nestingElements, ih]

theorem nestingMembers_le {budget : Nat} {members : List (String × Value)} :
    nestingMembers members ≤ budget ↔ ∀ m ∈ members, m.2.nesting ≤ budget := by
  induction members with
  | nil => simp [nestingMembers]
  | cons m rest ih => simp [nestingMembers, ih]

/-! ## Reading what was written -/

inductive Whole : Value → Prop
  | null : Whole .null
  | bool (b : Bool) : Whole (.bool b)
  | int (n : Int) : Whole (.number (.int n))
  | string (s : String) : Whole (.string s)
  | array {elements : List Value} (h : ∀ v ∈ elements, v.Whole) : Whole (.array elements)
  | object {members : List (String × Value)} (h : ∀ m ∈ members, m.2.Whole) : Whole (.object members)

def ReadsBack (v : Value) : Prop :=
  ∀ ⦃budget : Nat⦄, v.nesting ≤ budget → ofTree? budget v.tree = some v

variable {budget : Nat}

theorem ofElements?_tree {elements : List Value} (h : ∀ v ∈ elements, v.ReadsBack)
    (fits : nestingElements elements ≤ budget) :
    ofElements? budget (treeElements elements) = some elements := by
  rw [nestingElements_le] at fits
  induction elements with
  | nil => rfl
  | cons v rest ih =>
    have hv := h v List.mem_cons_self (fits v List.mem_cons_self)
    have hrest := ih (fun u hu => h u (List.mem_cons_of_mem _ hu))
      fun u hu => fits u (List.mem_cons_of_mem _ hu)
    simp [treeElements, ofElements?, hv, hrest]

theorem ofMembers?_tree {found members : List (String × Value)} (ordered : Members.Ordered (found ++ members))
    (h : ∀ m ∈ members, m.2.ReadsBack) (fits : nestingMembers members ≤ budget) :
    ofMembers? budget found (treeMembers members) = some (found ++ members) := by
  rw [nestingMembers_le] at fits
  induction members generalizing found with
  | nil => simp [treeMembers, ofMembers?]
  | cons m rest ih =>
    obtain ⟨k, v⟩ := m
    have hv := h (k, v) List.mem_cons_self (fits (k, v) List.mem_cons_self)
    -- The members come in order, so each is put behind those found before it.
    have last : Members.set k v found = found ++ [(k, v)] := Members.set_last ordered.before
    have hrest : ofMembers? budget (found ++ [(k, v)]) _ = _ := ih (by simpa using ordered)
      (fun n hn => h n (List.mem_cons_of_mem _ hn)) fun n hn => fits n (List.mem_cons_of_mem _ hn)
    simpa [treeMembers, ofMembers?, Piece.string?_written, hv, last] using hrest

/-- **A value in form reads back from its tree.** -/
theorem Formed.readsBack {v : Value} (f : v.Formed) (w : v.Whole) : v.ReadsBack := by
  intro budget fits
  induction f generalizing budget with
  | null => rfl
  | bool b => rfl
  | @number n range =>
    cases w
    simp [tree, ofTree?, Numeral.value?_ofInt range]
  | string s => simp [tree, ofTree?, Piece.string?_written]
  | @array elements f ih =>
    cases w with
    | array w =>
      obtain ⟨budget, rfl⟩ := Nat.exists_eq_add_of_le' (Nat.le_trans (Nat.le_add_left 1 _) fits)
      have back := ofElements?_tree (fun v hv => ih v hv (w v hv)) (Nat.le_of_add_le_add_right fits)
      simp [tree, ofTree?, back]
  | @object members ordered f ih =>
    cases w with
    | object w =>
      obtain ⟨budget, rfl⟩ := Nat.exists_eq_add_of_le' (Nat.le_trans (Nat.le_add_left 1 _) fits)
      have back : ofMembers? budget [] _ = _ := ofMembers?_tree ordered (fun m hm => ih m hm (w m hm))
        (Nat.le_of_add_le_add_right fits)
      simp [tree, ofTree?, back]

theorem Formed.eq_of_tree {u v : Value} (fu : u.Formed) (fv : v.Formed) (wu : u.Whole) (wv : v.Whole)
    (h : u.tree = v.tree) : u = v := by
  have hu := fu.readsBack wu (Nat.le_max_left u.nesting v.nesting)
  rw [h, fv.readsBack wv (Nat.le_max_right u.nesting v.nesting)] at hu
  exact (Option.some.inj hu).symm

/-! ## Whatever is read is in form -/

structure Fits (budget : Nat) (v : Value) : Prop where
  formed : v.Formed
  nests : v.nesting ≤ budget

theorem Fits.array {elements : List Value} (h : ∀ v ∈ elements, v.Fits budget) :
    Fits (budget + 1) (.array elements) where
  formed := .array fun v hv => (h v hv).formed
  nests := Nat.succ_le_succ (nestingElements_le.mpr fun v hv => (h v hv).nests)

theorem Fits.object {members : List (String × Value)} (ordered : Members.Ordered members)
    (h : ∀ m ∈ members, m.2.Fits budget) : Fits (budget + 1) (.object members) where
  formed := .object ordered fun m hm => (h m hm).formed
  nests := Nat.succ_le_succ (nestingMembers_le.mpr fun m hm => (h m hm).nests)

mutual

theorem fits_of_ofTree? : ∀ {budget : Nat} {t : Tree} {v : Value},
    ofTree? budget t = some v → v.Fits budget
  | _, .null, _, h => by cases h; exact ⟨.null, Nat.zero_le _⟩
  | _, .bool b, _, h => by cases h; exact ⟨.bool b, Nat.zero_le _⟩
  | _, .number n, _, h => by
    rw [ofTree?] at h
    obtain ⟨x, hx, rfl⟩ := Option.map_eq_some_iff.mp h
    exact ⟨.number (Numeral.value?_inRange hx), Nat.zero_le _⟩
  | _, .string s, _, h => by
    rw [ofTree?] at h
    obtain ⟨x, hx, rfl⟩ := Option.map_eq_some_iff.mp h
    exact ⟨.string x, Nat.zero_le _⟩
  | 0, .array ts, _, h => by rw [ofTree?] at h; cases h
  | budget + 1, .array ts, _, h => by
    rw [ofTree?] at h
    obtain ⟨vs, hvs, rfl⟩ := Option.map_eq_some_iff.mp h
    exact .array (fits_of_ofElements? hvs)
  | 0, .object ts, _, h => by rw [ofTree?] at h; cases h
  | budget + 1, .object ts, _, h => by
    rw [ofTree?] at h
    obtain ⟨ms, hms, rfl⟩ := Option.map_eq_some_iff.mp h
    obtain ⟨ordered, each⟩ := fits_of_ofMembers? Members.ordered_nil (List.forall_mem_nil _) hms
    exact .object ordered each

theorem fits_of_ofElements? : ∀ {budget : Nat} {ts : List Tree} {vs : List Value},
    ofElements? budget ts = some vs → ∀ v ∈ vs, v.Fits budget
  | _, [], _, h => by cases h; exact List.forall_mem_nil _
  | _, t :: ts, _, h => by
    simp only [ofElements?, Option.bind_eq_bind, Option.bind_eq_some_iff] at h
    obtain ⟨v, hv, vs, hvs, h⟩ := h
    cases h
    exact List.forall_mem_cons.mpr ⟨fits_of_ofTree? hv, fits_of_ofElements? hvs⟩

theorem fits_of_ofMembers? : ∀ {budget : Nat} {found : List (String × Value)}
    {ts : List (List Piece × Tree)} {ms : List (String × Value)}, Members.Ordered found →
    (∀ m ∈ found, m.2.Fits budget) → ofMembers? budget found ts = some ms →
    Members.Ordered ms ∧ ∀ m ∈ ms, m.2.Fits budget
  | _, _, [], _, ordered, each, h => by cases h; exact ⟨ordered, each⟩
  | _, _, (key, t) :: ts, _, ordered, each, h => by
    simp only [ofMembers?, Option.bind_eq_bind, Option.bind_eq_some_iff] at h
    obtain ⟨key, -, v, hv, h⟩ := h
    refine fits_of_ofMembers? (ordered.set key v) (fun m hm => ?_) h
    rcases Members.mem_set hm with rfl | hm
    · exact fits_of_ofTree? hv
    · exact each m hm

end

theorem Fits.readsBack {v : Value} (f : v.Fits budget) (w : v.Whole) : ofTree? budget v.tree = some v :=
  f.formed.readsBack w f.nests

end Value

end WriteBehind.Json
