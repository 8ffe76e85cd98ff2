import Mathlib.Data.Set.Function
import WriteBehind.Backend.Contents

/-!
# What is stored

If no two documents share a name and no document belongs to two atoms, then the index and the documents
agree, and a write of one atom leaves the documents of all others alone.
-/

namespace WriteBehind.Contents

variable {name : String → String} {owned : AtomId → String → Prop} {c : Contents} {x y : AtomId}
  {document : String}

theorem document?_eq_some {d : String} :
    c.document? x = some d ↔ ∃ n, c.index[x]? = some n ∧ c.documents[n]? = some d := by
  unfold document? name?
  rw [Option.bind_eq_some_iff]

theorem document?_congr {c' : Contents} (hindex : c'.index[x]? = c.index[x]?)
    (hdocuments : ∀ n, c.index[x]? = some n → c'.documents[n]? = c.documents[n]?) :
    c'.document? x = c.document? x := by
  unfold document? name?
  rw [hindex]
  cases hx : c.index[x]? with
  | none => rfl
  | some n => exact hdocuments n hx

def Apart (name : String → String) (owned : AtomId → String → Prop) : Prop :=
  ∀ x y d e, owned x d → owned y e → name d = name e → x = y

def Kept (name : String → String) (owned : AtomId → String → Prop) (c : Contents) : Prop :=
  ∀ x n, c.index[x]? = some n → ∃ d, owned x d ∧ n = name d ∧ c.documents[n]? = some d

theorem kept_empty (name : String → String) (owned : AtomId → String → Prop) : Kept name owned {} := by
  intro x n h
  simp at h

theorem Kept.name_ne (h : Kept name owned c) (hn : Apart name owned) (hx : owned x document) (hne : y ≠ x)
    {n : String} (hy : c.index[y]? = some n) : n ≠ name document := by
  intro heq
  obtain ⟨d, hd, hname, _⟩ := h y n hy
  exact hne (hn y x d document hd hx (hname.symm.trans heq))

theorem Kept.names_ne (h : Kept name owned c) (hn : Apart name owned) (hne : y ≠ x) {n m : String}
    (hy : c.index[y]? = some n) (hx : c.index[x]? = some m) : n ≠ m := by
  obtain ⟨d, hd, rfl, _⟩ := h x m hx
  exact h.name_ne hn hd hne hy

/-! ## Stores -/

theorem index_put (c : Contents) (x : AtomId) (n document : String) (y : AtomId) :
    (c.put x n document).index[y]? = if x = y then some n else c.index[y]? := by
  show (c.index.insert x n)[y]? = _
  rw [Std.TreeMap.getElem?_insert]
  simp only [Std.compare_eq_iff_eq]

/-- A document is stored beside the others, of which at most the replaced one is gone. -/
theorem documents_put (c : Contents) (x : AtomId) (n document : String) :
    ∃ others : Std.TreeMap String String, (c.put x n document).documents = others.insert n document ∧
      ∀ m, c.index[x]? ≠ some m → others[m]? = c.documents[m]? := by
  refine ⟨_, rfl, fun m hold => ?_⟩
  cases hi : c.index[x]? with
  | none => rfl
  | some old =>
    have hne : old ≠ m := by
      rintro rfl
      exact hold hi
    simp only
    split
    · rfl
    · rw [Std.TreeMap.getElem?_erase]
      simp only [Std.compare_eq_iff_eq, hne, if_false]

theorem documents_put_of_ne {n m : String} (hn : m ≠ n) (hold : c.index[x]? ≠ some m) :
    (c.put x n document).documents[m]? = c.documents[m]? := by
  obtain ⟨others, hput, hothers⟩ := c.documents_put x n document
  rw [hput, Std.TreeMap.getElem?_insert]
  simp only [Std.compare_eq_iff_eq, hn.symm, if_false]
  exact hothers m hold

theorem documents_put_self (c : Contents) (x : AtomId) (n document : String) :
    (c.put x n document).documents[n]? = some document := by
  obtain ⟨others, hput, _⟩ := c.documents_put x n document
  rw [hput, Std.TreeMap.getElem?_insert_self]

theorem document?_put_self (c : Contents) (x : AtomId) (n document : String) :
    (c.put x n document).document? x = some document := by
  refine document?_eq_some.mpr ⟨n, ?_, documents_put_self c x n document⟩
  rw [index_put, if_pos rfl]

theorem Kept.put (h : Kept name owned c) (hn : Apart name owned) (hx : owned x document) :
    Kept name owned (c.put x (name document) document) := by
  intro y n hy
  rw [index_put] at hy
  by_cases hxy : x = y
  · subst hxy
    rw [if_pos rfl, Option.some.injEq] at hy
    subst hy
    exact ⟨document, hx, rfl, documents_put_self c x _ document⟩
  · rw [if_neg hxy] at hy
    obtain ⟨d, hd, hname, hdoc⟩ := h y n hy
    refine ⟨d, hd, hname, ?_⟩
    rw [documents_put_of_ne (h.name_ne hn hx (Ne.symm hxy) hy), hdoc]
    exact fun hi => h.names_ne hn (Ne.symm hxy) hy hi rfl

theorem Kept.document?_put (h : Kept name owned c) (hn : Apart name owned) (hx : owned x document)
    (hne : y ≠ x) : (c.put x (name document) document).document? y = c.document? y := by
  refine document?_congr (by rw [index_put, if_neg hne.symm]) fun n hy => ?_
  exact documents_put_of_ne (h.name_ne hn hx hne hy) fun hi => h.names_ne hn hne hy hi rfl

/-! ## Removals -/

theorem index_remove (c : Contents) (x y : AtomId) :
    (c.remove x).index[y]? = if x = y then none else c.index[y]? := by
  unfold remove
  cases hi : c.index[x]? with
  | none =>
    by_cases hxy : x = y
    · subst hxy
      simp [hi]
    · simp [hxy]
  | some old =>
    simp only
    rw [Std.TreeMap.getElem?_erase]
    simp only [Std.compare_eq_iff_eq]

theorem documents_remove_of_ne {m : String} (hold : c.index[x]? ≠ some m) :
    (c.remove x).documents[m]? = c.documents[m]? := by
  unfold remove
  cases hi : c.index[x]? with
  | none => rfl
  | some old =>
    have hne : old ≠ m := by
      rintro rfl
      exact hold hi
    simp only
    rw [Std.TreeMap.getElem?_erase]
    simp only [Std.compare_eq_iff_eq, hne, if_false]

theorem document?_remove_self (c : Contents) (x : AtomId) : (c.remove x).document? x = none := by
  unfold document? name?
  rw [index_remove, if_pos rfl]
  rfl

theorem Kept.remove (h : Kept name owned c) (hn : Apart name owned) (x : AtomId) :
    Kept name owned (c.remove x) := by
  intro y n hy
  rw [index_remove] at hy
  by_cases hxy : x = y
  · rw [if_pos hxy] at hy
    cases hy
  · rw [if_neg hxy] at hy
    obtain ⟨d, hd, hname, hdoc⟩ := h y n hy
    refine ⟨d, hd, hname, ?_⟩
    rw [documents_remove_of_ne fun hi => h.names_ne hn (Ne.symm hxy) hy hi rfl, hdoc]

theorem Kept.document?_remove (h : Kept name owned c) (hn : Apart name owned) (hne : y ≠ x) :
    (c.remove x).document? y = c.document? y := by
  refine document?_congr (by rw [index_remove, if_neg hne.symm]) fun n hy => ?_
  exact documents_remove_of_ne fun hi => h.names_ne hn hne hy hi rfl

end WriteBehind.Contents
