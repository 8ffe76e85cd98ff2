import WriteBehind.Proofs.Session.Runs

/-!
# Values of atoms

The value of an atom under a key is the one that was set last. What a worker has read of an atom is what
the atom was at that moment.
-/

namespace WriteBehind

theorem Json.Members.get?_set {α : Type} (key k : String) (value : α) (members : List (String × α)) :
    get? k (set key value members) = if key = k then some value else get? k members := by
  induction members with
  | nil => by_cases h : key = k <;> simp [set, get?, h]
  | cons m rest ih =>
    obtain ⟨k', v⟩ := m
    unfold get? at ih ⊢
    unfold set
    split
    · by_cases h : key = k <;> simp [h]
    · split
      · subst_vars
        by_cases h : k' = k <;> simp [h]
      · rename_i hne
        by_cases hk : k' = k
        · have : key ≠ k := fun h => hne (h.trans hk.symm)
          simp [hk, this]
        · simpa [hk] using ih

theorem Atom.get?_set (a : Atom) (key k : String) (value : Json.Value) :
    (a.set key value).get? k = if key = k then some value else a.get? k :=
  Json.Members.get?_set key k value a.values

theorem Catalog.get?_insert (c : Catalog) (a : Atom) (x : AtomId) :
    (c.insert a).get? x = if a.id = x then some a else c.get? x := by
  unfold Catalog.get? Catalog.insert
  rw [Std.TreeMap.getElem?_insert]
  simp only [Std.compare_eq_iff_eq]

def Catalog.Identified (c : Catalog) : Prop := ∀ x a, c.get? x = some a → a.id = x

theorem Catalog.Identified.insert {c : Catalog} (h : c.Identified) (a : Atom) : (c.insert a).Identified := by
  intro x b hb
  rw [Catalog.get?_insert] at hb
  split at hb
  · cases hb
    assumption
  · exact h x b hb

namespace Session

def settings (x : AtomId) (key : String) (actions : List Action) : List Json.Value :=
  actions.filterMap fun action => match action with
    | .set id k value => if id = x ∧ k = key then some value else none
    | _ => none

variable {x : AtomId} {key : String} {name : String → String} {actions later : List Action}
  {w u v : World} {action : Action} {a : Atom}

theorem settings_append : settings x key (actions ++ later) = settings x key actions ++ settings x key later :=
  List.filterMap_append

theorem settings_of_made (h : action.made? = some a) : settings x key [action] = [] := by
  cases action <;> first | rfl | cases h

theorem settings_set (id : AtomId) (k : String) (value : Json.Value) :
    settings x key [.set id k value] = if id = x ∧ k = key then [value] else [] := by
  by_cases h : id = x ∧ k = key <;> simp [settings, h]

/-! ## Catalogs -/

/-- What the atoms of a catalog are after some actions: each value is the one set last. -/
structure Recorded (actions : List Action) (c : Catalog) : Prop where
  identified : c.Identified
  value : ∀ x key, c.value? x key = (settings x key actions).getLast?

theorem recorded_empty : Recorded [] {} where
  identified x a h := by simp [Catalog.get?] at h
  value x key := by simp [Catalog.value?, Catalog.get?, settings]

theorem Recorded.still {c : Catalog} (h : Recorded actions c) (hn : ∀ x key, settings x key [action] = []) :
    Recorded (actions ++ [action]) c where
  identified := h.identified
  value x key := by rw [settings_append, hn, List.append_nil, h.value]

theorem Recorded.create {c : Catalog} (h : Recorded actions c) (hm : action.made? = some a)
    (fresh : c.get? a.id = none) : Recorded (actions ++ [action]) (c.insert a) where
  identified := h.identified.insert a
  value x key := by
    rw [settings_append, settings_of_made hm, List.append_nil, ← h.value]
    unfold Catalog.value?
    rw [Catalog.get?_insert]
    split
    · rename_i hx
      subst hx
      simp [fresh, Atom.get?, Json.Members.get?, Action.made_bare hm]
    · rfl

theorem Recorded.set {c : Catalog} (h : Recorded actions c) (known : c.get? x = some a) (k : String)
    (value : Json.Value) : Recorded (actions ++ [.set x k value]) (c.insert (a.set k value)) where
  identified := h.identified.insert (a.set k value)
  value y key := by
    have hid : (a.set k value).id = x := h.identified x a known
    rw [settings_append, settings_set, List.getLast?_append, ← h.value]
    unfold Catalog.value?
    rw [Catalog.get?_insert, hid]
    by_cases hy : x = y
    · subst hy
      rw [if_pos rfl, known]
      by_cases hk : k = key <;> simp [Atom.get?_set, hk]
    · simp [hy]

theorem Recorded.step (h : Recorded actions w.catalog) (hs : World.step name w action = some u) :
    Recorded (actions ++ [action]) u.catalog := by
  cases World.step_cases hs with
  | created _ a made fresh => exact h.create made fresh
  | set id k value a known => exact h.set known k value
  | called _ _ _ _ _ moved =>
    rw [moved.catalog]
    exact h.still fun _ _ => rfl
  | moved _ _ _ _ moved =>
    rw [moved.catalog]
    exact h.still fun _ _ => rfl
  | wrote _ _ _ _ _ _ _ _ _ _ moved =>
    rw [moved.catalog]
    exact h.still fun _ _ => rfl
  | _ => exact h.still fun _ _ => rfl

theorem Recorded.run {before : List Action} (h : Recorded before w.catalog)
    (hr : World.run name w actions = some u) : Recorded (before ++ actions) u.catalog := by
  refine World.run_induction (P := fun actions u => Recorded (before ++ actions) u.catalog) ?_ ?_ hr
  · simpa using h
  · intro actions v action u _ hp hs
    rw [← List.append_assoc]
    exact hp.step hs

theorem known_step (h : Recorded actions w.catalog) (hx : w.catalog.get? x = some a)
    (hs : World.step name w action = some u) (hn : ∀ key, settings x key [action] = []) :
    u.catalog.get? x = some a := by
  cases World.step_cases hs with
  | created _ b _ fresh =>
    show (w.catalog.insert b).get? x = _
    rw [Catalog.get?_insert, if_neg, hx]
    rintro rfl
    rw [fresh] at hx
    cases hx
  | set id k value b known =>
    show (w.catalog.insert (b.set k value)).get? x = _
    have hid : (b.set k value).id = id := h.identified id b known
    rw [Catalog.get?_insert, if_neg, hx]
    rw [hid]
    rintro rfl
    simpa [settings_set] using hn k
  | called _ _ _ _ _ moved => rw [moved.catalog, hx]
  | moved _ _ _ _ moved => rw [moved.catalog, hx]
  | wrote _ _ _ _ _ _ _ _ _ _ moved => rw [moved.catalog]; exact hx
  | _ => exact hx

theorem known_lasts (h : Recorded actions w.catalog) (hx : w.catalog.get? x = some a)
    (hr : World.run name w later = some u) (hn : ∀ key, settings x key later = []) :
    u.catalog.get? x = some a := by
  refine World.run_induction (P := fun later u =>
    (∀ key, settings x key later = []) → u.catalog.get? x = some a) (fun _ => hx) ?_ hr hn
  intro later v action u hv hp hs hn
  simp only [settings_append, List.append_eq_nil_iff] at hn
  exact known_step (h.run hv) (hp fun key => (hn key).1) hs fun key => (hn key).2

end Session

end WriteBehind
