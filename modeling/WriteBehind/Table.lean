/-!
# Tables

A finite map as a list of entries with distinct keys. A new key comes last, a known one keeps its
place.
-/

namespace WriteBehind

structure Table (κ α : Type) where
  entries : List (κ × α) := []
  distinct : (entries.map (·.1)).Nodup := by simp
  deriving DecidableEq

namespace Table

variable {κ α : Type}

instance : Inhabited (Table κ α) := ⟨{}⟩

def keys (t : Table κ α) : List κ := t.entries.map (·.1)

def values (t : Table κ α) : List α := t.entries.map (·.2)

def size (t : Table κ α) : Nat := t.entries.length

variable [DecidableEq κ]

def find? (key : κ) : List (κ × α) → Option α
  | [] => none
  | (k, a) :: rest => if k = key then some a else find? key rest

def put (key : κ) (value : α) : List (κ × α) → List (κ × α)
  | [] => [(key, value)]
  | (k, a) :: rest => if k = key then (key, value) :: rest else (k, a) :: put key value rest

def remove (key : κ) (entries : List (κ × α)) : List (κ × α) :=
  entries.filter fun e => decide (e.1 ≠ key)

theorem map_fst_put (key : κ) (value : α) (entries : List (κ × α)) :
    (put key value entries).map (·.1) =
      if key ∈ entries.map (·.1) then entries.map (·.1) else entries.map (·.1) ++ [key] := by
  induction entries with
  | nil => rfl
  | cons e rest ih =>
    obtain ⟨k, a⟩ := e
    by_cases h : k = key
    · subst h; simp [put]
    · simp only [put, h, if_false, List.map_cons, ih, List.mem_cons, Ne.symm h, false_or]
      split <;> simp

theorem nodup_put {key : κ} {value : α} {entries : List (κ × α)}
    (h : (entries.map (·.1)).Nodup) : ((put key value entries).map (·.1)).Nodup := by
  rw [map_fst_put]
  split
  · exact h
  · next hk =>
    refine List.nodup_append.2 ⟨h, by simp, fun a ha b hb hab => hk ?_⟩
    rw [List.mem_singleton] at hb
    exact hb ▸ hab ▸ ha

theorem nodup_remove {key : κ} {entries : List (κ × α)} (h : (entries.map (·.1)).Nodup) :
    ((remove key entries).map (·.1)).Nodup :=
  h.sublist (List.filter_sublist.map _)

def get? (t : Table κ α) (key : κ) : Option α := find? key t.entries

def contains (t : Table κ α) (key : κ) : Bool := (t.get? key).isSome

def set (t : Table κ α) (key : κ) (value : α) : Table κ α :=
  ⟨put key value t.entries, nodup_put t.distinct⟩

def erase (t : Table κ α) (key : κ) : Table κ α := ⟨remove key t.entries, nodup_remove t.distinct⟩

theorem find?_put (key k : κ) (value : α) (entries : List (κ × α)) :
    find? k (put key value entries) = if key = k then some value else find? k entries := by
  induction entries with
  | nil => rfl
  | cons e rest ih =>
    obtain ⟨k', a⟩ := e
    by_cases h : k' = key
    · subst h; simp only [put, if_true, find?]; split <;> rfl
    · simp only [put, h, if_false, find?, ih]
      by_cases hk : key = k
      · subst hk; simp [h]
      · simp [hk]

theorem find?_remove (key k : κ) (entries : List (κ × α)) :
    find? k (remove key entries) = if key = k then none else find? k entries := by
  induction entries with
  | nil => simp [remove, find?]
  | cons e rest ih =>
    obtain ⟨k', a⟩ := e
    have ih' : find? k (rest.filter fun e => decide (e.1 ≠ key)) =
        if key = k then none else find? k rest := ih
    by_cases h : k' = key
    · subst h
      rw [remove, List.filter_cons_of_neg (by simp), ih']
      by_cases hk : k' = k <;> simp [find?, hk]
    · rw [remove, List.filter_cons_of_pos (by simpa using h)]
      by_cases hk : key = k
      · subst hk; simp only [find?, h, if_false, ih', if_true]
      · simp only [find?, ih', hk, if_false]

@[simp] theorem get?_empty (k : κ) : ({} : Table κ α).get? k = none := rfl

theorem get?_set (t : Table κ α) (key k : κ) (value : α) :
    (t.set key value).get? k = if key = k then some value else t.get? k :=
  find?_put key k value t.entries

theorem get?_erase (t : Table κ α) (key k : κ) :
    (t.erase key).get? k = if key = k then none else t.get? k :=
  find?_remove key k t.entries

end Table

end WriteBehind
