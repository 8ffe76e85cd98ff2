import Mathlib.Data.List.Forall2
import WriteBehind.Record

/-!
# Fields of a record

A record that is given as a table finds its fields wherever they stand, and misses those that are not there;
what else stands in the table does not matter. A field that comes twice, or one that cannot be read, spoils
the whole record.
-/

namespace WriteBehind.Format

variable {α β : Type} {f : Format α} {part : α} {fields fields' others : List (String × α)}
  {names : List String} {found : List (Option α)} {name : String}

def given (names : List String) (found : List (Option α)) : List (String × α) :=
  (names.zip found).filterMap fun (name, part?) => part?.map (name, ·)

theorem given_cons (name : String) (names : List String) (part? : Option α) (found : List (Option α)) :
    given (name :: names) (part? :: found) = (part?.map (name, ·)).toList ++ given names found := by
  cases part? <;> rfl

theorem mem_given_name {field : String × α} (h : field ∈ given names found) : field.1 ∈ names := by
  obtain ⟨⟨name, part?⟩, hm, hf⟩ := List.mem_filterMap.mp h
  obtain ⟨part, _, rfl⟩ := Option.map_eq_some_iff.mp hf
  exact (List.of_mem_zip hm).1

/-! ## One field -/

theorem pick?_perm (h : fields.Perm fields') (name : String) : pick? name fields = pick? name fields' := by
  unfold pick?
  have hp := h.filter fun f => decide (f.1 = name)
  generalize fields.filter (fun f => decide (f.1 = name)) = l at hp
  generalize fields'.filter (fun f => decide (f.1 = name)) = l' at hp
  match l, l', hp.length_eq with
  | [], [], _ => rfl
  | [a], [a'], _ => rw [List.singleton_perm_singleton.mp hp]
  | _ :: _ :: _, _ :: _ :: _, _ => rfl

theorem filter_absent (h : ∀ field ∈ fields, field.1 ≠ name) :
    fields.filter (fun field => decide (field.1 = name)) = [] :=
  List.filter_eq_nil_iff.mpr fun field hf => by simpa using h field hf

theorem pick?_head (part? : Option α) (h : ∀ field ∈ fields, field.1 ≠ name) :
    pick? name ((part?.map (name, ·)).toList ++ fields) = some part? := by
  unfold pick?
  rw [List.filter_append, filter_absent h]
  cases part? <;> simp

theorem pick?_present {part? : Option α} (h : pick? name fields = some part?) (hm : (name, part) ∈ fields) :
    part? = some part := by
  unfold pick? at h
  have hm' : (name, part) ∈ fields.filter fun field => decide (field.1 = name) :=
    List.mem_filter.mpr ⟨hm, decide_eq_true rfl⟩
  split at h
  case h_1 heq => rw [heq] at hm'; cases hm'
  case h_2 heq =>
    rw [heq, List.mem_singleton] at hm'
    cases h
    rw [← hm']
  case h_3 => cases h

theorem pick?_absent {part? : Option α} (h : pick? name fields = some part?)
    (hn : name ∉ fields.map (·.1)) : part? = none := by
  unfold pick? at h
  rw [filter_absent fun field hf heq => hn (List.mem_map.mpr ⟨field, hf, heq⟩)] at h
  cases h
  rfl

theorem pick?_repeated (h : 2 ≤ (fields.map (·.1)).count name) : pick? name fields = none := by
  have hlen : (fields.filter fun field => decide (field.1 = name)).length = (fields.map (·.1)).count name := by
    rw [List.count, List.countP_map, List.countP_eq_length_filter]
    congr 1
  unfold pick?
  generalize fields.filter (fun field => decide (field.1 = name)) = l at hlen
  match l with
  | [] => simp at hlen; omega
  | [_] => simp at hlen; omega
  | _ :: _ :: _ => rfl

/-! ## All fields -/

theorem mapM_pick? (nodup : names.Nodup) (length : names.length = found.length)
    (perm : fields.Perm (given names found ++ others)) (unknown : ∀ field ∈ others, field.1 ∉ names) :
    names.mapM (pick? · fields) = some found := by
  induction names generalizing found others with
  | nil =>
    cases found with
    | nil => rfl
    | cons => cases length
  | cons name names ih =>
    cases found with
    | nil => cases length
    | cons part? found =>
      obtain ⟨hname, nodup⟩ := List.nodup_cons.mp nodup
      rw [given_cons, List.append_assoc] at perm
      have hrest : ∀ field ∈ given names found ++ others, field.1 ≠ name := by
        rintro field hf rfl
        rcases List.mem_append.mp hf with hf | hf
        · exact hname (mem_given_name hf)
        · exact unknown field hf List.mem_cons_self
      have hfirst : pick? name fields = some part? := (pick?_perm perm name).trans (pick?_head part? hrest)
      -- To the names that follow, the first field is one of the others.
      have hlater : fields.Perm (given names found ++ ((part?.map (name, ·)).toList ++ others)) := by
        refine perm.trans ?_
        rw [← List.append_assoc, ← List.append_assoc]
        exact List.perm_append_comm.append_right others
      have hunknown : ∀ field ∈ (part?.map (name, ·)).toList ++ others, field.1 ∉ names := by
        intro field hf
        rcases List.mem_append.mp hf with hf | hf
        · obtain ⟨part, _, rfl⟩ := Option.map_eq_some_iff.mp (Option.mem_toList.mp hf)
          exact hname
        · exact fun hm => unknown field hf (List.mem_cons_of_mem name hm)
      have hnames := ih nodup (Nat.succ.inj length) hlater hunknown
      simp [List.mapM_cons, hfirst, hnames]

theorem fields?_table (h : f.shape? part = some (.table fields)) (names : List String) :
    f.fields? names part = names.mapM (pick? · fields) := by
  simp [fields?, h]

theorem mapM_repeated (h : 2 ≤ (fields.map (·.1)).count name) (hn : name ∈ names) :
    names.mapM (pick? · fields) = none := by
  induction names with
  | nil => cases hn
  | cons first names ih =>
    rw [List.mapM_cons]
    rcases List.mem_cons.mp hn with rfl | hn
    · rw [pick?_repeated h]
      rfl
    · rw [ih hn]
      cases pick? first fields <;> rfl

theorem forall₂_mapM_pick? (h : names.mapM (pick? · fields) = some found) :
    List.Forall₂ (fun name part? => pick? name fields = some part?) names found := by
  induction names generalizing found with
  | nil =>
    cases h
    exact .nil
  | cons name names ih =>
    rw [List.mapM_cons] at h
    obtain ⟨part?, hpart, h⟩ := Option.bind_eq_some_iff.mp h
    obtain ⟨rest, hrest, h⟩ := Option.bind_eq_some_iff.mp h
    cases h
    exact .cons hpart (ih hrest)

/-! ## Defaults -/

theorem orDefault_rel {R : α → β → Prop} {decode : α → Option β} {part? : Option α} {value? : Option β}
    (rel : Option.Rel R part? value?) (reads : ∀ part value, R part value → decode part = some value)
    (default : β) : orDefault default decode part? = some (value?.getD default) := by
  cases rel with
  | some h => exact reads _ _ h
  | none => rfl

end WriteBehind.Format
