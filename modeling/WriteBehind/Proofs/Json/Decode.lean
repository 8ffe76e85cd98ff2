import WriteBehind.Json.Decode
import WriteBehind.Proofs.Json.Scan

/-!
# Trees as parts of a record

The tree of an encoding, seen from outside, is what was encoded, so a record reads its fields back as
they are. A list that is left out where it is empty is read as empty.
-/

namespace WriteBehind.Json

namespace Value

theorem treeElements_eq_map (vs : List Value) : treeElements vs = vs.map tree := by
  induction vs with
  | nil => rfl
  | cons v vs ih => rw [treeElements, ih, List.map_cons]

theorem treeMembers_eq_map (ms : List (String × Value)) :
    treeMembers ms = ms.map fun m => (m.1.toList.map Piece.written, m.2.tree) := by
  induction ms with
  | nil => rfl
  | cons m ms ih => rw [treeMembers, ih, List.map_cons]

end Value

@[simp] theorem shape?_string (s : String) : format.shape? (Value.string s).tree = some (.text s) := by
  simp [format, Value.tree, shape?, Piece.string?_written]

@[simp] theorem shape?_array (vs : List Value) :
    format.shape? (Value.array vs).tree = some (.list (vs.map Value.tree)) := by
  simp only [format, Value.tree, shape?, Value.treeElements_eq_map]

@[simp] theorem shape?_object (ms : List (String × Value)) :
    format.shape? (Value.object ms).tree = some (.table (ms.map fun m => (m.1, m.2.tree))) := by
  have fields : ms.mapM (fun m => (do let key ← some m.1; return (key, m.2.tree) : Option _)) =
      some (ms.map fun m => (m.1, m.2.tree)) :=
    List.mapM_pure
  simp only [format, Value.tree, shape?, Value.treeMembers_eq_map, List.mapM_map, Function.comp_def,
    Piece.string?_written, fields]
  rfl

theorem text?_string (s : String) : format.text? (Value.string s).tree = some s := by
  simp [Format.text?]

theorem list?_array {β : Type} {encode : β → Value} {decode : Tree → Option β}
    (h : ∀ b, decode (encode b).tree = some b) (bs : List β) :
    format.list? decode (Value.array (bs.map encode)).tree = some bs := by
  have each : ((bs.map encode).map Value.tree).mapM decode = some bs := by
    rw [List.map_map, List.mapM_map]
    simp only [Function.comp_def, h]
    simpa using List.mapM_pure (m := Option) (l := bs) (f := fun b => b)
  simp only [Format.list?, shape?_array]
  exact each

theorem orDefault_of_left_out {β : Type} {decode : Tree → Option (List β)} {part : Tree} {bs : List β}
    (h : decode part = some bs) :
    Format.orDefault [] decode (if bs.isEmpty then none else some part) = some bs := by
  split
  case isTrue empty => rw [List.isEmpty_iff.mp empty]; rfl
  case isFalse => exact h

end WriteBehind.Json
