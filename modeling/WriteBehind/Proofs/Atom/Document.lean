import WriteBehind.Proofs.Atom.Identity
import WriteBehind.Proofs.Json.Decode
import WriteBehind.Proofs.Json.Value

/-!
# Documents read back

The document of an atom leaves out the fields that are empty, and its reader fills in what is left out,
so the two agree. The order of the fields in a text and all that the reader skips are lost in reading,
which is why only the document of what was read comes back with the same bytes.
-/

namespace WriteBehind

open Json

namespace Atom

/-- The values are in form, as the atoms that a program can build have them. -/
def Formed (a : Atom) : Prop := (Value.object a.values).Formed

def Whole (a : Atom) : Prop := (Value.object a.values).Whole

/-- The values are in form and nested no deeper than the reader goes below the document itself. -/
def Fits (a : Atom) : Prop := (Value.object a.values).Fits (Value.maxNesting - 1)

theorem formed_node (id : AtomId) (type name : String) : (node id type name).Formed :=
  .object Members.ordered_nil (List.forall_mem_nil _)

theorem formed_link (id : AtomId) (type : String) (outgoing : List AtomId) :
    (link id type outgoing).Formed :=
  .object Members.ordered_nil (List.forall_mem_nil _)

theorem Formed.set {a : Atom} (h : a.Formed) (key : String) {value : Value} (hv : value.Formed) :
    (a.set key value).Formed := by
  cases (show (Value.object a.values).Formed from h) with
  | object ordered each =>
    refine .object (ordered.set key value) fun m hm => ?_
    rcases Members.mem_set hm with rfl | hm
    · exact hv
    · exact each m hm

def members (a : Atom) : List (String × Value) :=
  [("id", a.id.toJson), ("type", .string a.type)] ++
    (match a.name with
      | some name => [("name", .string name)]
      | none => []) ++
    (if a.outgoing.isEmpty then [] else [("outgoing", .array (a.outgoing.map AtomId.toJson))]) ++
    (if a.values.isEmpty then [] else [("values", .object a.values)])

theorem toJson_eq (a : Atom) : a.toJson = .object a.members := rfl

theorem forall_members {a : Atom} {p : Value → Prop} (string : ∀ s, p (.string s))
    (outgoing : p (.array (a.outgoing.map AtomId.toJson))) (values : p (.object a.values)) :
    ∀ m ∈ a.members, p m.2 := by
  intro m hm
  simp only [members, List.mem_append, List.mem_cons, List.not_mem_nil, or_false] at hm
  rcases hm with (((rfl | rfl) | hname) | hout) | hvalues
  · exact string _
  · exact string _
  · split at hname
    · cases List.mem_singleton.mp hname
      exact string _
    · cases hname
  · split at hout
    · cases hout
    · cases List.mem_singleton.mp hout
      exact outgoing
  · split at hvalues
    · cases hvalues
    · cases List.mem_singleton.mp hvalues
      exact values

theorem values_mem_members {a : Atom} (h : a.values ≠ []) : ("values", .object a.values) ∈ a.members := by
  simp [members, h]

def parts (a : Atom) : List (Option Tree) := [
  some a.id.toJson.tree,
  some (Value.string a.type).tree,
  a.name.map fun name => (Value.string name).tree,
  if a.outgoing.isEmpty then none else some (Value.array (a.outgoing.map AtomId.toJson)).tree,
  if a.values.isEmpty then none else some (Value.object a.values).tree]

theorem fields?_toJson (a : Atom) :
    Json.format.fields? ["id", "type", "name", "outgoing", "values"] a.toJson.tree = some a.parts := by
  unfold parts Format.fields?
  simp only [toJson_eq, shape?_object, members]
  -- Whether a field is there decides how far the later ones are from the front.
  rcases a with ⟨id, type, _ | name, _ | ⟨o, outgoing⟩, _ | ⟨v, values⟩⟩ <;> rfl

theorem decode?_id (id : AtomId) : AtomId.decode? Json.format id.toJson.tree = some id := by
  rw [AtomId.decode?, AtomId.toJson, text?_string, Option.bind_some, AtomId.ofString?_text]

theorem orDefault_name (name : Option String) :
    Format.orDefault none (Json.format.nullable? Json.format.text?)
      (name.map fun name => (Value.string name).tree) = some name := by
  cases name with
  | none => rfl
  | some name => simp [Format.orDefault, Format.nullable?, text?_string]

theorem orDefault_outgoing (outgoing : List AtomId) :
    Format.orDefault [] (Json.format.list? (AtomId.decode? Json.format))
      (if outgoing.isEmpty then none else some (Value.array (outgoing.map AtomId.toJson)).tree) =
        some outgoing :=
  orDefault_of_left_out (list?_array decode?_id outgoing)

theorem orDefault_values {a : Atom} (f : a.Fits) (w : a.Whole) :
    Format.orDefault [] decodeValues?
      (if a.values.isEmpty then none else some (Value.object a.values).tree) = some a.values :=
  orDefault_of_left_out (by rw [decodeValues?, f.readsBack w])

theorem decode?_of_values {a : Atom} {values : List (String × Value)}
    (h : Format.orDefault [] decodeValues?
      (if a.values.isEmpty then none else some (Value.object a.values).tree) = some values) :
    decode? a.toJson.tree = some { a with values } := by
  simp only [decode?, fields?_toJson, parts, Option.bind_eq_bind, Option.bind_some, decode?_id, text?_string,
    orDefault_name, orDefault_outgoing, h]
  rfl

theorem decode?_toJson {a : Atom} (f : a.Fits) (w : a.Whole) : decode? a.toJson.tree = some a :=
  decode?_of_values (orDefault_values f w)

theorem ofDocument?_eq (a : Atom) : ofDocument? a.document = decode? a.toJson.tree := by
  rw [ofDocument?, Json.decode?, document, a.toJson.ofString?_text]
  rfl

/-! ## Whatever is read can be written -/

theorem fits_empty : (Value.object []).Fits (Value.maxNesting - 1) :=
  ⟨.object Members.ordered_nil (List.forall_mem_nil _), by decide⟩

theorem fits_of_decodeValues? {part? : Option Tree} {values : List (String × Value)}
    (h : Format.orDefault [] decodeValues? part? = some values) :
    (Value.object values).Fits (Value.maxNesting - 1) := by
  cases part? with
  | none =>
    cases h
    exact fits_empty
  | some part =>
    simp only [Format.orDefault, decodeValues?] at h
    split at h
    case h_1 members hm =>
      cases h
      exact Value.fits_of_ofTree? hm
    case h_2 => cases h

theorem fits_of_decode? {part : Tree} {a : Atom} (h : decode? part = some a) : a.Fits := by
  simp only [decode?, Option.bind_eq_bind, Option.bind_eq_some_iff] at h
  obtain ⟨fields, -, h⟩ := h
  split at h
  case h_2 => cases h
  case h_1 id type name outgoing values =>
    simp only [Option.bind_eq_some_iff] at h
    obtain ⟨_, -, _, -, _, -, _, -, found, hfound, h⟩ := h
    cases h
    exact fits_of_decodeValues? hfound

theorem nesting_toJson {a : Atom} : a.toJson.nesting ≤ Value.maxNesting ↔
    (Value.object a.values).nesting ≤ Value.maxNesting - 1 := by
  have inner : a.toJson.nesting ≤ Value.maxNesting ↔
      ∀ m ∈ a.members, m.2.nesting ≤ Value.maxNesting - 1 := by
    rw [← Value.nestingMembers_le, toJson_eq, Value.nesting]
    exact Nat.le_sub_one_iff_lt (by decide) |>.symm
  refine inner.trans ⟨fun h => ?_, fun h => ?_⟩
  · by_cases empty : a.values = []
    · rw [empty]
      exact fits_empty.nests
    · exact h _ (values_mem_members empty)
  · refine forall_members (p := fun v => v.nesting ≤ Value.maxNesting - 1) (fun _ => Nat.zero_le _) ?_ h
    refine Nat.succ_le_succ (Value.nestingElements_le.mpr fun v hv => ?_)
    obtain ⟨id, -, rfl⟩ := List.mem_map.mp hv
    exact Nat.zero_le _

theorem fits_of_nesting {a : Atom} (f : a.Formed) (h : a.toJson.nesting ≤ Value.maxNesting) : a.Fits :=
  ⟨f, nesting_toJson.mp h⟩

/-! ## Documents tell atoms apart -/

theorem values_eq_of_tree {a b : Atom} (fa : a.Formed) (fb : b.Formed) (wa : a.Whole) (wb : b.Whole)
    (h : (if a.values.isEmpty then none else some (Value.object a.values).tree) =
      if b.values.isEmpty then none else some (Value.object b.values).tree) : a.values = b.values := by
  split at h <;> split at h
  case isTrue.isTrue ea eb => rw [List.isEmpty_iff.mp ea, List.isEmpty_iff.mp eb]
  case isFalse.isFalse => exact Value.object.inj (fa.eq_of_tree fb wa wb (Option.some.inj h))
  all_goals cases h

theorem eq_of_parts {a b : Atom} (fa : a.Formed) (fb : b.Formed) (wa : a.Whole) (wb : b.Whole)
    (h : a.parts = b.parts) : a = b := by
  simp only [parts, List.cons.injEq, and_true] at h
  obtain ⟨hid, htype, hname, hout, hvalues⟩ := h
  have id := decode?_id a.id
  rw [Option.some.inj hid, decode?_id] at id
  have type := text?_string a.type
  rw [Option.some.inj htype, text?_string] at type
  have name := orDefault_name a.name
  rw [hname, orDefault_name] at name
  have outgoing := orDefault_outgoing a.outgoing
  rw [hout, orDefault_outgoing] at outgoing
  have values := values_eq_of_tree fa fb wa wb hvalues
  calc a = ⟨a.id, a.type, a.name, a.outgoing, a.values⟩ := rfl
    _ = ⟨b.id, b.type, b.name, b.outgoing, b.values⟩ := by
      rw [Option.some.inj id, Option.some.inj type, Option.some.inj name, Option.some.inj outgoing, values]
    _ = b := rfl

theorem eq_of_document {a b : Atom} (fa : a.Formed) (fb : b.Formed) (wa : a.Whole) (wb : b.Whole)
    (h : a.document = b.document) : a = b := by
  have trees := Value.tree_eq_of_text h
  have fields := fields?_toJson a
  rw [trees, fields?_toJson] at fields
  exact eq_of_parts fa fb wa wb (Option.some.inj fields).symm

theorem ofDocument?_document {a : Atom} (f : a.Fits) (w : a.Whole) : ofDocument? a.document = some a := by
  rw [ofDocument?_eq]
  exact decode?_toJson f w

theorem fits_of_ofDocument? {text : String} {a : Atom} (h : ofDocument? text = some a) : a.Fits := by
  obtain ⟨part, -, h⟩ := Option.bind_eq_some_iff.mp h
  exact fits_of_decode? h

/-! ## Round trips -/

/-- **Atom documents survive encoding.** The document of an atom reads back as the atom, so no two atoms
share one, and those of different identities differ whatever their values are. What is read from any
text reads back from its own document, which therefore keeps its bytes and its content id. -/
theorem documents_read_back :
    (∀ a : Atom, a.Formed → a.Whole → a.toJson.nesting ≤ Value.maxNesting →
      ofDocument? a.document = some a) ∧
    (∀ a b : Atom, a.Formed → b.Formed → a.Whole → b.Whole → a.document = b.document → a = b) ∧
    (∀ a b : Atom, a.id ≠ b.id → a.document ≠ b.document) ∧
    (∀ (text : String) (a : Atom), ofDocument? text = some a → a.Whole →
      a.Formed ∧ a.toJson.nesting ≤ Value.maxNesting ∧
      ofDocument? a.document = some a ∧
      (ofDocument? a.document).map document = some a.document ∧
      (ofDocument? a.document).map documentId = some (contentId a.document.toUTF8)) := by
  refine ⟨fun a f w nests => ?_, fun a b fa fb wa wb h => ?_, fun a b ne h => ?_, fun text a h w => ?_⟩
  · exact ofDocument?_document (fits_of_nesting f nests) w
  · exact eq_of_document fa fb wa wb h
  · exact ne (id_eq_of_document h)
  · have fits := fits_of_ofDocument? h
    have back := ofDocument?_document fits w
    refine ⟨fits.formed, nesting_toJson.mpr fits.nests, back, ?_, ?_⟩ <;> rw [back] <;> rfl

def nested : Value := .object [("\n", .string "\x01é"), ("a", .array [.null, .number (.int (-5))])]

def tagged : Atom where
  id := ⟨10⟩
  type := "t"
  name := some ""
  outgoing := [⟨11⟩]
  values := [("k", nested)]

def listed : String :=
  "[\"0000000000000000000000000000000A\", \"\\u0074\", \"\", [\"0000000000000000000000000000000b\"]," ++
  " \x7b\"k\":0,\"k\":\x7b\"a\":[null,-5],\"\\n\":\"\\u0001é\"\x7d\x7d]"

set_option maxRecDepth 4000 in
theorem ofDocument?_listed : ofDocument? listed = some tagged := by
  unfold ofDocument? Json.decode? Tree.ofString? listed
  simp only [String.reduceToList, String.reduceAppend]
  rfl

theorem tagged_formed : tagged.Formed := by
  refine .object (by decide) (List.forall_mem_singleton.mpr ?_)
  refine .object (by decide) (List.forall_mem_cons.mpr ⟨.string _, List.forall_mem_singleton.mpr ?_⟩)
  exact .array (List.forall_mem_cons.mpr ⟨.null, List.forall_mem_singleton.mpr (.number (by decide))⟩)

theorem tagged_whole : tagged.Whole := by
  refine .object (List.forall_mem_singleton.mpr ?_)
  refine .object (List.forall_mem_cons.mpr ⟨.string _, List.forall_mem_singleton.mpr ?_⟩)
  exact .array (List.forall_mem_cons.mpr ⟨.null, List.forall_mem_singleton.mpr (.int _)⟩)

theorem documents_read_back_listed :
    ofDocument? tagged.document = some tagged ∧
      tagged.set "k" nested = tagged ∧
      tagged.document ≠ { tagged with name := none }.document ∧
      tagged.document ≠ { tagged with id := ⟨9⟩ }.document ∧
      (ofDocument? tagged.document).map documentId = some (contentId tagged.document.toUTF8) := by
  obtain ⟨reads, tells, owned, again⟩ := documents_read_back
  have formed := tagged_formed
  have whole := tagged_whole
  refine ⟨reads tagged formed whole (by decide), ?_, fun h => ?_, owned _ _ (by decide), ?_⟩
  · exact tells (tagged.set "k" nested) tagged formed formed whole whole rfl
  · exact nomatch congrArg name (tells tagged { tagged with name := none } formed formed whole whole h)
  · exact (again listed tagged ofDocument?_listed whole).2.2.2.2

end Atom

end WriteBehind
