import Mathlib.Data.Option.Basic
import WriteBehind.Coding
import WriteBehind.Proofs.Json.Decode
import WriteBehind.Proofs.Record

/-!
# Configurations read

A configuration reads back from its document. An object that gives only some fields is read as the defaults
with these fields replaced, in whatever order they stand and whatever else it holds. Watermarks have to be
given together, and no field may be given twice.
-/

namespace WriteBehind

open Json (Tree Piece)

namespace Json.Tree

variable {t : Tree}

/-! ## Trees seen from outside -/

def HasFields (t : Tree) (fields : List (String × Tree)) : Prop :=
  ∃ members, t = .object members ∧
    List.Forall₂ (fun member field => Piece.string? member.1 = some field.1 ∧ member.2 = field.2) members fields

def IsNat (t : Tree) (n : Nat) : Prop := ∃ numeral, t = .number numeral ∧ numeral.value? = some (.int n)

def IsText (t : Tree) (s : String) : Prop := ∃ pieces, t = .string pieces ∧ Piece.string? pieces = some s

def IsBool (t : Tree) (b : Bool) : Prop := t = .bool b

/-- The tree is an object that gives these fields, as far as there is a part for them, each once and in any
order, among fields that are not known. -/
def Gives (known : List String) (found : List (Option Tree)) (t : Tree) : Prop :=
  ∃ fields others, t.HasFields fields ∧ fields.Perm (Format.given known found ++ others) ∧
    ∀ field ∈ others, field.1 ∉ known

def Has (t : Tree) (name : String) (part : Tree) : Prop := ∃ fields, t.HasFields fields ∧ (name, part) ∈ fields

def Lacks (t : Tree) (name : String) : Prop := ∃ fields, t.HasFields fields ∧ name ∉ fields.map (·.1)

def Repeats (t : Tree) (known : List String) : Prop :=
  ∃ fields, t.HasFields fields ∧ ∃ name ∈ known, 2 ≤ (fields.map (·.1)).count name

theorem HasFields.shape? {fields : List (String × Tree)} (h : t.HasFields fields) :
    Json.format.shape? t = some (.table fields) := by
  obtain ⟨members, rfl, each⟩ := h
  refine Option.bind_eq_some_iff.mpr ⟨fields, ?_, rfl⟩
  induction each with
  | nil => rfl
  | cons first _ ih =>
    obtain ⟨hkey, hvalue⟩ := first
    simp only [List.mapM_cons, hkey, ih, hvalue]
    rfl

theorem IsNat.lt {n : Nat} (h : t.IsNat n) : n < wordSize := by
  obtain ⟨numeral, _, hv⟩ := h
  obtain ⟨_, most⟩ := Numeral.value?_inRange hv
  omega

theorem IsNat.nat? {n : Nat} (h : t.IsNat n) : Json.format.nat? t = some n := by
  have inRange : 0 ≤ (n : Int) ∧ (n : Int) < wordSize := ⟨Int.natCast_nonneg n, Int.ofNat_lt.mpr h.lt⟩
  obtain ⟨numeral, rfl, hv⟩ := h
  have shape : Json.format.shape? (.number numeral) = some (.int n) := by
    simp [Json.format, Json.shape?, hv]
  exact Option.bind_eq_some_iff.mpr ⟨_, shape, if_pos inRange⟩

theorem IsText.text? {s : String} (h : t.IsText s) : Json.format.text? t = some s := by
  obtain ⟨pieces, rfl, hs⟩ := h
  simp [Format.text?, Json.format, Json.shape?, hs]

theorem IsBool.bool? {b : Bool} (h : t.IsBool b) : Json.format.bool? t = some b := by
  cases h
  rfl

theorem Gives.fields? {known : List String} {found : List (Option Tree)} (h : Gives known found t)
    (nodup : known.Nodup) (length : known.length = found.length) :
    Json.format.fields? known t = some found := by
  obtain ⟨fields, others, hf, perm, unknown⟩ := h
  rw [Format.fields?_table hf.shape?, Format.mapM_pick? nodup length perm unknown]

theorem Repeats.fields? {known : List String} (h : t.Repeats known) :
    Json.format.fields? known t = none := by
  obtain ⟨fields, hf, name, hn, hcount⟩ := h
  rw [Format.fields?_table hf.shape?, Format.mapM_repeated hcount hn]

theorem HasFields.forall₂_found {fields : List (String × Tree)} {known : List String}
    {found : List (Option Tree)} (h : t.HasFields fields) (hf : Json.format.fields? known t = some found) :
    List.Forall₂ (fun name part? => Format.pick? name fields = some part?) known found :=
  Format.forall₂_mapM_pick? ((Format.fields?_table h.shape? known).symm.trans hf)

theorem Has.found {known : List String} {found : List (Option Tree)} {name : String} {part : Tree}
    (h : t.Has name part) (hf : Json.format.fields? known t = some found) :
    List.Forall₂ (fun other part? => other = name → part? = some part) known found := by
  obtain ⟨fields, hfields, hm⟩ := h
  refine (hfields.forall₂_found hf).imp ?_
  rintro _ part? hpick rfl
  exact Format.pick?_present hpick hm

theorem Lacks.found {known : List String} {found : List (Option Tree)} {name : String}
    (h : t.Lacks name) (hf : Json.format.fields? known t = some found) :
    List.Forall₂ (fun other part? => other = name → part? = none) known found := by
  obtain ⟨fields, hfields, habsent⟩ := h
  refine (hfields.forall₂_found hf).imp ?_
  rintro _ part? hpick rfl
  exact Format.pick?_absent hpick habsent

end Json.Tree

open Json.Tree

/-! ## What is given -/

structure QueueGiven where
  workers : Option Nat := none
  watermarks : Option Watermarks := none
  stall : Option Bool := none

structure SessionGiven where
  name : Option String := none
  foreground : Option Nat := none
  queue : Option QueueGiven := none

def QueueGiven.over (g : QueueGiven) (c : QueueConfig) : QueueConfig where
  workers := g.workers.getD c.workers
  watermarks := g.watermarks.getD c.watermarks
  stall := g.stall.getD c.stall

def SessionGiven.over (g : SessionGiven) (c : SessionConfig) : SessionConfig where
  name := g.name.getD c.name
  foreground := g.foreground.getD c.foreground
  queue := g.queue.elim c.queue (·.over c.queue)

namespace Watermarks

def fieldNames : List String := ["high", "low"]

def Given (t : Tree) (w : Watermarks) : Prop :=
  ∃ high low, Gives fieldNames [some high, some low] t ∧ high.IsNat w.high ∧ low.IsNat w.low

variable {t : Tree}

theorem Given.decode? {w : Watermarks} (h : Given t w) : decode? Json.format t = some w := by
  obtain ⟨high, low, gives, hhigh, hlow⟩ := h
  have fields : Json.format.fields? ["high", "low"] t = some [some high, some low] :=
    gives.fields? (by decide) rfl
  simp only [Watermarks.decode?, fields, bind, Option.bind_some, hhigh.nat?, hlow.nat?]
  rfl

def Broken (t : Tree) : Prop := (∃ name ∈ fieldNames, t.Lacks name) ∨ t.Repeats fieldNames

theorem decode?_lacks {name : String} (hn : name ∈ fieldNames) (h : t.Lacks name) :
    decode? Json.format t = none := by
  unfold decode?
  cases hf : Json.format.fields? ["high", "low"] t with
  | none => rfl
  | some found =>
    simp only [fieldNames, List.mem_cons, List.not_mem_nil, or_false] at hn
    match found, h.found hf with
    | [high, low], .cons hhigh (.cons hlow .nil) =>
      obtain rfl | rfl := hn
      · rw [hhigh rfl]
        rfl
      · rw [hlow rfl]
        cases high <;> rfl

theorem Broken.decode? (h : Broken t) : decode? Json.format t = none := by
  obtain ⟨name, hn, lacks⟩ | repeats := h
  · exact decode?_lacks hn lacks
  · have fields : Json.format.fields? ["high", "low"] t = none := repeats.fields?
    simp only [Watermarks.decode?, fields]
    rfl

end Watermarks

namespace QueueConfig

def fieldNames : List String := ["worker_count", "watermarks", "stall"]

def Given (t : Tree) (g : QueueGiven) : Prop :=
  ∃ workers watermarks stall, Gives fieldNames [workers, watermarks, stall] t ∧
    Option.Rel IsNat workers g.workers ∧ Option.Rel Watermarks.Given watermarks g.watermarks ∧
    Option.Rel IsBool stall g.stall

variable {t : Tree}

theorem Given.decode? {g : QueueGiven} (h : Given t g) : decode? Json.format t = some (g.over {}) := by
  obtain ⟨workers, watermarks, stall, gives, hworkers, hwatermarks, hstall⟩ := h
  have fields : Json.format.fields? ["worker_count", "watermarks", "stall"] t = _ :=
    gives.fields? (by decide) rfl
  simp only [QueueConfig.decode?, fields, bind, Option.bind_some,
    Format.orDefault_rel hworkers fun _ _ h => h.nat?,
    Format.orDefault_rel hwatermarks fun _ _ h => h.decode?,
    Format.orDefault_rel hstall fun _ _ h => h.bool?]
  rfl

theorem decode?_watermarks {part : Tree} (h : t.Has "watermarks" part)
    (hn : Watermarks.decode? Json.format part = none) : decode? Json.format t = none := by
  unfold decode?
  cases hf : Json.format.fields? ["worker_count", "watermarks", "stall"] t with
  | none => rfl
  | some found =>
    match found, h.found hf with
    | [workers, watermarks, stall], .cons _ (.cons hwatermarks (.cons _ .nil)) =>
      simp only [hwatermarks rfl, bind, Option.bind_some, Format.orDefault, hn, Option.bind_none,
        Option.bind_fun_none]

/-- The tree is an object that has a known field twice, or broken watermarks. -/
def Broken (t : Tree) : Prop :=
  t.Repeats fieldNames ∨ ∃ part, t.Has "watermarks" part ∧ Watermarks.Broken part

theorem Broken.decode? (h : Broken t) : decode? Json.format t = none := by
  obtain repeats | ⟨part, has, broken⟩ := h
  · have fields : Json.format.fields? ["worker_count", "watermarks", "stall"] t = none := repeats.fields?
    simp only [QueueConfig.decode?, fields]
    rfl
  · exact decode?_watermarks has broken.decode?

end QueueConfig

namespace SessionConfig

def fieldNames : List String := ["name", "foreground_connections", "write_back"]

def Given (t : Tree) (g : SessionGiven) : Prop :=
  ∃ name foreground queue, Gives fieldNames [name, foreground, queue] t ∧
    Option.Rel IsText name g.name ∧ Option.Rel IsNat foreground g.foreground ∧
    Option.Rel QueueConfig.Given queue g.queue

variable {t : Tree}

theorem orDefault_queue {queue : Option Tree} {g? : Option QueueGiven}
    (h : Option.Rel QueueConfig.Given queue g?) :
    Format.orDefault {} (QueueConfig.decode? Json.format) queue = some (g?.elim {} (·.over {})) := by
  cases h with
  | some h => exact h.decode?
  | none => rfl

theorem Given.decode? {g : SessionGiven} (h : Given t g) : decode? Json.format t = some (g.over {}) := by
  obtain ⟨name, foreground, queue, gives, hname, hforeground, hqueue⟩ := h
  have fields : Json.format.fields? ["name", "foreground_connections", "write_back"] t = _ :=
    gives.fields? (by decide) rfl
  simp only [SessionConfig.decode?, fields, bind, Option.bind_some,
    Format.orDefault_rel hname fun _ _ h => h.text?,
    Format.orDefault_rel hforeground fun _ _ h => h.nat?, orDefault_queue hqueue]
  rfl

theorem decode?_queue {part : Tree} (h : t.Has "write_back" part)
    (hn : QueueConfig.decode? Json.format part = none) : decode? Json.format t = none := by
  unfold decode?
  cases hf : Json.format.fields? ["name", "foreground_connections", "write_back"] t with
  | none => rfl
  | some found =>
    match found, h.found hf with
    | [name, foreground, queue], .cons _ (.cons _ (.cons hqueue .nil)) =>
      simp only [hqueue rfl, bind, Option.bind_some, Format.orDefault, hn, Option.bind_none,
        Option.bind_fun_none]

def Broken (t : Tree) : Prop :=
  t.Repeats fieldNames ∨ ∃ part, t.Has "write_back" part ∧ QueueConfig.Broken part

theorem Broken.decode? (h : Broken t) : decode? Json.format t = none := by
  obtain repeats | ⟨part, has, broken⟩ := h
  · have fields : Json.format.fields? ["name", "foreground_connections", "write_back"] t = none :=
      repeats.fields?
    simp only [SessionConfig.decode?, fields]
    rfl
  · exact decode?_queue has broken.decode?

end SessionConfig

/-! ## Documents of configurations -/

namespace Json.Value

theorem hasFields_object (ms : List (String × Value)) :
    (object ms).tree.HasFields (ms.map fun m => (m.1, m.2.tree)) := by
  refine ⟨_, rfl, ?_⟩
  rw [treeMembers_eq_map]
  induction ms with
  | nil => exact .nil
  | cons m ms ih => exact .cons ⟨Piece.string?_written m.1, rfl⟩ ih

theorem gives_object {known : List String} {found : List (Option Tree)} {ms : List (String × Value)}
    (h : (ms.map fun m => (m.1, m.2.tree)) = Format.given known found) :
    Gives known found (object ms).tree := by
  refine ⟨_, [], hasFields_object ms, ?_, List.forall_mem_nil _⟩
  rw [h, List.append_nil]

theorem isNat_nat {n : Nat} (h : n < wordSize) : (Value.nat n).tree.IsNat n := by
  refine ⟨_, rfl, Numeral.value?_ofInt ⟨?_, Int.ofNat_lt.mpr h⟩⟩
  exact Int.le_trans (by decide) (Int.natCast_nonneg n)

theorem isText_string (s : String) : (Value.string s).tree.IsText s := ⟨_, rfl, Piece.string?_written s⟩

theorem isBool_bool (b : Bool) : (Value.bool b).tree.IsBool b := rfl

end Json.Value

open Json (Value)

structure SessionConfig.InWords (c : SessionConfig) : Prop where
  foreground : c.foreground < wordSize
  workers : c.queue.workers < wordSize
  high : c.queue.watermarks.high < wordSize
  low : c.queue.watermarks.low < wordSize

instance (c : SessionConfig) : Decidable c.InWords :=
  decidable_of_iff (c.foreground < wordSize ∧ c.queue.workers < wordSize ∧
      c.queue.watermarks.high < wordSize ∧ c.queue.watermarks.low < wordSize)
    ⟨fun ⟨a, b, c, d⟩ => ⟨a, b, c, d⟩, fun ⟨a, b, c, d⟩ => ⟨a, b, c, d⟩⟩

theorem Watermarks.given_toJson {w : Watermarks} (high : w.high < wordSize) (low : w.low < wordSize) :
    Given w.toJson.tree w :=
  ⟨_, _, Value.gives_object rfl, Value.isNat_nat high, Value.isNat_nat low⟩

theorem QueueConfig.given_toJson {c : QueueConfig} (workers : c.workers < wordSize)
    (high : c.watermarks.high < wordSize) (low : c.watermarks.low < wordSize) :
    Given c.toJson.tree ⟨c.workers, c.watermarks, c.stall⟩ :=
  ⟨_, _, _, Value.gives_object rfl, .some (Value.isNat_nat workers),
    .some (Watermarks.given_toJson high low), .some (Value.isBool_bool c.stall)⟩

theorem SessionConfig.given_toJson {c : SessionConfig} (h : c.InWords) :
    Given c.toJson.tree ⟨c.name, c.foreground, some ⟨c.queue.workers, c.queue.watermarks, c.queue.stall⟩⟩ :=
  ⟨_, _, _, Value.gives_object rfl, .some (Value.isText_string c.name), .some (Value.isNat_nat h.foreground),
    .some (QueueConfig.given_toJson h.workers h.high h.low)⟩

/-! ## Texts -/

theorem Json.decode?_of_tree {β : Type} {text : String} {t : Tree} (h : Tree.ofString? text = some t)
    (decode : Tree → Option β) : Json.decode? decode text = decode t := by
  simp [Json.decode?, h]

def Watermarks.ofJson? (text : String) : Option Watermarks := Json.decode? (decode? Json.format) text

def QueueConfig.ofJson? (text : String) : Option QueueConfig := Json.decode? (decode? Json.format) text

def SessionConfig.ofJson? (text : String) : Option SessionConfig := Json.decode? (decode? Json.format) text

/-- **Configurations are read over the defaults.** Every configuration, valid or not, reads back from its
document. An object that gives some of the fields, on both levels, is read as the defaults with these fields
replaced, in whatever order they stand and whatever unknown fields stand among them. Nothing that is left out is
missed but one of two watermarks, and no known field may come twice, on any level. -/
theorem SessionConfig.read_over_defaults :
    (∀ c : SessionConfig, c.InWords → ofJson? c.toJson.text = some c) ∧
    (∀ text t, Tree.ofString? text = some t →
      (∀ g, Given t g → ofJson? text = some (g.over {})) ∧ (Broken t → ofJson? text = none)) ∧
    (∀ text t, Tree.ofString? text = some t →
      (∀ g, QueueConfig.Given t g → QueueConfig.ofJson? text = some (g.over {})) ∧
      (QueueConfig.Broken t → QueueConfig.ofJson? text = none)) ∧
    ∀ text t, Tree.ofString? text = some t →
      (∀ w, Watermarks.Given t w → Watermarks.ofJson? text = some w) ∧
      (Watermarks.Broken t → Watermarks.ofJson? text = none) := by
  refine ⟨fun c h => ?_, fun text t ht => ?_, fun text t ht => ?_, fun text t ht => ?_⟩
  · rw [ofJson?, Json.decode?_of_tree c.toJson.ofString?_text, (given_toJson h).decode?]
    rfl
  all_goals
    constructor
  · intro g given
    rw [ofJson?, Json.decode?_of_tree ht, given.decode?]
  · intro broken
    rw [ofJson?, Json.decode?_of_tree ht, broken.decode?]
  · intro g given
    rw [QueueConfig.ofJson?, Json.decode?_of_tree ht, given.decode?]
  · intro broken
    rw [QueueConfig.ofJson?, Json.decode?_of_tree ht, broken.decode?]
  · intro w given
    rw [Watermarks.ofJson?, Json.decode?_of_tree ht, given.decode?]
  · intro broken
    rw [Watermarks.ofJson?, Json.decode?_of_tree ht, broken.decode?]

def sparse : String :=
  "\x7b\"x\":[\x7b\"high\":1e999\x7d]," ++
  " \"write_back\":\x7b\"stall\":false,\"worker_count\":2\x7d,\"n\\u0061me\":\"bench\"\x7d"

def lopsided : String := "\x7b\"write_back\":\x7b\"watermarks\":\x7b\"low\":5\x7d\x7d\x7d"

set_option maxRecDepth 4000 in
theorem SessionConfig.given_sparse : ∃ t, Tree.ofString? sparse = some t ∧
    Given t { name := "bench", queue := some { workers := some 2, stall := some false } } := by
  unfold sparse Tree.ofString?
  simp only [String.reduceToList, String.reduceAppend]
  refine ⟨_, rfl, some _, none, some _, ⟨[("x", _), ("write_back", _), ("name", _)], [("x", _)],
    ⟨_, rfl, .cons ⟨rfl, rfl⟩ (.cons ⟨rfl, rfl⟩ (.cons ⟨rfl, rfl⟩ .nil))⟩,
    List.reverse_perm [("name", _), ("write_back", _), ("x", _)], by simp [fieldNames]⟩,
    .some ⟨_, rfl, rfl⟩, .none, .some ?_⟩
  exact ⟨some _, none, some _, ⟨[("stall", _), ("worker_count", _)], [],
    ⟨_, rfl, .cons ⟨rfl, rfl⟩ (.cons ⟨rfl, rfl⟩ .nil)⟩,
    List.reverse_perm [("worker_count", _), ("stall", _)], by simp⟩,
    .some ⟨_, rfl, rfl⟩, .none, .some rfl⟩

set_option maxRecDepth 4000 in
theorem SessionConfig.broken_lopsided : ∃ t, Tree.ofString? lopsided = some t ∧ Broken t := by
  unfold lopsided Tree.ofString?
  simp only [String.reduceToList]
  refine ⟨_, rfl,
    .inr ⟨_, ⟨[("write_back", _)], ⟨_, rfl, .cons ⟨rfl, rfl⟩ .nil⟩, List.mem_singleton.mpr rfl⟩,
    .inr ⟨_, ⟨[("watermarks", _)], ⟨_, rfl, .cons ⟨rfl, rfl⟩ .nil⟩, List.mem_singleton.mpr rfl⟩,
    .inl ?_⟩⟩⟩
  exact ⟨"high", by decide, [("low", _)], ⟨_, rfl, .cons ⟨rfl, rfl⟩ .nil⟩, by simp⟩

theorem SessionConfig.read_over_defaults_sparse :
    SessionConfig.ofJson? sparse = some { name := "bench", queue := { workers := 2, stall := false } } ∧
    SessionConfig.ofJson? lopsided = none ∧
    SessionConfig.ofJson? (toJson { name := "\"", queue := { workers := 0 } }).text =
      some { name := "\"", queue := { workers := 0 } } := by
  obtain ⟨back, given, _⟩ := read_over_defaults
  obtain ⟨t, ht, hgiven⟩ := given_sparse
  obtain ⟨u, hu, hbroken⟩ := broken_lopsided
  exact ⟨(given _ t ht).1 _ hgiven, (given _ u hu).2 hbroken, back _ (by decide)⟩

end WriteBehind
