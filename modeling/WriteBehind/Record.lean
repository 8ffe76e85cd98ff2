import WriteBehind.Word

/-!
# Decoding records

A record is read the same way from every data format. It is given as a table, where fields may come
in any order, unknown ones are skipped and a known one may not come twice; or as a list of its fields
in the order of declaration, where fields may be left off the end. What a format has to offer for
this is a view of its parts, a `Shape`.
-/

namespace WriteBehind

/-- A part of a text of some data format, seen from outside. -/
inductive Shape (α : Type) where
  | null
  | bool (value : Bool)
  | int (value : Int)
  | real
  | text (value : String)
  | list (elements : List α)
  | table (fields : List (String × α))

structure Format (α : Type) where
  shape? : α → Option (Shape α)
  surplus : Bool

namespace Format

variable {α β : Type}

def pick? (name : String) (fields : List (String × α)) : Option (Option α) :=
  match fields.filter fun f => decide (f.1 = name) with
  | [] => some none
  | [f] => some (some f.2)
  | _ => none

def fields? (f : Format α) (names : List String) (part : α) : Option (List (Option α)) := do
  match ← f.shape? part with
  | .table fields => names.mapM (pick? · fields)
  | .list elements =>
    if elements.length ≤ names.length || f.surplus then
      return (elements.take names.length).map some ++
        List.replicate (names.length - elements.length) none
    else
      none
  | _ => none

def nat? (f : Format α) (part : α) : Option Nat := do
  match ← f.shape? part with
  | .int value => if 0 ≤ value ∧ value < wordSize then return value.toNat else none
  | _ => none

def bool? (f : Format α) (part : α) : Option Bool := do
  match ← f.shape? part with
  | .bool value => return value
  | _ => none

def text? (f : Format α) (part : α) : Option String := do
  match ← f.shape? part with
  | .text value => return value
  | _ => none

def list? (f : Format α) (decode : α → Option β) (part : α) : Option (List β) := do
  match ← f.shape? part with
  | .list elements => elements.mapM decode
  | _ => none

def nullable? (f : Format α) (decode : α → Option β) (part : α) : Option (Option β) := do
  match ← f.shape? part with
  | .null => return none
  | _ => return some (← decode part)

def orDefault (default : β) (decode : α → Option β) : Option α → Option β
  | none => some default
  | some part => decode part

end Format

end WriteBehind
