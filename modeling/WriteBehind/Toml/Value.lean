import WriteBehind.Record
import WriteBehind.Toml.Scalar

/-!
# TOML: values and tables

A table remembers how it came about, because that decides what may still be added to it: a table with
a header of its own can be opened once, one that is only part of a longer header can still get its
header, one made by a dotted key can only be extended by dotted keys, and one written in line is
complete.
-/

namespace WriteBehind.Toml

inductive Origin where
  | header
  | path
  | dotted
  | inline
  deriving DecidableEq, Repr

inductive Value where
  | scalar (value : Scalar)
  | array (elements : List Value)
  | table (origin : Origin) (fields : List (String × Value))
  | tables (elements : List (List (String × Value)))

abbrev Table := List (String × Value)

namespace Table

def get? (key : String) (t : Table) : Option Value :=
  (t.find? fun f => decide (f.1 = key)).map (·.2)

def set (key : String) (value : Value) : Table → Table
  | [] => [(key, value)]
  | (k, v) :: rest => if k = key then (key, value) :: rest else (k, v) :: set key value rest

def add? (key : String) (value : Value) (t : Table) : Option Table :=
  match t.get? key with
  | none => some (t.set key value)
  | some _ => none

/-- Changes the table at the end of a path and makes the tables of the path that are missing. The
path of a dotted key does not lead through tables that have a header. An array of tables stands for
its last element. -/
def change? (dotted : Bool) (action : Origin → Table → Option Table) :
    List String → Origin → Table → Option Table
  | [], origin, t => action origin t
  | key :: path, _, t =>
    match t.get? key with
    | none => do
      let origin := if dotted then Origin.dotted else Origin.path
      let inner ← change? dotted action path origin []
      return t.set key (.table origin inner)
    | some (.table origin inner) =>
      if origin = .inline ∨ (dotted ∧ origin = .header) then none
      else do
        let inner ← change? dotted action path origin inner
        return t.set key (.table origin inner)
    | some (.tables elements) => do
      let last ← elements.getLast?
      let last ← change? dotted action path .header last
      return t.set key (.tables (elements.dropLast ++ [last]))
    | some _ => none

/-- Adds a field under a key that may be dotted. Only the table at hand and tables made by dotted keys
take fields this way. -/
def assign? (path : List String) (key : String) (value : Value) (t : Table) : Option Table :=
  change? true
    (fun origin t => if path.isEmpty || origin == .dotted then t.add? key value else none) path .header t

def openTable? (path : List String) (key : String) (t : Table) : Option Table :=
  change? false
    (fun _ t =>
      match t.get? key with
      | none => some (t.set key (.table .header []))
      | some (.table .path fields) => some (t.set key (.table .header fields))
      | some _ => none)
    path .header t

def openElement? (path : List String) (key : String) (t : Table) : Option Table :=
  change? false
    (fun _ t =>
      match t.get? key with
      | none => some (t.set key (.tables [[]]))
      | some (.tables elements) => some (t.set key (.tables (elements ++ [[]])))
      | some _ => none)
    path .header t

/-- Adds a field below the table that was opened last, which is at the end of `path`. -/
def assignBelow? (opened : List String) (path : List String) (key : String) (value : Value)
    (t : Table) : Option Table :=
  change? false (fun _ t => t.assign? path key value) opened .header t

end Table

namespace Value

/-- The shape of a value. A date is a table without known fields. -/
def shape? : Value → Option (Shape Value)
  | .scalar (.string s) => some (.text s)
  | .scalar (.int n) => some (.int n)
  | .scalar .real => some .real
  | .scalar (.bool b) => some (.bool b)
  | .scalar .moment => some (.table [])
  | .array elements => some (.list elements)
  | .table _ fields => some (.table fields)
  | .tables elements => some (.list (elements.map (.table .header)))

end Value

/-- TOML: elements of a list that are left over are ignored. -/
def format : Format Value := { shape? := Value.shape?, surplus := true }

end WriteBehind.Toml
