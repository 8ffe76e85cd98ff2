import Std.Data.TreeMap
import WriteBehind.Json.Text

/-!
# Atom identities

An identity is 128 bits, written as 32 hexadecimal digits in groups of 8, 4, 4, 4 and 12. Digits of
either case are read; the groups may be joined, the hyphenated form may stand in braces or follow
`urn:uuid:`.
-/

namespace WriteBehind

structure AtomId where
  bits : BitVec 128
  deriving DecidableEq, Repr

namespace AtomId

instance : Inhabited AtomId := ⟨⟨0⟩⟩

instance : Ord AtomId := ⟨compareOn fun id => id.bits.toNat⟩

instance : Std.TransOrd AtomId :=
  inferInstanceAs (Std.TransCmp (compareOn fun id : AtomId => id.bits.toNat))

theorem compare_def (a b : AtomId) : compare a b = compare a.bits.toNat b.bits.toNat := rfl

instance : Std.LawfulEqOrd AtomId where
  compare_self {a} := by rw [compare_def]; exact Std.ReflCmp.compare_self
  eq_of_compare {a b} h := by
    rw [compare_def] at h
    have h := BitVec.eq_of_toNat_eq (Std.LawfulEqCmp.eq_of_compare h)
    cases a; cases b; exact congrArg mk h

def digits (id : AtomId) : List Char :=
  (List.range 32).map fun i => Json.hexDigit (id.bits.toNat / Nat.pow 16 (31 - i) % 16)

def hyphenate : List Nat → List Char → List Char
  | [], cs => cs
  | n :: ns, cs => cs.take n ++ '-' :: hyphenate ns (cs.drop n)

def chars (id : AtomId) : List Char := hyphenate [8, 4, 4, 4] id.digits

def text (id : AtomId) : String := String.ofList id.chars

def hexNumber? : Nat → List Char → Option Nat
  | acc, [] => some acc
  | acc, c :: cs => do
    let d ← Json.hexValue? c
    hexNumber? (acc * 16 + d) cs

def ofDigits? (cs : List Char) : Option AtomId := do
  if cs.length = 32 then
    let n ← hexNumber? 0 cs
    return ⟨BitVec.ofNat 128 n⟩
  else
    none

def unhyphenate : List Nat → List Char → Option (List Char)
  | [], cs => some cs
  | n :: ns, cs =>
    match cs.drop n with
    | '-' :: rest => (unhyphenate ns rest).map (cs.take n ++ ·)
    | _ => none

def ofHyphenated? (cs : List Char) : Option AtomId := do
  let digits ← unhyphenate [8, 4, 4, 4] cs
  ofDigits? digits

def afterStart? : List Char → List Char → Option (List Char)
  | [], cs => some cs
  | s :: ss, c :: cs => if c.toLower = s then afterStart? ss cs else none
  | _ :: _, [] => none

def ofChars? (cs : List Char) : Option AtomId :=
  if cs.length = 32 then
    ofDigits? cs
  else if cs.length = 36 then
    ofHyphenated? cs
  else if cs.length = 38 then
    if cs.head? = some '\x7b' ∧ cs.getLast? = some '\x7d' then
      ofHyphenated? (cs.drop 1).dropLast
    else
      none
  else if cs.length = 45 then
    (afterStart? "urn:uuid:".toList cs).bind ofHyphenated?
  else
    none

def ofString? (s : String) : Option AtomId := ofChars? s.toList

end AtomId

end WriteBehind
