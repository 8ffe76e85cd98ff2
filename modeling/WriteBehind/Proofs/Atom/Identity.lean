import Mathlib.Data.List.Basic
import Mathlib.Tactic.Ring
import WriteBehind.Atom.Document

/-!
# Identities in documents

An identity reads back from its text, and the document of an atom starts with that text, so the
documents of different atoms differ.
-/

namespace WriteBehind

namespace AtomId

/-! ## Digits -/

theorem hexValue?_hexDigit {d : Nat} (h : d < 16) : Json.hexValue? (Json.hexDigit d) = some d := by
  have : ∀ d < 16, Json.hexValue? (Json.hexDigit d) = some d := by decide
  exact this d h

theorem escape_hexDigit {d : Nat} (h : d < 16) : Json.escape (Json.hexDigit d) = [Json.hexDigit d] := by
  have : ∀ d < 16, Json.escape (Json.hexDigit d) = [Json.hexDigit d] := by decide
  exact this d h

/-- The last so many hexadecimal digits of a number. -/
def lastDigits (n k : Nat) : List Char :=
  (List.range k).map fun i => Json.hexDigit (n / 16 ^ (k - 1 - i) % 16)

theorem lastDigits_succ (n k : Nat) :
    lastDigits n (k + 1) = Json.hexDigit (n / 16 ^ k % 16) :: lastDigits n k := by
  unfold lastDigits
  rw [List.range_succ_eq_map, List.map_cons, List.map_map]
  congr 1
  refine List.map_congr_left fun i hi => ?_
  have hlt := List.mem_range.mp hi
  have heq : k + 1 - 1 - (i + 1) = k - 1 - i := by omega
  simp only [Function.comp, heq]

theorem hexNumber?_lastDigits (n k acc : Nat) :
    hexNumber? acc (lastDigits n k) = some (acc * 16 ^ k + n % 16 ^ k) := by
  induction k generalizing acc with
  | zero => simp [lastDigits, hexNumber?, Nat.mod_one]
  | succ k ih =>
    have hsplit : n % 16 ^ (k + 1) = n % 16 ^ k + 16 ^ k * (n / 16 ^ k % 16) := Nat.mod_pow_succ
    rw [lastDigits_succ]
    simp only [hexNumber?, bind, hexValue?_hexDigit (Nat.mod_lt _ (by decide)), Option.bind_some, ih, hsplit]
    congr 1
    ring

theorem digits_eq (id : AtomId) : id.digits = lastDigits id.bits.toNat 32 := rfl

theorem digits_length (id : AtomId) : id.digits.length = 32 := by
  simp [digits]

theorem ofDigits?_digits (id : AtomId) : ofDigits? id.digits = some id := by
  have hlt : id.bits.toNat < 16 ^ 32 := id.bits.isLt
  unfold ofDigits?
  rw [if_pos id.digits_length, digits_eq, hexNumber?_lastDigits, Nat.mod_eq_of_lt hlt]
  simp

/-! ## Text -/

theorem unhyphenate_hyphenate (ns : List Nat) (cs : List Char) (h : ns.sum ≤ cs.length) :
    unhyphenate ns (hyphenate ns cs) = some cs := by
  induction ns generalizing cs with
  | nil => rfl
  | cons n ns ih =>
    rw [List.sum_cons] at h
    have htake : (cs.take n).length = n := by
      rw [List.length_take]
      omega
    have hrest := ih (cs.drop n) (by rw [List.length_drop]; omega)
    simp only [hyphenate, unhyphenate]
    rw [List.drop_left' htake]
    simp only [hrest, Option.map_some, List.take_left' htake, List.take_append_drop]

theorem hyphenate_length (ns : List Nat) (cs : List Char) (h : ns.sum ≤ cs.length) :
    (hyphenate ns cs).length = cs.length + ns.length := by
  induction ns generalizing cs with
  | nil => rfl
  | cons n ns ih =>
    rw [List.sum_cons] at h
    have hrest := ih (cs.drop n) (by rw [List.length_drop]; omega)
    simp only [hyphenate, List.length_append, List.length_cons, hrest, List.length_take, List.length_drop]
    omega

theorem chars_length (id : AtomId) : id.chars.length = 36 := by
  unfold chars
  rw [hyphenate_length _ _ (by rw [digits_length]; decide), digits_length]
  rfl

theorem ofString?_text (id : AtomId) : ofString? id.text = some id := by
  have hback : unhyphenate [8, 4, 4, 4] id.chars = some id.digits :=
    unhyphenate_hyphenate _ _ (by rw [digits_length]; decide)
  unfold ofString? text ofChars?
  simp only [String.toList_ofList, chars_length]
  simp [ofHyphenated?, hback, ofDigits?_digits]

theorem chars_injective {a b : AtomId} (h : a.chars = b.chars) : a = b := by
  have hb := ofString?_text b
  rw [text, ← h] at hb
  exact Option.some.inj ((ofString?_text a).symm.trans hb)

theorem mem_hyphenate {c : Char} {ns : List Nat} {cs : List Char} (h : c ∈ hyphenate ns cs) :
    c = '-' ∨ c ∈ cs := by
  induction ns generalizing cs with
  | nil => exact .inr h
  | cons n ns ih =>
    simp only [hyphenate, List.mem_append, List.mem_cons] at h
    rcases h with h | h | h
    · exact .inr (List.mem_of_mem_take h)
    · exact .inl h
    · exact (ih h).imp id List.mem_of_mem_drop

theorem escape_chars (id : AtomId) : id.chars.flatMap Json.escape = id.chars := by
  have hc : ∀ c ∈ id.chars, Json.escape c = [c] := by
    intro c hm
    rcases mem_hyphenate hm with rfl | hm
    · decide
    · obtain ⟨i, _, rfl⟩ := List.mem_map.mp hm
      exact escape_hexDigit (Nat.mod_lt _ (by decide))
  rw [List.flatMap_congr hc, List.flatMap_singleton']

theorem quote_text (id : AtomId) : Json.quote id.text = '"' :: (id.chars ++ ['"']) := by
  unfold Json.quote text
  rw [String.toList_ofList, escape_chars]

end AtomId

/-! ## Documents -/

namespace Atom

theorem document_starts (a : Atom) : ∃ rest,
    a.document.toList = "\x7b\"id\":\"".toList ++ (a.id.chars ++ rest) := by
  obtain ⟨members, hm⟩ : ∃ members,
      a.toJson = .object (("id", a.id.toJson) :: ("type", .string a.type) :: members) := ⟨_, rfl⟩
  refine ⟨'"' :: ',' :: (Json.Value.encodeMembers (("type", .string a.type) :: members) ++ ['\x7d']), ?_⟩
  unfold document Json.Value.text
  rw [hm, String.toList_ofList]
  simp only [List.cons_append, Json.Value.encode, Json.Value.encodeMembers, AtomId.toJson, AtomId.quote_text]
  rfl

/-- The document of an atom tells whose it is. -/
theorem id_eq_of_document {a b : Atom} (h : a.document = b.document) : a.id = b.id := by
  obtain ⟨ra, ha⟩ := a.document_starts
  obtain ⟨rb, hb⟩ := b.document_starts
  rw [h, hb] at ha
  have hids := List.append_cancel_left ha
  have hlen : b.id.chars.length = a.id.chars.length := by
    rw [AtomId.chars_length, AtomId.chars_length]
  exact AtomId.chars_injective (List.append_inj_left hids hlen).symm

end Atom

end WriteBehind
