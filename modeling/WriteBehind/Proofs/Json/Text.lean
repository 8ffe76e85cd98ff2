import WriteBehind.Json.Text

/-!
# Literals read back

A string reads back from its literal, whatever its characters are. A control character without a short
form comes back as a 16-bit unit, and no such unit is half of a pair.
-/

namespace WriteBehind.Json

namespace Piece

/-- The piece as which a character comes back from the literal it was written to. -/
def written (c : Char) : Piece :=
  if c < ' ' ∧ c ∉ ['\x08', '\x0c', '\n', '\r', '\t'] then .unit c.toNat else .char c

theorem control_lt {c : Char} (h : c < ' ') : c.toNat < 32 := h

theorem chars?_unit {n : Nat} (h : n < 32) (rest : List Piece) :
    chars? (.unit n :: rest) = (chars? rest).map (Char.ofNat n :: ·) := by
  have high : isHighSurrogate n = false := decide_eq_false (by omega)
  have low : isLowSurrogate n = false := decide_eq_false (by omega)
  match rest with
  | [] => simp [chars?, high, low]
  | .char c :: rest => simp [chars?, high, low]
  | .unit m :: rest => simp [chars?, high, low]

theorem chars?_written (c : Char) (rest : List Piece) :
    chars? (written c :: rest) = (chars? rest).map (c :: ·) := by
  unfold written
  split
  case isTrue h => rw [chars?_unit (control_lt h.1), Char.ofNat_toNat]
  case isFalse => rfl

theorem chars?_map_written (cs : List Char) : chars? (cs.map written) = some cs := by
  induction cs with
  | nil => rfl
  | cons c cs ih => rw [List.map_cons, chars?_written, ih, Option.map_some]

theorem string?_written (s : String) : string? (s.toList.map written) = some s := by
  rw [string?, chars?_map_written, Option.map_some, String.ofList_toList]

end Piece

theorem unit?_control {n : Nat} (h : n < 32) :
    unit? '0' '0' (hexDigit (n / 16)) (hexDigit (n % 16)) = some n := by
  have : ∀ n < 32, unit? '0' '0' (hexDigit (n / 16)) (hexDigit (n % 16)) = some n := by decide
  exact this n h

theorem scanString_escape (c : Char) {rest rest' : List Char} {pieces : List Piece}
    (h : scanString rest = some (pieces, rest')) :
    scanString (escape c ++ rest) = some (Piece.written c :: pieces, rest') := by
  unfold escape
  split
  case h_8 quote backslash b f n r t =>
    split
    case isTrue control =>
      have long : Piece.written c = .unit c.toNat := if_pos ⟨control, by simpa using ⟨b, f, n, r, t⟩⟩
      simp [scanString, unit?_control (Piece.control_lt control), h, long]
    case isFalse plain =>
      have short : Piece.written c = .char c := if_neg fun long => plain long.1
      rw [short, List.singleton_append, scanString, if_neg plain, h]
      · rfl
      · exact quote
      · exact fun _ _ _ _ _ hc _ => backslash hc
      · exact fun _ _ hc _ => backslash hc
  all_goals simp [scanString, escaped?, Piece.written, h]

theorem scanString_literal (s : String) (rest : List Char) :
    scanString (s.toList.flatMap escape ++ '"' :: rest) = some (s.toList.map Piece.written, rest) := by
  induction s.toList with
  | nil => rfl
  | cons c cs ih =>
    rw [List.flatMap_cons, List.append_assoc, List.map_cons]
    exact scanString_escape c ih

end WriteBehind.Json
