import Mathlib.Data.Nat.Digits.Defs
import WriteBehind.Json.Tree

/-!
# Numerals read back

A whole number of 64 bits, signed or unsigned, reads back from its digits. They never start with a zero
in vain, and the reader takes all of them as long as what follows does not go on with the number.
-/

namespace WriteBehind.Json

/-! ## Digits -/

theorem isDigit_of_mem {n : Nat} : ∀ c ∈ Nat.toDigits 10 n, c.isDigit = true :=
  fun _ h => Nat.isDigit_of_mem_toDigits (by decide) (by decide) h

theorem toDigits_starts (n : Nat) : ∃ c cs, Nat.toDigits 10 n = c :: cs ∧ c.isDigit = true := by
  obtain ⟨c, cs, h⟩ := List.exists_cons_of_ne_nil (Nat.toDigits_ne_nil (n := n) (b := 10))
  exact ⟨c, cs, h, isDigit_of_mem (n := n) c (h ▸ List.mem_cons_self)⟩

theorem toDigits_head_zero {n : Nat} {cs : List Char} (h : Nat.toDigits 10 n = '0' :: cs) : n = 0 := by
  induction n using Nat.strong_induction_on generalizing cs with
  | _ n ih =>
    rcases Nat.lt_or_ge n 10 with small | large
    · rw [Nat.toDigits_of_lt_base small] at h
      exact Nat.digitChar_eq_zero.mp (List.cons.inj h).1
    · -- The first digit of `n` is the first one of `n / 10`, which is not zero.
      rw [Nat.toDigits_of_base_le (by decide) large] at h
      obtain ⟨front, hfront⟩ : ∃ front, Nat.toDigits 10 (n / 10) = '0' :: front := by
        rcases List.append_eq_cons_iff.mp h with ⟨hnil, -⟩ | ⟨front, hfront, -⟩
        · exact absurd hnil Nat.toDigits_ne_nil
        · exact ⟨front, hfront⟩
      have hzero := ih (n / 10) (by omega) hfront
      omega

theorem toDigits_ne_zero_cons (n : Nat) (c : Char) (cs : List Char) :
    Nat.toDigits 10 n ≠ '0' :: c :: cs := by
  intro h
  have hzero := toDigits_head_zero h
  subst hzero
  exact absurd (congrArg List.length h) (by simp [Nat.toDigits_of_lt_base])

/-! ## Numerals -/

def Stops (rest : List Char) : Prop :=
  ∀ c ∈ rest.head?, c.isDigit = false ∧ c ≠ '.' ∧ c ≠ 'e' ∧ c ≠ 'E'

namespace Numeral

def power : Option (Bool × List Char) → List Char
  | none => []
  | some (negative, digits) => 'e' :: (if negative then '-' else '+') :: digits

def unsigned (n : Numeral) : List Char :=
  n.whole ++ ((if n.fraction = [] then [] else '.' :: n.fraction) ++ power n.exponent)

def written (n : Numeral) : List Char := (if n.negative then ['-'] else []) ++ n.unsigned

structure Proper (n : Numeral) : Prop where
  some_whole : n.whole ≠ []
  whole : ∀ c ∈ n.whole, c.isDigit = true
  start : ∀ c cs, n.whole ≠ '0' :: c :: cs
  fraction : ∀ c ∈ n.fraction, c.isDigit = true
  exponent : ∀ e ∈ n.exponent, e.2 ≠ [] ∧ ∀ c ∈ e.2, c.isDigit = true

theorem Proper.unsigned_starts {n : Numeral} (h : n.Proper) :
    ∃ c cs, n.unsigned = c :: cs ∧ c.isDigit = true := by
  obtain ⟨c, cs, hc⟩ := List.exists_cons_of_ne_nil h.some_whole
  exact ⟨c, _, by rw [unsigned, hc]; rfl, h.whole c (by rw [hc]; exact List.mem_cons_self)⟩

def ofInt (n : Int) : Numeral where
  negative := decide (n < 0)
  whole := Nat.toDigits 10 n.natAbs
  fraction := []
  exponent := none

theorem proper_ofInt (n : Int) : (ofInt n).Proper where
  some_whole := Nat.toDigits_ne_nil
  whole := isDigit_of_mem
  start := toDigits_ne_zero_cons _
  fraction := List.forall_mem_nil _
  exponent := fun _ h => nomatch h

end Numeral

namespace Number

/-- Whole numbers that fit 64 bits, signed or unsigned; any binary64 number. -/
def InRange : Number → Prop
  | int n => -(wordSize / 2 : Int) ≤ n ∧ n < wordSize
  | real _ => True

instance : (n : Number) → Decidable n.InRange
  | int n => inferInstanceAs (Decidable (-(wordSize / 2 : Int) ≤ n ∧ n < wordSize))
  | real _ => inferInstanceAs (Decidable True)

theorem text_int (n : Int) : (int n).text.toList = (Numeral.ofInt n).written := by
  have hwritten : (Numeral.ofInt n).written =
      (if n < 0 then ['-'] else []) ++ Nat.toDigits 10 n.natAbs := by
    simp [Numeral.written, Numeral.unsigned, Numeral.ofInt, Numeral.power]
  rw [hwritten]
  show (toString n).toList = _
  cases n with
  | ofNat n =>
    show (toString n).toList = _
    simp
  | negSucc n =>
    show ("-" ++ (n + 1).repr).toList = _
    simp [Nat.repr_eq_ofList_toDigits, Int.negSucc_lt_zero]

end Number

namespace Tree

variable {rest : List Char}

theorem spanDigits_append {digits : List Char} (h : ∀ c ∈ digits, c.isDigit = true)
    (stops : ∀ c ∈ rest.head?, c.isDigit = false) : spanDigits (digits ++ rest) = (digits, rest) := by
  unfold spanDigits
  rw [List.takeWhile_append_of_pos h, List.dropWhile_append_of_pos h]
  match rest, stops with
  | [], _ => simp
  | c :: rest, stops => simp [stops c rfl]

theorem scanWhole_append {digits : List Char} (hne : digits ≠ []) (h : ∀ c ∈ digits, c.isDigit = true)
    (start : ∀ c cs, digits ≠ '0' :: c :: cs) (stops : ∀ c ∈ rest.head?, c.isDigit = false) :
    scanWhole (digits ++ rest) = some (digits, rest) := by
  unfold scanWhole
  rw [spanDigits_append h stops]
  split
  case h_1 heq => exact absurd (Prod.mk.inj heq).1 hne
  case h_2 heq => exact absurd (Prod.mk.inj heq).1 (start _ _)
  case h_3 => rfl

theorem scanFraction_append {digits : List Char} (hne : digits ≠ []) (h : ∀ c ∈ digits, c.isDigit = true)
    (stops : ∀ c ∈ rest.head?, c.isDigit = false) :
    scanFraction ('.' :: (digits ++ rest)) = some (digits, rest) := by
  simp only [scanFraction, spanDigits_append h stops]
  split
  case h_1 heq => exact absurd (Prod.mk.inj heq).1 hne
  case h_2 => rfl

theorem scanFraction_stops (stops : ∀ c ∈ rest.head?, c ≠ '.') : scanFraction rest = some ([], rest) := by
  match rest, stops with
  | [], _ => rfl
  | c :: rest, stops =>
    unfold scanFraction
    split
    case h_1 h => exact absurd (List.cons.inj h).1 (stops c rfl)
    case h_2 => rfl

theorem scanExponentDigits_append (negative : Bool) {digits : List Char} (hne : digits ≠ [])
    (h : ∀ c ∈ digits, c.isDigit = true) (stops : ∀ c ∈ rest.head?, c.isDigit = false) :
    scanExponentDigits negative (digits ++ rest) = some (some (negative, digits), rest) := by
  unfold scanExponentDigits
  rw [spanDigits_append h stops]
  split
  case h_1 heq => exact absurd (Prod.mk.inj heq).1 hne
  case h_2 heq => rw [(Prod.mk.inj heq).1, (Prod.mk.inj heq).2]

theorem scanExponent_stops (stops : Stops rest) : scanExponent rest = some (none, rest) := by
  match rest, stops with
  | [], _ => rfl
  | c :: rest, stops =>
    unfold scanExponent
    exact if_neg (not_or.mpr (stops c rfl).2.2)

theorem scanExponent_power {exponent : Option (Bool × List Char)}
    (h : ∀ e ∈ exponent, e.2 ≠ [] ∧ ∀ c ∈ e.2, c.isDigit = true) (stops : Stops rest) :
    scanExponent (Numeral.power exponent ++ rest) = some (exponent, rest) := by
  match exponent, h with
  | none, _ => exact scanExponent_stops stops
  | some (negative, digits), h =>
    have hdigits := scanExponentDigits_append negative (h _ rfl).1 (h _ rfl).2 fun c hc => (stops c hc).1
    cases negative <;> simpa [Numeral.power, scanExponent] using hdigits

theorem power_stops (exponent : Option (Bool × List Char)) (stops : Stops rest) :
    ∀ c ∈ (Numeral.power exponent ++ rest).head?, c.isDigit = false ∧ c ≠ '.' := by
  cases exponent with
  | none => exact fun c hc => ⟨(stops c hc).1, (stops c hc).2.1⟩
  | some e =>
    intro c hc
    cases Option.some.inj hc
    exact ⟨rfl, by decide⟩

theorem scanNumber_unsigned {n : Numeral} (h : n.Proper) (stops : Stops rest) :
    scanNumber n.negative (n.unsigned ++ rest) = some (n, rest) := by
  have hbehind := power_stops n.exponent stops
  have hexponent := scanExponent_power h.exponent stops
  rw [scanNumber, Numeral.unsigned, List.append_assoc, List.append_assoc]
  by_cases hf : n.fraction = []
  · rw [if_pos hf, List.nil_append,
      scanWhole_append h.some_whole h.whole h.start fun c hc => (hbehind c hc).1]
    simp [scanFraction_stops fun c hc => (hbehind c hc).2, hexponent, ← hf]
  · rw [if_neg hf, List.cons_append, scanWhole_append h.some_whole h.whole h.start fun c hc => by
      cases Option.some.inj hc
      rfl]
    simp [scanFraction_append hf h.fraction fun c hc => (hbehind c hc).1, hexponent]

end Tree

namespace Numeral

theorem value?_ofInt {n : Int} (h : (Number.int n).InRange) : (ofInt n).value? = some (.int n) := by
  obtain ⟨least, most⟩ := h
  unfold value? isWhole ofInt
  rw [Nat.ofDigitChars_ten_toDigits]
  rcases lt_or_ge n 0 with neg | pos
  · have size : n.natAbs ≠ 0 ∧ n.natAbs ≤ wordSize / 2 := by omega
    simp [neg, size, abs_of_neg neg]
  · have size : n.natAbs < wordSize := by omega
    simp [Int.not_lt.mpr pos, size, abs_of_nonneg pos]

theorem value?_inRange {n : Numeral} {x : Number} (h : n.value? = some x) : x.InRange := by
  unfold value? at h
  simp only at h
  split at h
  case isTrue nat =>
    cases Option.some.inj h
    have : Nat.ofDigitChars 10 n.whole 0 < wordSize := of_decide_eq_true (Bool.and_eq_true_iff.mp nat).2
    unfold Number.InRange
    omega
  split at h
  case isTrue neg =>
    cases Option.some.inj h
    have : Nat.ofDigitChars 10 n.whole 0 ≤ wordSize / 2 := of_decide_eq_true (Bool.and_eq_true_iff.mp neg).2
    have : 0 < wordSize := by decide
    unfold Number.InRange
    omega
  case isFalse =>
    obtain ⟨r, -, rfl⟩ := Option.map_eq_some_iff.mp h
    trivial

end Numeral

end WriteBehind.Json
