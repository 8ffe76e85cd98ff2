import WriteBehind.Json.Value
import WriteBehind.Proofs.Json.Real
import WriteBehind.Proofs.Json.Text

/-!
# Encodings scanned

The scanner takes exactly the encoding of a value from the front of a text and gives its tree, whatever
follows, as long as a number at the end does not go on. Every call of it takes a character before it
calls itself, which is how the length of the encoding bounds the fuel.
-/

namespace WriteBehind.Json

namespace Value

mutual

def tree : Value → Tree
  | null => .null
  | bool b => .bool b
  | number (.int n) => .number (.ofInt n)
  | number (.real x) =>
    match Decimal.Dyadic.ofFloat? x with
    | some d => .number (.ofDigits d.negative d.shortest)
    | none => .null
  | string s => .string (s.toList.map Piece.written)
  | array elements => .array (treeElements elements)
  | object members => .object (treeMembers members)

def treeElements : List Value → List Tree
  | [] => []
  | v :: rest => v.tree :: treeElements rest

def treeMembers : List (String × Value) → List (List Piece × Tree)
  | [] => []
  | (k, v) :: rest => (k.toList.map Piece.written, v.tree) :: treeMembers rest

end

end Value

/-! ## Blanks and stops -/

namespace Tree

theorem skipBlank_cons {c : Char} {cs : List Char} (h : isBlank c = false) :
    skipBlank (c :: cs) = c :: cs := by
  simp [skipBlank, h]

theorem stops_cons {c : Char} {cs : List Char}
    (h : (c.isDigit || c == '.' || c == 'e' || c == 'E') = false) : Stops (c :: cs) := by
  intro d hd
  cases Option.some.inj hd
  simpa [and_assoc] using h

theorem stops_nil : Stops [] := fun _ h => nomatch h

theorem digit_ne {c d : Char} (hc : c.isDigit = true) (hd : d.isDigit = false) : c ≠ d := by
  rintro rfl
  exact nomatch hc.symm.trans hd

theorem isBlank_digit {c : Char} (h : c.isDigit = true) : isBlank c = false := by
  simp [isBlank, digit_ne h (d := ' ') rfl, digit_ne h (d := '\n') rfl, digit_ne h (d := '\t') rfl,
    digit_ne h (d := '\r') rfl]

theorem scan_digit {c : Char} (digit : c.isDigit = true) (fuel : Nat) (cs : List Char) :
    scan (fuel + 1) (c :: cs) =
      (scanNumber false (c :: cs)).map fun (n, rest) => (number n, rest) := by
  rw [scan, skipBlank_cons (isBlank_digit digit)]
  split
  case h_8 => rfl
  all_goals
    rename_i h
    exact absurd (List.cons.inj h).1 (digit_ne digit rfl)

end Tree

namespace Value

open WriteBehind.Json.Tree

variable {fuel : Nat} {rest : List Char}

/-! ## Scalars -/

theorem scan_written {n : Numeral} (h : n.Proper) (stops : Stops rest) :
    scan (fuel + 1) (n.written ++ rest) = some (.number n, rest) := by
  have hn := scanNumber_unsigned h stops
  rw [Numeral.written]
  split
  case isTrue neg =>
    rw [neg] at hn
    simp [scan, skipBlank, isBlank, hn]
  case isFalse pos =>
    rw [Bool.eq_false_of_not_eq_true pos] at hn
    obtain ⟨c, cs, hd, digit⟩ := h.unsigned_starts
    rw [hd, List.cons_append] at hn
    rw [List.nil_append, hd, List.cons_append, scan_digit digit, hn]
    rfl

theorem scan_number (n : Number) (stops : Stops rest) :
    scan (fuel + 1) ((number n).encode ++ rest) = some ((number n).tree, rest) := by
  cases n with
  | int n =>
    rw [encode, Number.text_int]
    exact scan_written (Numeral.proper_ofInt n) stops
  | real x =>
    cases h : Decimal.Dyadic.ofFloat? x with
    | some d =>
      rw [encode, Number.text_real h, tree, h]
      exact scan_written (Numeral.proper_ofDigits _ Decimal.Dyadic.scale_shortest_eq_zero) stops
    | none =>
      rw [encode, Number.text, tree, h]
      rfl

theorem scan_string (s : String) :
    scan (fuel + 1) ((string s).encode ++ rest) = some ((string s).tree, rest) := by
  simp [encode, quote, scan, skipBlank, isBlank, scanString_literal, tree]

theorem written_starts {n : Numeral} (h : n.Proper) :
    ∃ c cs, n.written = c :: cs ∧ isBlank c = false ∧ c ≠ ']' := by
  rw [Numeral.written]
  split
  · exact ⟨_, _, rfl, rfl, by decide⟩
  · obtain ⟨c, cs, hd, digit⟩ := h.unsigned_starts
    exact ⟨c, cs, hd, isBlank_digit digit, digit_ne digit rfl⟩

/-! ## Arrays and objects -/

theorem encode_starts (v : Value) : ∃ c cs, v.encode = c :: cs ∧ isBlank c = false ∧ c ≠ ']' := by
  cases v with
  | null => exact ⟨_, _, rfl, rfl, by decide⟩
  | bool b => cases b <;> exact ⟨_, _, rfl, rfl, by decide⟩
  | string s => exact ⟨_, _, rfl, rfl, by decide⟩
  | array vs => exact ⟨_, _, rfl, rfl, by decide⟩
  | object ms => exact ⟨_, _, rfl, rfl, by decide⟩
  | number n =>
    cases n with
    | int n =>
      rw [encode, Number.text_int]
      exact written_starts (Numeral.proper_ofInt n)
    | real x =>
      cases h : Decimal.Dyadic.ofFloat? x with
      | some d =>
        rw [encode, Number.text_real h]
        exact written_starts (Numeral.proper_ofDigits _ Decimal.Dyadic.scale_shortest_eq_zero)
      | none =>
        rw [encode, Number.text, h]
        exact ⟨'n', _, rfl, rfl, by decide⟩

theorem encodeElements_cons (v u : Value) (vs : List Value) :
    encodeElements (v :: u :: vs) = v.encode ++ ',' :: encodeElements (u :: vs) := rfl

theorem encodeMembers_cons (k : String) (v : Value) (n : String × Value) (ms : List (String × Value)) :
    encodeMembers ((k, v) :: n :: ms) =
      quote k ++ ':' :: (v.encode ++ ',' :: encodeMembers (n :: ms)) := rfl

def ScansBack (v : Value) : Prop :=
  ∀ (fuel : Nat) (rest : List Char), v.encode.length ≤ fuel → Stops rest →
    scan (fuel + 1) (v.encode ++ rest) = some (v.tree, rest)

-- Two more than the length: one for the call itself, and one because an element is scanned with less fuel
-- than the list of which it is the last.
theorem scanElements_encode {v : Value} {vs : List Value} (h : ∀ u ∈ v :: vs, u.ScansBack)
    (hf : (encodeElements (v :: vs)).length ≤ fuel) :
    scanElements (fuel + 2) (encodeElements (v :: vs) ++ ']' :: rest) =
      some (treeElements (v :: vs), rest) := by
  induction vs generalizing v fuel with
  | nil =>
    have hv := h v List.mem_cons_self fuel (']' :: rest) hf (stops_cons rfl)
    simp [encodeElements, scanElements, hv, skipBlank, isBlank, treeElements]
  | cons u vs ih =>
    rw [encodeElements_cons, List.length_append, List.length_cons] at hf
    have hv := h v List.mem_cons_self fuel (',' :: (encodeElements (u :: vs) ++ ']' :: rest)) (by omega)
      (stops_cons rfl)
    obtain ⟨fuel, rfl⟩ := Nat.exists_eq_add_one_of_ne_zero (n := fuel) (by omega)
    have hvs := ih (fun w hw => h w (List.mem_cons_of_mem _ hw)) (show _ ≤ fuel by omega)
    rw [encodeElements_cons, List.append_assoc, List.cons_append, scanElements, hv]
    simp [skipBlank, isBlank, hvs, treeElements]

theorem scanMembers_last (k : String) {t : Tree} {cs : List Char}
    (h : scan fuel cs = some (t, '\x7d' :: rest)) :
    scanMembers (fuel + 1) (quote k ++ ':' :: cs) = some ([(k.toList.map Piece.written, t)], rest) := by
  simp [quote, scanMembers, scanString_literal, skipBlank, isBlank, h]

theorem scanMembers_more (k : String) {t : Tree} {cs more : List Char} {members : List (List Piece × Tree)}
    (h : scan fuel cs = some (t, ',' :: more)) (hm : scanMembers fuel more = some (members, rest)) :
    scanMembers (fuel + 1) (quote k ++ ':' :: cs) =
      some ((k.toList.map Piece.written, t) :: members, rest) := by
  simp [quote, scanMembers, scanString_literal, skipBlank, isBlank, h, hm]

theorem scanMembers_encode {m : String × Value} {ms : List (String × Value)}
    (h : ∀ n ∈ m :: ms, n.2.ScansBack) (hf : (encodeMembers (m :: ms)).length ≤ fuel) :
    scanMembers (fuel + 2) (encodeMembers (m :: ms) ++ '\x7d' :: rest) =
      some (treeMembers (m :: ms), rest) := by
  induction ms generalizing m fuel with
  | nil =>
    obtain ⟨k, v⟩ := m
    rw [encodeMembers, List.length_append, List.length_cons] at hf
    have hv : scan (fuel + 1) (v.encode ++ '\x7d' :: rest) = some (v.tree, '\x7d' :: rest) :=
      h (k, v) List.mem_cons_self fuel _ (by simp only; omega) (stops_cons rfl)
    rw [encodeMembers, List.append_assoc, List.cons_append, scanMembers_last k hv, treeMembers, treeMembers]
  | cons n ms ih =>
    obtain ⟨k, v⟩ := m
    rw [encodeMembers_cons, List.length_append, List.length_cons, List.length_append,
      List.length_cons] at hf
    have hv := h (k, v) List.mem_cons_self fuel (',' :: (encodeMembers (n :: ms) ++ '\x7d' :: rest))
      (by simp only; omega) (stops_cons rfl)
    obtain ⟨fuel, rfl⟩ := Nat.exists_eq_add_one_of_ne_zero (n := fuel) (by omega)
    have hms := ih (fun n hn => h n (List.mem_cons_of_mem _ hn)) (show _ ≤ fuel by omega)
    rw [encodeMembers_cons, List.append_assoc, List.cons_append, List.append_assoc, List.cons_append,
      scanMembers_more k hv hms]
    rfl

theorem scan_array {c : Char} {cs : List Char} {elements : List Tree} (blank : isBlank c = false)
    (first : c ≠ ']') (h : scanElements fuel (c :: cs) = some (elements, rest)) :
    scan (fuel + 1) ('[' :: c :: cs) = some (.array elements, rest) := by
  rw [scan, skipBlank_cons rfl]
  simp only [skipBlank_cons blank]
  split
  case h_1 heq => exact absurd (List.cons.inj heq).1 first
  case h_2 => rw [h, Option.map_some]

theorem scan_object {cs : List Char} {members : List (List Piece × Tree)}
    (h : scanMembers fuel ('"' :: cs) = some (members, rest)) :
    scan (fuel + 1) ('\x7b' :: '"' :: cs) = some (.object members, rest) := by
  rw [scan, skipBlank_cons rfl]
  simp [skipBlank_cons (c := '"') rfl, h]

theorem encodeElements_starts (v : Value) (vs : List Value) :
    ∃ rest, encodeElements (v :: vs) = v.encode ++ rest := by
  cases vs with
  | nil => exact ⟨[], (List.append_nil _).symm⟩
  | cons u vs => exact ⟨_, rfl⟩

theorem encodeMembers_starts (m : String × Value) (ms : List (String × Value)) :
    ∃ rest, encodeMembers (m :: ms) = '"' :: rest := by
  cases ms <;> exact ⟨_, rfl⟩

theorem sizeOf_element_lt {v : Value} {vs : List Value} (h : v ∈ vs) : sizeOf v < sizeOf (array vs) := by
  have hlist := List.sizeOf_lt_of_mem h
  rw [array.sizeOf_spec]
  omega

theorem sizeOf_member_lt {m : String × Value} {ms : List (String × Value)} (h : m ∈ ms) :
    sizeOf m.2 < sizeOf (object ms) := by
  have hlist := List.sizeOf_lt_of_mem h
  obtain ⟨k, v⟩ := m
  simp only [object.sizeOf_spec, Prod.mk.sizeOf_spec] at hlist ⊢
  omega

/-- **The scanner undoes the encoder.** -/
theorem scansBack : ∀ v : Value, v.ScansBack
  | null => fun _ _ _ _ => rfl
  | bool true => fun _ _ _ _ => rfl
  | bool false => fun _ _ _ _ => rfl
  | number n => fun _ _ _ stops => scan_number n stops
  | string s => fun _ _ _ _ => scan_string s
  | array [] => fun _ _ _ _ => rfl
  | array (v :: vs) => by
    intro fuel rest hf _
    have each : ∀ u ∈ v :: vs, u.ScansBack := fun u hu => scansBack u
    rw [encode, List.length_cons, List.length_append, List.length_singleton] at hf
    obtain ⟨fuel, rfl⟩ := Nat.exists_eq_add_of_le' (show 2 ≤ fuel by omega)
    -- The scanner looks for the closing bracket before it reads the first element.
    obtain ⟨c, cs, hc, blank, first⟩ := v.encode_starts
    obtain ⟨tail, htail⟩ := encodeElements_starts v vs
    have back : scanElements (fuel + 2) (_ ++ ']' :: rest) = _ := scanElements_encode each (by omega)
    rw [htail, hc] at back
    rw [encode, htail, hc]
    simpa [tree] using scan_array blank first back
  | object [] => fun _ _ _ _ => rfl
  | object (m :: ms) => by
    intro fuel rest hf _
    have each : ∀ n ∈ m :: ms, n.2.ScansBack := fun n hn => scansBack n.2
    rw [encode, List.length_cons, List.length_append, List.length_singleton] at hf
    obtain ⟨fuel, rfl⟩ := Nat.exists_eq_add_of_le' (show 2 ≤ fuel by omega)
    obtain ⟨tail, htail⟩ := encodeMembers_starts m ms
    have back : scanMembers (fuel + 2) (_ ++ '\x7d' :: rest) = _ := scanMembers_encode each (by omega)
    rw [htail] at back
    rw [encode, htail]
    simpa [tree] using scan_object back
termination_by v => sizeOf v
decreasing_by
  · exact sizeOf_element_lt hu
  · exact sizeOf_member_lt hn

/-- **The text of a value reads back as its tree.** -/
theorem ofString?_text (v : Value) : Tree.ofString? v.text = some v.tree := by
  have back := v.scansBack _ [] (Nat.le_refl _) stops_nil
  rw [List.append_nil] at back
  simp [Tree.ofString?, ofChars?, text, back, skipBlank]

theorem tree_eq_of_text {u v : Value} (h : u.text = v.text) : u.tree = v.tree := by
  have hu := u.ofString?_text
  rw [h, v.ofString?_text] at hu
  exact (Option.some.inj hu).symm

end Value

end WriteBehind.Json
