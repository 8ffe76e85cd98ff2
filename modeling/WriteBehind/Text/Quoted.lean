import WriteBehind.Json.Text
import WriteBehind.Text.Hidden

/-!
# Quoted text

The form in which messages name a text: in double quotes, with a backslash before a quote or a
backslash, short forms for the common control characters, and a hexadecimal code for every other
character that does not print.
-/

namespace WriteBehind.Quoted

def hexDigits : Nat → Nat → List Char → List Char
  | 0, _, acc => acc
  | fuel + 1, n, acc =>
    let acc := Json.hexDigit (n % 16) :: acc
    if n < 16 then acc else hexDigits fuel (n / 16) acc

def escape : Char → List Char
  | '"' => ['\\', '"']
  | '\\' => ['\\', '\\']
  | '\n' => ['\\', 'n']
  | '\r' => ['\\', 'r']
  | '\t' => ['\\', 't']
  | '\x00' => ['\\', '0']
  | c =>
    if isHidden c then '\\' :: 'u' :: '\x7b' :: hexDigits 8 c.val.toNat ['\x7d']
    else [c]

def quote (s : String) : String := String.ofList ('"' :: (s.toList.flatMap escape ++ ['"']))

end WriteBehind.Quoted
