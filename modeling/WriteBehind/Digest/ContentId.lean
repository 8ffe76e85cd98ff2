import WriteBehind.Digest.Sha256
import WriteBehind.Json.Text

/-!
# Content ids

A document is named by the hexadecimal digits of the SHA-256 of its bytes.
-/

namespace WriteBehind

def Digest.wordDigits (w : UInt32) : List Char :=
  (List.range 8).map fun i => Json.hexDigit (w.toNat / Nat.pow 16 (7 - i) % 16)

def contentId (bytes : ByteArray) : String :=
  String.ofList ((Digest.sha256 bytes).toList.flatMap Digest.wordDigits)

end WriteBehind
