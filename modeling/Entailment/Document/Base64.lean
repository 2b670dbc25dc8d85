import Entailment.Document.Bytes

/-!
# Base64

Bytes that are written with 64 characters, six bits each.  Four characters make three bytes; at the
end, equals signs fill up what is missing.  Line ends do not count.
-/

namespace Entailment.Document.Base64

/-- The six bits that a character stands for. -/
def sextet? (c : Char) : Option Nat :=
  if 'A' ≤ c ∧ c ≤ 'Z' then some (c.toNat - 'A'.toNat)
  else if 'a' ≤ c ∧ c ≤ 'z' then some (c.toNat - 'a'.toNat + 26)
  else if '0' ≤ c ∧ c ≤ '9' then some (c.toNat - '0'.toNat + 52)
  else if c = '+' then some 62
  else if c = '/' then some 63
  else none

/-- The bytes that groups of four characters stand for.  Bits that do not make a byte are
ignored. -/
def bytes? : List Char → Option (List Nat)
  | [] => some []
  | [a, b, '=', '='] => do
    let n := 64 * (← sextet? a) + (← sextet? b)
    return [n / 16]
  | [a, b, c, '='] => do
    let n := 4096 * (← sextet? a) + 64 * (← sextet? b) + (← sextet? c)
    return [n / 1024, n / 4 % 256]
  | a :: b :: c :: d :: rest => do
    let n := 262144 * (← sextet? a) + 4096 * (← sextet? b) + 64 * (← sextet? c) + (← sextet? d)
    return n / 65536 :: n / 256 % 256 :: n % 256 :: (← bytes? rest)
  | _ => none

/-- The text that a text in this form stands for. -/
def decode? (s : String) : Option String :=
  (bytes? (s.toList.filter fun c => c ≠ '\n' ∧ c ≠ '\r')).map Bytes.text

end Entailment.Document.Base64
