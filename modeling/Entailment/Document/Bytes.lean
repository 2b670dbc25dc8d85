/-!
# Characters in bytes

A character takes one to four bytes.  The first one tells how many they are, and all of them hold
some bits of its number.
-/

namespace Entailment.Document.Bytes

/-- The number of bytes that a character takes whose first byte is given. -/
def count? (byte : Nat) : Option Nat :=
  if byte < 0x80 then some 1
  else if byte / 0x20 = 6 then some 2
  else if byte / 0x10 = 14 then some 3
  else if byte / 0x08 = 30 then some 4
  else none

/-- The bits of a character in the first of its bytes. -/
def leadingBits (byte count : Nat) : Nat := if count = 1 then byte else byte % Nat.pow 2 (7 - count)

/-- Whether a byte can go on with a character. -/
def isFurther (byte : Nat) : Bool := byte / 0x40 = 2

/-- Adds the bits in a further byte. -/
def addBits (n byte : Nat) : Nat := n * 0x40 + byte % 0x40

/-- The least number of a character that takes so many bytes. -/
def least (count : Nat) : Nat := [0, 0, 0x80, 0x800, 0x10000].getD count 0

/-- The first character of a text in bytes, and the number of its bytes. -/
def first? : List Nat → Option (Char × Nat)
  | [] => none
  | byte :: rest => do
    let count ← count? byte
    let further := rest.take (count - 1)
    let n := further.foldl addBits (leadingBits byte count)
    if further.length = count - 1 ∧ further.all isFurther ∧ least count ≤ n ∧ n.isValidChar then
      some (Char.ofNat n, count)
    else none

/-- The text in some bytes, whose number bounds that of characters.  A byte that belongs to no
character is replaced. -/
def textFrom : Nat → List Nat → List Char
  | 0, _ => []
  | _, [] => []
  | n + 1, byte :: rest =>
    match first? (byte :: rest) with
    | some (c, count) => c :: textFrom n (rest.drop (count - 1))
    | none => '\ufffd' :: textFrom n rest

def text (bytes : List Nat) : String := String.ofList (textFrom bytes.length bytes)

end Entailment.Document.Bytes
