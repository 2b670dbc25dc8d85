/-!
# Digits

Numbers written in a base of up to sixteen.  Digits may be set apart by underscores.
-/

namespace Entailment.Document

/-- The value of a digit. -/
def digit? (c : Char) : Option Nat :=
  if '0' ≤ c ∧ c ≤ '9' then some (c.toNat - '0'.toNat)
  else if 'a' ≤ c ∧ c ≤ 'f' then some (c.toNat - 'a'.toNat + 10)
  else if 'A' ≤ c ∧ c ≤ 'F' then some (c.toNat - 'A'.toNat + 10)
  else none

/-- One or more digits of a base. -/
def digits? (base : Nat) (cs : List Char) : Option Nat :=
  let extend (n : Nat) (c : Char) : Option Nat :=
    (digit? c).bind fun d => if d < base then some (base * n + d) else none
  if cs.isEmpty then none else cs.foldlM extend 0

/-- A number without a sign.  A leading zero makes it octal, and a letter after that zero selects
another base. -/
def number? : List Char → Option Nat
  | '0' :: 'x' :: cs | '0' :: 'X' :: cs => digits? 16 cs
  | '0' :: 'o' :: cs | '0' :: 'O' :: cs => digits? 8 cs
  | '0' :: 'b' :: cs | '0' :: 'B' :: cs => digits? 2 cs
  | '0' :: cs => digits? 8 ('0' :: cs)
  | cs => digits? 10 cs

/-- The text without underscores. -/
def joined (cs : List Char) : List Char := cs.filter (· ≠ '_')

/-- Whether every underscore stands between two digits, given whether a digit comes before. -/
def separates (isDigit : Char → Bool) (afterDigit : Bool) : List Char → Bool
  | [] => true
  | '_' :: rest => afterDigit && rest.head?.any isDigit && separates isDigit false rest
  | c :: rest => separates isDigit (isDigit c) rest

/-- Whether underscores do no more than set digits apart.  A letter that selects the base counts as
a digit. -/
def isSeparated : List Char → Bool
  | '0' :: c :: cs =>
    if c = 'x' ∨ c = 'X' then separates (fun d => (digit? d).isSome) true cs
    else separates Char.isDigit true (if "oObB".toList.contains c then cs else c :: cs)
  | cs => separates Char.isDigit false cs

/-- A number without a sign whose digits may be set apart. -/
def separatedNumber? (cs : List Char) : Option Nat :=
  if isSeparated cs then number? (joined cs) else none

/-- The numbers that fit into 64 bits. -/
def isWord (n : Nat) : Bool := n < UInt64.size

/-- The numbers that fit into 64 bits together with a sign. -/
def isSignedWord (negative : Bool) (n : Nat) : Bool :=
  n < UInt64.size / 2 || (negative && n = UInt64.size / 2)

end Entailment.Document
