import Entailment.Document.Digits

/-!
# Decimal numbers

Numbers with a fraction and an exponent, as they are kept in 64 bits of binary floating point.  Only
the whole part of such a number is of interest here, but what that is can depend on the rounding:
a decimal just below a whole number may be kept as that number.
-/

namespace Entailment.Document

/-- A number in floating point, reduced to its whole part. -/
inductive Real where
  | undefined
  | infinite (negative : Bool)
  | finite (whole : Int)
deriving DecidableEq, Repr

/-- The quotient rounded to the nearest whole number, to the even one if two are equally near. -/
def roundedQuotient (a b : Nat) : Nat :=
  let q := a / b
  let twice := 2 * (a % b)
  if b < twice ∨ (twice = b ∧ q % 2 = 1) then q + 1 else q

/-- The exponent of the last binary digit that is kept of a fraction: 53 digits are, but none below
the least exponent. -/
def lastExponent (a b : Nat) : Int :=
  let guess : Int := (a.log2 : Int) - b.log2 - 52
  let reaches : Bool :=
    if 0 ≤ guess then decide (Nat.pow 2 52 * (b * Nat.pow 2 guess.toNat) ≤ a)
    else decide (Nat.pow 2 52 * b ≤ a * Nat.pow 2 (-guess).toNat)
  max (if reaches then guess else guess - 1) (-1074)

/-- The whole part of a fraction that is kept in floating point, or nothing if it is too great. -/
def wholePart? (a b : Nat) : Option Nat :=
  if a = 0 then some 0
  else
    let e := lastExponent a b
    if 0 ≤ e then
      let n := roundedQuotient a (b * Nat.pow 2 e.toNat) * Nat.pow 2 e.toNat
      if n < Nat.pow 2 1024 then some n else none
    else some (roundedQuotient (a * Nat.pow 2 (-e).toNat) b / Nat.pow 2 (-e).toNat)

/-- The whole part of a mantissa times a power of ten.  A number far out of range need not be
computed. -/
def wholeDecimal? (mantissa : Nat) (exponent : Int) : Option Nat :=
  let magnitude := (Nat.toDigits 10 mantissa).length + exponent
  if mantissa = 0 ∨ magnitude < -400 then some 0
  else if 400 < magnitude then none
  else if 0 ≤ exponent then wholePart? (mantissa * Nat.pow 10 exponent.toNat) 1
  else wholePart? mantissa (Nat.pow 10 (-exponent).toNat)

/-- A sign, if there is one, and what follows it. -/
def splitSign : List Char → Bool × List Char
  | '-' :: cs => (true, cs)
  | '+' :: cs => (false, cs)
  | cs => (false, cs)

/-- A number with its sign. -/
def signed (negative : Bool) (n : Nat) : Int := if negative then -(n : Int) else n

/-- The value of an exponent with its letter.  There may be none. -/
def exponent? : List Char → Option Int
  | [] => some 0
  | c :: cs =>
    let (negative, digits) := splitSign cs
    if c = 'e' ∨ c = 'E' then (digits? 10 digits).map (signed negative) else none

/-- A decimal number: a sign, digits with or without a point among them, an exponent.  With no digit
before the point there has to be one behind it. -/
def decimal? (cs : List Char) : Option Real := do
  let (negative, cs) := splitSign cs
  let (before, cs) := cs.span Char.isDigit
  let (behind, cs) := match cs with
    | '.' :: cs => cs.span Char.isDigit
    | cs => ([], cs)
  let mantissa ← digits? 10 (before ++ behind)
  let exponent ← exponent? cs
  let whole ← wholeDecimal? mantissa (exponent - behind.length)
  return .finite (signed negative whole)

/-- The number in 64 bits without a sign that a real number is made into.  Those that are too great
have none; those below zero count down from the greatest one, as far as half of the numbers go. -/
def Real.word? : Real → Option Nat
  | .undefined | .infinite false => none
  | .infinite true => some (UInt64.size / 2)
  | .finite (.ofNat n) =>
    if isWord n then some n else if n = UInt64.size then some (UInt64.size / 2) else none
  | .finite (.negSucc n) =>
    some (if n < UInt64.size / 2 then UInt64.size - (n + 1) else UInt64.size / 2)

end Entailment.Document
