/-!
# Moments

Dates, with or without a time of the day.  A time that is set apart by a letter has an offset from
universal time; one that is set apart by spaces has none.
-/

namespace Entailment.Document.Moment

/-- A number of one or two digits. -/
def number? : List Char → Option (Nat × List Char)
  | a :: b :: rest =>
    if !a.isDigit then none
    else if b.isDigit then some (10 * (a.toNat - '0'.toNat) + (b.toNat - '0'.toNat), rest)
    else some (a.toNat - '0'.toNat, b :: rest)
  | [a] => if a.isDigit then some (a.toNat - '0'.toNat, []) else none
  | [] => none

/-- Passes over a certain character. -/
def sign? (c : Char) : List Char → Option (List Char)
  | d :: rest => if d = c then some rest else none
  | [] => none

def isLeap (year : Nat) : Bool := year % 4 = 0 && (year % 100 ≠ 0 || year % 400 = 0)

def daysIn (year month : Nat) : Nat :=
  if month = 2 then if isLeap year then 29 else 28
  else if [4, 6, 9, 11].contains month then 30
  else 31

/-- Passes over a date.  Its year has four digits. -/
def date? (cs : List Char) : Option (List Char) := do
  let year := cs.takeWhile Char.isDigit
  if year.length ≠ 4 then failure
  let (month, rest) ← number? (← sign? '-' (cs.drop 4))
  let (day, rest) ← number? (← sign? '-' rest)
  let number := year.foldl (fun n d => 10 * n + (d.toNat - '0'.toNat)) 0
  if month = 0 ∨ 12 < month ∨ day = 0 ∨ daysIn number month < day then failure
  return rest

/-- Passes over the fraction of a second, if there is one. -/
def passFraction : List Char → List Char
  | c :: d :: rest =>
    if (c = '.' ∨ c = ',') ∧ d.isDigit then rest.dropWhile Char.isDigit else c :: d :: rest
  | cs => cs

/-- Passes over the time of the day. -/
def time? (cs : List Char) : Option (List Char) := do
  let (hour, rest) ← number? cs
  let (minute, rest) ← number? (← sign? ':' rest)
  let (second, rest) ← number? (← sign? ':' rest)
  if 24 ≤ hour ∨ 60 ≤ minute ∨ 60 ≤ second then failure
  return passFraction rest

/-- Whether this is an offset from universal time. -/
def isOffset : List Char → Bool
  | ['Z'] => true
  | [c, a, b, ':', d, e] =>
    let value (x y : Char) : Nat := 10 * (x.toNat - '0'.toNat) + (y.toNat - '0'.toNat)
    (c = '+' || c = '-') && [a, b, d, e].all Char.isDigit && value a b ≤ 24 && value d e ≤ 60
  | _ => false

/-- Whether a text is a moment. -/
def isMoment (s : String) : Bool :=
  match date? s.toList with
  | none => false
  | some [] => true
  | some (c :: rest) =>
    if c = 'T' ∨ c = 't' then (time? rest).any isOffset
    else c = ' ' && (time? (rest.dropWhile (· = ' '))).any List.isEmpty

end Entailment.Document.Moment
