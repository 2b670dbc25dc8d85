import Entailment.Document.Gap

/-!
# Plain scalars

Scalars without quotes.  They go on until a colon that ends a word, a comment, a line that is not
indented far enough, or, in brackets, a character that has a meaning there.
-/

namespace Entailment.Document

/-- Characters that end a plain scalar in brackets. -/
def endsInBrackets (c : Char) : Bool := ",?[]\x7b\x7d".toList.contains c

/-- Characters that cannot begin a plain scalar. -/
def isIndicator (c : Char) : Bool := "-?:,[]\x7b\x7d#&*!|>\x27\x22%@\x60".toList.contains c

/-- Whether a plain scalar can begin here. -/
def beginsPlain (inBrackets : Bool) : List Char → Bool
  | [] => false
  | c :: rest =>
    if c = '-' then !endsWord rest
    else if c = '?' ∨ c = ':' then !inBrackets && !endsWord rest
    else !isBlank c && !isBreak c && !isIndicator c

/-- A plain scalar, and where it ends. -/
structure Plain where
  text : List Char
  stop : Cursor
  /-- Whether a line ended after it. -/
  isBroken : Bool

/-- Goes on with a plain scalar.  `seen` is its text so far, in reverse, and `gap` what came after
it.  Further lines have to be indented to the column `least`, and not by tabs up to there. -/
def plainFrom? (inBrackets : Bool) (least : Nat) (seen : List Char) (gap : Gap) (p : Position) :
    List Char → Option Plain
  | [] => do
    let p ← if gap.isEmpty || (!inBrackets && p.column < least) then pure p else p.need? 4 []
    return ⟨seen.reverse, ⟨p, []⟩, gap.isBreak⟩
  | '\r' :: '\n' :: rest => do
    let p ← p.need? 2 ('\r' :: '\n' :: rest)
    plainFrom? inBrackets least seen (gap.addBreak '\n') (← (p.newLine 2).need? 1 rest) rest
  | c :: rest =>
    if isBreak c then do
      let p ← p.need? 2 (c :: rest)
      plainFrom? inBrackets least seen (gap.addBreak c) (← (p.newLine 1).need? 1 rest) rest
    else if isBlank c then
      if gap.isBreak ∧ p.column < least ∧ c = '\t' then none
      else do
        plainFrom? inBrackets least seen (gap.addBlank c) (← p.step.need? 1 rest) rest
    else
      let stop (p : Position) : Option Plain :=
        some ⟨seen.reverse, ⟨p, c :: rest⟩, gap.isBreak⟩
      if !gap.isEmpty && !inBrackets && p.column < least then stop p
      else do
        let p ← if gap.isEmpty then pure p else p.need? 4 (c :: rest)
        if !gap.isEmpty && (c = '#' || (p.column = 0 && separatesDocuments (c :: rest))) then
          stop p
        else if (c = ':' ∧ endsWord rest) ∨ (inBrackets ∧ endsInBrackets c) then stop p
        else
          plainFrom? inBrackets least (c :: gap.after seen) .none (← p.step.need? 2 rest) rest

/-- The plain scalar that begins here. -/
def Cursor.plain? (c : Cursor) (inBrackets : Bool) (least : Nat) : Option Plain := do
  let c ← c.need? 4
  plainFrom? inBrackets least [] .none c.toPosition c.rest

end Entailment.Document
