import Entailment.Document.Cursor

/-!
# Comments

What can be passed over between the words of a document: blanks, line ends and comments.  Comments
are looked for a certain number of bytes ahead, and what is looked at has to be loaded.
-/

namespace Entailment.Document

/-- How far ahead a comment is looked for. -/
def commentReach : Nat := 512

/-- Whether the text goes on with a comment after nothing but characters that may be passed.  The
text from the position on is given, and the part of it behind the bytes that were passed already. -/
def commentFollows? (isPassed : Char → Bool) (p : Position) (text : List Char) (bytes : Nat) :
    List Char → Option (Position × Bool)
  | [] => do
    if commentReach ≤ bytes then return (p, false)
    return (← p.need? (bytes + 1) text, false)
  | c :: rest => do
    if commentReach ≤ bytes then return (p, false)
    let p ← p.need? (bytes + 1) text
    if isPassed c then
      if c.utf8Size = 1 then commentFollows? isPassed p text (bytes + 1) rest
      else if commentReach ≤ bytes + 1 then return (p, false)
      else return (← p.need? (bytes + 2) text, false)
    else return (p, c == '#')

/-- Whether another comment follows the one that ends here, after blanks and empty lines. -/
def anotherFollows? (p : Position) (text : List Char) : Option (Position × Bool) :=
  match text with
  | [] => do return (← p.need? 2 text, false)
  | c :: rest =>
    if isShortBreak c then commentFollows? (fun d => isBlank d || isBreak d) p text 1 rest
    else do return (← p.need? 2 text, false)

/-- Passes over a comment in the same line. -/
def Cursor.passComment? (c : Cursor) : Option Cursor := do
  let (p, follows) ← commentFollows? isBlank c.toPosition c.rest 0 c.rest
  let c : Cursor := ⟨p, c.rest⟩
  if follows then c.passLine? else return c

/-- What is being passed over. -/
inductive Passing where
  /-- The beginning of a line, or what is left of one. -/
  | start
  | blanks
  | comment
  /-- Blanks and line ends between a comment and the next one. -/
  | between
deriving DecidableEq, Repr

/-- Passes over blanks, line ends and comments.  Where a key can begin, a tab is no blank, unless
the text stands in brackets; a key can begin in a new line.  Blanks between comments are passed over
whatever they are. -/
def skipFrom? (inBrackets : Bool) (passing : Passing) (keyAllowed : Bool) (p : Position) :
    List Char → Option (Cursor × Bool)
  | [] => do
    let p ← p.need? 1 []
    let p ← match passing with
      | .start => if p.isLost then p.step.need? 1 [] else pure p
      | .comment => p.need? 2 []
      | _ => pure p
    return (⟨p, []⟩, keyAllowed)
  | c :: rest => do
    let p ← p.need? 1 (c :: rest)
    if passing = .start ∧ p.isLost then skipFrom? inBrackets .blanks keyAllowed p.step rest
    else if isBreak c then
      let (p, follows) ←
        if passing = .comment then anotherFollows? p (c :: rest) else pure (p, passing = .between)
      let p ← p.need? 2 (c :: rest)
      let passing := if follows then Passing.between else .start
      let keyAllowed := keyAllowed || (!follows && !inBrackets)
      match c, rest with
      | '\r', '\n' :: rest => skipFrom? inBrackets passing keyAllowed (p.newLine 2) rest
      | _, rest => skipFrom? inBrackets passing keyAllowed (p.newLine 1) rest
    else if passing = .comment ∨ c = '#' then
      skipFrom? inBrackets .comment keyAllowed p.step rest
    else if passing = .between then skipFrom? inBrackets .between keyAllowed p.step rest
    else if c = ' ' ∨ (c = '\t' ∧ (inBrackets ∨ keyAllowed = false)) then
      skipFrom? inBrackets .blanks keyAllowed p.step rest
    else return (⟨p, c :: rest⟩, keyAllowed)

/-- Passes over blanks, line ends and comments, and tells whether a key can begin afterwards. -/
def Cursor.skip? (c : Cursor) (inBrackets keyAllowed : Bool) : Option (Cursor × Bool) :=
  skipFrom? inBrackets .start keyAllowed c.toPosition c.rest

end Entailment.Document
