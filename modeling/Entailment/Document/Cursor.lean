/-!
# Positions in a document

A position in the text of a document.  The text is loaded in portions, a new one whenever more
characters have to be known than are loaded.  A character that no document may contain makes the
text unreadable as soon as it is loaded, and does no harm before.

Loading also decides about byte order marks.  If the character at the position stands for one when
a portion is loaded, the text counts as marked until the next portion is, and the first character of
each line is lost meanwhile.  Several characters end a line.
-/

namespace Entailment.Document

def isBlank (c : Char) : Bool := c == ' ' || c == '\t'

/-- Line ends that take a single byte. -/
def isShortBreak (c : Char) : Bool := c == '\n' || c == '\r'

def isBreak (c : Char) : Bool :=
  isShortBreak c || c == '\u0085' || c == '\u2028' || c == '\u2029'

/-- What a line end stands for in a scalar. -/
def breakText (c : Char) : Char := if c = '\u0085' ∨ c = '\r' then '\n' else c

/-- Whether the text goes on with something that separates words. -/
def endsWord : List Char → Bool
  | [] => true
  | c :: _ => isBlank c || isBreak c

/-- Whether a line that begins here separates documents. -/
def isMarker (mark : String) (cs : List Char) : Bool :=
  cs.take 3 == mark.toList && endsWord (cs.drop 3)

/-- Whether a document begins or ends with this line. -/
def separatesDocuments (cs : List Char) : Bool := isMarker "---" cs || isMarker "..." cs

/-- Characters that a document may contain. -/
def isAllowed (c : Char) : Bool :=
  let n := c.toNat
  n == 9 || n == 10 || n == 13 || (0x20 ≤ n && n ≤ 0x7E) || n == 0x85
    || (0xA0 ≤ n && n ≠ 0xFFFE && n ≠ 0xFFFF)

def byteOrderMark : Char := '\ufeff'

structure Position where
  /-- The number of characters before. -/
  index : Nat := 0
  line : Nat := 0
  column : Nat := 0
  /-- The number of characters from here on that are loaded.  The end of the text counts as often as
  it was found. -/
  loaded : Nat := 0
  /-- Whether a byte order mark stood here when a portion was last loaded. -/
  isMarked : Bool := false
deriving Repr

namespace Position

section Loading

/-- The number of bytes in a portion. -/
def portion : Nat := 512

/-- The number of characters that fit into some bytes, unless one of them is not allowed. -/
def fitting? (room : Nat) : List Char → Option Nat
  | [] => some 0
  | c :: rest =>
    if room < c.utf8Size then some 0
    else if isAllowed c then (fitting? (room - c.utf8Size) rest).map (· + 1)
    else none

/-- Loads portions until a number of characters is reached, or the text ends.  Every portion has a
character, so that no more of them are loaded than characters are wanted. -/
def load? (wanted : Nat) : Nat → Nat → List Char → Option Nat
  | 0, loaded, _ => some loaded
  | n + 1, loaded, rest =>
    if wanted ≤ loaded then some loaded
    else if rest.isEmpty then some (loaded + 1)
    else do
      let count ← fitting? portion rest
      load? wanted n (loaded + count) (rest.drop count)

/-- Sees to it that some characters of the rest of the text are loaded. -/
def need? (p : Position) (wanted : Nat) (rest : List Char) : Option Position :=
  if wanted ≤ p.loaded then some p
  else do
    let loaded ← load? wanted wanted p.loaded (rest.drop p.loaded)
    return { p with loaded, isMarked := rest.head? == some byteOrderMark }

end Loading

/-- Passes over one character within a line. -/
def step (p : Position) : Position :=
  { p with index := p.index + 1, column := p.column + 1, loaded := p.loaded - 1 }

/-- Passes over a number of characters within a line. -/
def steps (p : Position) (n : Nat) : Position :=
  { p with index := p.index + n, column := p.column + n, loaded := p.loaded - n }

/-- Passes over a line end of so many characters. -/
def newLine (p : Position) (n : Nat) : Position :=
  { p with index := p.index + n, line := p.line + 1, column := 0, loaded := p.loaded - n }

/-- Whether the character here is lost. -/
def isLost (p : Position) : Bool := p.column == 0 && p.isMarked

end Position

/-- A position, with the text from there on. -/
structure Cursor extends Position where
  rest : List Char
deriving Repr

namespace Cursor

/-- The beginning of a text, with its first portion loaded.  A byte order mark belongs to that
portion but not to the text. -/
def ofText? (text : List Char) : Option Cursor := do
  let (rest, room) := match text with
    | [] => ([], Position.portion)
    | c :: rest =>
      if c = byteOrderMark then (rest, Position.portion - c.utf8Size)
      else (text, Position.portion)
  let loaded ← Position.fitting? room rest
  return { loaded := max loaded 1, isMarked := rest.head? == some byteOrderMark, rest }

def need? (c : Cursor) (wanted : Nat) : Option Cursor := do
  return { c with toPosition := ← c.toPosition.need? wanted c.rest }

/-- Passes over one character within a line. -/
def advance (c : Cursor) : Cursor := ⟨c.step, c.rest.tail⟩

/-- Passes over a number of characters within a line. -/
def advanceBy (n : Nat) (c : Cursor) : Cursor := ⟨c.steps n, c.rest.drop n⟩

/-- Passes over a line end, which may be one of two characters. -/
def nextLine? (c : Cursor) : Option Cursor := do
  let c ← c.need? 2
  match c.rest with
  | '\r' :: '\n' :: rest => return ⟨c.newLine 2, rest⟩
  | rest => return ⟨c.newLine 1, rest.tail⟩

/-- Passes over characters for which a condition holds.  They do not end the line. -/
def passFrom? (isPassed : Char → Bool) (p : Position) : List Char → Option Cursor
  | [] => do return ⟨← p.need? 1 [], []⟩
  | c :: rest => do
    let p ← p.need? 1 (c :: rest)
    if isPassed c then passFrom? isPassed p.step rest else return ⟨p, c :: rest⟩

def pass? (c : Cursor) (isPassed : Char → Bool) : Option Cursor :=
  passFrom? isPassed c.toPosition c.rest

/-- Takes characters for which a condition holds. -/
def take? (c : Cursor) (isTaken : Char → Bool) : Option (List Char × Cursor) := do
  return (c.rest.takeWhile isTaken, ← c.pass? isTaken)

def passBlanks? (c : Cursor) : Option Cursor := c.pass? isBlank

def passLine? (c : Cursor) : Option Cursor := c.pass? (!isBreak ·)

/-- Passes over the rest of a line in which nothing but a comment may stand. -/
def endLine? (c : Cursor) : Option Cursor := do
  let c ← c.passBlanks?
  let c ← if c.rest.head? = some '#' then c.passLine? else pure c
  match c.rest with
  | [] => return c
  | d :: _ => if isBreak d then c.nextLine? else none

end Cursor

end Entailment.Document
