import Entailment.Document.Block
import Entailment.Document.Comment
import Entailment.Document.Plain
import Entailment.Document.Quoted
import Entailment.Document.Token

/-!
# Layout

Divides a text into tokens.  Outside of brackets, structure is given by columns: a sequence or
mapping begins where something stands further right than what is open, and ends where something
stands further left.  That a key began is known only when its colon is found, on the same line and
not too far away; its token, and that of a mapping that begins with it, are then put in front.

Tokens are handed out one by one, and no more of the text is read than that takes: a token is handed
out when two more follow it and nothing waits to see whether it begins a key.  So a text may become
unreadable after its first document, which is no harm.
-/

namespace Entailment.Document

/-- A place where a key may have begun. -/
structure Candidate where
  /-- The number of the token that stands there. -/
  number : Nat
  index : Nat
  line : Nat
  column : Nat
  /-- Whether nothing but a key can stand there. -/
  isRequired : Bool
  /-- Whether the token has to wait until this is settled. -/
  isAwaited : Bool := true
deriving Repr

/-- How far a colon can be away from the beginning of its key. -/
def Candidate.reach : Nat := 1024

/-- Whether a colon at the position would make this a key. -/
def Candidate.isOpen (k : Candidate) (p : Position) : Bool :=
  k.line = p.line && p.index ≤ k.index + reach

/-- What keys there may be between two brackets, or outside of all. -/
structure Level where
  candidate : Option Candidate := none
  /-- The number of the last token that was noted as a candidate, or of the bracket. -/
  number : Nat := 0
deriving Repr

structure Layout where
  cursor : Cursor
  tokens : Array Token := #[]
  /-- The number of tokens that have been handed out. -/
  used : Nat := 0
  /-- Everything inside of what is open has to stand in this column at least. -/
  least : Nat := 0
  /-- The same for what is around it. -/
  around : List Nat := []
  /-- Whether a key can begin here. -/
  keyAllowed : Bool := true
  level : Level := {}
  /-- The levels outside of each bracket that is open. -/
  outside : List Level := []

namespace Layout

/-- How deep brackets, or sequences and mappings, can nest. -/
def deepest : Nat := 10000

def inBrackets (s : Layout) : Bool := !s.outside.isEmpty

/-- Adds a token that ends at the given place. -/
def add (s : Layout) (t : Token) (stop : Cursor) : Layout :=
  { s with tokens := s.tokens.push t, cursor := stop }

/-- Adds a token of one character, with a comment that may follow. -/
def addSign? (s : Layout) (t : Token) : Option Layout := do
  return s.add t (← s.cursor.advance.passComment?)

/-- Puts a token in front of another one, or behind all if that one has been handed out. -/
def insert (s : Layout) (number : Nat) (t : Token) : Layout :=
  let place := if number < s.used then s.tokens.size else number
  { s with tokens := s.tokens.insertIdxIfInBounds place t }

/-- Ends what has to stand right of the given column. -/
def closeTo (least : Nat) (s : Layout) : Layout :=
  if s.inBrackets then s
  else
    let closed := (s.least :: s.around).takeWhile (least < ·)
    let ends := List.replicate closed.length Token.blockEnd
    match (s.least :: s.around).dropWhile (least < ·) with
    | [] => s
    | level :: around =>
      { s with tokens := s.tokens ++ ends.toArray, least := level, around }

/-- Begins a sequence or mapping in a column, unless one is open there.  Its token goes in front of
the one with the given number. -/
def openAt? (s : Layout) (column number : Nat) (t : Token) : Option Layout :=
  if s.inBrackets || column < s.least then some s
  else if deepest ≤ s.around.length then none
  else some { s.insert number t with least := column + 1, around := s.least :: s.around }

/-- Gives up the last candidate. -/
def forgetKey? (s : Layout) : Option Layout :=
  if s.level.candidate.any (·.isRequired) then none
  else some { s with level := { s.level with candidate := none } }

/-- Notes that a key can begin here. -/
def noteKey? (s : Layout) : Option Layout :=
  if s.keyAllowed then do
    let s ← s.forgetKey?
    let p := s.cursor
    let isRequired : Bool := !s.inBrackets && s.least = p.column + 1
    let number := s.tokens.size
    let candidate : Candidate :=
      { number, index := p.index, line := p.line, column := p.column, isRequired }
    some { s with level := { candidate, number } }
  else some s

/-- Everything that is open ends. -/
def reset? (s : Layout) : Option Layout := do
  let s ← (s.closeTo 0).forgetKey?
  return { s with keyAllowed := false }

section Brackets

def openBracket? (s : Layout) (t : Token) : Option Layout := do
  let s ← s.noteKey?
  if deepest ≤ s.outside.length then failure
  let level := { number := s.tokens.size }
  { s with level, outside := s.level :: s.outside, keyAllowed := true }.addSign? t

/-- Leaves a level.  What was noted there last is not waited for any more; if that is the bracket
itself, because nothing was noted inside, the bracket no longer waits either. -/
def leave (s : Layout) : Layout :=
  match s.outside with
  | [] => s
  | level :: outside =>
    let settle (k : Candidate) : Candidate :=
      if k.number = s.level.number then { k with isAwaited := false } else k
    { s with level := { level with candidate := level.candidate.map settle }, outside }

def closeBracket? (s : Layout) (t : Token) : Option Layout := do
  let s ← s.forgetKey?
  { s.leave with keyAllowed := false }.addSign? t

end Brackets

section Indicators

def comma? (s : Layout) : Option Layout := do
  let s ← s.forgetKey?
  { s with keyAllowed := true }.addSign? .comma

/-- A dash begins an item.  The parser refuses one in brackets. -/
def dash? (s : Layout) : Option Layout := do
  if !s.inBrackets && !s.keyAllowed then failure
  let s ← s.openAt? s.cursor.column s.tokens.size .blockSequence
  let s ← s.forgetKey?
  return { s with keyAllowed := true }.add .entry s.cursor.advance

/-- A question mark begins a key of any kind. -/
def question? (s : Layout) : Option Layout := do
  if !s.inBrackets && !s.keyAllowed then failure
  let s ← s.openAt? s.cursor.column s.tokens.size .blockMapping
  let s ← s.forgetKey?
  { s with keyAllowed := !s.inBrackets }.addSign? .key

/-- A colon begins a value.  If a key can end here, its tokens go where it began; otherwise the key
is one that a question mark began. -/
def colon? (s : Layout) : Option Layout := do
  match s.level.candidate with
  | some k =>
    if k.isOpen s.cursor.toPosition then
      let s ← (s.insert k.number .key).openAt? k.column k.number .blockMapping
      let level := { s.level with candidate := none }
      return ← { s with level, keyAllowed := false }.addSign? .value
    else if k.isRequired then failure
  | none => pure ()
  if !s.inBrackets && !s.keyAllowed then failure
  let s ← s.openAt? s.cursor.column s.tokens.size .blockMapping
  let level := { s.level with candidate := none }
  { s with level, keyAllowed := !s.inBrackets }.addSign? .value

end Indicators

/-- A token with a text of its own, which may be a key or belong to one. -/
def word? (s : Layout) (take? : Cursor → Option (Token × Cursor)) : Option Layout := do
  let s ← s.noteKey?
  let (t, stop) ← take? s.cursor
  return { s with keyAllowed := false }.add t (← stop.passComment?)

/-- A plain scalar.  If a line ended after it, a key can begin there. -/
def plain? (s : Layout) : Option Layout := do
  let s ← s.noteKey?
  let ⟨text, stop, isBroken⟩ ← s.cursor.plain? s.inBrackets s.least
  let stop ← if isBroken then pure stop else stop.passComment?
  return { s with keyAllowed := isBroken }.add (.scalar (String.ofList text) true) stop

def quoted? (take? : Cursor → Option (List Char × Cursor)) (c : Cursor) :
    Option (Token × Cursor) := do
  let (text, stop) ← take? c
  return (.scalar (String.ofList text) false, stop)

def block? (s : Layout) (literal : Bool) : Option Layout := do
  let s ← s.forgetKey?
  let (text, stop) ← s.cursor.block? literal s.least
  return { s with keyAllowed := true }.add (.scalar (String.ofList text) false) stop

/-- A line that begins or ends a document. -/
def marker? (s : Layout) (t : Token) : Option Layout := do
  let s ← s.reset?
  return s.add t (s.cursor.advanceBy 3)

def directive? (s : Layout) : Option Layout := do
  let s ← s.reset?
  let (t, stop) ← s.cursor.directive?
  return s.add t stop

/-- The end of the text, which is also that of a line. -/
def textEnd? (s : Layout) : Option Layout := do
  let c := s.cursor
  let c := if c.column = 0 then c else { c with line := c.line + 1, column := 0 }
  let s ← { s with cursor := c }.reset?
  return s.add .textEnd s.cursor

/-- The token that begins with the given character. -/
def tokenAt? (s : Layout) (c : Char) (rest : List Char) : Option Layout :=
  let separate : Bool := s.inBrackets || endsWord rest
  match c with
  | '[' => s.openBracket? .openBracket
  | '\x7b' => s.openBracket? .openBrace
  | ']' => s.closeBracket? .closeBracket
  | '\x7d' => s.closeBracket? .closeBrace
  | ',' => s.comma?
  | '*' => s.word? fun c => do
    let (name, stop) ← c.name?
    return (.reference name, stop)
  | '&' => s.word? fun c => do
    let (name, stop) ← c.name?
    return (.anchor name, stop)
  | '!' => s.word? Cursor.tag?
  | '\x27' => s.word? (quoted? Cursor.singleQuoted?)
  | '\x22' => s.word? (quoted? Cursor.doubleQuoted?)
  | '|' => if s.inBrackets then none else s.block? true
  | '>' => if s.inBrackets then none else s.block? false
  | c =>
    if c = '-' ∧ endsWord rest then s.dash?
    else if c = '?' ∧ separate then s.question?
    else if c = ':' ∧ separate then s.colon?
    else if beginsPlain s.inBrackets (c :: rest) then s.plain?
    else none

/-- Reads the next token, with those for what ends before it. -/
def read? (s : Layout) : Option Layout := do
  let (cursor, keyAllowed) ← s.cursor.skip? s.inBrackets s.keyAllowed
  let s := { s with cursor, keyAllowed }.closeTo (cursor.column + 1)
  let cursor ← cursor.need? 4
  let s := { s with cursor }
  match cursor.rest with
  | [] => s.textEnd?
  | c :: rest =>
    if cursor.column = 0 ∧ c = '%' then s.directive?
    else if cursor.column = 0 ∧ isMarker "---" (c :: rest) then s.marker? .documentStart
    else if cursor.column = 0 ∧ isMarker "..." (c :: rest) then s.marker? .documentEnd
    else s.tokenAt? c rest

/-- Whether the next token has to wait.  One that has to be a key cannot wait for ever. -/
def waits? (s : Layout) : Option Bool :=
  let awaited := (s.level :: s.outside).findSome? fun level =>
    level.candidate.filter fun k => k.isAwaited && k.number == s.used
  match awaited with
  | none => some false
  | some k =>
    if k.isOpen s.cursor.toPosition then some true
    else if k.isRequired then none
    else some false

/-- Hands out the next token, or reads one first. -/
def proceed? (s : Layout) : Option Layout := do
  if s.used + 2 < s.tokens.size then
    if ¬(← s.waits?) then return { s with used := s.used + 1 }
  s.read?

/-- The tokens that have been handed out. -/
def handedOut (s : Layout) : List Token := s.tokens.toList.take s.used

/-- Hands out tokens up to the end of the text, or as long as it can be read. -/
def run : Nat → Layout → List Token
  | 0, s => s.handedOut
  | n + 1, s =>
    if 0 < s.used ∧ s.tokens[s.used - 1]? = some .textEnd then s.handedOut
    else
      match s.proceed? with
      | none => s.handedOut
      | some s => run n s

end Layout

/-- The tokens of a text.  Every token takes a character, apart from those for its end and for what
begins or ends with others, so that the number of characters bounds that of steps. -/
def tokens (cs : List Char) : List Token :=
  match Cursor.ofText? cs with
  | none => []
  | some cursor => Layout.run (8 * cs.length + 32) { cursor }

end Entailment.Document
