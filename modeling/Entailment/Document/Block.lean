import Entailment.Document.Cursor

/-!
# Block scalars

Scalars that are made up of whole lines.  They are indented, by as much as their first line is or as
their header says.  Line ends are kept as they are, or folded as long as the lines begin with no
blank.  The header also says what becomes of the line ends after the last line.
-/

namespace Entailment.Document

/-- What becomes of the line ends after the last line of a block. -/
inductive Chomping where
  | strip | clip | keep
deriving DecidableEq, Repr

/-- What the header of a block says. -/
structure Header where
  chomping : Chomping := .clip
  /-- By how much the block is indented further than what it belongs to, or zero if its first line
  decides. -/
  increment : Nat := 0
deriving Repr

def Header.chomp? : Char → Option Chomping
  | '+' => some .keep
  | '-' => some .strip
  | _ => none

/-- The header of a block, and the line end after it.  Its two parts can stand in either order. -/
def Cursor.header? (c : Cursor) : Option (Header × Cursor) := do
  let chomping? (c : Cursor) : Option (Option Chomping × Cursor) :=
    match c.rest.head?.bind Header.chomp? with
    | some chomping => (c.advance.need? 1).map (some chomping, ·)
    | none => some (none, c)
  let (first, c) ← chomping? (← c.need? 1)
  let (increment, c) ← match c.rest with
    | d :: _ =>
      if d = '0' then none
      else if d.isDigit then (c.advance.need? 1).map (d.toNat - '0'.toNat, ·)
      else some (0, c)
    | [] => some (0, c)
  let (second, c) ← if first.isSome || increment = 0 then some (none, c) else chomping? c
  return (⟨(first.or second).getD .clip, increment⟩, ← c.endLine?)

/-- Indentation and empty lines in front of a line of a block. -/
structure Margin where
  /-- The line ends that were passed. -/
  breaks : List Char
  /-- The greatest column that was reached. -/
  greatest : Nat
  stop : Cursor

/-- Passes over indentation and empty lines.  `indent` is the column up to which spaces are
indentation, or zero if that is not known yet; tabs cannot be. -/
def marginFrom? (indent : Nat) (breaks : List Char) (greatest : Nat) (p : Position) :
    List Char → Option Margin
  | [] => do
    let p ← p.need? 1 []
    return ⟨breaks, max greatest p.column, ⟨p, []⟩⟩
  | '\r' :: '\n' :: rest => do
    let p ← p.need? 1 ('\r' :: '\n' :: rest)
    let p ← p.need? 2 ('\r' :: '\n' :: rest)
    marginFrom? indent (breaks ++ ['\n']) (max greatest p.column) (p.newLine 2) rest
  | c :: rest => do
    let p ← p.need? 1 (c :: rest)
    let inside : Bool := indent = 0 || p.column < indent
    if c = ' ' ∧ inside then marginFrom? indent breaks greatest p.step rest
    else if c = '\t' ∧ inside then none
    else if isBreak c then
      let p ← p.need? 2 (c :: rest)
      marginFrom? indent (breaks ++ [breakText c]) (max greatest p.column) (p.newLine 1) rest
    else return ⟨breaks, max greatest p.column, ⟨p, c :: rest⟩⟩

def Cursor.margin? (c : Cursor) (indent : Nat) : Option Margin :=
  marginFrom? indent [] 0 c.toPosition c.rest

/-- The lines of a block so far. -/
structure Block where
  text : List Char := []
  /-- The end of the last line. -/
  lineEnd : List Char := []
  /-- The ends of empty lines after it. -/
  emptyEnds : List Char := []
  /-- Whether the last line began with a blank. -/
  afterBlank : Bool := false

/-- What stands between the last line and the one that begins with `c`. -/
def Block.joint (b : Block) (literal : Bool) (c : Char) : List Char :=
  if !literal && !b.afterBlank && !isBlank c && b.lineEnd.head? == some '\n' then
    (if b.emptyEnds.isEmpty then [' '] else []) ++ b.emptyEnds
  else b.lineEnd ++ b.emptyEnds

/-- Passes over the end of a line, unless it is that of the text. -/
def Cursor.lineEnd? (c : Cursor) : Option (List Char × Cursor) :=
  match c.rest with
  | [] => do return ([], ← c.need? 2)
  | d :: _ => do return ([breakText d], ← c.nextLine?)

/-- Reads lines as long as they are indented to the column `indent`.  The number of characters
bounds that of lines. -/
def blockLines? (literal : Bool) (indent : Nat) : Nat → Block → Cursor → Option (Block × Cursor)
  | 0, b, c => some (b, c)
  | n + 1, b, c =>
    match c.rest with
    | [] => some (b, c)
    | first :: _ =>
      if c.column ≠ indent then some (b, c)
      else do
        let (line, stop) ← c.take? (!isBreak ·)
        let text := b.text ++ b.joint literal first ++ line
        let (lineEnd, stop) ← stop.lineEnd?
        let ⟨breaks, _, stop⟩ ← stop.margin? indent
        blockLines? literal indent n ⟨text, lineEnd, breaks, isBlank first⟩ stop

/-- The block scalar whose indicator stands here.  `least` is the column to which it has to be
indented at least. -/
def Cursor.block? (c : Cursor) (literal : Bool) (least : Nat) : Option (List Char × Cursor) := do
  let (header, c) ← c.advance.header?
  let known := if header.increment = 0 then 0 else (least - 1) + header.increment
  let margin ← c.margin? known
  let indent := if known = 0 then max margin.greatest (max least 1) else known
  let c := margin.stop
  let (b, c) ← blockLines? literal indent (c.rest.length + 1) { emptyEnds := margin.breaks } c
  let tail := match header.chomping with
    | .strip => []
    | .clip => b.lineEnd
    | .keep => b.lineEnd ++ b.emptyEnds
  return (b.text ++ tail, c)

end Entailment.Document
