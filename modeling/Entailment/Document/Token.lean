import Entailment.Document.Bytes
import Entailment.Document.Cursor
import Entailment.Document.Digits

/-!
# Tokens of a document

The words that the structure of a document is read from.  Where structure is given by indentation,
there are tokens for where a sequence or mapping begins and ends.
-/

namespace Entailment.Document

inductive Token where
  | textEnd
  | documentStart
  | documentEnd
  /-- The version of the language that a document is written in. -/
  | version (major minor : Nat)
  /-- An abbreviation for what tags begin with. -/
  | abbreviation (handle full : String)
  | blockSequence
  | blockMapping
  | blockEnd
  | openBracket
  | closeBracket
  | openBrace
  | closeBrace
  | entry
  | comma
  | key
  | value
  | reference (name : String)
  | anchor (name : String)
  | tag (handle suffix : String)
  | scalar (text : String) (plain : Bool)
deriving DecidableEq, Repr

/-- Characters of names. -/
def isNameChar (c : Char) : Bool := c.isAlphanum || c == '_' || c == '-'

namespace Cursor

/-- The name after the character that stands here. -/
def name? (c : Cursor) : Option (String × Cursor) := do
  let (name, stop) ← c.advance.take? isNameChar
  let ends : Bool := endsWord stop.rest || stop.rest.head?.any "?:,]\x7d%@\x60".toList.contains
  if name.isEmpty || !ends then none else some (String.ofList name, stop)

section Tags

/-- Characters of tags, apart from the percent sign that escapes others. -/
def isTagChar (c : Char) : Bool := isNameChar c || ";/?:@&=+$.,!~*\x27()[]".toList.contains c

/-- A byte in hexadecimal digits after a percent sign. -/
def escapedByte? (c : Cursor) : Option (Nat × Cursor) := do
  let c ← c.need? 3
  match c.rest with
  | '%' :: a :: b :: _ => return (← digits? 16 [a, b], c.advanceBy 3)
  | _ => none

/-- Goes on with a character of which `n` bytes are missing. -/
def escapedBytes? (value : Nat) : Nat → Cursor → Option (Nat × Cursor)
  | 0, c => some (value, c)
  | n + 1, c => do
    let (byte, c) ← c.escapedByte?
    if Bytes.isFurther byte then escapedBytes? (Bytes.addBits value byte) n c else none

/-- Takes the characters of a tag, bounded by the number of characters there are. -/
def tagText? : Nat → Cursor → Option (List Char × Cursor)
  | 0, c => some ([], c)
  | n + 1, c => do
    let c ← c.need? 1
    match c.rest with
    | '%' :: _ =>
      let (byte, c) ← c.escapedByte?
      let count ← Bytes.count? byte
      let (value, c) ← escapedBytes? (Bytes.leadingBits byte count) (count - 1) c
      let (text, c) ← tagText? n c
      return (Char.ofNat value :: text, c)
    | d :: _ =>
      if isTagChar d then
        let (text, c) ← tagText? n c.advance
        return (d :: text, c)
      else return ([], c)
    | [] => return ([], c)

/-- The text of a tag from here on, which may be empty. -/
def tagRest? (c : Cursor) : Option (List Char × Cursor) := tagText? (c.rest.length + 1) c

/-- An exclamation mark, and the name and second mark that may follow it. -/
def tagHandle? (c : Cursor) : Option (List Char × Cursor) := do
  let (name, stop) ← c.advance.take? isNameChar
  match stop.rest with
  | '!' :: _ => return ('!' :: name ++ ['!'], stop.advance)
  | _ => return ('!' :: name, stop)

/-- The tag that begins here: in full between angle brackets, after a handle, or a local one. -/
def tag? (c : Cursor) : Option (Token × Cursor) := do
  let c ← c.need? 2
  let (token, stop) ← match c.rest with
    | _ :: '<' :: _ => do
      let (text, stop) ← (c.advanceBy 2).tagRest?
      if text.isEmpty ∨ stop.rest.head? ≠ some '>' then none
      else some (Token.tag "" (String.ofList text), stop.advance)
    | _ => do
      let (handle, stop) ← c.tagHandle?
      let (text, stop) ← stop.tagRest?
      if 1 < handle.length ∧ handle.getLast? = some '!' then
        if text.isEmpty then none
        else some (Token.tag (String.ofList handle) (String.ofList text), stop)
      else
        let suffix := handle.tail ++ text
        let token := if suffix.isEmpty then Token.tag "" "!" else .tag "!" (String.ofList suffix)
        some (token, stop)
  let stop ← stop.need? 1
  if endsWord stop.rest then return (token, stop) else none

end Tags

section Directives

/-- A number of one or two digits. -/
def shortNumber? (c : Cursor) : Option (Nat × Cursor) := do
  let (digits, stop) ← c.take? Char.isDigit
  if 2 < digits.length then none else return (← digits? 10 digits, stop)

/-- The version after the word for it. -/
def version? (c : Cursor) : Option (Token × Cursor) := do
  let (major, stop) ← (← c.passBlanks?).shortNumber?
  if stop.rest.head? ≠ some '.' then none
  let (minor, stop) ← stop.advance.shortNumber?
  return (.version major minor, stop)

/-- The abbreviation after the word for it. -/
def abbreviation? (c : Cursor) : Option (Token × Cursor) := do
  let c ← c.passBlanks?
  if c.rest.head? ≠ some '!' then none
  let (handle, stop) ← c.tagHandle?
  if handle ≠ ['!'] ∧ (handle.length < 2 ∨ handle.getLast? ≠ some '!') then none
  let stop ← stop.need? 1
  if ¬stop.rest.head?.any isBlank then none
  let (text, stop) ← (← stop.passBlanks?).tagRest?
  if text.isEmpty ∨ ¬endsWord stop.rest then none
  return (.abbreviation (String.ofList handle) (String.ofList text), stop)

/-- The directive that begins here, and its line end. -/
def directive? (c : Cursor) : Option (Token × Cursor) := do
  let (name, stop) ← c.advance.take? isNameChar
  if ¬endsWord stop.rest then none
  let (token, stop) ←
    if name = "YAML".toList then stop.version?
    else if name = "TAG".toList then stop.abbreviation?
    else none
  return (token, ← stop.endLine?)

end Directives

end Cursor

end Entailment.Document
