import Entailment.Document.Digits
import Entailment.Document.Gap

/-!
# Quoted scalars

Scalars between single quotes, in which a quote is written twice, and between double quotes, in
which a backslash escapes.  A line that separates documents cannot stand inside.
-/

namespace Entailment.Document

/-- The character that a letter after a backslash stands for. -/
def escaped? : Char → Option Char
  | '0' => some '\x00'
  | 'a' => some '\x07'
  | 'b' => some '\x08'
  | 't' | '\t' => some '\t'
  | 'n' => some '\n'
  | 'v' => some '\x0b'
  | 'f' => some '\x0c'
  | 'r' => some '\r'
  | 'e' => some '\x1b'
  | ' ' => some ' '
  | '\x22' => some '\x22'
  | '\x27' => some '\x27'
  | '\\' => some '\\'
  | 'N' => some '\u0085'
  | '_' => some '\u00a0'
  | 'L' => some '\u2028'
  | 'P' => some '\u2029'
  | _ => none

/-- The character with a given number in hexadecimal digits. -/
def hexChar? (digits : List Char) : Option Char := do
  let n ← digits? 16 digits
  if n.isValidChar then some (Char.ofNat n) else none

/-- Goes on with a word after a gap.  It must not separate documents. -/
def Gap.resume? (gap : Gap) (p : Position) (text : List Char) : Option Position := do
  if gap.isEmpty then return p
  let p ← p.need? 4 text
  if p.column = 0 ∧ separatesDocuments text then failure
  return p

/-- Goes on between single quotes.  `seen` is the text so far, in reverse. -/
def singleFrom? (seen : List Char) (gap : Gap) (p : Position) :
    List Char → Option (List Char × Cursor)
  | [] => none
  | '\r' :: '\n' :: rest => do
    let p ← p.need? 2 ('\r' :: '\n' :: rest)
    singleFrom? seen (gap.addBreak '\n') (← (p.newLine 2).need? 1 rest) rest
  | '\x27' :: '\x27' :: rest => do
    let p ← gap.resume? p ('\x27' :: '\x27' :: rest)
    singleFrom? ('\x27' :: gap.after seen) .none (← (p.steps 2).need? 2 rest) rest
  | c :: rest =>
    if isBreak c then do
      let p ← p.need? 2 (c :: rest)
      singleFrom? seen (gap.addBreak c) (← (p.newLine 1).need? 1 rest) rest
    else if isBlank c then do
      singleFrom? seen (gap.addBlank c) (← p.step.need? 1 rest) rest
    else do
      let p ← gap.resume? p (c :: rest)
      if c = '\x27' then return ((gap.after seen).reverse, ⟨p.step, rest⟩)
      singleFrom? (c :: gap.after seen) .none (← p.step.need? 2 rest) rest

/-- Goes on between double quotes. -/
def doubleFrom? (seen : List Char) (gap : Gap) (p : Position) :
    List Char → Option (List Char × Cursor)
  | [] => none
  | '\r' :: '\n' :: rest => do
    let p ← p.need? 2 ('\r' :: '\n' :: rest)
    doubleFrom? seen (gap.addBreak '\n') (← (p.newLine 2).need? 1 rest) rest
  | '\\' :: '\r' :: '\n' :: rest => do
    let p ← gap.resume? p ('\\' :: '\r' :: '\n' :: rest)
    let p ← p.need? 3 ('\\' :: '\r' :: '\n' :: rest)
    let p ← (p.step.newLine 2).need? 1 rest
    match rest with
    | '\x22' :: rest => return ((gap.after seen).reverse, ⟨p.step, rest⟩)
    | rest => doubleFrom? (gap.after seen) (.lines none []) p rest
  | '\\' :: 'x' :: a :: b :: rest => do
    let p ← gap.resume? p ('\\' :: 'x' :: a :: b :: rest)
    let p ← (p.steps 2).need? 2 (a :: b :: rest)
    doubleFrom? ((← hexChar? [a, b]) :: gap.after seen) .none (← (p.steps 2).need? 2 rest) rest
  | '\\' :: 'u' :: a :: b :: c :: d :: rest => do
    let p ← gap.resume? p ('\\' :: 'u' :: a :: b :: c :: d :: rest)
    let p ← (p.steps 2).need? 4 (a :: b :: c :: d :: rest)
    doubleFrom? ((← hexChar? [a, b, c, d]) :: gap.after seen) .none
      (← (p.steps 4).need? 2 rest) rest
  | '\\' :: 'U' :: a :: b :: c :: d :: e :: f :: g :: h :: rest => do
    let p ← gap.resume? p ('\\' :: 'U' :: a :: b :: c :: d :: e :: f :: g :: h :: rest)
    let p ← (p.steps 2).need? 8 (a :: b :: c :: d :: e :: f :: g :: h :: rest)
    doubleFrom? ((← hexChar? [a, b, c, d, e, f, g, h]) :: gap.after seen) .none
      (← (p.steps 8).need? 2 rest) rest
  | '\\' :: c :: rest => do
    let p ← gap.resume? p ('\\' :: c :: rest)
    if isBreak c then
      let p ← p.need? 3 ('\\' :: c :: rest)
      let p ← (p.step.newLine 1).need? 1 rest
      match rest with
      | '\x22' :: rest => return ((gap.after seen).reverse, ⟨p.step, rest⟩)
      | rest => doubleFrom? (gap.after seen) (.lines none []) p rest
    else
      doubleFrom? ((← escaped? c) :: gap.after seen) .none (← (p.steps 2).need? 2 rest) rest
  | c :: rest =>
    if isBreak c then do
      let p ← p.need? 2 (c :: rest)
      doubleFrom? seen (gap.addBreak c) (← (p.newLine 1).need? 1 rest) rest
    else if isBlank c then do
      doubleFrom? seen (gap.addBlank c) (← p.step.need? 1 rest) rest
    else do
      let p ← gap.resume? p (c :: rest)
      if c = '\x22' then return ((gap.after seen).reverse, ⟨p.step, rest⟩)
      doubleFrom? (c :: gap.after seen) .none (← p.step.need? 2 rest) rest

namespace Cursor

/-- The scalar between single quotes that begins here. -/
def singleQuoted? (c : Cursor) : Option (List Char × Cursor) := do
  let c ← c.advance.need? 4
  singleFrom? [] .none c.toPosition c.rest

/-- The scalar between double quotes that begins here. -/
def doubleQuoted? (c : Cursor) : Option (List Char × Cursor) := do
  let c ← c.advance.need? 4
  doubleFrom? [] .none c.toPosition c.rest

end Cursor

end Entailment.Document
