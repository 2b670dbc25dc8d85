import Entailment.Document.Base64
import Entailment.Document.Decimal
import Entailment.Document.Moment

/-!
# Documents

The content of a structured document: scalars, sequences and mappings.  A scalar is a piece of text;
what it means depends on its tag, or, if it has none, on how it is written.
-/

namespace Entailment.Document

namespace Tag

/-- What the tags of common types begin with. -/
def common : String := "tag:yaml.org,2002:"

def null : String := "!!null"
def flag : String := "!!bool"
def integer : String := "!!int"
def real : String := "!!float"
def text : String := "!!str"
def moment : String := "!!timestamp"
def bytes : String := "!!binary"
def merge : String := "!!merge"

/-- The short form of a tag. -/
def shorten (tag : String) : String :=
  if tag.startsWith common then "!!" ++ (tag.drop common.length).toString else tag

end Tag

/-- What a scalar can mean. -/
inductive Value where
  | null
  | flag (b : Bool)
  | integer (n : Int)
  | real (x : Real)
  | moment
  | text (s : String)
deriving DecidableEq, Repr

namespace Value

/-- The tag of a value's type. -/
def tag : Value → String
  | .null => Tag.null
  | .flag _ => Tag.flag
  | .integer _ => Tag.integer
  | .real _ => Tag.real
  | .moment => Tag.moment
  | .text _ => Tag.text

/-- Words that mean something. -/
def ofWord? (s : String) : Option Value :=
  if ["", "~", "null", "Null", "NULL"].contains s then some .null
  else if ["true", "True", "TRUE"].contains s then some (.flag true)
  else if ["false", "False", "FALSE"].contains s then some (.flag false)
  else if [".nan", ".NaN", ".NAN"].contains s then some (.real .undefined)
  else if [".inf", ".Inf", ".INF", "+.inf", "+.Inf", "+.INF"].contains s then
    some (.real (.infinite false))
  else if ["-.inf", "-.Inf", "-.INF"].contains s then some (.real (.infinite true))
  else none

/-- Whole numbers in 64 bits.  Half of them can have a sign. -/
def whole? (cs : List Char) : Option Int := do
  let (negative, digits) := splitSign cs
  let n ← number? digits
  if isSignedWord negative n ∨ (digits = cs ∧ isWord n) then some (signed negative n) else none

/-- Whole numbers in base two or eight, with a sign after the letters that select the base. -/
def wholeAfterBase? : List Char → Option Int
  | '0' :: 'b' :: cs => inner? 2 cs
  | '0' :: 'o' :: cs => inner? 8 cs
  | _ => none
where
  /-- A sign and digits of a base. -/
  inner? (base : Nat) (cs : List Char) : Option Int := do
    let (negative, digits) := splitSign cs
    let n ← digits? base digits
    if digits ≠ cs ∧ isSignedWord negative n then some (signed negative n) else none

/-- Numbers.  They begin with a digit, a sign or a point.  Underscores in them have no meaning, but
in one that begins with a point they have to stand between digits. -/
def ofNumber? (cs : List Char) : Option Value :=
  match cs with
  | '.' :: _ => if isSeparated cs then (decimal? (joined cs)).map .real else none
  | c :: _ =>
    let digits := joined cs
    if c = '+' ∨ c = '-' ∨ c.isDigit then
      ((whole? digits).map .integer).or
        (((decimal? digits).map .real).or ((wholeAfterBase? digits).map .integer))
    else none
  | [] => none

/-- What a text means by the way it is written.  A moment is not told from other texts. -/
def ofText (s : String) : Value := ((ofWord? s).or (ofNumber? s.toList)).getD (.text s)

/-- What a text means as a value with a tag.  A whole number can stand for a real one, and a tag
that is not known leaves any text as it is. -/
def tagged? (tag s : String) : Option Value :=
  if tag = Tag.bytes then (Base64.decode? s).map .text
  else if tag = Tag.moment then if Moment.isMoment s then some .moment else none
  else if ¬[Tag.null, Tag.flag, Tag.integer, Tag.real].contains tag then some (.text s)
  else
    match ofText s with
    | .integer n =>
      if tag = Tag.integer then some (.integer n)
      else if tag = Tag.real ∧ isSignedWord (n < 0) n.natAbs then
        (wholePart? n.natAbs 1).map fun whole => .real (.finite (signed (n < 0) whole))
      else none
    | value => if tag = value.tag then some value else none

end Value

/-- A piece of text.  Quotes, or a layout of its own, mark it as nothing but text. -/
structure Scalar where
  text : String
  quoted : Bool := false
  tag : Option String := none
deriving DecidableEq, Repr, Inhabited

namespace Scalar

/-- The empty scalar that stands where nothing is written. -/
def empty : Scalar := { text := "" }

/-- What a scalar means.  A tag has to fit the text. -/
def value? (s : Scalar) : Option Value :=
  match s.tag with
  | none => some (if s.quoted then .text s.text else .ofText s.text)
  | some tag => Value.tagged? tag s.text

def isNull (s : Scalar) : Bool := s.value? == some .null

/-- Whether the entries of a mapping with this key are those of other mappings. -/
def isMerge (s : Scalar) : Bool :=
  s.text == "<<" && ((s.tag.isNone && !s.quoted) || s.tag == some Tag.merge)

end Scalar

inductive Node where
  | scalar (s : Scalar)
  | sequence (items : List Node) (tag : Option String)
  | mapping (entries : List (Node × Node)) (tag : Option String)
  /-- A node that was given a name before, by its place among all that have names.  References have
  numbers of their own. -/
  | reference (number : Nat) (name : String) (place : Nat)
deriving Repr, Inhabited

namespace Node

def empty : Node := .scalar .empty

mutual

/-- The number of nodes, counting references but not what they refer to. -/
def size : Node → Nat
  | .scalar _ | .reference _ _ _ => 1
  | .sequence items _ => sizeOver items + 1
  | .mapping entries _ => sizeBelow entries + 1

def sizeOver : List Node → Nat
  | [] => 0
  | n :: rest => n.size + sizeOver rest

def sizeBelow : List (Node × Node) → Nat
  | [] => 0
  | (key, value) :: rest => key.size + value.size + sizeBelow rest

end

end Node

/-- What a document holds: its root, and the nodes that have names. -/
structure Content where
  root : Node
  named : Array Node := #[]

/-- How deep nodes can nest, seen through references, as long as no reference is seen through inside
of itself. -/
def Content.bound (c : Content) : Nat := (c.root.size + 1) * (c.root.size + 1)

end Entailment.Document
