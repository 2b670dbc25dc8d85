import Entailment.Proposition.Basic
import Entailment.Text.Scanner
import Entailment.Text.Source

/-!
# Tokens

The words and signs that propositions are written with.  Most have a mathematical sign and a
spelling for keyboards; connectives and quantifiers can also be spelled out as words, which are then
not available as names.
-/

namespace Entailment

/-- The operations written between terms. -/
inductive Operator where
  | add | sub | mul | union | intersection
deriving DecidableEq, Repr

def Operator.head : Operator → String
  | .add => "+"
  | .sub => "-"
  | .mul => "*"
  | .union => "∪"
  | .intersection => "∩"

inductive TokenKind where
  | ending
  | space
  | opening
  | closing
  | comma
  | dot
  | number
  | name
  | relation (r : Relation)
  | operator (op : Operator)
  | not
  | connective (c : Connective)
  | implies
  | iff
  | quantifier (q : Quantifier)
deriving DecidableEq, Repr

structure Token where
  kind : TokenKind
  span : Span
  text : List Char
deriving Repr

namespace Token

def word (w : String) : Scanner := .word w.toList

def whitespace : Scanner := .many (.oneOf [word " ", word "\t", word "\n", word "\r"])

def digit : Scanner := .within '0' '9'

def lower : Scanner := .within 'a' 'z'

def upper : Scanner := .within 'A' 'Z'

def number : Scanner := .andThen digit (.many digit)

/-- Names start with a letter or an underscore, and go on with letters, digits, underscores and
primes. -/
def identifier : Scanner :=
  .andThen (.oneOf [word "_", lower, upper])
    (.many (.oneOf [word "_", word "'", digit, lower, upper]))

/-- How tokens are spelled.  Where one spelling begins another, the longer one comes first. -/
def rules : List (LexRule TokenKind) :=
  [⟨word "(", .opening⟩,
    ⟨word ")", .closing⟩,
    ⟨word ",", .comma⟩,
    ⟨word ".", .dot⟩,
    ⟨word "<->", .iff⟩,
    ⟨word "↔", .iff⟩,
    ⟨word "->", .implies⟩,
    ⟨word "→", .implies⟩,
    ⟨word "<=", .relation .lessEqual⟩,
    ⟨word "≤", .relation .lessEqual⟩,
    ⟨word "<", .relation .less⟩,
    ⟨word ">=", .relation .greaterEqual⟩,
    ⟨word "≥", .relation .greaterEqual⟩,
    ⟨word ">", .relation .greater⟩,
    ⟨word "!=", .relation .notEqual⟩,
    ⟨word "≠", .relation .notEqual⟩,
    ⟨word "=", .relation .equal⟩,
    ⟨word "!", .not⟩,
    ⟨word "¬", .not⟩,
    ⟨word "&&", .connective .and⟩,
    ⟨word "∧", .connective .and⟩,
    ⟨word "||", .connective .or⟩,
    ⟨word "∨", .connective .or⟩,
    ⟨word "^", .connective .exor⟩,
    ⟨word "⊕", .connective .exor⟩,
    ⟨word "∀", .quantifier .all⟩,
    ⟨word "∃", .quantifier .exist⟩,
    ⟨word "∈", .relation .element⟩,
    ⟨word "⊂", .relation .properSubset⟩,
    ⟨word "⊆", .relation .subset⟩,
    ⟨word "⊃", .relation .properSuperset⟩,
    ⟨word "⊇", .relation .superset⟩,
    ⟨word "+", .operator .add⟩,
    ⟨word "-", .operator .sub⟩,
    ⟨word "*", .operator .mul⟩,
    ⟨word "∪", .operator .union⟩,
    ⟨word "∩", .operator .intersection⟩,
    ⟨whitespace, .space⟩,
    ⟨number, .number⟩,
    ⟨identifier, .name⟩,
    ⟨.ending, .ending⟩]

/-- What a name stands for if it is a reserved word. -/
def keyword? : String → Option TokenKind
  | "forall" => some (.quantifier .all)
  | "exists" => some (.quantifier .exist)
  | "in" => some (.relation .element)
  | "not" => some .not
  | "and" => some (.connective .and)
  | "or" => some (.connective .or)
  | "xor" => some (.connective .exor)
  | "implies" => some .implies
  | "iff" => some .iff
  | _ => none

/-- The token of a lexeme, unless that is blank or the end. -/
def ofLexeme? (text : List Char) (l : Lexeme TokenKind) : Option Token :=
  let chars := (text.drop l.start).take (l.stop - l.start)
  let span : Span := ⟨l.start, l.stop⟩
  match l.kind with
  | .space | .ending => none
  | .name => some ⟨(keyword? (String.ofList chars)).getD .name, span, chars⟩
  | kind => some ⟨kind, span, chars⟩

/-- The tokens of a text, or the span of what cannot be cut into tokens. -/
def ofText (text : List Char) : Except Span (List Token) :=
  let lexing := LexRule.lex rules text
  if lexing.remaining = 0 then .ok (lexing.lexemes.filterMap (ofLexeme? text))
  else .error ⟨lexing.index, lexing.index + lexing.remaining⟩

end Token

end Entailment
