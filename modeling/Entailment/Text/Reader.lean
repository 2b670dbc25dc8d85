import Entailment.Proposition.Build
import Entailment.Text.Token

/-!
# Reading terms

The machinery for reading tokens, and the grammar of terms.  A reader takes tokens from the front of
a list.  If it fails, it says where and why; the tokens it took and the variables it made stay taken
and made, so whoever tries something else has to put the tokens back.

Brackets nest, and the depth of nesting is what recursion goes down on.  It can never exceed the
number of tokens.
-/

namespace Entailment

/-- The variables that can be referred to by name.  Of several with one name the first counts. -/
abbrev Environment := List Variable

namespace Environment

def find? (env : Environment) (name : String) : Option Variable :=
  List.find? (fun (v : Variable) => v.name == name) env

/-- Adds a variable, unless its name is taken. -/
def declare? (env : Environment) (v : Variable) : Option Environment :=
  if (env.find? v.name).isSome then none else some (v :: env)

end Environment

/-- What can be wrong with a text. -/
inductive Complaint where
  | unknownText
  | unknownToken
  | unknownExpression
  | bracesRequired
  | expectedClosing
  | expectedComma
  | expectedDot
  | expectedVariable
  | expectedRelation
  | unexpectedRelation
  | boundTwice
deriving DecidableEq, Repr

def Complaint.text : Complaint → String
  | .unknownText => "unknown text encountered"
  | .unknownToken => "unknown token"
  | .unknownExpression => "unknown expression"
  | .bracesRequired => "braces required"
  | .expectedClosing => "expected ')'"
  | .expectedComma => "expected ','"
  | .expectedDot => "expected '.'"
  | .expectedVariable => "expected variable"
  | .expectedRelation => "relation expected"
  | .unexpectedRelation => "unexpected relation"
  | .boundTwice => "variable already bound"

/-- Why tokens cannot be read: they do not fit the grammar, or what they say is malformed. -/
inductive Unreadable where
  | complaint (span : Span) (c : Complaint)
  | malformed (cause : Malformed)
deriving Repr

namespace Reader

structure State where
  tokens : List Token
  /-- The number for the next variable. -/
  fresh : Nat

/-- What names mean, and where the text ends. -/
structure Context where
  length : Nat
  environment : Environment
  /-- Variables of the quantifiers around, innermost first. -/
  bound : List Variable

end Reader

abbrev Reader := EStateM Unreadable Reader.State

namespace Reader

/-- What a name refers to: the innermost variable bound around it, or else a declared one. -/
def Context.resolve (ctx : Context) (name : String) : Option Variable :=
  (Environment.find? ctx.bound name).or (ctx.environment.find? name)

/-- The kind of the next token; after the last one comes the end. -/
def peek : Reader TokenKind := do
  match (← get).tokens with
  | t :: _ => return t.kind
  | [] => return .ending

/-- Where the next token is. -/
def position (ctx : Context) : Reader Span := do
  match (← get).tokens with
  | t :: _ => return t.span
  | [] => return ⟨ctx.length, ctx.length⟩

def complainAt {α : Type} (span : Span) (c : Complaint) : Reader α := throw (.complaint span c)

def complain {α : Type} (ctx : Context) (c : Complaint) : Reader α := do
  complainAt (← position ctx) c

/-- Passes over the next token. -/
def advance : Reader Unit := modify fun s => { s with tokens := s.tokens.tail }

/-- Passes over the next token if it is of the given kind, and tells whether it was. -/
def accept (kind : TokenKind) : Reader Bool := do
  if (← peek) = kind then
    advance
    return true
  return false

/-- The next token has to be of the given kind. -/
def expect (ctx : Context) (kind : TokenKind) (c : Complaint) : Reader Unit := do
  unless ← accept kind do complain ctx c

/-- Passes over the next token and gives its text. -/
def takeText : Reader (List Char) := do
  match (← get).tokens with
  | t :: _ =>
    advance
    return t.text
  | [] => return []

/-- The number of tokens left, which bounds every repetition. -/
def remaining : Reader Nat := return (← get).tokens.length

def readNumber (digits : List Char) : Nat := digits.foldl (fun n c => 10 * n + (c.toNat - 48)) 0

/-- Operands after the first one, all joined by the same operator. -/
def operands (ctx : Context) (operand : Reader Term) (op : Operator) : Nat → Reader (List Term)
  | 0 => return []
  | n + 1 => do
    match ← peek with
    | .operator op' =>
      if op' ≠ op then complain ctx .bracesRequired
      advance
      let t ← operand
      return t :: (← operands ctx operand op n)
    | _ => return []

/-- Operands joined by one operator, which become the arguments of a single application. -/
def termOver (ctx : Context) (operand : Reader Term) : Reader Term := do
  let first ← operand
  match ← peek with
  | .operator op => return .app op.head (first :: (← operands ctx operand op (← remaining)))
  | _ => return first

/-- Arguments up to the closing bracket, separated by commas. -/
def arguments (ctx : Context) (argument : Reader Term) : Nat → Bool → Reader (List Term)
  | 0, _ => complain ctx .expectedComma
  | n + 1, first => do
    if ← accept .closing then return []
    unless first do expect ctx .comma .expectedComma
    let t ← argument
    return t :: (← arguments ctx argument n false)

/-- A term in brackets, a number, a name, or a name applied to arguments. -/
def operand (ctx : Context) : Nat → Reader Term
  | 0 => complain ctx .unknownExpression
  | depth + 1 => do
    match ← peek with
    | .opening =>
      advance
      let t ← termOver ctx (operand ctx depth)
      expect ctx .closing .expectedClosing
      return t
    | .name =>
      let name := String.ofList (← takeText)
      if ← accept .opening then
        let argument := termOver ctx (operand ctx depth)
        return .app name (← arguments ctx argument ((← remaining) + 1) true)
      match ctx.resolve name with
      | some v => return .var v
      | none => return .const name
    | .number => return .num (readNumber (← takeText))
    | _ => complain ctx .unknownExpression

/-- A term whose brackets nest no deeper than given. -/
def term (ctx : Context) (depth : Nat) : Reader Term := termOver ctx (operand ctx depth)

end Reader

end Entailment
