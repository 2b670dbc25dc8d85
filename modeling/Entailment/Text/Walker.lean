import Entailment.Text.Reader

/-!
# Reading by position

Reading once more, in a way that can go wrong. Scanners are given what is left of a text and may be
asked to go on beyond its end. Tokens stand in a row that ends with the end of the text, a position
in it goes back and forth without any guard, and the variables in scope are on a stack. A token that
has been seen before is expected to be there, and what has been read is handed to constructors that
refuse some of it.

Where something taken for granted is not so, there is a `Crash`, which is neither an answer nor a
complaint. Loops and brackets are given a number of steps, and using up that number is a crash too.
-/
namespace Entailment

/-- What stops a reader that takes too much for granted. -/
inductive Crash where
  | outOfRange
  | unexpectedToken
  | invalidSpan
  | unreachable
  | endless
  | malformed (cause : Malformed)
deriving Repr

namespace Scanner

/-- Scans in a row, as long as anything is accepted. -/
def scanRepeated (scan : List Char → Except Crash Nat) : Nat → List Char → Except Crash Nat
  | _, [] => return 0
  | 0, _ :: _ => throw .endless
  | n + 1, text => do
    let k ← scan text
    if k = 0 then return 0
    return k + (← scanRepeated scan n (text.drop k))

mutual

/-- The number of characters accepted. The second of two scanners goes on where the first one
stopped, and that has to be within the text. -/
def scan : Scanner → List Char → Except Crash Nat
  | .word w, text => return accept (.word w) text
  | .within low high, text => return accept (.within low high) text
  | .many inner, text => scanRepeated (scan inner) text.length text
  | .oneOf alternatives, text => scanFirst alternatives text
  | .andThen first second, text => do
    let k ← scan first text
    if k = 0 then return 0
    if text.length < k then throw .outOfRange
    return k + (← scan second (text.drop k))
  | .ending, text => return accept .ending text

def scanFirst : List Scanner → List Char → Except Crash Nat
  | [], _ => return 0
  | s :: rest, text => do
    let k ← scan s text
    if k = 0 then scanFirst rest text
    else return k

end

end Scanner

namespace LexRule
variable {κ : Type}

/-- The first rule that accepts anything, with how much it accepts. -/
def scanRules (text : List Char) : List (LexRule κ) → Except Crash (Option (κ × Nat))
  | [] => return none
  | r :: rest => do
    let n ← r.scanner.scan text
    if n = 0 then scanRules text rest
    else return some (r.kind, n)

/-- Cuts a text into lexemes from a position on, and tells where this came to an end. The end of the
text is passed when it is accepted. -/
def collect (rules : List (LexRule κ)) (text : List Char) :
    Nat → Nat → Except Crash (List (Lexeme κ) × Nat)
  | 0, _ => throw .endless
  | n + 1, index => do
    if text.length < index then return ([], index)
    match ← scanRules (text.drop index) rules with
    | none => return ([], index)
    | some (kind, k) =>
      let stop := min text.length (index + k)
      if stop < index then throw .invalidSpan
      let (lexemes, last) ← collect rules text n (if index = text.length then index + 1 else stop)
      return (⟨kind, index, stop⟩ :: lexemes, last)

end LexRule

namespace Walker

/-- Tokens in a row, the last of which is the end of the text. -/
structure Row where
  text : List Char
  environment : Environment
  lexemes : List (Lexeme TokenKind)

/-- Why there is no answer: there are complaints, or something taken for granted is not so. -/
inductive Stop where
  | errors (complaints : List (Span × Complaint))
  | crash (cause : Crash)
deriving Repr

/-- Where a reader is. -/
structure Cursor where
  index : Nat
  /-- Variables of the quantifiers around, innermost last. -/
  scope : List Variable
  /-- The number for the next variable. -/
  fresh : Nat

end Walker

abbrev Walker := EStateM Walker.Stop Walker.Cursor

namespace Walker

instance : MonadLift (Except Crash) Walker where
  monadLift
    | .ok x => pure x
    | .error cause => throw (.crash cause)

def build : Except Malformed Proposition → Walker Proposition
  | .ok p => return p
  | .error cause => throw (.crash (.malformed cause))

/-- The text of a lexeme, which has to be within the whole text. -/
def slice (text : List Char) (l : Lexeme TokenKind) : Except Crash (List Char) :=
  if l.start ≤ l.stop ∧ l.stop ≤ text.length then
    return (text.drop l.start).take (l.stop - l.start)
  else throw .outOfRange

/-- Tells reserved words from names. -/
def kindOf (word : String) : TokenKind → TokenKind
  | .name => (Token.keyword? word).getD .name
  | kind => kind

def reclassify (text : List Char) (l : Lexeme TokenKind) : Except Crash (Lexeme TokenKind) := do
  return { l with kind := kindOf (String.ofList (← slice text l)) l.kind }

/-- The lexemes that a text is read from. Blanks are left out. -/
def rowOf (text : List Char) (lexemes : List (Lexeme TokenKind)) :
    Except Crash (List (Lexeme TokenKind)) :=
  (lexemes.filter (·.kind ≠ .space)).mapM (reclassify text)

section Steps
variable (w : Row)

def lookahead : Walker (Lexeme TokenKind) := do
  match w.lexemes[(← get).index]? with
  | some l => return l
  | none => throw (.crash .outOfRange)

def step : Walker Unit := modify fun k => { k with index := k.index + 1 }

/-- Passes over the next token if it is of the given kind, and tells whether it was. -/
def pass (kind : TokenKind) : Walker Bool := do
  if (← lookahead w).kind = kind then
    step
    return true
  return false

/-- Passes over the next token, which is known to be of the given kind. -/
def expect (kind : TokenKind) : Walker (Lexeme TokenKind) := do
  let l ← lookahead w
  if l.kind ≠ kind then throw (.crash .unexpectedToken)
  step
  return l

def textOf (l : Lexeme TokenKind) : Walker (List Char) := slice w.text l

def fail {α : Type} (l : Lexeme TokenKind) (c : Complaint) : Walker α :=
  throw (.errors [(⟨l.start, l.stop⟩, c)])

/-- The next token has to be of the given kind. -/
def require (kind : TokenKind) (c : Complaint) : Walker Unit := do
  unless ← pass w kind do fail (← lookahead w) c

/-- Looks at the next token afterwards, also if there were errors. -/
def withNext {α : Type} (r : Walker α) : Walker (α × TokenKind) := do
  let x ←
    try r
    catch
      | .crash cause => throw (.crash cause)
      | .errors errs =>
        let _ ← lookahead w
        throw (.errors errs)
  return (x, (← lookahead w).kind)

/-- Reads with a variable in scope, which is taken out of it again even if there were errors. -/
def within {α : Type} (v : Variable) (r : Walker α) : Walker α := do
  modify fun k => { k with scope := k.scope ++ [v] }
  let x ←
    try r
    catch
      | .crash cause => throw (.crash cause)
      | .errors errs =>
        leave
        throw (.errors errs)
  leave
  return x
where
  leave : Walker Unit := do
    if (← get).scope.isEmpty then throw (.crash .outOfRange)
    modify fun k => { k with scope := k.scope.dropLast }

/-- Tries one reader and, if it complains, another one from the same position. If both complain, the
first of their complaints are compared, and the second reader counts only if its is further on. -/
def orElse {α : Type} (first second : Walker α) : Walker α := do
  let start := (← get).index
  try first
  catch
    | .crash cause => throw (.crash cause)
    | .errors errs =>
      modify fun k => { k with index := start }
      try second
      catch
        | .crash cause => throw (.crash cause)
        | .errors errs' =>
          match errs'[0]?, errs[0]? with
          | some (span', _), some (span, _) =>
            if span'.start > span.start then throw (.errors errs') else throw (.errors errs)
          | _, _ => throw (.crash .outOfRange)

end Steps

section Grammar
variable (w : Row)

/-- What comes after the first part, with signs of one kind between the parts. -/
def further {α : Type} (joins : TokenKind → Bool) (part : Walker α) (kind : TokenKind) :
    Nat → Walker (List α)
  | 0 => throw (.crash .endless)
  | n + 1 => do
    let l ← lookahead w
    if joins l.kind then
      if l.kind ≠ kind then fail l .bracesRequired
      let _ ← expect w kind
      let x ← part
      return x :: (← further joins part kind n)
    return []

def joinsTerms : TokenKind → Bool
  | .operator _ => true
  | _ => false

def joinsPropositions : TokenKind → Bool
  | .connective _ => true
  | _ => false

/-- The symbol for an operation. -/
def headOf : TokenKind → String
  | .operator op => op.head
  | _ => ""

def termOver (operand : Walker Term) : Walker Term := do
  let (first, kind) ← withNext w operand
  match ← further w joinsTerms operand kind w.lexemes.length with
  | [] => return first
  | rest => return .app (headOf kind) (first :: rest)

def arguments (argument : Walker Term) : Nat → Bool → Walker (List Term)
  | 0, _ => throw (.crash .endless)
  | n + 1, first => do
    if ← pass w .closing then return []
    unless first do require w .comma .expectedComma
    let t ← argument
    return t :: (← arguments argument n false)

def operand : Nat → Walker Term
  | 0 => throw (.crash .endless)
  | depth + 1 => do
    let l ← lookahead w
    match l.kind with
    | .opening =>
      let _ ← expect w .opening
      let t ← termOver w (operand depth)
      require w .closing .expectedClosing
      return t
    | .name =>
      let name := String.ofList (← textOf w (← expect w .name))
      if ← pass w .opening then
        let argument := termOver w (operand depth)
        return .app name (← arguments w argument (w.lexemes.length + 1) true)
      match (Environment.find? (← get).scope.reverse name).or (w.environment.find? name) with
      | some v => return .var v
      | none => return .const name
    | .number => return .num (Reader.readNumber (← textOf w (← expect w .number)))
    | _ => fail l .unknownExpression

def term (depth : Nat) : Walker Term := termOver w (operand w depth)

def junction (member : Walker Proposition) : Walker Proposition := do
  let (first, kind) ← withNext w member
  match ← further w joinsPropositions member kind w.lexemes.length with
  | [] => return first
  | rest =>
    match kind with
    | .connective c => build (Proposition.junction? c ((first :: rest).map some))
    | _ => throw (.crash .unreachable)

def implication (member : Walker Proposition) : Nat → Walker Proposition
  | 0 => throw (.crash .endless)
  | n + 1 => do
    let antecedent ← junction w member
    if ← pass w .implies then return .implies antecedent (← implication member n)
    return antecedent

def formulaOver (member : Walker Proposition) : Walker Proposition := do
  let left ← implication w member w.lexemes.length
  if ← pass w .iff then
    let right ← implication w member w.lexemes.length
    let l ← lookahead w
    if l.kind = .iff then fail l .bracesRequired
    return .iff left right
  return left

def atom (depth : Nat) : Walker Proposition := do
  let start ← lookahead w
  let lhs ← term w depth
  let l ← lookahead w
  match l.kind, lhs with
  | .relation r, _ =>
    let _ ← expect w l.kind
    return .rel r lhs (← term w depth)
  | _, .const name => return .relation name []
  | _, .app head args =>
    if Term.isOperator head then fail start .expectedRelation
    return .relation head args
  | _, _ => fail start .expectedRelation

def closeFormula (p : Proposition) : Walker Proposition := do
  require w .closing .expectedClosing
  let l ← lookahead w
  match l.kind with
  | .relation _ | .operator _ => fail l .unexpectedRelation
  | _ => return p

def quantifiedVariable : Walker Variable := do
  let l ← lookahead w
  unless ← pass w .name do fail l .expectedVariable
  let name := String.ofList (← textOf w l)
  if (Environment.find? (← get).scope.reverse name).isSome then fail l .boundTwice
  match w.environment.find? name with
  | some v => return v
  | none => modifyGet fun k => (⟨k.fresh, name⟩, { k with fresh := k.fresh + 1 })

def member : Nat → Walker Proposition
  | 0 => throw (.crash .endless)
  | depth + 1 => do
    let l ← lookahead w
    match l.kind with
    | .not =>
      let _ ← expect w .not
      return .not (← member depth)
    | .quantifier q =>
      let _ ← expect w l.kind
      let v ← quantifiedVariable w
      let domain ← if ← pass w (.relation .element) then some <$> term w depth else pure none
      require w .dot .expectedDot
      let body ← within v (formulaOver w (member depth))
      build (Proposition.quantified? q (some v) domain body)
    | .opening =>
      orElse
        (do
          let _ ← expect w .opening
          let p ← formulaOver w (member depth)
          closeFormula w p)
        (atom w (depth + 1))
    | _ => atom w (depth + 1)

def formula (depth : Nat) : Walker Proposition := formulaOver w (member w depth)

/-- Reads all of a row, except for the end. -/
def whole {α : Type} (r : Walker α) : Walker α := do
  let x ← r
  if (← get).index + 1 < w.lexemes.length then fail (← lookahead w) .unknownToken
  return x

end Grammar

/-- Reads a text by position, starting with the given number for new variables. -/
def readAll {α : Type} (grammar : Row → Nat → Walker α) (source : Source) (env : Environment)
    (fresh : Nat) : Except Stop α × Nat :=
  match LexRule.collect Token.rules source.text (source.text.length + 2) 0 with
  | .error cause => (.error (.crash cause), fresh)
  | .ok (lexemes, last) =>
    if last < source.text.length then
      (.error (.errors [(⟨last, source.text.length⟩, .unknownText)]), fresh)
    else
      match rowOf source.text lexemes with
      | .error cause => (.error (.crash cause), fresh)
      | .ok lexemes =>
        let w : Row := ⟨source.text, env, lexemes⟩
        match EStateM.run (whole w (grammar w lexemes.length)) ⟨0, [], fresh⟩ with
        | .ok x k => (.ok x, k.fresh)
        | .error e k => (.error e, k.fresh)

end Walker

namespace Source

/-- Reads the text as a proposition, by position. -/
def walkProposition (source : Source) (env : Environment) (fresh : Nat) :
    Except Walker.Stop Proposition × Nat :=
  Walker.readAll Walker.formula source env fresh

/-- Reads the text as a term, by position. -/
def walkTerm (source : Source) (env : Environment) (fresh : Nat) :
    Except Walker.Stop Term × Nat :=
  Walker.readAll Walker.term source env fresh

end Source
end Entailment
