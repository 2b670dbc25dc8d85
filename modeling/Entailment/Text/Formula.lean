import Entailment.Text.Reader

/-!
# Reading propositions

The grammar of propositions.  A biconditional joins two implications, an implication joins junctions
and associates to the right, and a junction joins propositions by one connective, so whatever mixes
connectives needs brackets.  A bracket may open a proposition or a term.  Both are tried, and if
neither can be read, the complaint that lies further on is the one to make.
-/

namespace Entailment

namespace Reader

/-- Members after the first one, all joined by the same connective. -/
def members (ctx : Context) (member : Reader Proposition) (c : Connective) :
    Nat → Reader (List Proposition)
  | 0 => return []
  | n + 1 => do
    match ← peek with
    | .connective c' =>
      if c' ≠ c then complain ctx .bracesRequired
      advance
      let p ← member
      return p :: (← members ctx member c n)
    | _ => return []

/-- Propositions joined by one connective. -/
def junction (ctx : Context) (member : Reader Proposition) : Reader Proposition := do
  let first ← member
  match ← peek with
  | .connective c => return .junction c (first :: (← members ctx member c (← remaining)))
  | _ => return first

/-- Junctions joined by arrows, which associate to the right. -/
def implication (ctx : Context) (member : Reader Proposition) : Nat → Reader Proposition
  | 0 => junction ctx member
  | n + 1 => do
    let antecedent ← junction ctx member
    if ← accept .implies then return .implies antecedent (← implication ctx member n)
    return antecedent

/-- One implication, or two joined into a biconditional. -/
def formulaOver (ctx : Context) (member : Reader Proposition) : Reader Proposition := do
  let left ← implication ctx member (← remaining)
  if ← accept .iff then
    let right ← implication ctx member (← remaining)
    if (← peek) = .iff then complain ctx .bracesRequired
    return .iff left right
  return left

/-- A relation between two terms, or a predicate with or without arguments. -/
def atom (ctx : Context) (depth : Nat) : Reader Proposition := do
  let start ← position ctx
  let lhs ← term ctx depth
  match ← peek, lhs with
  | .relation r, _ =>
    advance
    return .rel r lhs (← term ctx depth)
  | _, .const name => return .relation name []
  | _, .app head args =>
    if Term.isOperator head then complainAt start .expectedRelation
    return .relation head args
  | _, _ => complainAt start .expectedRelation

/-- The rest of a bracket that was opened as a proposition.  No term may go on after it. -/
def closeFormula (ctx : Context) (p : Proposition) : Reader Proposition := do
  expect ctx .closing .expectedClosing
  match ← peek with
  | .relation _ | .operator _ => complain ctx .unexpectedRelation
  | _ => return p

/-- Tries one reader and, if it complains, another one on the same tokens.  If both complain, the
second complaint counts only if it lies further on. -/
def orElse {α : Type} (first second : Reader α) : Reader α := do
  let tokens := (← get).tokens
  try first
  catch
    | .malformed cause => throw (.malformed cause)
    | .complaint span c =>
      modify fun s => { s with tokens }
      try second
      catch
        | .malformed cause => throw (.malformed cause)
        | .complaint span' c' =>
          if span'.start > span.start then complainAt span' c' else complainAt span c

/-- The name after a quantifier, which must not be bound already.  A declared variable is bound as
itself, and any other name makes a new variable. -/
def quantifiedVariable (ctx : Context) : Reader Variable := do
  let span ← position ctx
  if (← peek) ≠ .name then complainAt span .expectedVariable
  let name := String.ofList (← takeText)
  if (Environment.find? ctx.bound name).isSome then complainAt span .boundTwice
  match ctx.environment.find? name with
  | some v => return v
  | none => modifyGet fun s => (⟨s.fresh, name⟩, { s with fresh := s.fresh + 1 })

/-- A member of a junction: a negation, a quantified proposition, one in brackets, or an atom. -/
def member (depth : Nat) (ctx : Context) : Reader Proposition :=
  match depth with
  | 0 => complain ctx .unknownExpression
  | depth + 1 => do
    match ← peek with
    | .not =>
      advance
      return .not (← member depth ctx)
    | .quantifier q =>
      advance
      let v ← quantifiedVariable ctx
      let domain ←
        if ← accept (.relation .element) then some <$> term ctx depth
        else pure none
      expect ctx .dot .expectedDot
      let inner := { ctx with bound := v :: ctx.bound }
      let body ← formulaOver inner (member depth inner)
      match Proposition.quantified? q (some v) domain body with
      | .ok p => return p
      | .error cause => throw (.malformed cause)
    | .opening =>
      orElse
        (do
          advance
          let p ← formulaOver ctx (member depth ctx)
          closeFormula ctx p)
        (atom ctx (depth + 1))
    | _ => atom ctx (depth + 1)

/-- A whole proposition. -/
def formula (ctx : Context) (depth : Nat) : Reader Proposition := formulaOver ctx (member depth ctx)

/-- Reads all of a text. -/
def whole {α : Type} (ctx : Context) (reader : Reader α) : Reader α := do
  let result ← reader
  unless (← peek) = .ending do complain ctx .unknownToken
  return result

/-- Reads a text with a grammar that is given the greatest depth of nesting, starting with the given
number for new variables.  The number to go on with is returned in any case. -/
def readAll {α : Type} (grammar : Context → Nat → Reader α) (source : Source) (env : Environment)
    (fresh : Nat) : Except Unreadable α × Nat :=
  match Token.ofText source.text with
  | .error span => (.error (.complaint span .unknownText), fresh)
  | .ok tokens =>
    let ctx : Context := { length := source.text.length, environment := env, bound := [] }
    match EStateM.run (whole ctx (grammar ctx (tokens.length + 1))) { tokens, fresh } with
    | .ok result s => (.ok result, s.fresh)
    | .error e s => (.error e, s.fresh)

end Reader

namespace Source

/-- Reads the text as a proposition. -/
def proposition (source : Source) (env : Environment) (fresh : Nat) :
    Except Unreadable Proposition × Nat :=
  Reader.readAll Reader.formula source env fresh

/-- Reads the text as a term. -/
def term (source : Source) (env : Environment) (fresh : Nat) : Except Unreadable Term × Nat :=
  Reader.readAll Reader.term source env fresh

def diagnose (source : Source) (span : Span) (c : Complaint) : Diagnostic :=
  ⟨source, span, c.text⟩

end Source

end Entailment
