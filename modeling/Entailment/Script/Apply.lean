import Entailment.Script.Execution
import Entailment.Tactic.Propositional
import Entailment.Tactic.Quantifier
import Entailment.Tactic.Relation

/-!
# Applying rules

How a step applies a rule.  Most rules take a fixed number of premises and nothing else.  Some
derive a statement that the step has to give, and some need a term.
-/

namespace Entailment.Script

/-- A rule applied by a step: the step, where it stands, and the facts that its premises name. -/
structure Application where
  script : String
  rule : Rule
  attributes : Attributes
  environment : Environment
  premises : List Fact

abbrev Tactic := Application → Execution Fact

namespace Application

/-- The statement that the step is to derive. -/
def target (a : Application) : Execution Proposition := do
  if a.attributes.proves = "" then throw (.requires a.rule "proves")
  read Source.proposition a.script "proves" a.attributes.proves a.environment

/-- The term that the step gives. -/
def term (a : Application) : Execution Term := do
  if a.attributes.term = "" then throw (.requires a.rule "term")
  read Source.term a.script "term" a.attributes.term a.environment

/-- The premises, of which there have to be as many as given. -/
def exactly (a : Application) (n : Nat) : Execution (List Fact) := do
  if a.premises.length ≠ n then throw (.premiseCount n a.premises.length)
  return a.premises

/-- The only premise. -/
def single (a : Application) : Execution Fact := do
  match a.premises with
  | [p] => return p
  | ps => throw (.premiseCount 1 ps.length)

/-- The first premise, and whatever further ones there are. -/
def atLeastOne (a : Application) : Execution (Fact × List Fact) := do
  match a.premises with
  | p :: rest => return (p, rest)
  | [] => throw .noPremises

end Application

namespace Tactic

def unary (tactic : Option Proposition → Action Fact) : Tactic := fun a => do
  let p ← a.single
  inSession (tactic (some p.proposition))

def binary (tactic : Option Proposition → Option Proposition → Action Fact) : Tactic := fun a => do
  match a.premises with
  | [p, q] => inSession (tactic (some p.proposition) (some q.proposition))
  | ps => throw (.premiseCount 2 ps.length)

def variadic (tactic : Option Proposition → List (Option Proposition) → Action Fact) : Tactic :=
  fun a => do
    let (p, rest) ← a.atLeastOne
    inSession (tactic (some p.proposition) (rest.map fun f => some f.proposition))

open Session

def conjunctionIntro : Tactic := fun a =>
  inSession (conjoin (a.premises.map fun f => some f.proposition))

/-- Takes the conjunct that the step is to derive. -/
def conjunctionElim : Tactic := fun a => do
  let target ← a.target
  let p ← a.single
  let parts ← inSession (split (some p.proposition))
  match parts.find? (·.statement.equivalent target) with
  | some part => return part
  | none => throw (.notAConjunct target p.statement)

/-- Weakens the premise by the alternatives that follow the first one in the disjunction to derive.
-/
def disjunctionIntro : Tactic := fun a => do
  let target ← a.target
  let p ← a.single
  match target with
  | .junction .or members _ => inSession (disjoin (some p.proposition) (members.tail.map some))
  | _ => throw (.notADisjunction target)

/-- Takes the direction of a biconditional that the step is to derive, and forwards if it gives
none. -/
def iffElim : Tactic := fun a => do
  let p ← a.single
  let forward ← inSession (iffForward (some p.proposition))
  if a.attributes.proves = "" then return forward
  let target ← a.target
  if forward.statement.equivalent target then return forward
  inSession (iffBackward (some p.proposition))

def generalise : Tactic := fun a => do
  let p ← a.single
  match ← a.term with
  | .var v => inSession (thusForall (some p.proposition) (some v))
  | t => throw (.notAVariable t)

def abstractTerm : Tactic := fun a => do
  let p ← a.single
  if a.attributes.binds = "" then throw (.requires a.rule "bind")
  let witness ← a.term
  inSession (thusThereExists (some p.proposition) a.attributes.binds witness [])

/-- Further premises serve as proofs of membership. -/
def instantiate : Tactic := fun a => do
  let (p, rest) ← a.atLeastOne
  let t ← a.term
  inSession (inParticular (some p.proposition) t (rest.map Fact.proposition))

def specialCase : Tactic := fun a => do
  let target ← a.target
  let (p, rest) ← a.atLeastOne
  inSession (isSpecialCaseOf target (some p.proposition) (rest.map Fact.proposition))

def quantifiedPonens : Tactic := fun a => do
  match a.premises with
  | p :: q :: rest =>
    inSession (quantifiedModusPonens (some p.proposition) (some q.proposition)
      (rest.map Fact.proposition))
  | ps => throw (.tooFewPremises ps.length)

def reflexive : Tactic := fun a => do
  let _ ← a.exactly 0
  let t ← a.term
  inSession (reflexivity t)

def simplification : Tactic := fun a => do
  let target ← a.target
  let _ ← a.exactly 0
  inSession (bySimplification target)

/-- The internal name of a relation that a script may spell in another way. -/
def relationName : String → String
  | "≤" => Relation.lessEqual.name
  | "≥" => Relation.greaterEqual.name
  | "!=" => Relation.notEqual.name
  | name => name

/-- Establishes the relation that the step names, or else the one of the statement it is to derive.
-/
def chain : Tactic := fun a => do
  let want ←
    if a.attributes.relation = "" then Proposition.name <$> a.target
    else pure (relationName a.attributes.relation)
  inSession (transitive want (a.premises.map fun f => some f.proposition))

/-- The way to apply a rule in a step.  What is postulated, assumed or comes out of a scope has
forms of its own. -/
def ofRule? : Rule → Option Tactic
  | .postulate | .assumption | .closeScope => none
  | .modusPonens => some (binary modusPonens)
  | .modusTollens => some (binary modusTollens)
  | .hypotheticalSyllogism => some (binary hypotheticalSyllogism)
  | .followedFrom => some (variadic followedFrom)
  | .conjunctionIntro => some conjunctionIntro
  | .conjunctionElim => some conjunctionElim
  | .disjunctionIntro => some disjunctionIntro
  | .resolve => some (variadic resolve)
  | .unitResolve => some (binary unitResolve)
  | .resolveClauses => some (binary resolveClauses)
  | .exorElim => some (binary exorEliminate)
  | .doubleNegation => some (unary doubleNegation)
  | .contrapositive => some (unary contrapositive)
  | .iffIntro => some (binary iffIntro)
  | .iffElim => some iffElim
  | .contradicts => some (binary contradicts)
  | .assumptionsCannotAllHold => some (unary thusAssumptionsCannotAllHold)
  | .thusForall => some generalise
  | .thusThereExists => some abstractTerm
  | .inParticular => some instantiate
  | .isSpecialCaseOf => some specialCase
  | .quantifiedModusPonens => some quantifiedPonens
  | .existentialElim => some (binary existentialElimination)
  | .reflexivity => some reflexive
  | .symmetry => some (unary symmetry)
  | .substitute => some (binary fun equality p => substitute equality p [])
  | .bySimplification => some simplification
  | .transitive => some chain

end Tactic

/-- Whether steps can apply a rule. -/
def isApplicable (rule : Rule) : Bool := (Tactic.ofRule? rule).isSome

end Entailment.Script
