import Entailment.Search.Trace
import Entailment.Session.Speculation
import Entailment.Tactic.Propositional
import Entailment.Tactic.Quantifier
import Entailment.Tactic.Relation

/-!
# Forward search

Derives a target from proven facts by working forwards.  In every round each step is tried on every
selection of the facts at hand, in order, and what is new becomes available in the next round.  A
round is preceded by a check whether the target is an instance of a universal fact.  The search
happens in speculation, so only the derivation that was found remains in the session.
-/

namespace Entailment

/-- An inference that a search may try, on as many premises as its arity says. -/
structure Search.Step where
  rule : Rule
  arity : Nat
  apply : List Proposition → Action (List Fact)

structure Search where
  steps : List Search.Step
  /-- The greatest number of rounds. -/
  depth : Nat

namespace Search

namespace Step

def unary (rule : Rule) (tactic : Option Proposition → Action Fact) : Step where
  rule := rule
  arity := 1
  apply ps := return [← tactic ps[0]?]

def binary (rule : Rule) (tactic : Option Proposition → Option Proposition → Action Fact) :
    Step where
  rule := rule
  arity := 2
  apply ps := return [← tactic ps[0]? ps[1]?]

open Session in
/-- The steps tried unless others are asked for. -/
def defaults : List Step :=
  [binary .modusPonens modusPonens,
    binary .hypotheticalSyllogism hypotheticalSyllogism,
    binary .quantifiedModusPonens fun all p => quantifiedModusPonens all p [],
    binary .existentialElim existentialElimination,
    binary .unitResolve unitResolve,
    { rule := .conjunctionElim, arity := 1, apply := fun ps => split ps[0]? }]

open Session in
/-- Further steps that a search can be asked to use. -/
def extras : List Step :=
  [unary .doubleNegation doubleNegation,
    unary .contrapositive contrapositive,
    unary .symmetry symmetry,
    binary .modusTollens modusTollens,
    binary .resolveClauses resolveClauses,
    binary .exorElim exorEliminate,
    binary .iffIntro iffIntro]

/-- The step that applies the rule of a given name. -/
def ofName? (name : String) : Option Step :=
  (defaults ++ extras).find? (·.rule.name == name)

end Step

def defaultDepth : Nat := 3

/-- Ordered selections of one or two different members of a list, by position. -/
def selections {α : Type} (xs : List α) : Nat → Option (List (List α))
  | 1 => some (xs.map ([·]))
  | 2 => some <|
    xs.zipIdx.flatMap fun (x, i) =>
      xs.zipIdx.filterMap fun (y, j) => if i = j then none else some [x, y]
  | _ => none

def isKnown (traces : List Trace) (p : Proposition) : Bool :=
  traces.any fun t => t.result.statement.equivalent p

/-- What a round has come up with: new facts, and the target if it was among them. -/
structure Round where
  derived : List Trace := []
  found : Option Trace := none

/-- Takes in the results of one step, up to the target. -/
def Round.absorb (working : List Trace) (target : Proposition) (rule : Rule)
    (premises : List Trace) : Round → List Fact → Round
  | r, [] => r
  | r, f :: rest =>
    let t := Trace.derived rule premises f
    if f.statement.equivalent target then { r with found := some t }
    else if isKnown working f.statement || isKnown r.derived f.statement then
      absorb working target rule premises r rest
    else absorb working target rule premises { r with derived := r.derived ++ [t] } rest

/-- Tries one step on selections of the working facts, until the target turns up. -/
def tryStep (working : List Trace) (target : Proposition) (step : Step) :
    Round → List (List Trace) → Action Round
  | r, [] => return r
  | r, premises :: rest => do
    let results ←
      try step.apply (premises.map (·.result.proposition))
      catch _ => pure []
    let r := r.absorb working target step.rule premises results
    if r.found.isSome then return r
    tryStep working target step r rest

/-- Tries all steps, one after the other, until the target turns up. -/
def trySteps (working : List Trace) (target : Proposition) : Round → List Step → Action Round
  | r, [] => return r
  | r, step :: rest => do
    match selections working step.arity with
    | none => throw .unsupportedArity
    | some candidates =>
      let r ← tryStep working target step r candidates
      if r.found.isSome then return r
      trySteps working target r rest

/-- The first universal fact that the target is an instance of. -/
def instance? (target : Proposition) : List Trace → Action (Option Trace)
  | [] => return none
  | t :: rest => do
    match t.result.statement with
    | .quantified .all _ _ _ _ =>
      let found ←
        try some <$> Session.isSpecialCaseOf target (some t.result.proposition) []
        catch _ => pure none
      match found with
      | some f => return some (.derived .isSpecialCaseOf [t] f)
      | none => instance? target rest
    | _ => instance? target rest

/-- Up to `n` rounds, and one last check for an instance. -/
def rounds (steps : List Step) (target : Proposition) : Nat → List Trace → Action (Option Trace)
  | 0, working => instance? target working
  | n + 1, working => do
    match ← instance? target working with
    | some t => return some t
    | none =>
      let r ← trySteps working target {} steps
      match r.found, r.derived with
      | some t, _ => return some t
      | none, [] => instance? target working
      | none, derived => rounds steps target n (working ++ derived)

/-- The facts to start from, each once, or the first of them that is the target already. -/
def start (s : Session) (target : Proposition) :
    List Trace → List Proposition → Trace ⊕ List Trace
  | working, [] => .inr working
  | working, p :: rest =>
    match s.provenFact? p with
    | none => start s target working rest
    | some f =>
      if f.statement.equivalent target then .inl (.given f)
      else if isKnown working f.statement then start s target working rest
      else start s target (working ++ [.given f]) rest

/-- Looks for a derivation of the target from the proven ones among the given propositions. -/
def run (search : Search) (base : List Proposition) (target : Proposition) :
    Action (Option Trace) :=
  Session.speculate do
    let found ← match start (← get) target [] base with
      | .inl t => pure (some t)
      | .inr working => rounds search.steps target search.depth working
    return (found, found.toList.map (·.result.id))

end Search

end Entailment
