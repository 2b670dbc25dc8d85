import Entailment.Audit
import Entailment.Script.Apply
import Entailment.Search.Basic

/-!
# Running scripts

Postulates are entered, steps are taken one after the other, and then a derivation of every goal is
searched for.  What a goal needed to be derived is there for later goals too.  A script fails if a
text cannot be read or a step cannot be taken; a goal that is not derived is no failure, but is
reported.
-/

namespace Entailment

namespace Script

/-- The outcome for one goal. -/
structure Report where
  goal : Proposition
  refute : Bool
  trace : Option Trace
  /-- What the audit of the derivation found. -/
  flaw : Option Failure
deriving Repr

namespace Report

def isProven (r : Report) : Bool := r.trace.isSome

/-- Whether the outcome is the expected one. -/
def isExpected (r : Report) : Bool := r.flaw.isNone && r.isProven != r.refute

end Report

/-- What running a script came to. -/
structure Outcome where
  name : String
  /-- The facts that were available to search in the end. -/
  facts : List Fact
  reports : List Report
  session : Session

def Outcome.isExpected (o : Outcome) : Bool := o.reports.all Report.isExpected

/-- The facts that premises name. -/
def premises (names : Names) : List String → Execution (List Fact)
  | [] => return []
  | name :: rest => do
    match names.facts.lookup name with
    | some fact => return fact :: (← premises names rest)
    | none => throw (.unknownPremise name)

/-- Applies the rule that a step names. -/
def applyRule (script : String) (names : Names) (a : Attributes) : Execution Fact := do
  match Rule.ofName? a.rule with
  | none => throw (.failed (.unknownRule a.rule))
  | some rule =>
    match Tactic.ofRule? rule with
    | none => throw (.unapplicable rule)
    | some tactic =>
      tactic
        { script, rule, attributes := a, environment := names.environment,
          premises := ← premises names a.premises }

/-- What a step is expected to derive has to be the first thing it did derive. -/
def checkExpectation (script : String) (names : Names) (a : Attributes) (results : List Fact) :
    Execution Unit := do
  if a.proves ≠ "" then
    let expected ← read Source.proposition script "proves" a.proves names.environment
    match results with
    | [] => throw (.nothingDerived expected)
    | first :: _ =>
      if !first.statement.equivalent expected then
        throw (.derivedOther first.statement expected)

/-- Marks what a step derived as a conclusion of the enclosing scope. -/
def concludeIn (names : Names) (fact : Fact) : Execution Unit := do
  match names.scope with
  | some c => inSession (Session.conclude c (some fact.proposition))
  | none => throw .concludedOutside

/-- The name of the result at a position, counted from zero. -/
def resultName (name : String) (i : Nat) : String :=
  if i = 0 ∨ name = "" then name else s!"{name}.{i + 1}"

/-- Concludes and names the results of a step, from a position on. -/
def publish (a : Attributes) : Nat → Names → List Fact → Execution Names
  | _, names, [] => return names
  | i, names, fact :: rest => do
    if a.concludes then concludeIn names fact
    let names ← register names (resultName a.name i) fact
    publish a (i + 1) names rest

mutual

/-- Takes one step, and tells what names mean after it. -/
def Step.run (script : String) (names : Names) : Step → Execution Names
  | .mk a inner => do
    let s := Step.mk a inner
    let finish (results : List Fact) : Execution Names := do
      checkExpectation script names a results
      publish a 0 names results
    match s.forms with
    | [.introduce] =>
      match names.scope with
      | none => throw .introducedOutside
      | some c =>
        let v ← inSession (Session.letVariable c a.introduces)
        return { names with environment := v :: names.environment }
    | [.assume] =>
      let p ← read Source.proposition script "assume" a.assumes names.environment
      finish [← inSession (Session.assume p)]
    | [.apply] => finish [← applyRule script names a]
    | [.nest] =>
      let c ← inSession (Session.openScope (if a.name = "" then "context" else a.name))
      try
        let _ ← runSteps script { names with scope := some c } inner
      catch fault =>
        inSession (Session.discard c)
        throw fault
      finish (← inSession (Session.finish c))
    | found => throw (.invalid (.ambiguous s.label found))

/-- Takes steps one after the other. -/
def runSteps (script : String) (names : Names) : List Step → Execution Names
  | [] => return names
  | s :: rest => do
    let names ←
      try s.run script names
      catch fault => throw (fault.within s.label)
    runSteps script names rest

end

/-- The order that goes by a name. -/
def orderNamed (name : String) : Execution Order :=
  match name with
  | "" | "numeric" => return .numeric
  | "subset" => return .subset
  | other => throw (.unknownOrder other)

/-- Declares variables, no two of which may have the same name. -/
def declareAll : Environment → List String → Execution Environment
  | env, [] => return env
  | env, name :: rest => do
    match env.declare? (← inSession (Session.newVariable name)) with
    | some env => declareAll env rest
    | none => throw (.declaredTwice name)

/-- Enters postulates, given the number of the first one. -/
def postulateAll (script : String) : Nat → Names → List Postulate → Execution Names
  | _, names, [] => return names
  | number, names, f :: rest => do
    let p ← read Source.proposition script s!"axiom {number}" f.statement names.environment
    let names ← register names f.name (← inSession (Session.postulate p))
    postulateAll script (number + 1) names rest

/-- Searches for a derivation of a goal, and audits what is found. -/
def prove (goal : Proposition) (refute : Bool) (depth : Nat) : Execution Report := do
  let base := (← get).available.map Fact.proposition
  match ← inSession (Search.run ⟨Search.Step.defaults, depth⟩ base goal) with
  | none => return { goal, refute, trace := none, flaw := none }
  | some trace =>
    unless trace.isGiven do
      modify fun p => { p with available := p.available ++ [trace.result] }
    let flaw := match (← get).session.audit trace.result.proposition with
      | .ok _ => none
      | .error failure => some failure
    return { goal, refute, trace := some trace, flaw }

/-- The first depth that is not zero, or else the usual one. -/
def searchDepth (depths : List Nat) : Nat := (depths.find? (· ≠ 0)).getD Search.defaultDepth

end Script

open Script

/-- Searches for the goals, given the number of the first one. -/
def Script.proveAll (script : Script) (depth : Nat) (env : Environment) :
    Nat → List Goal → Execution (List Report)
  | _, [] => return []
  | number, g :: rest => do
    let target ← read Source.proposition script.name s!"goal {number}" g.statement env
    let report ← prove target g.refute (searchDepth [depth, g.depth, script.depth])
    return report :: (← script.proveAll depth env (number + 1) rest)

/-- Everything a script does. -/
def Script.execute (script : Script) (depth : Nat) : Execution (List Report) := do
  inSession (Session.setOrder (← orderNamed script.order))
  let env ← declareAll [] script.declares
  let names ← postulateAll script.name 1 { environment := env } script.postulates
  let _ ← runSteps script.name names script.steps
  script.proveAll depth env 1 script.goals

/-- Runs a script in a session of its own.  A depth other than zero takes precedence over all depths
that the script gives. -/
def Script.run (script : Script) (depth : Nat) : Except Fault Outcome :=
  match script.execute depth {} with
  | .ok reports p =>
    .ok { name := script.name, facts := p.available, reports, session := p.session }
  | .error fault _ => .error fault

end Entailment
