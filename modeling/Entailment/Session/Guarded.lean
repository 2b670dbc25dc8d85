import Entailment.Proposition.Checked
import Entailment.Session.Scope

/-!
# Deductions that may break down

Deductions made of operations that check what they touch can end in a third way: they break down,
which is neither an answer nor a failure.

This includes closing a scope. The log is read from its end by position: a variable is quantified
over, a membership right after its variable becomes a domain, and a run of assumptions is collected
for as long as it goes. Every position has to be in the log, and whatever is put together has to be
fit for it.
-/
namespace Entailment

/-- How a deduction can end without an answer. -/
inductive Halt where
  | failed (cause : Failure)
  | broken (cause : Breakdown)
deriving Repr

/-- Deductions that may break down as well as fail. -/
abbrev Guarded := EStateM Halt Session

namespace Guarded
open Checked (lhs rhs item join quantified)

instance : MonadLift Action Guarded := ⟨EStateM.adaptExcept .failed⟩

instance : MonadLift Checked Guarded where
  monadLift
    | .ok x => pure x
    | .error cause => throw (.broken cause)

/-- The variable of the scope that a proposition places in a set. -/
def memberOf (scope : Scope) (p : Proposition) : Checked (Option Variable) := do
  if !p.isRelation Relation.element.name then return none
  match ← lhs p with
  | .var v => return if scope.introduced.contains v then some v else none
  | _ => return none

/-- Whether what stands at a position of the log is the domain of the variable right before. -/
def isDomain (scope : Scope) (i : Nat) : Checked Bool := do
  if i = 0 then return false
  match ← item scope.log i with
  | .introduced _ => return false
  | .assumed f =>
    match ← memberOf scope f.statement with
    | none => return false
    | some v =>
      match ← item scope.log (i - 1) with
      | .introduced w => return w == v
      | .assumed _ => return false

/-- The run of assumptions that ends before a position of the log, from the last to the first. -/
def hypotheses (scope : Scope) : Nat → Checked (List Proposition)
  | 0 => return []
  | i + 1 => do
    match ← item scope.log i with
    | .introduced _ => return []
    | .assumed f =>
      if ← isDomain scope i then return []
      return f.statement :: (← hypotheses scope i)

/-- Puts the suppositions that come before a position of the log around a conclusion, from the last
to the first. -/
def synthesise (scope : Scope) : Nat → Proposition → Guarded Proposition
  | 0, p => return p
  | i + 1, p => do
    match ← item scope.log i with
    | .introduced v =>
      if p.binds v then Session.breach scope (.bindsIntroduced v)
      else if p.contains (.var v) then
        synthesise scope i (← quantified .all (some v) none p)
      else synthesise scope i p
    | .assumed f =>
      if ← isDomain scope i then
        let set ← rhs f.statement
        match ← item scope.log (i - 1) with
        | .introduced v =>
          if p.binds v || (Term.var v).occursIn set then
            Session.breach scope (.unquantifiable v set)
          else synthesise scope (i - 1) (← quantified .all (some v) (some set) p)
        | .assumed _ => quantified .all none (some set) p
      else
        match ← hypotheses scope (i + 1) with
        | [] => join .and []
        | last :: earlier =>
          let hypothesis ← join .and (last :: earlier).reverse
          synthesise scope (i - earlier.length)
            (if p.kind = .contradiction then .not hypothesis else .implies hypothesis p)
termination_by i => i

/-- The conclusions of a scope, or else the last thing derived in it. -/
def targets (s : Session) (scope : Scope) : Checked (List Fact) := do
  if scope.conclusions.isEmpty && !scope.proven.isEmpty then
    let id ← item scope.proven (scope.proven.length - 1)
    return ((s.entry? id).map fun e => (⟨id, e.statement⟩ : Fact)).toList
  else return scope.conclusions

def close (c : ScopeId) : Guarded Unit := do
  let scope ← Session.getScope c
  unless scope.closed do
    let s ← (get : Action Session)
    if s.stack.head? ≠ some c then Session.breach scope .closedOutOfTurn
    let targets ← targets s scope
    let statements ← targets.mapM fun t =>
      return (t, ← synthesise scope scope.log.length t.statement.strip)
    let assumptions := scope.assumptions.map Fact.id
    (modify (·.retract c) : Action PUnit)
    let results ← (statements.mapM fun (t, p) => do
      let dependencies := ((← get).dependencies t.id).filter (· ∉ assumptions)
      Session.certify p { rule := .closeScope, first := some t.id, closed := [c] } dependencies :
        Action (List Fact))
    (modify fun s => s.modifyScope c ({ · with results }) : Action PUnit)

end Guarded

end Entailment
