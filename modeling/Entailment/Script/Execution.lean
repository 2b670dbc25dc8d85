import Entailment.Script.Fault
import Entailment.Session.Scope
import Entailment.Text.Formula

/-!
# Execution

The state of a running script, the names that can be referred to at a given point, and the ways in
which a script reads texts and deduces things.
-/

namespace Entailment.Script

structure Progress where
  session : Session := {}
  /-- The facts established outside all scopes, which search starts from. -/
  available : List Fact := []

abbrev Execution := EStateM Fault Progress

/-- What names mean at some point of a script. -/
structure Names where
  environment : Environment := []
  /-- Facts by name.  Of several with one name the first counts. -/
  facts : List (String × Fact) := []
  /-- The innermost scope, if there is one. -/
  scope : Option ScopeId := none

/-- Takes a deduction further. -/
def inSession {α : Type} (action : Action α) : Execution α := fun p =>
  match action p.session with
  | .ok result session => .ok result { p with session }
  | .error failure session => .error (.ofFailure failure) { p with session }

/-- Reads a text that stands under a label in a script. -/
def read {α : Type} (grammar : Source → Environment → Nat → Except Unreadable α × Nat)
    (script label text : String) (env : Environment) : Execution α := do
  let source := Source.ofString s!"{script} ({label})" text
  let (result, fresh) := grammar source env (← get).session.fresh
  modify fun p => { p with session := { p.session with fresh } }
  match result with
  | .ok a => return a
  | .error (.complaint span c) => throw (.unreadable (source.diagnose span c))
  | .error (.malformed cause) => throw (.malformed cause)

/-- Makes a fact available by name, unless the name is empty, and to search, if no scope is open. -/
def register (names : Names) (name : String) (fact : Fact) : Execution Names := do
  if names.scope.isNone then modify fun p => { p with available := p.available ++ [fact] }
  return if name = "" then names else { names with facts := (name, fact) :: names.facts }

end Entailment.Script
