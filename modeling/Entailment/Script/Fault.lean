import Entailment.Failure
import Entailment.Script.Problem
import Entailment.Text.Source

/-!
# Faults

Why a script cannot be run to its end.  A fault inside a step is reported together with the steps
around it, from the outermost inwards.
-/

namespace Entailment.Script

inductive Fault where
  | unknownOrder (name : String)
  | declaredTwice (name : String)
  /-- A text that cannot be read. -/
  | unreadable (diagnostic : Diagnostic)
  /-- A text that reads as something malformed. -/
  | malformed (cause : Malformed)
  /-- The deduction itself fails. -/
  | failed (failure : Failure)
  /-- A step that validation would have rejected. -/
  | invalid (problem : Problem)
  | introducedOutside
  | concludedOutside
  | unapplicable (rule : Rule)
  | unknownPremise (name : String)
  | premiseCount (expected found : Nat)
  | noPremises
  | tooFewPremises (found : Nat)
  /-- The rule needs an attribute that the step does not give. -/
  | requires (rule : Rule) (key : String)
  | notAConjunct (target premise : Proposition)
  | notADisjunction (target : Proposition)
  | notAVariable (t : Term)
  | nothingDerived (expected : Proposition)
  | derivedOther (derived expected : Proposition)
  | inStep (label : String) (cause : Fault)
deriving Repr

namespace Fault

def message : Fault → String
  | .unknownOrder name => "unknown order \"" ++ name ++ "\""
  | .declaredTwice name => s!"variable {name} declared twice"
  | .unreadable d => d.message
  | .malformed cause => cause.message
  | .failed failure => failure.message
  | .invalid problem => problem.message
  | .introducedOutside => "variable introduced outside of a context"
  | .concludedOutside => "conclusion outside of a context"
  | .unapplicable rule => s!"rule {rule.name} cannot be applied by a step"
  | .unknownPremise name => s!"unknown premise {name}"
  | .premiseCount expected found => s!"expected {expected} premise(s), found {found}"
  | .noPremises => "expected at least one premise"
  | .tooFewPremises found => s!"expected at least 2 premises, found {found}"
  | .requires rule key => s!"rule {rule.name} requires \"" ++ key ++ "\""
  | .notAConjunct target premise => s!"{target.render} is not a conjunct of {premise.render}"
  | .notADisjunction target => s!"{target.render} is not a disjunction"
  | .notAVariable t => s!"{t.render} is not a variable"
  | .nothingDerived expected => s!"nothing derived, expected {expected.render}"
  | .derivedOther derived expected => s!"derived {derived.render}, expected {expected.render}"
  | .inStep label cause => s!"step {label}: {cause.message}"

/-- What went wrong in the innermost step. -/
def root : Fault → Fault
  | .inStep _ cause => cause.root
  | f => f

/-- A failed deduction as a fault. -/
def ofFailure : Failure → Fault
  | .malformed cause => .malformed cause
  | failure => .failed failure

/-- A fault as seen from the step it happened in.  What is malformed is so wherever it stands. -/
def within (label : String) : Fault → Fault
  | .malformed cause => .malformed cause
  | f => .inStep label f

end Fault

end Entailment.Script
