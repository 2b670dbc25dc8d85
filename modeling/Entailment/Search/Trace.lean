import Entailment.Session.Basic

/-!
# Traces

How a search arrived at a fact: either it was given, or a rule took it from the facts of other
traces.
-/

namespace Entailment

inductive Trace where
  | given (result : Fact)
  | derived (rule : Rule) (premises : List Trace) (result : Fact)
deriving Repr

namespace Trace

def result : Trace → Fact
  | .given f | .derived _ _ f => f

def rule? : Trace → Option Rule
  | .given _ => none
  | .derived rule _ _ => some rule

def isGiven (t : Trace) : Bool := t.rule?.isNone

mutual

/-- The number of steps on the longest way down to a given fact. -/
def depth : Trace → Nat
  | .given _ => 0
  | .derived _ premises _ => depthOver premises

/-- One more than the greatest depth in a list, and zero for an empty list. -/
def depthOver : List Trace → Nat
  | [] => 0
  | t :: ts => max (depth t + 1) (depthOver ts)

end

mutual

/-- Extends a list by the given facts a trace rests on, in the order of their first use. -/
def addLeaves (seen : List Fact) : Trace → List Fact
  | .given f => if seen.any (·.id == f.id) then seen else seen ++ [f]
  | .derived _ premises _ => addLeavesOver seen premises

def addLeavesOver (seen : List Fact) : List Trace → List Fact
  | [] => seen
  | t :: ts => addLeavesOver (addLeaves seen t) ts

end

/-- The given facts a trace rests on, without repetition. -/
def leaves (t : Trace) : List Fact := addLeaves [] t

mutual

/-- One line for each fact, conclusions before what they rest on, which is indented below. -/
def lines (indent : String) : Trace → List String
  | .given f => [indent ++ f.statement.render ++ " [given]"]
  | .derived rule premises f =>
    (indent ++ f.statement.render ++ " [" ++ rule.name ++ "]")
      :: linesOver (indent ++ "  ") premises

def linesOver (indent : String) : List Trace → List String
  | [] => []
  | t :: ts => lines indent t ++ linesOver indent ts

end

def render (t : Trace) : String := String.join ((t.lines "").map (· ++ "\n"))

end Trace

end Entailment
