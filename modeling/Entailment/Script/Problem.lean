import Entailment.Script.Basic

/-!
# Problems of a script

What can be wrong with a script before any of it is read as logic: goals without a text, steps that
do not take exactly one form, and steps that need an enclosing scope but have none.  All problems
are collected, those of the goals first.
-/

namespace Entailment

namespace Script

inductive Problem where
  /-- A goal says nothing.  Goals are counted from one. -/
  | emptyGoal (number : Nat)
  /-- A step takes no form, or several. -/
  | ambiguous (label : String) (found : List Form)
  | strayVariable (label : String)
  | strayConclusion (label : String)
deriving DecidableEq, Repr

def Problem.message : Problem → String
  | .emptyGoal number => s!"goal {number} is empty"
  | .ambiguous label found =>
    s!"step {label} must have exactly one of let, assume, rule or context (found "
      ++ ", ".intercalate (found.map Form.key) ++ ")"
  | .strayVariable label => s!"step {label} introduces a variable outside of a context"
  | .strayConclusion label => s!"step {label} concludes outside of a context"

/-- The characters that Unicode counts as white space. -/
def isBlank (c : Char) : Bool :=
  let n := c.toNat
  (9 ≤ n && n ≤ 13) || n == 0x20 || n == 0x85 || n == 0xA0 || n == 0x1680
    || (0x2000 ≤ n && n ≤ 0x200A) || n == 0x2028 || n == 0x2029 || n == 0x202F || n == 0x205F
    || n == 0x3000

def Goal.isEmpty (g : Goal) : Bool := g.statement.toList.all isBlank

/-- Goals that say nothing, given the number of the first goal. -/
def goalProblems : Nat → List Goal → List Problem
  | _, [] => []
  | number, g :: rest =>
    if g.isEmpty then .emptyGoal number :: goalProblems (number + 1) rest
    else goalProblems (number + 1) rest

mutual

/-- The problems of a step, which either stands at the top or is nested in a scope.  The steps
inside are looked at only if the step itself is in order. -/
def Step.problems (nested : Bool) : Step → List Problem
  | .mk a inner =>
    let s := Step.mk a inner
    match s.forms with
    | [form] =>
      if form = .introduce ∧ !nested then [.strayVariable s.label]
      else if a.concludes ∧ !nested then [.strayConclusion s.label]
      else if form = .nest then stepProblems true inner
      else []
    | found => [.ambiguous s.label found]

def stepProblems (nested : Bool) : List Step → List Problem
  | [] => []
  | s :: rest => s.problems nested ++ stepProblems nested rest

end

end Script

/-- Everything that is wrong with a script. -/
def Script.problems (script : Script) : List Script.Problem :=
  Script.goalProblems 1 script.goals ++ Script.stepProblems false script.steps

end Entailment
