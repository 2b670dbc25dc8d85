import Entailment.Failure

/-!
# Inferences

The record of how a statement was justified: the rule, the premises it was applied to, and what else
the rule made use of.  The type is open in what stands for a premise.  The ledger of a session
refers to its own entries, while an inference put together on its own holds propositions.
-/

namespace Entailment

/-- The position of a scope among all scopes a session has opened. -/
structure ScopeId where
  index : Nat
deriving DecidableEq, Repr, Inhabited

/-- A premise other than the first. -/
inductive Argument (α : Type) where
  | premise (p : α)
  | term (t : Term)
deriving Repr

def Argument.premise? {α : Type} : Argument α → Option α
  | .premise p => some p
  | .term _ => none

def Argument.term? {α : Type} : Argument α → Option Term
  | .premise _ => none
  | .term t => some t

structure Inference (α : Type) where
  rule : Rule
  first : Option α := none
  others : List (Argument α) := []
  /-- Propositions that the rule mentions without relying on them. -/
  sides : List Proposition := []
  /-- The scopes that were closed to arrive here. -/
  closed : List ScopeId := []
deriving Repr

namespace Inference

variable {α : Type}

/-- The premises that are not terms, in order. -/
def premises (i : Inference α) : List α := i.first.toList ++ i.others.filterMap Argument.premise?

/-- The terms among the premises, in order. -/
def terms (i : Inference α) : List Term := i.others.filterMap Argument.term?

/-- The rule with its premises, as text. -/
def render (text : α → String) (i : Inference α) : String :=
  i.rule.name ++ "(" ++ ", ".intercalate (i.premises.map text) ++ ")"

/-- An inference by the rule of a given name. -/
def ofName (name : String) (first : Option α) (others : List (Argument α)) :
    Except Failure (Inference α) :=
  match Rule.ofName? name with
  | some rule => .ok { rule, first, others }
  | none => .error (.unknownRule name)

end Inference

end Entailment
