import Entailment.Proposition.Basic

/-!
# Substitutions

A substitution assigns terms to variables.  All of its bindings are applied at once, so what one of
them puts in is not replaced by another, and variables bound by a quantifier are left alone.
-/

namespace Entailment

/-- Bindings in the order in which they were made; the first one for a variable counts. -/
abbrev Substitution := List (Variable × Term)

namespace Substitution

def find? (σ : Substitution) (v : Variable) : Option Term := List.lookup v σ

def without (σ : Substitution) (v : Variable) : Substitution := σ.filter (·.1 != v)

mutual

def applyTerm (σ : Substitution) : Term → Term
  | .var v => (σ.find? v).getD (.var v)
  | .app head args => .app head (applyTerms σ args)
  | t => t

def applyTerms (σ : Substitution) : List Term → List Term
  | [] => []
  | t :: ts => applyTerm σ t :: applyTerms σ ts

end

mutual

/-- Applies a substitution to the free variables of a proposition.  A domain lies outside the reach
of its quantifier. -/
def apply (σ : Substitution) : Proposition → Proposition
  | .relation name args _ => .relation name (applyTerms σ args)
  | .not p _ => .not (apply σ p)
  | .junction c ps _ => .junction c (applyMembers σ ps)
  | .implies a b _ => .implies (apply σ a) (apply σ b)
  | .iff a b _ => .iff (apply σ a) (apply σ b)
  | .quantified q v domain p _ =>
    .quantified q v (domain.map (applyTerm σ)) (apply (σ.without v) p)
  | .contradiction _ => .contradiction

def applyMembers (σ : Substitution) : List Proposition → List Proposition
  | [] => []
  | p :: ps => apply σ p :: applyMembers σ ps

end

@[simp] theorem applyTerms_eq_map (σ : Substitution) (ts : List Term) :
    applyTerms σ ts = ts.map (applyTerm σ) := by
  induction ts with
  | nil => rfl
  | cons t ts ih => simp [applyTerms, ih]

@[simp] theorem applyMembers_eq_map (σ : Substitution) (ps : List Proposition) :
    applyMembers σ ps = ps.map (apply σ) := by
  induction ps with
  | nil => rfl
  | cons p ps ih => simp [applyMembers, ih]

end Substitution

end Entailment
