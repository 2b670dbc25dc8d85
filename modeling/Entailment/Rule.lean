/-!
# Inference rules

The rules by which a statement may enter the ledger.  The list is closed: every justification names
one of these, and a name that is not among them names no rule.
-/

namespace Entailment

inductive Rule where
  | postulate
  | assumption
  | modusPonens
  | modusTollens
  | hypotheticalSyllogism
  | followedFrom
  | conjunctionIntro
  | conjunctionElim
  | disjunctionIntro
  | resolve
  | unitResolve
  | resolveClauses
  | exorElim
  | doubleNegation
  | contrapositive
  | iffIntro
  | iffElim
  | contradicts
  | assumptionsCannotAllHold
  | thusForall
  | thusThereExists
  | inParticular
  | isSpecialCaseOf
  | quantifiedModusPonens
  | existentialElim
  | reflexivity
  | symmetry
  | substitute
  | bySimplification
  | transitive
  | closeScope
deriving DecidableEq, Repr, Inhabited

namespace Rule

def name : Rule → String
  | .postulate => "axiom"
  | .assumption => "assumption"
  | .modusPonens => "modus_ponens"
  | .modusTollens => "modus_tollens"
  | .hypotheticalSyllogism => "hypothetical_syllogism"
  | .followedFrom => "followed_from"
  | .conjunctionIntro => "conjunction_intro"
  | .conjunctionElim => "conjunction_elim"
  | .disjunctionIntro => "disjunction_intro"
  | .resolve => "resolve"
  | .unitResolve => "unit_resolve"
  | .resolveClauses => "resolve_clauses"
  | .exorElim => "exor_elim"
  | .doubleNegation => "double_negation"
  | .contrapositive => "contrapositive"
  | .iffIntro => "iff_intro"
  | .iffElim => "iff_elim"
  | .contradicts => "contradicts"
  | .assumptionsCannotAllHold => "thus_assumptions_cannot_all_hold"
  | .thusForall => "thus_forall"
  | .thusThereExists => "thus_there_exists"
  | .inParticular => "in_particular"
  | .isSpecialCaseOf => "is_special_case_of"
  | .quantifiedModusPonens => "quantified_modus_ponens"
  | .existentialElim => "existential_elim"
  | .reflexivity => "reflexivity"
  | .symmetry => "symmetry"
  | .substitute => "substitute"
  | .bySimplification => "by_simplification"
  | .transitive => "transitive"
  | .closeScope => "close_assumptions_context"

/-- Every rule, in the order in which they are listed to people. -/
def all : List Rule :=
  [.postulate, .assumption, .modusPonens, .modusTollens, .hypotheticalSyllogism, .followedFrom,
    .conjunctionIntro, .conjunctionElim, .disjunctionIntro, .resolve, .unitResolve, .resolveClauses,
    .exorElim, .doubleNegation, .contrapositive, .iffIntro, .iffElim, .contradicts,
    .assumptionsCannotAllHold, .thusForall, .thusThereExists, .inParticular, .isSpecialCaseOf,
    .quantifiedModusPonens, .existentialElim, .reflexivity, .symmetry, .substitute,
    .bySimplification, .transitive, .closeScope]

def ofName? (name : String) : Option Rule := all.find? (·.name == name)

end Rule

end Entailment
