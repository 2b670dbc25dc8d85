import Entailment.Proposition.Build
import Entailment.Rule

/-!
# Failures

Every way in which a deduction can be refused, as a cause.  A tactic that does not apply names the
obstacle and the propositions concerned; a scope that is used out of turn names the breach.  The
wording stands in `Obstacle.text`, `Breach.text` and `Failure.message` only.
-/

namespace Entailment

/-- What keeps a tactic from applying. -/
inductive Obstacle where
  | missingPremise
  | notProven
  | expectedImplication
  | expectedImplications
  | antecedentMismatch
  | doesNotRefute
  | consequentMismatch
  | noAssumptions
  | notAnAssumption
  | tooFewPropositions
  | expectedConjunction
  | noSuchConjunct (i : Int)
  | noAlternatives
  | expectedNegation
  | expectedDisjunction
  | noRefutations
  | expectedNegations
  | refutesNothing
  | nothingComplementary
  | expectedExclusive
  | notAnAlternative
  | expectedDoubleNegation
  | notConverses
  | expectedBiconditional
  | notComplementary
  | tooFewAssumptions (found : Nat)
  | expectedContradiction
  | tooFewDependencies
  | missingVariable
  | alreadyBound (v : Variable)
  | noWitness (witness : Term)
  | expectedUniversal
  | notAnInstance
  | expectedUniversalImplication
  | premiseMismatch
  | undetermined (v : Variable)
  | quantifierMismatch
  | witnessPropertyMismatch
  | dependsOnWitness
  | undeterminedDomain (v : Variable)
  | noMembership
  | notInOrder (name : String)
  | emptyChain
  | expectedBinary
  | brokenChain
  | mixedDirections
  | expectedEqualities
  | wrongDirection (want : String)
  | noStrictLink (want : String)
  | notSymmetric (name : String)
  | expectedEquality
  | nothingToReplace
  | undecided
  | doesNotHold
deriving Repr

def Obstacle.text : Obstacle → String
  | .missingPremise => "missing premise"
  | .notProven => "premise not proven"
  | .expectedImplication => "expected implication"
  | .expectedImplications => "expected implications"
  | .antecedentMismatch => "antecedent does not match premise"
  | .doesNotRefute => "premise does not refute consequent"
  | .consequentMismatch => "consequent does not match antecedent"
  | .noAssumptions => "no assumptions given"
  | .notAnAssumption => "not an assumption"
  | .tooFewPropositions => "requires at least two propositions"
  | .expectedConjunction => "expected conjunction"
  | .noSuchConjunct i => s!"conjunct {i} out of bounds"
  | .noAlternatives => "no alternatives given"
  | .expectedNegation => "expected negation"
  | .expectedDisjunction => "expected disjunction"
  | .noRefutations => "no refutations given"
  | .expectedNegations => "expected conjunction of negations"
  | .refutesNothing => "refutation does not match any disjunct"
  | .nothingComplementary => "no complementary literals"
  | .expectedExclusive => "expected exclusive disjunction"
  | .notAnAlternative => "premise is not an alternative"
  | .expectedDoubleNegation => "expected double negation"
  | .notConverses => "implications are not converses"
  | .expectedBiconditional => "expected biconditional"
  | .notComplementary => "propositions are not complementary"
  | .tooFewAssumptions found =>
    s!"contradiction requires at least two assumptions (found {found})"
  | .expectedContradiction => "expected contradiction"
  | .tooFewDependencies => "contradiction requires at least two assumptions"
  | .missingVariable => "missing variable"
  | .alreadyBound v => s!"variable {v.name} already bound"
  | .noWitness witness => s!"witness {witness.render} does not occur"
  | .expectedUniversal => "expected universal statement"
  | .notAnInstance => "not an instance"
  | .expectedUniversalImplication => "expected universal implication"
  | .premiseMismatch => "premise does not match antecedent"
  | .undetermined v => s!"consequent mentions undetermined variable {v.name}"
  | .quantifierMismatch => "quantifiers do not correspond"
  | .witnessPropertyMismatch => "antecedent does not match witness property"
  | .dependsOnWitness => "conclusion depends on witness"
  | .undeterminedDomain v => s!"domain variable {v.name} is undetermined"
  | .noMembership => "membership not established"
  | .notInOrder name => s!"relation {name} not in order"
  | .emptyChain => "empty chain"
  | .expectedBinary => "expected binary relation"
  | .brokenChain => "links are not consecutive"
  | .mixedDirections => "cannot mix ascending and descending links"
  | .expectedEqualities => "equality requires a chain of equalities"
  | .wrongDirection want => s!"chain does not establish {want}"
  | .noStrictLink want => s!"{want} requires at least one strict link"
  | .notSymmetric name => s!"relation {name} is not symmetric"
  | .expectedEquality => "expected equality"
  | .nothingToReplace => "left-hand side does not occur"
  | .undecided => "cannot decide"
  | .doesNotHold => "does not hold"

/-- A use of a scope that its discipline forbids. -/
inductive Breach where
  | outOfScope (v : Variable)
  | introducedTwice (v : Variable) (scope : String)
  | lateMembership (membership : Proposition) (v : Variable)
  | closedOutOfTurn
  | stillOpen
  | closed
  | notInnermost
  | bindsIntroduced (v : Variable)
  | unquantifiable (v : Variable) (domain : Term)
deriving Repr

def Breach.text : Breach → String
  | .outOfScope v => s!"variable {v.name} has left its scope"
  | .introducedTwice v scope => s!"variable {v.name} already introduced in context {scope}"
  | .lateMembership p v =>
    s!"membership {p.render} must immediately follow introduction of {v.name}"
  | .closedOutOfTurn => "cannot close context which is not innermost"
  | .stillOpen => "context is still open"
  | .closed => "context is closed"
  | .notInnermost => "context is not innermost"
  | .bindsIntroduced v => s!"conclusion already binds {v.name}"
  | .unquantifiable v domain => s!"cannot quantify {v.name} over {domain.render}"

inductive Failure where
  /-- A tactic does not apply to the propositions given, of which some may be missing. -/
  | tactic (rule : Rule) (obstacle : Obstacle) (about : List (Option Proposition))
  | unknownRule (name : String)
  /-- A membership was supplied, but of another set than instantiation needs. -/
  | inconsistent (rule : Rule) (expected found : Proposition)
  | scope (name : String) (breach : Breach)
  | malformed (cause : Malformed)
  /-- An audit met a statement that is not proven. -/
  | notProven (p : Proposition)
  /-- An audit met a statement that no entry of the ledger justifies. -/
  | unjustified (p : Proposition)
  /-- An audit met a statement that was derived from nothing. -/
  | baseless (p : Proposition) (rule : Rule)
  /-- A search was given a step that takes neither one premise nor two. -/
  | unsupportedArity
deriving Repr

/-- The text of a proposition that may be missing. -/
def renderPremise : Option Proposition → String
  | none => "<nil>"
  | some p => p.render

def Failure.message : Failure → String
  | .tactic rule obstacle [] => rule.name ++ ": " ++ obstacle.text
  | .tactic rule obstacle about =>
    rule.name ++ ": " ++ obstacle.text ++ " [" ++ "; ".intercalate (about.map renderPremise) ++ "]"
  | .unknownRule name => "unknown inference rule \"" ++ name ++ "\""
  | .inconsistent rule expected found =>
    s!"{rule.name}: inconsistent substitution (expected {expected.render}, found {found.render})"
  | .scope name breach => "context \"" ++ name ++ "\": " ++ breach.text
  | .malformed cause => cause.message
  | .notProven p => s!"{p.render} is not proven"
  | .unjustified p => s!"{p.render} has no justification"
  | .baseless p rule => s!"{p.render} justified by {rule.name} without premises"
  | .unsupportedArity => "unsupported arity"

end Entailment
