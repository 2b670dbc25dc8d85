import Entailment.Session.Basic

/-!
# Propositional tactics

The tactics that deal with connectives.  Each takes premises that may be missing or unproven, and
either enters its conclusion in the ledger or fails with the obstacle it met.  Conclusions depend on
the assumptions of their premises, except where a tactic discharges some of them.
-/

namespace Entailment.Session

/-- From `P` and `P → Q`, `Q`. -/
def modusPonens (p imp : Option Proposition) : Action Fact := do
  let p ← require .modusPonens p
  let imp ← require .modusPonens imp
  match imp.statement with
  | .implies a b _ =>
    if a.equal p.statement then
      derive b { rule := .modusPonens, first := some p.id, others := [.premise imp.id] } [p, imp]
    else refuse .modusPonens .antecedentMismatch [p, imp]
  | _ => refuse .modusPonens .expectedImplication [imp]

/-- From `¬Q` and `P → Q`, `¬P`. -/
def modusTollens (notQ imp : Option Proposition) : Action Fact := do
  let notQ ← require .modusTollens notQ
  let imp ← require .modusTollens imp
  match imp.statement with
  | .implies a b _ =>
    match notQ.statement with
    | .not q _ =>
      if q.equal b then
        derive (.not a)
          { rule := .modusTollens, first := some notQ.id, others := [.premise imp.id] } [notQ, imp]
      else refuse .modusTollens .doesNotRefute [notQ, imp]
    | _ => refuse .modusTollens .doesNotRefute [notQ, imp]
  | _ => refuse .modusTollens .expectedImplication [imp]

/-- From `A → B` and `B → C`, `A → C`. -/
def hypotheticalSyllogism (ab bc : Option Proposition) : Action Fact := do
  let ab ← require .hypotheticalSyllogism ab
  let bc ← require .hypotheticalSyllogism bc
  match ab.statement, bc.statement with
  | .implies a b _, .implies b' c _ =>
    if b.equal b' then
      derive (.implies a c)
        { rule := .hypotheticalSyllogism, first := some ab.id, others := [.premise bc.id] } [ab, bc]
    else refuse .hypotheticalSyllogism .consequentMismatch [ab, bc]
  | _, _ => refuse .hypotheticalSyllogism .expectedImplications [ab, bc]

/-- A premise that is currently assumed. -/
def requireAssumption (p : Option Proposition) : Action Fact := do
  let s ← get
  match p.bind s.fact? with
  | some f =>
    if (s.entry? f.id).any Entry.assumed then return f
    throw (.tactic .followedFrom .notAnAssumption [p])
  | none => throw (.tactic .followedFrom .notAnAssumption [p])

/-- Discharges assumptions: from `P`, `(A₁ ∧ … ∧ Aₙ) → P`, which no longer depends on them. -/
def followedFrom (p : Option Proposition) (assumptions : List (Option Proposition)) :
    Action Fact := do
  let p ← require .followedFrom p
  if assumptions.isEmpty then refuse .followedFrom .noAssumptions [p]
  let facts ← assumptions.mapM requireAssumption
  match facts with
  | [] => refuse .followedFrom .noAssumptions [p]
  | a :: rest =>
    let hypothesis := Proposition.conjunction a.statement (rest.map Fact.statement)
    let dependencies := ((← get).union [p.id]).filter (· ∉ facts.map Fact.id)
    certify (.implies hypothesis p.statement)
      { rule := .followedFrom, first := some p.id, others := facts.map (.premise ·.id) }
      dependencies

/-- The conjunction of two or more proven propositions. -/
def conjoin (ps : List (Option Proposition)) : Action Fact := do
  if ps.length < 2 then throw (.tactic .conjunctionIntro .tooFewPropositions ps)
  let facts ← requireAll .conjunctionIntro ps
  derive (.junction .and (facts.map Fact.statement))
    { rule := .conjunctionIntro, first := facts.head?.map Fact.id,
      others := facts.tail.map (.premise ·.id) } facts

/-- The conjuncts of a proven conjunction. -/
def requireConjuncts (p : Option Proposition) : Action (Fact × List Proposition) := do
  let p ← require .conjunctionElim p
  match p.statement with
  | .junction .and members _ => return (p, members)
  | _ => refuse .conjunctionElim .expectedConjunction [p]

def conjunct (p : Fact) (member : Proposition) : Action Fact :=
  derive member { rule := .conjunctionElim, first := some p.id } [p]

/-- One conjunct, counted from zero. -/
def extract (p : Option Proposition) (i : Int) : Action Fact := do
  let (p, members) ← requireConjuncts p
  match (if i < 0 then none else members[i.toNat]?) with
  | some member => conjunct p member
  | none => refuse .conjunctionElim (.noSuchConjunct i) [p]

/-- Every conjunct, in order. -/
def split (p : Option Proposition) : Action (List Fact) := do
  let (p, members) ← requireConjuncts p
  members.mapM (conjunct p)

/-- Weakens `P` into a disjunction with alternatives that need not be proven. -/
def disjoin (p : Option Proposition) (alternatives : List (Option Proposition)) : Action Fact := do
  let p ← require .disjunctionIntro p
  if alternatives.isEmpty then refuse .disjunctionIntro .noAlternatives [p]
  match Proposition.junction? .or (some p.statement :: alternatives) with
  | .ok disjunction =>
    derive disjunction
      { rule := .disjunctionIntro, first := some p.id, sides := alternatives.filterMap id } [p]
  | .error cause => throw (.malformed cause)

/-- A contradiction needs two assumptions that clash, so it has to depend on at least two. -/
def contradiction (rule : Rule) (inference : Inference FactId) (premises : List Fact) :
    Action Fact := do
  let dependencies := (← get).union (premises.map Fact.id)
  if dependencies.length < 2 then
    refuse rule (.tooFewAssumptions dependencies.length) premises
  certify .contradiction inference dependencies

/-- What a refutation refutes: the body of a negation or, for one that stands alone, the bodies of a
conjunction of negations. -/
def refuted (rule : Rule) (alone : Bool) (r : Fact) : Action (List Proposition) :=
  match r.statement, alone with
  | .not p _, _ => return [p]
  | .junction .and members _, true =>
    members.mapM fun
      | .not p _ => return p
      | _ => refuse rule .expectedNegations [r]
  | _, _ => refuse rule .expectedNegation [r]

/-- Removes what is refuted from a list of disjuncts; each refutation has to match one. -/
def removeRefuted (rule : Rule) (disjunction : Fact) :
    List Proposition → List Proposition → Action (List Proposition)
  | [], remaining => return remaining
  | n :: rest, remaining =>
    if remaining.any n.equal then
      removeRefuted rule disjunction rest (remaining.filter fun d => !d.equal n)
    else throw (.tactic rule .refutesNothing [some (.not n), some disjunction.statement])

def resolveBy (rule : Rule) (p : Option Proposition) (refutations : List (Option Proposition)) :
    Action Fact := do
  let p ← require rule p
  match p.statement with
  | .junction .or members _ =>
    if refutations.isEmpty then refuse rule .noRefutations [p]
    let facts ← requireAll rule refutations
    let negated ← facts.mapM (refuted rule (facts.length == 1))
    let remaining ← removeRefuted rule p negated.flatten members
    let inference : Inference FactId :=
      { rule, first := some p.id, others := facts.map (.premise ·.id) }
    match remaining with
    | [] => contradiction rule inference (p :: facts)
    | first :: rest => derive (.disjunction first rest) inference (p :: facts)
  | _ => refuse rule .expectedDisjunction [p]

/-- What is left of a disjunction once some disjuncts are refuted. -/
def resolve (p : Option Proposition) (refutations : List (Option Proposition)) : Action Fact :=
  resolveBy .resolve p refutations

/-- What is left of a disjunction once one disjunct is refuted by a negation. -/
def unitResolve (p refutation : Option Proposition) : Action Fact :=
  match refutation with
  | some (.not _ _) | none => resolveBy .unitResolve p [refutation]
  | some r => throw (.tactic .unitResolve .expectedNegation [some r])

/-- The literals of a clause: the members of a disjunction, or the proposition itself. -/
def literals : Proposition → List Proposition
  | .junction .or members _ => members
  | p => [p]

/-- Whether one of two propositions is the negation of the other. -/
def complementary (p q : Proposition) : Bool :=
  (match p with
    | .not p' _ => p'.equal q
    | _ => false) ||
  (match q with
    | .not q' _ => q'.equal p
    | _ => false)

/-- The positions of the first pair of complementary literals. -/
def clash? (ls rs : List Proposition) : Option (Nat × Nat) :=
  ls.zipIdx.findSome? fun (l, i) => (rs.findIdx? (complementary l)).map fun j => (i, j)

/-- Without repetitions, up to structural equality. -/
def distinct (ps : List Proposition) : List Proposition :=
  ps.foldl (fun acc p => if acc.any p.equal then acc else acc ++ [p]) []

/-- The resolvent of two clauses: all their literals but the first complementary pair. -/
def resolveClauses (lhs rhs : Option Proposition) : Action Fact := do
  let lhs ← require .resolveClauses lhs
  let rhs ← require .resolveClauses rhs
  let ls := literals lhs.statement
  let rs := literals rhs.statement
  match clash? ls rs with
  | none => refuse .resolveClauses .nothingComplementary [lhs, rhs]
  | some (i, j) =>
    let inference : Inference FactId :=
      { rule := .resolveClauses, first := some lhs.id, others := [.premise rhs.id] }
    match distinct (ls.eraseIdx i ++ rs.eraseIdx j) with
    | [] => contradiction .resolveClauses inference [lhs, rhs]
    | first :: rest => derive (.disjunction first rest) inference [lhs, rhs]

/-- From an exclusive disjunction and one alternative, that none of the others holds. -/
def exorEliminate (exor p : Option Proposition) : Action Fact := do
  let exor ← require .exorElim exor
  let p ← require .exorElim p
  match exor.statement with
  | .junction .exor members _ =>
    match p.statement.indexIn? members with
    | none => refuse .exorElim .notAnAlternative [p, exor]
    | some i =>
      match (members.eraseIdx i).map fun c => Proposition.not c with
      | [] => refuse .exorElim .notAnAlternative [p, exor]
      | first :: rest =>
        derive (.conjunction first rest)
          { rule := .exorElim, first := some exor.id, others := [.premise p.id] } [exor, p]
  | _ => refuse .exorElim .expectedExclusive [exor]

/-- From `¬¬A`, `A`. -/
def doubleNegation (p : Option Proposition) : Action Fact := do
  let p ← require .doubleNegation p
  match p.statement with
  | .not (.not a _) _ => derive a { rule := .doubleNegation, first := some p.id } [p]
  | _ => refuse .doubleNegation .expectedDoubleNegation [p]

/-- From `A → B`, `¬B → ¬A`. -/
def contrapositive (imp : Option Proposition) : Action Fact := do
  let imp ← require .contrapositive imp
  match imp.statement with
  | .implies a b _ =>
    derive (.implies (.not b) (.not a)) { rule := .contrapositive, first := some imp.id } [imp]
  | _ => refuse .contrapositive .expectedImplication [imp]

/-- From `A → B` and `B → A`, `A ↔ B`. -/
def iffIntro (ab ba : Option Proposition) : Action Fact := do
  let ab ← require .iffIntro ab
  let ba ← require .iffIntro ba
  match ab.statement, ba.statement with
  | .implies a b _, .implies b' a' _ =>
    if a.equal a' && b.equal b' then
      derive (.iff a b)
        { rule := .iffIntro, first := some ab.id, others := [.premise ba.id] } [ab, ba]
    else refuse .iffIntro .notConverses [ab, ba]
  | _, _ => refuse .iffIntro .expectedImplications [ab, ba]

def requireBiconditional (p : Option Proposition) : Action (Fact × Proposition × Proposition) := do
  let p ← require .iffElim p
  match p.statement with
  | .iff a b _ => return (p, a, b)
  | _ => refuse .iffElim .expectedBiconditional [p]

/-- From `A ↔ B`, `A → B`. -/
def iffForward (p : Option Proposition) : Action Fact := do
  let (p, a, b) ← requireBiconditional p
  derive (.implies a b) { rule := .iffElim, first := some p.id } [p]

/-- From `A ↔ B`, `B → A`. -/
def iffBackward (p : Option Proposition) : Action Fact := do
  let (p, a, b) ← requireBiconditional p
  derive (.implies b a) { rule := .iffElim, first := some p.id } [p]

/-- A contradiction from a proposition and its negation. -/
def contradicts (p q : Option Proposition) : Action Fact := do
  let p ← require .contradicts p
  let q ← require .contradicts q
  if complementary p.statement q.statement then
    contradiction .contradicts
      { rule := .contradicts, first := some p.id, others := [.premise q.id] } [p, q]
  else refuse .contradicts .notComplementary [p, q]

/-- From a contradiction, that one of the assumptions behind it fails.  The result depends on none
of them. -/
def thusAssumptionsCannotAllHold (c : Option Proposition) : Action Fact := do
  let c ← require .assumptionsCannotAllHold c
  match c.statement with
  | .contradiction _ =>
    let s ← get
    let assumptions := (s.dependencies c.id).filterMap s.entry?
    if assumptions.length < 2 then refuse .assumptionsCannotAllHold .tooFewDependencies [c]
    certify (.junction .or (assumptions.map fun e => .not e.statement))
      { rule := .assumptionsCannotAllHold, first := some c.id } []
  | _ => refuse .assumptionsCannotAllHold .expectedContradiction [c]

end Entailment.Session
