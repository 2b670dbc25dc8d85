import Entailment.Session.Guarded
import Entailment.Tactic.Propositional
import Entailment.Tactic.Quantifier
import Entailment.Tactic.Relation

/-!
# Tactics that may break down

Every tactic once more, written with the operations that check what they touch. A tactic first makes
sure of the forms of its premises and then takes them apart by position; what it concludes is put
together by constructors that refuse too few members and bound variables that are used twice. Where
one of these checks fails, the tactic breaks down.
-/
namespace Entailment.Guarded

open Session (require requireAll requireAssumption refuse derive certify contradiction newVariable)
open Checked (part lhs rhs item without equal join junction quantified)

section Propositional

def modusPonens (p imp : Option Proposition) : Guarded Fact := do
  let p ← require .modusPonens p
  let imp ← require .modusPonens imp
  if imp.statement.kind ≠ .implies then refuse .modusPonens .expectedImplication [imp]
  if ← equal (← part imp.statement 0) p.statement then
    derive (← part imp.statement 1)
      { rule := .modusPonens, first := some p.id, others := [.premise imp.id] } [p, imp]
  else refuse .modusPonens .antecedentMismatch [p, imp]

def modusTollens (notQ imp : Option Proposition) : Guarded Fact := do
  let notQ ← require .modusTollens notQ
  let imp ← require .modusTollens imp
  if imp.statement.kind ≠ .implies then refuse .modusTollens .expectedImplication [imp]
  if notQ.statement.kind ≠ .not then refuse .modusTollens .doesNotRefute [notQ, imp]
  if ← equal (← part notQ.statement 0) (← part imp.statement 1) then
    derive (.not (← part imp.statement 0))
      { rule := .modusTollens, first := some notQ.id, others := [.premise imp.id] } [notQ, imp]
  else refuse .modusTollens .doesNotRefute [notQ, imp]

def hypotheticalSyllogism (ab bc : Option Proposition) : Guarded Fact := do
  let ab ← require .hypotheticalSyllogism ab
  let bc ← require .hypotheticalSyllogism bc
  if ab.statement.kind ≠ .implies ∨ bc.statement.kind ≠ .implies then
    refuse .hypotheticalSyllogism .expectedImplications [ab, bc]
  if ← equal (← part ab.statement 1) (← part bc.statement 0) then
    derive (.implies (← part ab.statement 0) (← part bc.statement 1))
      { rule := .hypotheticalSyllogism, first := some ab.id, others := [.premise bc.id] } [ab, bc]
  else refuse .hypotheticalSyllogism .consequentMismatch [ab, bc]

def followedFrom (p : Option Proposition) (assumptions : List (Option Proposition)) :
    Guarded Fact := do
  let p ← require .followedFrom p
  if assumptions.isEmpty then refuse .followedFrom .noAssumptions [p]
  let facts ← (assumptions.mapM requireAssumption : Action (List Fact))
  let hypothesis ← join .and (facts.map Fact.statement)
  let dependencies := ((← (get : Action Session)).union [p.id]).filter (· ∉ facts.map Fact.id)
  certify (.implies hypothesis p.statement)
    { rule := .followedFrom, first := some p.id, others := facts.map (.premise ·.id) }
    dependencies

def conjoin (ps : List (Option Proposition)) : Guarded Fact := do
  if ps.length < 2 then throw (.failed (.tactic .conjunctionIntro .tooFewPropositions ps))
  let facts ← requireAll .conjunctionIntro ps
  let first ← item facts 0
  derive (← junction .and ((facts.map Fact.statement).map some))
    { rule := .conjunctionIntro, first := some first.id,
      others := facts.tail.map (.premise ·.id) } facts

def extract (p : Option Proposition) (i : Int) : Guarded Fact := do
  let p ← require .conjunctionElim p
  if p.statement.kind ≠ .and then refuse .conjunctionElim .expectedConjunction [p]
  if i < 0 ∨ p.statement.children.length ≤ i then
    refuse .conjunctionElim (.noSuchConjunct i) [p]
  Session.conjunct p (← part p.statement i.toNat)

def split (p : Option Proposition) : Guarded (List Fact) := do
  let p ← require .conjunctionElim p
  if p.statement.kind ≠ .and then refuse .conjunctionElim .expectedConjunction [p]
  (p.statement.children.mapM (Session.conjunct p) : Action (List Fact))

def disjoin (p : Option Proposition) (alternatives : List (Option Proposition)) :
    Guarded Fact := do
  let p ← require .disjunctionIntro p
  if alternatives.isEmpty then refuse .disjunctionIntro .noAlternatives [p]
  derive (← junction .or (some p.statement :: alternatives))
    { rule := .disjunctionIntro, first := some p.id, sides := alternatives.filterMap id } [p]

def refuted (rule : Rule) (alone : Bool) (r : Fact) : Guarded (List Proposition) := do
  if r.statement.kind = .not then return [← part r.statement 0]
  if r.statement.kind = .and ∧ alone then
    r.statement.children.mapM fun c => do
      if c.kind = .not then part c 0 else refuse rule .expectedNegations [r]
  else refuse rule .expectedNegation [r]

def removeRefuted (rule : Rule) (disjunction : Fact) :
    List Proposition → List Proposition → Guarded (List Proposition)
  | [], remaining => return remaining
  | n :: rest, remaining => do
    if ← (remaining.anyM (equal n) : Checked Bool) then
      removeRefuted rule disjunction rest (← Checked.discard n remaining)
    else
      throw (.failed (.tactic rule .refutesNothing [some (.not n), some disjunction.statement]))

def resolveBy (rule : Rule) (p : Option Proposition) (refutations : List (Option Proposition)) :
    Guarded Fact := do
  let p ← require rule p
  if p.statement.kind ≠ .or then refuse rule .expectedDisjunction [p]
  if refutations.isEmpty then refuse rule .noRefutations [p]
  let facts ← requireAll rule refutations
  let negated ← facts.mapM (refuted rule (facts.length == 1))
  let remaining ← removeRefuted rule p negated.flatten p.statement.children
  let inference : Inference FactId :=
    { rule, first := some p.id, others := facts.map (.premise ·.id) }
  if remaining.isEmpty then contradiction rule inference (p :: facts)
  else derive (← join .or remaining) inference (p :: facts)

def unitResolve (p refutation : Option Proposition) : Guarded Fact := do
  if let some r := refutation then
    if r.kind ≠ .not then
      throw (.failed (.tactic .unitResolve .expectedNegation [some r]))
  resolveBy .unitResolve p [refutation]

def literals (p : Proposition) : List Proposition := if p.kind = .or then p.children else [p]

def resolveClauses (lhs rhs : Option Proposition) : Guarded Fact := do
  let lhs ← require .resolveClauses lhs
  let rhs ← require .resolveClauses rhs
  let ls := literals lhs.statement
  let rs := literals rhs.statement
  match ← Checked.clash ls rs with
  | none => refuse .resolveClauses .nothingComplementary [lhs, rhs]
  | some (i, j) =>
    let remaining ← Checked.distinct ((← without ls i) ++ (← without rs j))
    let inference : Inference FactId :=
      { rule := .resolveClauses, first := some lhs.id, others := [.premise rhs.id] }
    if remaining.isEmpty then contradiction .resolveClauses inference [lhs, rhs]
    else derive (← join .or remaining) inference [lhs, rhs]

def exorEliminate (exor p : Option Proposition) : Guarded Fact := do
  let exor ← require .exorElim exor
  let p ← require .exorElim p
  if exor.statement.kind ≠ .exor then refuse .exorElim .expectedExclusive [exor]
  let members := exor.statement.children
  match ← Checked.position (equal p.statement) members with
  | none => refuse .exorElim .notAnAlternative [p, exor]
  | some i =>
    derive (← join .and ((members.eraseIdx i).map fun c => .not c))
      { rule := .exorElim, first := some exor.id, others := [.premise p.id] } [exor, p]

def doubleNegation (p : Option Proposition) : Guarded Fact := do
  let p ← require .doubleNegation p
  if p.statement.kind ≠ .not then refuse .doubleNegation .expectedDoubleNegation [p]
  let inner ← part p.statement 0
  if inner.kind ≠ .not then refuse .doubleNegation .expectedDoubleNegation [p]
  derive (← part inner 0) { rule := .doubleNegation, first := some p.id } [p]

def contrapositive (imp : Option Proposition) : Guarded Fact := do
  let imp ← require .contrapositive imp
  if imp.statement.kind ≠ .implies then refuse .contrapositive .expectedImplication [imp]
  derive (.implies (.not (← part imp.statement 1)) (.not (← part imp.statement 0)))
    { rule := .contrapositive, first := some imp.id } [imp]

def iffIntro (ab ba : Option Proposition) : Guarded Fact := do
  let ab ← require .iffIntro ab
  let ba ← require .iffIntro ba
  if ab.statement.kind ≠ .implies ∨ ba.statement.kind ≠ .implies then
    refuse .iffIntro .expectedImplications [ab, ba]
  if !(← equal (← part ab.statement 0) (← part ba.statement 1)) then
    refuse .iffIntro .notConverses [ab, ba]
  if !(← equal (← part ab.statement 1) (← part ba.statement 0)) then
    refuse .iffIntro .notConverses [ab, ba]
  derive (.iff (← part ab.statement 0) (← part ab.statement 1))
    { rule := .iffIntro, first := some ab.id, others := [.premise ba.id] } [ab, ba]

def iffForward (p : Option Proposition) : Guarded Fact := do
  let p ← require .iffElim p
  if p.statement.kind ≠ .iff then refuse .iffElim .expectedBiconditional [p]
  derive (.implies (← part p.statement 0) (← part p.statement 1))
    { rule := .iffElim, first := some p.id } [p]

def iffBackward (p : Option Proposition) : Guarded Fact := do
  let p ← require .iffElim p
  if p.statement.kind ≠ .iff then refuse .iffElim .expectedBiconditional [p]
  derive (.implies (← part p.statement 1) (← part p.statement 0))
    { rule := .iffElim, first := some p.id } [p]

def contradicts (p q : Option Proposition) : Guarded Fact := do
  let p ← require .contradicts p
  let q ← require .contradicts q
  if ← Checked.complementary p.statement q.statement then
    contradiction .contradicts
      { rule := .contradicts, first := some p.id, others := [.premise q.id] } [p, q]
  else refuse .contradicts .notComplementary [p, q]

def thusAssumptionsCannotAllHold (c : Option Proposition) : Guarded Fact := do
  let c ← require .assumptionsCannotAllHold c
  if c.statement.kind ≠ .contradiction then
    refuse .assumptionsCannotAllHold .expectedContradiction [c]
  let s ← (get : Action Session)
  let assumptions := (s.dependencies c.id).filterMap s.entry?
  if assumptions.length < 2 then refuse .assumptionsCannotAllHold .tooFewDependencies [c]
  certify (← junction .or ((assumptions.map fun e => .not e.statement).map some))
    { rule := .assumptionsCannotAllHold, first := some c.id } []

end Propositional

section Quantifier

/-- What an entry states, if it is proven and what is wanted. -/
def matching (s : Session) (want : Proposition) (id : FactId) : Checked (Option Fact) := do
  match s.entry? id with
  | none => return none
  | some e =>
    if s.holds id && (← equal e.statement want) then return some ⟨id, e.statement⟩
    else return none

def lookup (s : Session) (want : Proposition) (facts : List Proposition) :
    Checked (Option Fact) := do
  match ← (facts.filterMap s.provenFact?).findM? fun f => equal f.statement want with
  | some f => return some f
  | none => want.freeVariables.findSomeM? fun v => (s.known v).findSomeM? (matching s want)

def rejectFacts (rule : Rule) (want : Proposition) : List Proposition → Guarded Unit
  | [] => return ()
  | f :: rest => do
    if !(← (get : Action Session)).isProven f then
      throw (.failed (.tactic rule .notProven [some f]))
    if f.isRelation Relation.element.name then
      if (← lhs f) = (← lhs want) then throw (.failed (.inconsistent rule want f))
    rejectFacts rule want rest

def membership (rule : Rule) (element set : Term) (facts : List Proposition) :
    Guarded Fact := do
  let want := Proposition.rel .element element set
  match ← lookup (← (get : Action Session)) want facts with
  | some f => return f
  | none =>
    rejectFacts rule want facts
    throw (.failed (.tactic rule .noMembership [some want]))

def memberships (rule : Rule) (σ : Substitution) (facts : List Proposition) :
    List (Variable × Option Term) → Guarded (List Fact)
  | [] => return []
  | (_, none) :: rest => memberships rule σ facts rest
  | (v, some set) :: rest =>
    match σ.find? v with
    | none => throw (.failed (.tactic rule (.undeterminedDomain v) []))
    | some t => do
      let m ← membership rule t (σ.applyTerm set) facts
      return m :: (← memberships rule σ facts rest)

def thusForall (p : Option Proposition) (v : Option Variable) : Guarded Fact := do
  let p ← require .thusForall p
  match v with
  | none => refuse .thusForall .missingVariable [p]
  | some v =>
    if p.statement.binds v then refuse .thusForall (.alreadyBound v) [p]
    let s ← (get : Action Session)
    let clashing :=
      ((s.dependencies p.id).filterMap s.entry?).filter (·.statement.contains (.var v))
    let warnings := clashing.map fun e => ⟨p.statement, v, e.statement⟩
    (modify fun s => { s with warnings := s.warnings ++ warnings } : Action PUnit)
    derive (← quantified .all (some v) none p.statement)
      { rule := .thusForall, first := some p.id, others := [.term (.var v)] } [p]

def abstractWitness (p : Fact) (name : String) (witness : Term) (paths : List Path) :
    Guarded (Variable × Proposition) := do
  let v ← newVariable name
  let inner ← Checked.replace witness (.var v) paths p.statement
  if ← equal inner p.statement then refuse .thusThereExists (.noWitness witness) [p]
  return (v, inner)

def thusThereExists (p : Option Proposition) (name : String) (witness : Term)
    (paths : List Path) : Guarded Fact := do
  let p ← require .thusThereExists p
  let (v, inner) ← abstractWitness p name witness paths
  derive (← quantified .exist (some v) none inner)
    { rule := .thusThereExists, first := some p.id, others := [.term witness] } [p]

def thusThereExistsIn (p : Option Proposition) (name : String) (witness set : Term)
    (given : Option Proposition) (paths : List Path) : Guarded Fact := do
  let p ← require .thusThereExists p
  let m ← membership .thusThereExists witness set given.toList
  let (v, inner) ← abstractWitness p name witness paths
  derive (← quantified .exist (some v) (some set) inner)
    { rule := .thusThereExists, first := some p.id, others := [.term witness, .premise m.id] }
    [p, m]

def inParticular (p : Option Proposition) (t : Term) (facts : List Proposition) :
    Guarded Fact := do
  let p ← require .inParticular p
  match p.statement with
  | .quantified .all v domain _ _ =>
    let inner ← Checked.replace (.var v) t [] (← part p.statement 0)
    match domain with
    | none => derive inner { rule := .inParticular, first := some p.id, others := [.term t] } [p]
    | some set =>
      let m ← membership .inParticular t set facts
      derive inner
        { rule := .inParticular, first := some p.id, others := [.term t, .premise m.id] } [p, m]
  | _ => refuse .inParticular .expectedUniversal [p]

def isSpecialCaseOf (p : Proposition) (universal : Option Proposition)
    (facts : List Proposition) : Guarded Fact := do
  let q ← require .isSpecialCaseOf universal
  match Session.peel q.statement with
  | ([], _) => refuse .isSpecialCaseOf .expectedUniversal [q]
  | (layers, body) =>
    match ← Checked.unify (.ofList (layers.map (·.1))) .empty [] p body with
    | none => throw (.failed (.tactic .isSpecialCaseOf .notAnInstance [some p, some q.statement]))
    | some σ =>
      let ms ← memberships .isSpecialCaseOf σ facts layers
      derive p
        { rule := .isSpecialCaseOf, first := some q.id, others := ms.map (.premise ·.id) }
        (ms ++ [q])

def quantifiedModusPonens (universal p : Option Proposition) (facts : List Proposition) :
    Guarded Fact := do
  let q ← require .quantifiedModusPonens universal
  let p ← require .quantifiedModusPonens p
  let (layers, body) := Session.peel q.statement
  if layers.isEmpty ∨ body.kind ≠ .implies then
    refuse .quantifiedModusPonens .expectedUniversalImplication [q]
  let vs := layers.map (·.1)
  match ← Checked.unify (.ofList vs) .empty [] p.statement (← part body 0) with
  | none => refuse .quantifiedModusPonens .premiseMismatch [p, q]
  | some σ =>
    let b ← part body 1
    match vs.find? fun v => (σ.find? v).isNone && b.contains (.var v) with
    | some v => refuse .quantifiedModusPonens (.undetermined v) [p, q]
    | none =>
      let ms ← memberships .quantifiedModusPonens σ facts layers
      derive (σ.apply b)
        { rule := .quantifiedModusPonens, first := some q.id,
          others := .premise p.id :: ms.map (.premise ·.id) } (ms ++ [q, p])

/-- Takes over what a universal concludes from the witness of an existential. -/
def eliminate (e u : Fact) : Guarded Fact := do
  match e.statement, u.statement with
  | .quantified .exist v s _ _, .quantified .all w t _ _ =>
    if s ≠ t then refuse .existentialElim .quantifierMismatch [e, u]
    let body ← part u.statement 0
    if body.kind ≠ .implies then refuse .existentialElim .expectedUniversalImplication [u]
    let renamed ← Checked.replace (.var w) (.var v) [] (← part body 0)
    if !(← equal renamed (← part e.statement 0)) then
      refuse .existentialElim .witnessPropertyMismatch [e, u]
    let b ← part body 1
    if b.contains (.var w) then refuse .existentialElim .dependsOnWitness [u]
    derive b { rule := .existentialElim, first := some e.id, others := [.premise u.id] } [e, u]
  | _, _ => refuse .existentialElim .quantifierMismatch [e, u]

def existentialElimination (existential universal : Option Proposition) : Guarded Fact := do
  let e ← require .existentialElim existential
  let u ← require .existentialElim universal
  eliminate e u

end Quantifier

section Relation

/-- Walks along a chain from its link at position `i` on. -/
def followChain (order : Order) (chain : List Fact) :
    Nat → Session.Chain → List Fact → Guarded Session.Chain
  | _, acc, [] => return acc
  | i, acc, r :: rest => do
    if !r.statement.isBinary then refuse .transitive .expectedBinary [r]
    if 0 < i then
      let q ← item chain (i - 1)
      if (← rhs q.statement) ≠ (← lhs r.statement) then refuse .transitive .brokenChain [q, r]
    match order.classify r.statement.name with
    | none => refuse .transitive (.notInOrder r.statement.name) [r]
    | some l =>
      match acc.extend l with
      | none => refuse .transitive .mixedDirections chain
      | some acc => followChain order chain (i + 1) acc rest

def transitiveIn (order : Order) (want : String) (links : List (Option Proposition)) :
    Guarded Fact := do
  match order.classify want with
  | none => throw (.failed (.tactic .transitive (.notInOrder want) links))
  | some goal =>
    if links.isEmpty then throw (.failed (.tactic .transitive .emptyChain []))
    let chain ← requireAll .transitive links
    let found ← followChain order chain 0 ⟨.level, false⟩ chain
    if goal.direction = .level ∧ found.direction ≠ .level then
      refuse .transitive .expectedEqualities chain
    if goal.direction ≠ .level ∧ found.direction ≠ .level ∧ goal.direction ≠ found.direction then
      refuse .transitive (.wrongDirection want) chain
    if goal.strict && !found.strict then refuse .transitive (.noStrictLink want) chain
    let first ← item chain 0
    let last ← item chain (chain.length - 1)
    derive (.relation want [← lhs first.statement, ← rhs last.statement])
      { rule := .transitive, first := some first.id,
        others := chain.tail.map (.premise ·.id) } chain

def transitive (want : String) (links : List (Option Proposition)) : Guarded Fact := do
  transitiveIn (← (get : Action Session)).order want links

def symmetry (p : Option Proposition) : Guarded Fact := do
  let p ← require .symmetry p
  if !p.statement.isBinary then refuse .symmetry .expectedBinary [p]
  let order := (← (get : Action Session)).order
  let name := p.statement.name
  match (if name = Relation.notEqual.name then some name else order.flip? name) with
  | some flipped =>
    derive (.relation flipped [← rhs p.statement, ← lhs p.statement])
      { rule := .symmetry, first := some p.id } [p]
  | none => refuse .symmetry (.notSymmetric name) [p]

def substitute (equality p : Option Proposition) (paths : List Path) : Guarded Fact := do
  let eq ← require .substitute equality
  let p ← require .substitute p
  if !eq.statement.isRelation Relation.equal.name then refuse .substitute .expectedEquality [eq]
  let l ← lhs eq.statement
  let r ← rhs eq.statement
  let q ← Checked.replace l r paths p.statement
  if (← equal p.statement q) && l != r then refuse .substitute .nothingToReplace [eq, p]
  derive q { rule := .substitute, first := some eq.id, others := [.premise p.id] } [eq, p]

/-- Decides the relation that a proposition asserts or denies. -/
def decideBy (p target : Proposition) (negated : Bool) : Guarded Fact := do
  if !target.isBinary then throw (.failed (.tactic .bySimplification .expectedBinary [some p]))
  let l ← lhs target
  let r ← rhs target
  match Session.decideRelation target.name l r with
  | none => throw (.failed (.tactic .bySimplification .undecided [some p]))
  | some holds =>
    if holds = negated then throw (.failed (.tactic .bySimplification .doesNotHold [some p]))
    certify p { rule := .bySimplification, others := [.term l, .term r] } []

def bySimplification (p : Proposition) : Guarded Fact := do
  if p.kind = .not then decideBy p (← part p 0) true else decideBy p p false

end Relation

end Entailment.Guarded
