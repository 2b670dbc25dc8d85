import Entailment.Proposition.Replace
import Entailment.Proposition.Unify
import Entailment.Session.Basic

/-!
# Quantifier tactics

Generalisation, abstraction of a witness, and the ways to use a universal or existential statement.
Where a quantifier ranges over a set, the terms put in its place have to be members of that set.  A
proof of membership may be handed over, or else it is looked up among the facts known about the
variables involved.
-/

namespace Entailment.Session

/-- A proven fact equal to `want`: one of those given, or one known about a variable of `want`. -/
def lookup (s : Session) (want : Proposition) (facts : List Proposition) : Option Fact :=
  let isWanted (f : Fact) : Bool := f.statement.equal want
  ((facts.filterMap s.provenFact?).find? isWanted).or <|
    want.freeVariables.findSome? fun v =>
      (s.known v).findSome? fun id =>
        if s.holds id then
          ((s.entry? id).map fun e => (⟨id, e.statement⟩ : Fact)).filter isWanted
        else none

/-- Complains about memberships that were given but do not serve: one that is not proven, or one of
the same element in another set. -/
def rejectFacts (rule : Rule) (element : Term) (want : Proposition) :
    List Proposition → Action Unit
  | [] => return ()
  | f :: rest => do
    if !(← get).isProven f then throw (.tactic rule .notProven [some f])
    match f with
    | .relation name [lhs, _] _ =>
      if name = Relation.element.name ∧ lhs = element then throw (.inconsistent rule want f)
    | _ => pure ()
    rejectFacts rule element want rest

/-- A proof that an element belongs to a set. -/
def membership (rule : Rule) (element set : Term) (facts : List Proposition) : Action Fact := do
  let want := Proposition.rel .element element set
  match (← get).lookup want facts with
  | some f => return f
  | none =>
    rejectFacts rule element want facts
    throw (.tactic rule .noMembership [some want])

/-- From `P`, `∀v. P`.  It is for the caller to see that no assumption behind `P` speaks about `v`;
if one does, a warning is left. -/
def thusForall (p : Option Proposition) (v : Option Variable) : Action Fact := do
  let p ← require .thusForall p
  match v with
  | none => refuse .thusForall .missingVariable [p]
  | some v =>
    if p.statement.binds v then refuse .thusForall (.alreadyBound v) [p]
    let s ← get
    let clashing :=
      ((s.dependencies p.id).filterMap s.entry?).filter (·.statement.contains (.var v))
    modify fun s => { s with
      warnings := s.warnings ++ clashing.map fun e => ⟨p.statement, v, e.statement⟩ }
    derive (.quantified .all v none p.statement)
      { rule := .thusForall, first := some p.id, others := [.term (.var v)] } [p]

/-- Puts a new variable in the place of a witness, which has to occur. -/
def abstractWitness (p : Fact) (name : String) (witness : Term) (paths : List Path) :
    Action (Variable × Proposition) := do
  let v ← newVariable name
  let inner := p.statement.replace witness (.var v) paths
  if inner.equal p.statement then refuse .thusThereExists (.noWitness witness) [p]
  return (v, inner)

/-- From `P(w)`, `∃v. P(v)`. -/
def thusThereExists (p : Option Proposition) (name : String) (witness : Term) (paths : List Path) :
    Action Fact := do
  let p ← require .thusThereExists p
  let (v, inner) ← abstractWitness p name witness paths
  derive (.quantified .exist v none inner)
    { rule := .thusThereExists, first := some p.id, others := [.term witness] } [p]

/-- From `P(w)` and `w ∈ S`, `∃v∈S. P(v)`. -/
def thusThereExistsIn (p : Option Proposition) (name : String) (witness set : Term)
    (given : Option Proposition) (paths : List Path) : Action Fact := do
  let p ← require .thusThereExists p
  let m ← membership .thusThereExists witness set given.toList
  let (v, inner) ← abstractWitness p name witness paths
  derive (.quantified .exist v (some set) inner)
    { rule := .thusThereExists, first := some p.id, others := [.term witness, .premise m.id] }
    [p, m]

/-- From `∀v. P(v)`, `P(t)`; over a domain, `t` has to be in it. -/
def inParticular (p : Option Proposition) (t : Term) (facts : List Proposition) : Action Fact := do
  let p ← require .inParticular p
  match p.statement with
  | .quantified .all v none inner _ =>
    derive (inner.replaceAll (.var v) t)
      { rule := .inParticular, first := some p.id, others := [.term t] } [p]
  | .quantified .all v (some set) inner _ =>
    let m ← membership .inParticular t set facts
    derive (inner.replaceAll (.var v) t)
      { rule := .inParticular, first := some p.id, others := [.term t, .premise m.id] } [p, m]
  | _ => refuse .inParticular .expectedUniversal [p]

/-- The universal quantifiers at the front of a proposition, and what they quantify. -/
def peel : Proposition → List (Variable × Option Term) × Proposition
  | .quantified .all v domain body _ =>
    let (layers, inner) := peel body
    ((v, domain) :: layers, inner)
  | p => ([], p)

/-- Proofs that every quantified variable with a domain has a value inside that domain. -/
def memberships (rule : Rule) (σ : Substitution) (facts : List Proposition) :
    List (Variable × Option Term) → Action (List Fact)
  | [] => return []
  | (_, none) :: rest => memberships rule σ facts rest
  | (v, some set) :: rest =>
    match σ.find? v with
    | none => throw (.tactic rule (.undeterminedDomain v) [])
    | some t => do
      let m ← membership rule t (σ.applyTerm set) facts
      return m :: (← memberships rule σ facts rest)

/-- Derives `p` as an instance of a universal statement. -/
def isSpecialCaseOf (p : Proposition) (universal : Option Proposition) (facts : List Proposition) :
    Action Fact := do
  let q ← require .isSpecialCaseOf universal
  match peel q.statement with
  | ([], _) => refuse .isSpecialCaseOf .expectedUniversal [q]
  | (layers, body) =>
    match p.unify? body (layers.map (·.1)) with
    | none => throw (.tactic .isSpecialCaseOf .notAnInstance [some p, some q.statement])
    | some σ =>
      let ms ← memberships .isSpecialCaseOf σ facts layers
      derive p
        { rule := .isSpecialCaseOf, first := some q.id, others := ms.map (.premise ·.id) }
        (ms ++ [q])

/-- From `∀x. P(x) → Q(x)` and `P(t)`, `Q(t)`.  Whatever `Q` mentions has to be settled by matching
the premise. -/
def quantifiedModusPonens (universal p : Option Proposition) (facts : List Proposition) :
    Action Fact := do
  let q ← require .quantifiedModusPonens universal
  let p ← require .quantifiedModusPonens p
  match peel q.statement with
  | (layer :: layers, .implies a b _) =>
    let vs := (layer :: layers).map (·.1)
    match p.statement.unify? a vs with
    | none => refuse .quantifiedModusPonens .premiseMismatch [p, q]
    | some σ =>
      match vs.find? fun v => (σ.find? v).isNone && b.contains (.var v) with
      | some v => refuse .quantifiedModusPonens (.undetermined v) [p, q]
      | none =>
        let ms ← memberships .quantifiedModusPonens σ facts (layer :: layers)
        derive (σ.apply b)
          { rule := .quantifiedModusPonens, first := some q.id,
            others := .premise p.id :: ms.map (.premise ·.id) } (ms ++ [q, p])
  | _ => refuse .quantifiedModusPonens .expectedUniversalImplication [q]

/-- From `∃v. P(v)` and `∀w. P(w) → Q`, where `Q` does not mention `w`, `Q`.  Domains have to
agree. -/
def existentialElimination (existential universal : Option Proposition) : Action Fact := do
  let e ← require .existentialElim existential
  let u ← require .existentialElim universal
  match e.statement, u.statement with
  | .quantified .exist v s inner _, .quantified .all w t body _ =>
    if s ≠ t then refuse .existentialElim .quantifierMismatch [e, u]
    match body with
    | .implies a b _ =>
      if !(a.replaceAll (.var w) (.var v)).equal inner then
        refuse .existentialElim .witnessPropertyMismatch [e, u]
      if b.contains (.var w) then refuse .existentialElim .dependsOnWitness [u]
      derive b { rule := .existentialElim, first := some e.id, others := [.premise u.id] } [e, u]
    | _ => refuse .existentialElim .expectedUniversalImplication [u]
  | _, _ => refuse .existentialElim .quantifierMismatch [e, u]

end Entailment.Session
