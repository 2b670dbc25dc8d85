import Entailment.Proposition.Replace
import Entailment.Session.Basic
import Entailment.Term.Simplify

/-!
# Tactics for relations

Equality, the relations of an order, and whatever arithmetic can decide by itself.
-/

namespace Entailment.Session

/-- What a chain establishes so far: its direction, and whether it has a strict link. -/
structure Chain where
  direction : Direction
  strict : Bool
deriving DecidableEq, Repr

/-- Adds one link to a chain, unless it points the other way. -/
def Chain.extend (c : Chain) (l : Link) : Option Chain :=
  match l.direction, c.direction with
  | .level, d => some ⟨d, c.strict || l.strict⟩
  | d, .level => some ⟨d, c.strict || l.strict⟩
  | d, d' => if d = d' then some ⟨d, c.strict || l.strict⟩ else none

/-- Walks along a chain.  Each link has to be a binary relation of the order that starts where the
previous one ended. -/
def followChain (order : Order) (chain : List Fact) :
    Option Fact → Chain → List Fact → Action Chain
  | _, acc, [] => return acc
  | previous, acc, r :: rest => do
    match r.statement.sides? with
    | none => refuse .transitive .expectedBinary [r]
    | some (lhs, _) =>
      match previous with
      | some q =>
        if q.statement.sides?.map (·.2) ≠ some lhs then refuse .transitive .brokenChain [q, r]
      | none => pure ()
      match order.classify r.statement.name with
      | none => refuse .transitive (.notInOrder r.statement.name) [r]
      | some l =>
        match acc.extend l with
        | none => refuse .transitive .mixedDirections chain
        | some acc => followChain order chain (some r) acc rest

/-- Chains relations of an order into the relation `want` between the first and the last term.  A
strict conclusion needs a strict link, an equality only equalities, and other conclusions a chain
that does not run the other way. -/
def transitiveIn (order : Order) (want : String) (links : List (Option Proposition)) :
    Action Fact := do
  match order.classify want with
  | none => throw (.tactic .transitive (.notInOrder want) links)
  | some goal =>
    if links.isEmpty then throw (.tactic .transitive .emptyChain [])
    let chain ← requireAll .transitive links
    let found ← followChain order chain none ⟨.level, false⟩ chain
    if goal.direction = .level ∧ found.direction ≠ .level then
      refuse .transitive .expectedEqualities chain
    if goal.direction ≠ .level ∧ found.direction ≠ .level ∧ goal.direction ≠ found.direction then
      refuse .transitive (.wrongDirection want) chain
    if goal.strict && !found.strict then refuse .transitive (.noStrictLink want) chain
    match chain.head?.bind (·.statement.sides?), chain.getLast?.bind (·.statement.sides?) with
    | some (lhs, _), some (_, rhs) =>
      derive (.relation want [lhs, rhs])
        { rule := .transitive, first := chain.head?.map Fact.id,
          others := chain.tail.map (.premise ·.id) } chain
    | _, _ => throw (.tactic .transitive .emptyChain [])

/-- Chains relations of the session's own order. -/
def transitive (want : String) (links : List (Option Proposition)) : Action Fact := do
  transitiveIn (← get).order want links

/-- Everything equals itself. -/
def reflexivity (t : Term) : Action Fact :=
  certify (.rel .equal t t) { rule := .reflexivity, others := [.term t] } []

/-- Swaps the sides of a relation of the session's order, or of an inequality. -/
def symmetry (p : Option Proposition) : Action Fact := do
  let p ← require .symmetry p
  match p.statement with
  | .relation name [lhs, rhs] _ =>
    let order := (← get).order
    match (if name = Relation.notEqual.name then some name else order.flip? name) with
    | some name => derive (.relation name [rhs, lhs]) { rule := .symmetry, first := some p.id } [p]
    | none => refuse .symmetry (.notSymmetric name) [p]
  | _ => refuse .symmetry .expectedBinary [p]

/-- Replaces the left of an equality by its right, at the given positions or everywhere.  Something
has to change, unless both sides are the same. -/
def substitute (equality p : Option Proposition) (paths : List Path) : Action Fact := do
  let eq ← require .substitute equality
  let p ← require .substitute p
  match eq.statement with
  | .relation name [lhs, rhs] _ =>
    if name ≠ Relation.equal.name then refuse .substitute .expectedEquality [eq]
    let q := p.statement.replace lhs rhs paths
    if p.statement.equal q && lhs != rhs then refuse .substitute .nothingToReplace [eq, p]
    derive q { rule := .substitute, first := some eq.id, others := [.premise p.id] } [eq, p]
  | _ => refuse .substitute .expectedEquality [eq]

/-- Whether arithmetic alone shows a relation to hold everywhere or nowhere. -/
def decideRelation (name : String) (lhs rhs : Term) : Option Bool :=
  match Relation.ofName? name with
  | some .equal => lhs.decideEqual rhs
  | some .notEqual => (lhs.decideEqual rhs).map not
  | some .less => (lhs.decideOrder rhs).map (·.isLT)
  | some .lessEqual => (lhs.decideOrder rhs).map (·.isLE)
  | some .greater => (lhs.decideOrder rhs).map (·.isGT)
  | some .greaterEqual => (lhs.decideOrder rhs).map (·.isGE)
  | _ => none

/-- Enters a relation, or the negation of one, that arithmetic shows to hold. -/
def bySimplification (p : Proposition) : Action Fact := do
  let (target, negated) := match p with
    | .not q _ => (q, true)
    | q => (q, false)
  match target with
  | .relation name [lhs, rhs] _ =>
    match decideRelation name lhs rhs with
    | none => throw (.tactic .bySimplification .undecided [some p])
    | some holds =>
      if holds = negated then throw (.tactic .bySimplification .doesNotHold [some p])
      certify p { rule := .bySimplification, others := [.term lhs, .term rhs] } []
  | _ => throw (.tactic .bySimplification .expectedBinary [some p])

end Entailment.Session
