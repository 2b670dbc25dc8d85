import Entailment.Proofs.Deduction
import Entailment.Tactic.Propositional
import Entailment.Tactic.Quantifier
import Entailment.Tactic.Relation

/-!
# What can be entered in the ledger

`Concludes` lists the inference rules by what they say alone: from statements of
these shapes, that statement. It mentions no session. `Derives` adds the session
side: the premises are facts that currently count as proven, and the new entry
depends on whatever they depend on, except where a rule discharges assumptions.
`Extends` is the effect of a tactic as a whole. It enters justified statements
one after another, and otherwise touches only the counter for variables, the
warnings and the order.

Closing a scope has its own treatment, since what it enters was justified before
the assumptions of that scope were retracted.
-/
namespace Entailment

/-- A disjunction of any number of propositions, where none at all make a contradiction. -/
def Proposition.clause : List Proposition → Proposition
  | [] => .contradiction
  | first :: rest => .disjunction first rest

/-- What a refutation refutes: the body of a negation, or the bodies of a conjunction of
negations. -/
inductive Refutes : Proposition → List Proposition → Prop
  | negation (p : Proposition) (m : Option FactId) : Refutes (.not p m) [p]
  | negations (ps ns : List Proposition) (m : Option FactId) :
      List.Forall₂ (fun p n => ∃ k, p = .not n k) ps ns → Refutes (.junction .and ps m) ns

/-- Memberships of the values that a substitution gives to variables with domains, in the order of
the layers. -/
inductive Memberships (σ : Substitution) :
    List (Variable × Option Term) → List Proposition → Prop
  | nil : Memberships σ [] []
  | anywhere {v : Variable} {layers : List (Variable × Option Term)} {ms : List Proposition} :
      Memberships σ layers ms → Memberships σ ((v, none) :: layers) ms
  | inside {v : Variable} {set t : Term} {layers : List (Variable × Option Term)}
      {ms : List Proposition} {m : Option FactId} :
      σ.find? v = some t → Memberships σ layers ms →
      Memberships σ ((v, some set) :: layers)
        (.relation Relation.element.name [t, σ.applyTerm set] m :: ms)

/-- The relations that swapping sides turns into each other. -/
def Converse (order : Order) (name flipped : String) : Prop :=
  (name = Relation.notEqual.name ∧ flipped = name) ∨ order.flip? name = some flipped

/-- The inference rules, by the statements they start from and the one they arrive at. -/
inductive Concludes : Rule → List Proposition → Proposition → Prop
  | postulate {p : Proposition} : Concludes .postulate [] p
  | modusPonens {p a b : Proposition} {m : Option FactId} : a.equal p = true →
      Concludes .modusPonens [p, .implies a b m] b
  | modusTollens {q a b : Proposition} {m m' : Option FactId} : q.equal b = true →
      Concludes .modusTollens [.not q m, .implies a b m'] (.not a)
  | hypotheticalSyllogism {a b b' c : Proposition} {m m' : Option FactId} : b.equal b' = true →
      Concludes .hypotheticalSyllogism [.implies a b m, .implies b' c m'] (.implies a c)
  | conjunctionIntro {ps : List Proposition} : 2 ≤ ps.length →
      Concludes .conjunctionIntro ps (.junction .and ps)
  | conjunctionElim {p : Proposition} {ps : List Proposition} {m : Option FactId} : p ∈ ps →
      Concludes .conjunctionElim [.junction .and ps m] p
  | disjunctionIntro {p : Proposition} {ps : List Proposition} : ps ≠ [] →
      Concludes .disjunctionIntro [p] (.junction .or (p :: ps))
  | resolve {rule : Rule} {ps rs remaining : List Proposition} {ns : List (List Proposition)}
      {m : Option FactId} : rule = .resolve ∨ rule = .unitResolve → List.Forall₂ Refutes rs ns →
      remaining = ps.filter (fun d => ns.flatten.all fun n => !d.equal n) →
      Concludes rule (.junction .or ps m :: rs)
        (.clause remaining)
  | resolveClauses {p q : Proposition} {i j : Nat} {remaining : List Proposition} :
      Session.clash? (Session.literals p) (Session.literals q) = some (i, j) →
      remaining = Session.distinct
        ((Session.literals p).eraseIdx i ++ (Session.literals q).eraseIdx j) →
      Concludes .resolveClauses [p, q]
        (.clause remaining)
  | exorElim {p first : Proposition} {ps rest : List Proposition} {i : Nat} {m : Option FactId} :
      p.indexIn? ps = some i → (ps.eraseIdx i).map (fun c => .not c) = first :: rest →
      Concludes .exorElim [.junction .exor ps m, p] (.conjunction first rest)
  | doubleNegation {a : Proposition} {m m' : Option FactId} :
      Concludes .doubleNegation [.not (.not a m) m'] a
  | contrapositive {a b : Proposition} {m : Option FactId} :
      Concludes .contrapositive [.implies a b m] (.implies (.not b) (.not a))
  | iffIntro {a a' b b' : Proposition} {m m' : Option FactId} : a.equal a' = true →
      b.equal b' = true → Concludes .iffIntro [.implies a b m, .implies b' a' m'] (.iff a b)
  | iffForward {a b : Proposition} {m : Option FactId} :
      Concludes .iffElim [.iff a b m] (.implies a b)
  | iffBackward {a b : Proposition} {m : Option FactId} :
      Concludes .iffElim [.iff a b m] (.implies b a)
  | contradicts {p q : Proposition} : Session.complementary p q = true →
      Concludes .contradicts [p, q] .contradiction
  | thusForall {p : Proposition} {v : Variable} : p.binds v = false →
      Concludes .thusForall [p] (.quantified .all v none p)
  | thusThereExists {p : Proposition} {v : Variable} {w : Term} {paths : List Path} :
      (p.replace w (.var v) paths).equal p = false →
      Concludes .thusThereExists [p] (.quantified .exist v none (p.replace w (.var v) paths))
  | thusThereExistsIn {p : Proposition} {v : Variable} {w set : Term} {paths : List Path}
      {m : Option FactId} : (p.replace w (.var v) paths).equal p = false →
      Concludes .thusThereExists [p, .relation Relation.element.name [w, set] m]
        (.quantified .exist v (some set) (p.replace w (.var v) paths))
  | inParticular {v : Variable} {p : Proposition} {t : Term} {m : Option FactId} :
      Concludes .inParticular [.quantified .all v none p m] (p.replaceAll (.var v) t)
  | inParticularIn {v : Variable} {p : Proposition} {t set : Term} {m m' : Option FactId} :
      Concludes .inParticular
        [.quantified .all v (some set) p m, .relation Relation.element.name [t, set] m']
        (p.replaceAll (.var v) t)
  | isSpecialCaseOf {p q body : Proposition} {layers : List (Variable × Option Term)}
      {σ : Substitution} {ms : List Proposition} : Session.peel q = (layers, body) →
      layers ≠ [] → p.unify? body (layers.map (·.1)) = some σ → Memberships σ layers ms →
      Concludes .isSpecialCaseOf (ms ++ [q]) p
  | quantifiedModusPonens {p q a b : Proposition} {layers : List (Variable × Option Term)}
      {σ : Substitution} {ms : List Proposition} {m : Option FactId} :
      Session.peel q = (layers, .implies a b m) → layers ≠ [] →
      p.unify? a (layers.map (·.1)) = some σ →
      (∀ v ∈ layers.map (·.1), σ.find? v = none → b.contains (.var v) = false) →
      Memberships σ layers ms →
      Concludes .quantifiedModusPonens (ms ++ [q, p]) (σ.apply b)
  | existentialElim {v w : Variable} {s : Option Term} {p a b : Proposition}
      {m m' m'' : Option FactId} : (a.replaceAll (.var w) (.var v)).equal p = true →
      b.contains (.var w) = false →
      Concludes .existentialElim
        [.quantified .exist v s p m, .quantified .all w s (.implies a b m') m''] b
  | reflexivity {t : Term} : Concludes .reflexivity [] (.rel .equal t t)
  | symmetry {order : Order} {name flipped : String} {lhs rhs : Term} {m : Option FactId} :
      Converse order name flipped →
      Concludes .symmetry [.relation name [lhs, rhs] m] (.relation flipped [rhs, lhs])
  | substitute {p : Proposition} {lhs rhs : Term} {paths : List Path} {m : Option FactId} :
      Concludes .substitute [.relation Relation.equal.name [lhs, rhs] m, p]
        (p.replace lhs rhs paths)
  | bySimplification {name : String} {lhs rhs : Term} {m : Option FactId} :
      Session.decideRelation name lhs rhs = some true →
      Concludes .bySimplification [] (.relation name [lhs, rhs] m)
  | bySimplificationNot {name : String} {lhs rhs : Term} {m m' : Option FactId} :
      Session.decideRelation name lhs rhs = some false →
      Concludes .bySimplification [] (.not (.relation name [lhs, rhs] m) m')
  | transitive {want : String} {chain : List Proposition} {lhs rhs x y : Term} :
      chain.head?.bind Proposition.sides? = some (lhs, x) →
      chain.getLast?.bind Proposition.sides? = some (y, rhs) →
      Concludes .transitive chain (.relation want [lhs, rhs])

namespace Session

/-- What a session may enter as proven, with its justification and the assumptions it rests on. -/
inductive Derives (s : Session) : Proposition → Inference FactId → List FactId → Prop
  | plain {premises : List Fact} {p : Proposition} {i : Inference FactId} :
      Concludes i.rule (premises.map Fact.statement) p → (∀ f ∈ premises, s.Proves f) →
      (∀ j, j ∈ i.premises ↔ j ∈ premises.map Fact.id) →
      Derives s p i (s.union (premises.map Fact.id))
  | followedFrom {p a : Fact} {rest : List Fact} : s.Proves p → (∀ f ∈ a :: rest, s.Assumes f) →
      Derives s (.implies (.conjunction a.statement (rest.map Fact.statement)) p.statement)
        { rule := .followedFrom, first := some p.id,
          others := (a :: rest).map (.premise ·.id) }
        ((s.union [p.id]).filter (· ∉ (a :: rest).map Fact.id))
  | assumptionsCannotAllHold {c : Fact} {m : Option FactId} : s.Proves c →
      c.statement = .contradiction m →
      2 ≤ ((s.dependencies c.id).filterMap s.entry?).length →
      Derives s
        (.junction .or (((s.dependencies c.id).filterMap s.entry?).map fun e => .not e.statement))
        { rule := .assumptionsCannotAllHold, first := some c.id } []

/-- The effect of a tactic whose rules are all in `R`. -/
inductive Extends (R : Rule → Prop) (s : Session) : Session → Prop
  | refl : Extends R s s
  | aside {t : Session} (fresh : Nat) (warnings : List Warning) (order : Order) :
      Extends R s t → Extends R s { t with fresh, warnings, order }
  | certify {t : Session} {p : Proposition} {i : Inference FactId} {d : List FactId} :
      Extends R s t → Derives t p i d → R i.rule → Extends R s (t.certified p i d)

theorem Extends.mono {R R' : Rule → Prop} {s t : Session} (h : Extends R s t)
    (hR : ∀ r, R r → R' r) : Extends R' s t := by
  induction h with
  | refl => exact .refl
  | aside fresh warnings order _ ih => exact .aside fresh warnings order ih
  | certify _ hd hr ih => exact .certify ih hd (hR _ hr)

/-- Sessions that differ at most in the counter for variables, the warnings and the order. -/
def Aside (s t : Session) : Prop := ∃ fresh warnings order, t = { s with fresh, warnings, order }

theorem Aside.refl (s : Session) : s.Aside s := ⟨_, _, _, rfl⟩

theorem Aside.trans {s t u : Session} (h : s.Aside t) (h' : t.Aside u) : s.Aside u := by
  obtain ⟨_, _, _, rfl⟩ := h
  obtain ⟨fresh, warnings, order, rfl⟩ := h'
  exact ⟨fresh, warnings, order, rfl⟩

theorem Aside.proves {s t : Session} {f : Fact} (h : s.Aside t) (hf : s.Proves f) :
    t.Proves f := by
  obtain ⟨_, _, _, rfl⟩ := h
  exact hf

theorem Extends.ofAside {R : Rule → Prop} {s t u : Session} (h : Extends R s t)
    (h' : t.Aside u) : Extends R s u := by
  obtain ⟨fresh, warnings, order, rfl⟩ := h'
  exact .aside fresh warnings order h

/-- A deduction that came to nothing spares the session: at most it has taken numbers for new
variables. -/
def Spares (s t : Session) : Prop := s.fresh ≤ t.fresh ∧ t = { s with fresh := t.fresh }

theorem Spares.refl (s : Session) : s.Spares s := ⟨Nat.le_refl _, rfl⟩

theorem Spares.trans {s t u : Session} (h : s.Spares t) (h' : t.Spares u) : s.Spares u := by
  refine ⟨Nat.le_trans h.1 h'.1, ?_⟩
  rw [h'.2, h.2]

theorem Spares.aside {s t : Session} (h : s.Spares t) : s.Aside t := ⟨_, _, _, h.2⟩

/-- What may come before a conclusion: numbers for new variables, and warnings. -/
def Prepares (s t : Session) : Prop :=
  s.fresh ≤ t.fresh ∧ s.warnings <+: t.warnings ∧
    t = { s with fresh := t.fresh, warnings := t.warnings }

theorem Spares.prepares {s t : Session} (h : s.Spares t) : s.Prepares t := by
  have hwarnings : s.warnings = t.warnings := by rw [h.2]
  refine ⟨h.1, hwarnings ▸ List.prefix_rfl, ?_⟩
  rw [h.2]

theorem Prepares.refl (s : Session) : s.Prepares s := (Spares.refl s).prepares

theorem Prepares.trans {s t u : Session} (h : s.Prepares t) (h' : t.Prepares u) :
    s.Prepares u := by
  refine ⟨Nat.le_trans h.1 h'.1, h.2.1.trans h'.2.1, ?_⟩
  rw [h'.2.2, h.2.2]

theorem Prepares.aside {s t : Session} (h : s.Prepares t) : s.Aside t := ⟨_, _, _, h.2.2⟩

/-- What a tactic with one conclusion does: it answers with the statement it has just entered by
its own rule, or fails and has entered nothing. -/
def Yields (r : Rule) (a : Action Fact) (s : Session) : Prop :=
  Ensures a s
    (fun f t => ∃ (u : Session) (p : Proposition) (i : Inference FactId) (d : List FactId),
      s.Prepares u ∧ u.Derives p i d ∧ i.rule = r ∧ f = u.nextFact p ∧ t = u.certified p i d)
    s.Spares

theorem Yields.left {r : Rule} {a : Action Fact} {s : Session} (h : Yields r a s) :
    Extends (· = r) s (after a s) := by
  have hboth : Ensures a s (fun _ t => Extends (· = r) s t) (Extends (· = r) s) := by
    refine h.mono ?_ fun t ht => Extends.refl.ofAside ht.aside
    rintro f t ⟨u, p, i, d, hu, hd, hr, -, rfl⟩
    exact .certify (Extends.refl.ofAside hu.aside) hd hr
  exact hboth.left

end Session

end Entailment
