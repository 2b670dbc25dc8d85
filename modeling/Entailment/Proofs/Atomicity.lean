import Entailment.Proofs.Premises
import Entailment.Proofs.Traces

/-!
# All or nothing

What fails leaves the session as it was, except that numbers for new variables may have been taken
(`Spares`). What succeeds outside of a speculation leaves all that was there, and adds the facts it
answers with: one entry of the ledger for each, a record in the innermost scope, and what atomic
facts say about their variables (`Gains`).
-/
namespace Entailment

/-- What becomes known with a fact. -/
def Fact.news (f : Fact) : List (Variable × FactId) :=
  match f.statement with
  | .relation _ _ _ => f.statement.freeVariables.map (·, f.id)
  | _ => []

namespace Session

/-- The entry states the fact, as proven. -/
def States (f : Fact) (e : Entry) : Prop :=
  e.statement = f.statement ∧ e.proven = true ∧ e.assumed = false

/-- The one session differs from the other by these facts, which are proven in it and on record. -/
structure Gains (s : Session) (facts : List Fact) (t : Session) : Prop where
  ledger : ∃ entries, t.ledger.toList = s.ledger.toList ++ entries ∧
    List.Forall₂ States facts entries
  ids : facts.map Fact.id = (List.range' s.ledger.size facts.length).map FactId.mk
  scopes : ∀ c, t.scope? c = (s.scope? c).map fun scope =>
    if s.stack.head? = some c then { scope with proven := scope.proven ++ facts.map Fact.id }
    else scope
  knowledge : t.knowledge = s.knowledge ++ facts.flatMap Fact.news
  stack : t.stack = s.stack
  retired : t.retired = s.retired
  order : t.order = s.order
  speculation : t.speculation = s.speculation
  fresh : s.fresh ≤ t.fresh
  warnings : s.warnings <+: t.warnings

section Gains
variable {s t u : Session} {facts facts' : List Fact}

theorem learn_eq (s : Session) (f : Fact) :
    s.learn f = { s with knowledge := s.knowledge ++ f.news } := by
  unfold learn Fact.news
  cases f.statement with
  | relation name args mark => rfl
  | _ => rw [List.append_nil]

theorem Prepares.gains (h : s.Prepares t) : s.Gains [] t := by
  obtain ⟨hfresh, hwarnings, heq⟩ := h
  rw [heq]
  exact ⟨⟨[], by simp⟩, rfl, fun c => by simp [scope?], by simp, rfl, rfl, rfl, rfl, hfresh,
    hwarnings⟩

theorem gains_certified (h : s.speculation = none) (p : Proposition) (i : Inference FactId)
    (d : List FactId) : s.Gains [s.nextFact p] (s.certified p i d) where
  ledger := ⟨[⟨p.strip, i, true, false, d⟩], by simp, .cons ⟨rfl, rfl, rfl⟩ .nil⟩
  ids := rfl
  scopes c := by
    rw [scope?_certified]
    simp [h, nextFact]
  knowledge := by
    rw [certified_eq_record s p i d h, record, learn_eq]
    simp only [List.flatMap_cons, List.flatMap_nil, List.append_nil]
    split <;> rfl
  stack := certified_stack s p i d
  retired := by
    rw [certified_eq_record s p i d h, record, learn_eq]
    split <;> rfl
  order := by
    rw [certified_eq_record s p i d h, record, learn_eq]
    split <;> rfl
  speculation := by rw [certified_speculation, h, Option.map_none]
  fresh := by
    rw [certified_eq_record s p i d h, record, learn_eq]
    split <;> exact Nat.le_refl _
  warnings := by
    rw [certified_eq_record s p i d h, record, learn_eq]
    split <;> exact List.prefix_rfl

theorem Gains.size (h : s.Gains facts t) : t.ledger.size = s.ledger.size + facts.length := by
  obtain ⟨entries, hledger, hstates⟩ := h.ledger
  rw [← Array.length_toList, hledger, List.length_append, hstates.length_eq, Array.length_toList]

theorem Gains.append (h : s.Gains facts t) (h' : t.Gains facts' u) :
    s.Gains (facts ++ facts') u where
  ledger := by
    obtain ⟨entries, hledger, hstates⟩ := h.ledger
    obtain ⟨entries', hledger', hstates'⟩ := h'.ledger
    refine ⟨entries ++ entries', ?_, List.rel_append hstates hstates'⟩
    rw [hledger', hledger, List.append_assoc]
  ids := by
    rw [List.map_append, h.ids, h'.ids, h.size, List.length_append, ← List.map_append,
      List.range'_append_1]
  scopes c := by
    rw [h'.scopes, h.scopes, h.stack, Option.map_map]
    refine Option.map_congr fun scope _ => ?_
    by_cases htop : s.stack.head? = some c <;> simp [htop]
  knowledge := by rw [h'.knowledge, h.knowledge, List.flatMap_append, List.append_assoc]
  stack := h'.stack.trans h.stack
  retired := h'.retired.trans h.retired
  order := h'.order.trans h.order
  speculation := h'.speculation.trans h.speculation
  fresh := Nat.le_trans h.fresh h'.fresh
  warnings := h.warnings.trans h'.warnings

/-- Nothing that was there before has changed. -/
theorem Gains.kept (h : s.Gains facts t) {id : FactId} {e : Entry} (he : s.entry? id = some e) :
    t.entry? id = some e := by
  obtain ⟨entries, hledger, -⟩ := h.ledger
  rw [Session.entry?, ← Array.getElem?_toList] at he ⊢
  rw [hledger, List.getElem?_append_left (List.getElem?_eq_some_iff.mp he).choose]
  exact he

end Gains

/-- A tactic other than splitting has one result, and enters it by its own rule. -/
theorem Tactic.perform_yields (t : Tactic) (h : ∀ p, t ≠ .split p) :
    ∃ a, t.perform = alone a ∧ ∀ s, Yields t.rule a s := by
  cases t with
  | split p => exact absurd rfl (h p)
  | modusPonens p imp => exact ⟨_, rfl, fun s => modusPonens_yields s p imp⟩
  | modusTollens notQ imp => exact ⟨_, rfl, fun s => modusTollens_yields s notQ imp⟩
  | hypotheticalSyllogism ab bc => exact ⟨_, rfl, fun s => hypotheticalSyllogism_yields s ab bc⟩
  | followedFrom p assumptions => exact ⟨_, rfl, fun s => followedFrom_yields s p assumptions⟩
  | conjoin ps => exact ⟨_, rfl, fun s => conjoin_yields s ps⟩
  | extract p i => exact ⟨_, rfl, fun s => extract_yields s p i⟩
  | disjoin p alternatives => exact ⟨_, rfl, fun s => disjoin_yields s p alternatives⟩
  | resolve p refutations => exact ⟨_, rfl, fun s => resolve_yields s p refutations⟩
  | unitResolve p refutation => exact ⟨_, rfl, fun s => unitResolve_yields s p refutation⟩
  | resolveClauses lhs rhs => exact ⟨_, rfl, fun s => resolveClauses_yields s lhs rhs⟩
  | exorEliminate exor p => exact ⟨_, rfl, fun s => exorEliminate_yields s exor p⟩
  | doubleNegation p => exact ⟨_, rfl, fun s => doubleNegation_yields s p⟩
  | contrapositive imp => exact ⟨_, rfl, fun s => contrapositive_yields s imp⟩
  | iffIntro ab ba => exact ⟨_, rfl, fun s => iffIntro_yields s ab ba⟩
  | iffForward p => exact ⟨_, rfl, fun s => iffForward_yields s p⟩
  | iffBackward p => exact ⟨_, rfl, fun s => iffBackward_yields s p⟩
  | contradicts p q => exact ⟨_, rfl, fun s => contradicts_yields s p q⟩
  | thusAssumptionsCannotAllHold c =>
      exact ⟨_, rfl, fun s => thusAssumptionsCannotAllHold_yields s c⟩
  | thusForall p v => exact ⟨_, rfl, fun s => thusForall_yields s p v⟩
  | thusThereExists p name witness paths =>
      exact ⟨_, rfl, fun s => thusThereExists_yields s p name witness paths⟩
  | thusThereExistsIn p name witness set given paths =>
      exact ⟨_, rfl, fun s => thusThereExistsIn_yields s p name witness set given paths⟩
  | inParticular p t facts => exact ⟨_, rfl, fun s => inParticular_yields s p t facts⟩
  | isSpecialCaseOf p universal facts =>
      exact ⟨_, rfl, fun s => isSpecialCaseOf_yields s p universal facts⟩
  | quantifiedModusPonens universal p facts =>
      exact ⟨_, rfl, fun s => quantifiedModusPonens_yields s universal p facts⟩
  | existentialElimination existential universal =>
      exact ⟨_, rfl, fun s => existentialElimination_yields s existential universal⟩
  | reflexivity t => exact ⟨_, rfl, fun s => reflexivity_yields s t⟩
  | symmetry p => exact ⟨_, rfl, fun s => symmetry_yields s p⟩
  | substitute equality p paths =>
      exact ⟨_, rfl, fun s => substitute_yields s equality p paths⟩
  | bySimplification p => exact ⟨_, rfl, fun s => bySimplification_yields s p⟩
  | transitiveIn order want links =>
      exact ⟨_, rfl, fun s => transitiveIn_yields s order want links⟩
  | transitive want links => exact ⟨_, rfl, fun s => transitive_yields s want links⟩

/-- The results that a tactic has: one or, when a conjunction is split, every conjunct in order. -/
def Tactic.Results (s : Session) : Tactic → List Fact → Prop
  | split p, facts => ∃ f members m, s.premise? p = some f ∧
      f.statement = .junction .and members m ∧
      facts.map Fact.statement = members.map Proposition.strip
  | _, facts => facts.length = 1

section Tactics
variable (s : Session)

theorem Yields.gains {r : Rule} {a : Action Fact} {s : Session} (h : Yields r a s) :
    Ensures (Tactic.alone a) s
      (fun facts t => s.speculation = none → facts.length = 1 ∧ s.Gains facts t) s.Spares := by
  apply Ensures.bind h
  rintro f t ⟨u, p, i, d, hu, -, -, rfl, rfl⟩
  refine .pure fun hspeculation => ⟨rfl, ?_⟩
  have hnone : u.speculation = none := hu.gains.speculation.trans hspeculation
  exact hu.gains.append (gains_certified hnone p i d)

theorem requireConjuncts_premise (p : Option Proposition) :
    Reads (requireConjuncts p) s fun x => s.premise? p = some x.1 ∧
      ∃ m, x.1.statement = .junction .and x.2 m := by
  have hrequire : Reads (require .conjunctionElim p) s fun f => s.premise? p = some f := by
    cases p with
    | none => exact .throw
    | some p =>
        unfold require
        refine .get_bind ?_
        split
        next f hf => exact .pure hf
        next => exact .throw
  unfold requireConjuncts
  refine .bind hrequire fun f hf => ?_
  split
  next members m hstatement => exact .pure ⟨hf, m, hstatement⟩
  next => exact .refuse

/-- Entering conjuncts one after another never fails. -/
theorem conjuncts_gains (f : Fact) (members : List Proposition) :
    Ensures (members.mapM (conjunct f)) s
      (fun facts t => s.speculation = none →
        facts.map Fact.statement = members.map Proposition.strip ∧ s.Gains facts t)
      fun _ => False := by
  induction members generalizing s with
  | nil => exact fun _ => ⟨rfl, (Prepares.refl s).gains⟩
  | cons member members ih =>
      rw [List.mapM_cons]
      have hfirst : Ensures (conjunct f member) s
          (fun g t => g.statement = member.strip ∧ (s.speculation = none → s.Gains [g] t))
          fun _ => False :=
        .derive ⟨rfl, fun hspeculation => gains_certified hspeculation _ _ _⟩
      refine hfirst.bind fun g t ⟨hg, hgains⟩ => (ih t).bind fun facts u hrest => ?_
      refine .pure fun hspeculation => ?_
      have ht := hgains hspeculation
      obtain ⟨hfacts, hu⟩ := hrest (ht.speculation.trans hspeculation)
      exact ⟨by rw [List.map_cons, List.map_cons, hg, hfacts], ht.append hu⟩

theorem split_gains (p : Option Proposition) :
    Ensures (split p) s
      (fun facts t => s.speculation = none → (Tactic.split p).Results s facts ∧ s.Gains facts t)
      s.Spares := by
  unfold split
  apply (requireConjuncts_premise s p).ensures_bind (.refl s)
  rintro ⟨f, members⟩ ⟨hf, m, hstatement⟩
  refine (conjuncts_gains s f members).mono (fun facts t h hspeculation => ?_) fun _ => False.elim
  obtain ⟨hfacts, hgains⟩ := h hspeculation
  exact ⟨⟨f, members, m, hf, hstatement, hfacts⟩, hgains⟩

theorem Tactic.perform_gains_one (t : Tactic) (h : ∀ p, t ≠ .split p) :
    Ensures t.perform s (fun facts u => s.speculation = none → facts.length = 1 ∧ s.Gains facts u)
      s.Spares := by
  obtain ⟨a, hperform, hyields⟩ := t.perform_yields h
  rw [hperform]
  exact (hyields s).gains

theorem Tactic.perform_gains (t : Tactic) :
    Ensures t.perform s
      (fun facts u => s.speculation = none → t.Results s facts ∧ s.Gains facts u) s.Spares := by
  cases t with
  | split p => exact split_gains s p
  | _ => exact perform_gains_one s _ nofun

end Tactics

/-- If the deduction fails, then it has spared the session. -/
def Atomic {α : Type} (a : Action α) (s : Session) : Prop :=
  ∀ e t, a s = .error e t → s.Spares t

theorem Ensures.atomic {α : Type} {a : Action α} {s : Session} {ok : α → Session → Prop}
    (h : Ensures a s ok s.Spares) : Atomic a s := by
  intro e t ha
  simpa only [Ensures, ha] using h

/-- All tactics, and the operations on scopes, are all or nothing. Outside of speculations, all that
a tactic changes is that its results are there. -/
theorem all_or_nothing (s : Session) :
    (∀ t : Tactic, Atomic t.perform s) ∧
    (∀ c name, Atomic (letVariable c name) s) ∧ (∀ c v, Atomic (introduce c v) s) ∧
    (∀ c p, Atomic (assumeIn c p) s) ∧ (∀ c p, Atomic (conclude c p) s) ∧
    (∀ c, Atomic (close c) s) ∧
    ∀ (t : Tactic) (facts : List Fact) (u : Session), t.perform s = .ok facts u →
      s.speculation = none → t.Results s facts ∧ s.Gains facts u ∧
        ∀ id e, s.entry? id = some e → u.entry? id = some e := by
  refine ⟨fun t => (t.perform_gains s).atomic, fun c name => (letVariable_answers s c name).atomic,
    fun c v => (introduce_answers s _ c v (.inl rfl) (.refl s)).atomic,
    fun c p => (assumeIn_answers s _ c p (.inr rfl)).atomic,
    fun c p => (conclude_answers s c p).atomic, fun c => (close_answers s c).atomic, ?_⟩
  intro t facts u hrun hspeculation
  obtain ⟨hresults, hgains⟩ := (t.perform_gains s).answer hrun hspeculation
  exact ⟨hresults, hgains, fun id e he => hgains.kept he⟩

end Session

end Entailment
