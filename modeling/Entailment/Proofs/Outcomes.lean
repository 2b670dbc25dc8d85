import Entailment.Proofs.Conclusions
import Entailment.Proofs.Marks

/-!
# What the usual steps conclude from any facts

With quantifiers, what a step concludes still depends on little more than what its premises say. A
premise with a domain asks for memberships, and these are looked up among what the session knows. A
disjunction of which nothing is left asks for assumptions to blame, which is all that a search ever
wants to know about assumptions. Apart from this last case the conclusions are a function of the
statements without their marks (`outcomes`).
-/
namespace Entailment

open Session

namespace Search

/-- The variables have values in their domains, as far as memberships can be had. -/
def admits (has : Proposition → Bool) (σ : Substitution) (layers : List (Variable × Option Term)) :
    Bool :=
  layers.all fun layer => layer.2.all fun set =>
    (σ.find? layer.1).any fun t => has (.rel .element t (σ.applyTerm set))

/-- What a universal implication says of a premise that matches its antecedent. -/
def applied (has : Proposition → Bool) (universal p : Proposition) : List Proposition :=
  match peel universal with
  | (layer :: layers, .implies a b _) =>
    match p.unify? a ((layer :: layers).map (·.1)) with
    | none => []
    | some σ =>
      match ((layer :: layers).map (·.1)).find? fun v =>
          (σ.find? v).isNone && b.contains (.var v) with
      | some _ => []
      | none => if admits has σ (layer :: layers) then [σ.apply b] else []
  | _ => []

/-- What follows from every witness of an existential statement. -/
def eliminated : Proposition → Proposition → List Proposition
  | .quantified .exist v s inner _, .quantified .all w t (.implies a b _) _ =>
    if s = t ∧ (a.replaceAll (.var w) (.var v)).equal inner = true ∧ b.contains (.var w) = false
    then [b] else []
  | _, _ => []

/-- What a rule concludes from the given statements. -/
def outcomes (has : Proposition → Bool) : Rule → List Proposition → List Proposition
  | .quantifiedModusPonens, [q, p] => applied has q p
  | .existentialElim, [e, u] => eliminated e u
  | rule, ps => consequences rule ps

/-- Whether the target is an instance of a universal statement. -/
def isInstance (has : Proposition → Bool) (target universal : Proposition) : Bool :=
  match peel universal with
  | ([], _) => false
  | (layers, body) => (target.unify? body (layers.map (·.1))).any fun σ => admits has σ layers

section Marks
variable (has : Proposition → Bool)

theorem bare_reshapes : Reshapes Proposition.bare where
  relation _ _ _ := rfl
  not _ _ := rfl
  junction c ps _ := congrArg (Proposition.junction c ·) (Proposition.bareList_eq_map ps)
  implies _ _ _ := rfl
  iff _ _ _ := rfl
  quantified _ v _ _ _ := ⟨v, rfl⟩
  contradiction _ := rfl
  equal := Proposition.equal_bare

theorem bare_applied (q p : Proposition) :
    (applied has q p).map Proposition.bare = applied has q.bare p.bare := by
  unfold applied
  rw [Proposition.peel_bare]
  generalize peel q = peeled
  obtain ⟨layers, body⟩ := peeled
  cases layers with
  | nil => rfl
  | cons layer layers =>
      cases body with
      | implies a b m =>
          simp only [Proposition.bare, Proposition.unify?_bare, Proposition.contains_bare]
          split
          next => rfl
          next σ _ =>
            split
            next => rfl
            next => split_ifs <;> simp [Proposition.bare_apply]
      | _ => rfl

theorem bare_eliminated (e u : Proposition) :
    (eliminated e u).map Proposition.bare = eliminated e.bare u.bare := by
  cases e with
  | quantified k v s inner m =>
      cases k with
      | all => rfl
      | exist =>
          cases u with
          | quantified l w t body m' =>
              cases l with
              | exist => rfl
              | all =>
                  cases body with
                  | implies a b m'' =>
                      simp only [eliminated, Proposition.bare, ← Proposition.bare_replaceAll,
                        Proposition.equal_bare, Proposition.contains_bare]
                      split_ifs <;> rfl
                  | _ => rfl
          | _ => rfl
  | _ => rfl

/-- What is concluded without marks are the conclusions without their marks. -/
theorem bare_outcomes (rule : Rule) (ps : List Proposition) :
    (outcomes has rule ps).map Proposition.bare = outcomes has rule (ps.map Proposition.bare) := by
  match ps with
  | [p, q] =>
      cases rule with
      | quantifiedModusPonens => exact bare_applied has p q
      | existentialElim => exact bare_eliminated p q
      | _ =>
          simp only [outcomes, List.map_cons, List.map_nil]
          exact bare_reshapes.consequences _ [p, q]
  | [] | [_] | _ :: _ :: _ :: _ =>
      simp only [outcomes, List.map_cons, List.map_nil]
      exact bare_reshapes.consequences rule _

theorem isInstance_bare (target q : Proposition) :
    isInstance has target q.bare = isInstance has target q := by
  unfold isInstance
  rw [Proposition.peel_bare]
  generalize peel q = peeled
  obtain ⟨layers, body⟩ := peeled
  cases layers with
  | nil => rfl
  | cons layer layers =>
      dsimp only
      rw [← Proposition.unify?_bare target, Proposition.bare_bare, Proposition.unify?_bare]

end Marks

end Search

namespace Session

/-- Whether a membership can be had from what the session knows. -/
def knows (s : Session) (want : Proposition) : Bool := (s.lookup want []).isSome

/-- The deduction proves the given statements, up to marks, and fails only if there are none. -/
def Delivers (a : Action (List Fact)) (s : Session) (qs : List Proposition) : Prop :=
  Ensures a s
    (fun fs t => fs.map Fact.content = qs.map Proposition.bare ∧ ∀ f ∈ fs, t.Proves f)
    fun _ => qs = []

section Delivering
variable {s : Session} {p q : Fact}

theorem Infers.delivers {a : Action Fact} {fs : List Fact} {qs : List Proposition}
    (h : Infers a s fs qs) : Delivers (Tactic.alone a) s qs := by
  cases h with
  | @derives q i hderive =>
      have hadded : Ensures a s (fun f t => f.content = q.bare ∧ t.Proves f) fun _ => [q] = [] :=
        (Ensures.derive ⟨q.bare_strip, proves_nextFact s q i _⟩).of_run_eq hderive
      apply hadded.bind
      intro f t hf
      refine .pure ⟨?_, List.forall_mem_singleton.mpr hf.2⟩
      rw [List.map_singleton, List.map_singleton, hf.1]
  | @refuses e hrefuse =>
      have hthrow : Ensures (MonadExcept.throw e : Action Fact) s (fun _ _ => False)
          fun _ => ([] : List Proposition) = [] := .throw rfl
      exact (hthrow.of_run_eq hrefuse).bind fun _ _ h => h.elim

/-- All memberships are there, or a tactic that asks for them fails. -/
theorem memberships_reads_admits (rule : Rule) (σ : Substitution)
    (layers : List (Variable × Option Term)) :
    Ensures (memberships rule σ [] layers) s
      (fun _ t => t = s ∧ Search.admits s.knows σ layers = true)
      fun t => t = s ∧ Search.admits s.knows σ layers = false := by
  induction layers with
  | nil => exact .pure ⟨rfl, rfl⟩
  | cons layer layers ih =>
      obtain ⟨v, domain⟩ := layer
      cases domain with
      | none => exact ih
      | some set =>
          unfold memberships
          split
          next hnone => exact Ensures.throw ⟨rfl, by simp [Search.admits, hnone]⟩
          next t ht =>
            have hadmits : Search.admits s.knows σ ((v, some set) :: layers) =
                (s.knows (.rel .element t (σ.applyTerm set)) &&
                  Search.admits s.knows σ layers) := by
              simp [Search.admits, ht]
            have hmember : Ensures (membership rule t (σ.applyTerm set) []) s
                (fun _ u => u = s ∧ s.knows (.rel .element t (σ.applyTerm set)) = true)
                fun u => u = s ∧ s.knows (.rel .element t (σ.applyTerm set)) = false := by
              refine Ensures.get_bind ?_
              unfold knows
              split
              next f hf => exact .pure ⟨rfl, by rw [hf]; rfl⟩
              next hf => exact Ensures.throw ⟨rfl, by rw [hf]; rfl⟩
            rw [hadmits]
            apply (hmember.mono (fun _ _ h => h) fun u hu => ⟨hu.1, by rw [hu.2]; rfl⟩).bind
            intro f u hu
            rw [hu.1, hu.2, Bool.true_and]
            apply ih.bind
            intro ms u hu
            exact .pure hu

/-- With the memberships there, the rest decides what is inferred. -/
theorem exists_infers_memberships {rule : Rule} {σ : Substitution}
    {layers : List (Variable × Option Term)} {k : List Fact → Action Fact} {q : Proposition}
    (hk : ∀ ms, ∃ i fs, k ms = derive q i fs) :
    ∃ fs, Infers (memberships rule σ [] layers >>= k) s fs
      (if Search.admits s.knows σ layers then [q] else []) := by
  have hreads := memberships_reads_admits (s := s) rule σ layers
  have hbind : (memberships rule σ [] layers >>= k) s =
      EStateM.bind (memberships rule σ [] layers) k s := rfl
  unfold Ensures at hreads
  unfold EStateM.bind at hbind
  split at hreads
  next ms t hok =>
    obtain ⟨i, fs, hderive⟩ := hk ms
    rw [hreads.2, if_pos rfl]
    rw [hok, hreads.1] at hbind
    refine ⟨fs, .derives (i := i) ?_⟩
    rw [hbind, ← hderive]
  next e t herror =>
    rw [hreads.2]
    rw [herror, hreads.1] at hbind
    exact ⟨[], .refuses hbind⟩

theorem quantifiedModusPonens_infers (hq : s.Proves q) (hp : s.Proves p) :
    ∃ fs, Infers (quantifiedModusPonens (some q.proposition) (some p.proposition) []) s fs
      (Search.applied s.knows q.statement p.statement) := by
  have hrun : quantifiedModusPonens (some q.proposition) (some p.proposition) [] s = _ :=
    (require_bind_run hq).trans (require_bind_run hp)
  suffices hrest : ∃ fs, Infers _ s fs (Search.applied s.knows q.statement p.statement) from
    hrest.imp fun _ h => h.of_run_eq hrun
  clear hrun
  unfold Search.applied
  generalize peel q.statement = peeled
  obtain ⟨layers, body⟩ := peeled
  cases layers with
  | nil => exact ⟨[], .refuses rfl⟩
  | cons layer layers =>
      cases body with
      | implies a b m =>
          dsimp only
          cases p.statement.unify? a ((layer :: layers).map (·.1)) with
          | none => exact ⟨[], .refuses rfl⟩
          | some σ =>
              dsimp only
              cases ((layer :: layers).map (·.1)).find? fun v =>
                  (σ.find? v).isNone && b.contains (.var v) with
              | some v => exact ⟨[], .refuses rfl⟩
              | none => exact exists_infers_memberships fun ms => ⟨_, _, rfl⟩
      | _ => exact ⟨[], .refuses rfl⟩

theorem isSpecialCaseOf_infers (target : Proposition) (hq : s.Proves q) :
    ∃ fs, Infers (isSpecialCaseOf target (some q.proposition) []) s fs
      (if Search.isInstance s.knows target q.statement then [target] else []) := by
  have hrun : isSpecialCaseOf target (some q.proposition) [] s = _ := require_bind_run hq
  generalize hinstance : Search.isInstance s.knows target q.statement = answer
  suffices hrest : ∃ fs, Infers _ s fs (if answer then [target] else []) from
    hrest.imp fun _ h => h.of_run_eq hrun
  clear hrun
  unfold Search.isInstance at hinstance
  generalize peel q.statement = peeled at hinstance ⊢
  obtain ⟨layers, body⟩ := peeled
  cases layers with
  | nil =>
      cases hinstance
      exact ⟨[], .refuses rfl⟩
  | cons layer layers =>
      dsimp only at hinstance ⊢
      cases hunify : target.unify? body ((layer :: layers).map (·.1)) with
      | none =>
          rw [hunify] at hinstance
          cases hinstance
          exact ⟨[], .refuses rfl⟩
      | some σ =>
          rw [hunify] at hinstance
          rw [← hinstance]
          exact exists_infers_memberships fun ms => ⟨_, _, rfl⟩

theorem existentialElimination_infers (hp : s.Proves p) (hq : s.Proves q) :
    Infers (existentialElimination (some p.proposition) (some q.proposition)) s [p, q]
      (Search.eliminated p.statement q.statement) := by
  apply Infers.require_bind hp
  apply Infers.require_bind hq
  split
  next v domain inner m w domain' body m' hexist hall =>
    rw [hexist, hall]
    cases body with
    | implies a b m'' =>
        rw [Search.eliminated]
        apply Infers.guard
        · exact fun hdomain => if_neg fun h => hdomain h.1
        intro hdomain
        apply Infers.guard
        · intro hmismatch
          exact if_neg fun h => by simp [h.2.1] at hmismatch
        intro hmatch
        apply Infers.guard
        · exact fun hcontains => if_neg fun h => by simp [h.2.2] at hcontains
        intro hfree
        rw [if_pos ⟨not_not.mp hdomain, by simpa using hmatch, by simpa using hfree⟩]
        exact .derives rfl
    | _ =>
        apply Infers.guard
        · exact fun _ => rfl
        · exact fun _ => .refuses rfl
  next hother =>
    refine .refuses_of ?_ rfl
    unfold Search.eliminated
    split
    next hexist hall => exact (hother _ _ _ _ _ _ _ _ hexist hall).elim
    next => rfl

theorem map_content_of_forall₂ {ps : List Proposition} {fs : List Fact}
    (h : List.Forall₂ (fun p f => f.content = p.bare) ps fs) :
    fs.map Fact.content = ps.map Proposition.bare := by
  induction h with
  | nil => rfl
  | cons hf _ ih => rw [List.map_cons, List.map_cons, hf, ih]

theorem split_delivers (hp : s.Proves p) :
    Delivers (split (some p.proposition)) s (Search.conjuncts p.statement) := by
  have hconjunct : ∀ member t, Ensures (conjunct p member) t
      (fun f _ => True ∧ f.content = member.bare) fun _ => Search.conjuncts p.statement = [] :=
    fun member t => .derive ⟨trivial, member.bare_strip⟩
  have hcontents : Ensures (split (some p.proposition)) s
      (fun fs _ => fs.map Fact.content = (Search.conjuncts p.statement).map Proposition.bare)
      fun _ => Search.conjuncts p.statement = [] := by
    unfold split requireConjuncts
    rw [bind_assoc]
    apply hp.require_bind
    split
    next members m hstatement =>
      have hloop : Ensures (members.mapM (conjunct p)) s
          (fun fs _ => True ∧ List.Forall₂ (fun member f => f.content = member.bare) members fs)
          fun _ => Search.conjuncts p.statement = [] :=
        .mapM (fun member _ t _ => hconjunct member t) trivial
      rw [pure_bind]
      refine hloop.mono (fun fs t hfs => ?_) fun _ h => h
      rw [hstatement]
      exact map_content_of_forall₂ hfs.2
    next hother =>
      refine .refuse ?_
      unfold Search.conjuncts
      split
      next hstatement => exact (hother _ _ hstatement).elim
      next => rfl
  exact (hcontents.and (split_proves _ s)).mono (fun _ _ h => h) fun _ h => h.1

end Delivering

end Session

namespace Search

section Steps
variable {s u : Session} {step : Step}

theorem isUniform_bare (p : Proposition) : isUniform p.bare = isUniform p := by
  cases p with
  | junction c members m =>
      cases c with
      | or =>
          cases members with
          | nil => rfl
          | cons first rest => simp [Proposition.bare, isUniform, Function.comp_def]
      | _ => cases members <;> rfl
  | _ => rfl

theorem isUniform_eq_of_bare_eq {p q : Proposition} (h : p.bare = q.bare) :
    isUniform p = isUniform q := by
  rw [← isUniform_bare p, h, isUniform_bare]

/-- What a usual step concludes, unless it is asked to refute a disjunction altogether. -/
theorem Step.delivers {fs : List Fact} (hstep : step ∈ Step.defaults)
    (hlength : fs.length = step.arity) (hfs : ∀ f ∈ fs, s.Proves f)
    (hleft : ∀ f ∈ fs, isUniform f.statement = false) :
    Delivers (step.apply (fs.map Fact.proposition)) s
      (outcomes s.knows step.rule (fs.map Fact.statement)) := by
  have htwo : ∀ {tactic : Option Proposition → Option Proposition → Action Fact} {rule : Rule},
      step = Step.binary rule tactic →
      (∀ {p q : Fact}, s.Proves p → s.Proves q → isUniform p.statement = false →
        ∃ fs, Infers (tactic (some p.proposition) (some q.proposition)) s fs
          (outcomes s.knows rule [p.statement, q.statement])) →
      Delivers (step.apply (fs.map Fact.proposition)) s
        (outcomes s.knows step.rule (fs.map Fact.statement)) := by
    intro tactic rule hbinary htactic
    subst hbinary
    obtain ⟨p, q, rfl⟩ := List.length_eq_two.mp hlength
    obtain ⟨_, hinfers⟩ := htactic (hfs p (by simp)) (hfs q (by simp)) (hleft p (by simp))
    exact hinfers.delivers
  simp only [Step.defaults, List.mem_cons, List.not_mem_nil, or_false] at hstep
  rcases hstep with rfl | rfl | rfl | rfl | rfl | rfl
  · exact htwo rfl fun hp hq _ => ⟨_, modusPonens_infers hp hq⟩
  · exact htwo rfl fun hp hq _ => ⟨_, hypotheticalSyllogism_infers hp hq⟩
  · exact htwo rfl fun hp hq _ => quantifiedModusPonens_infers hp hq
  · exact htwo rfl fun hp hq _ => ⟨_, existentialElimination_infers hp hq⟩
  · exact htwo rfl fun hp hq huniform => ⟨_, unitResolve_infers hp hq (.inl huniform)⟩
  · obtain ⟨p, rfl⟩ := List.length_eq_one_iff.mp hlength
    exact split_delivers (hfs p (by simp))

/-- Trying a usual step gives what can be concluded, which may be nothing. -/
theorem Step.try_delivers {fs : List Fact} (hstep : step ∈ Step.defaults)
    (hlength : fs.length = step.arity) (hfs : ∀ f ∈ fs, s.Proves f)
    (hleft : ∀ f ∈ fs, isUniform f.statement = false) :
    Ensures (MonadExcept.tryCatch (step.apply (fs.map Fact.proposition)) fun _ => Pure.pure []) s
      (fun gs t => Deduces (fun _ => True) s t ∧
        gs.map Fact.content = outcomes s.knows step.rule (fs.map Fact.content) ∧
        ∀ g ∈ gs, t.Proves g)
      fun _ => False := by
  have hcontents : (outcomes s.knows step.rule (fs.map Fact.statement)).map Proposition.bare =
      outcomes s.knows step.rule (fs.map Fact.content) := by
    rw [bare_outcomes, List.map_map]
    rfl
  have hdeduces : Ensures (step.apply (fs.map Fact.proposition)) s
      (fun _ t => Deduces (fun _ => True) s t) (Deduces (fun _ => True) s) :=
    Step.deduces hstep (by rw [List.length_map, hlength])
  refine Ensures.tryCatch ((hdeduces.and (Step.delivers hstep hlength hfs hleft)).mono ?_
    fun t h => h) ?_
  · intro gs t hgs
    exact ⟨hgs.1, hgs.2.1.trans hcontents, hgs.2.2⟩
  · intro _ t ht
    refine .pure ⟨ht.1, ?_, nofun⟩
    rw [← hcontents, ht.2]
    rfl

theorem isInstance_eq_false {p target : Proposition} {has : Proposition → Bool}
    (h : ∀ v domain body m, p ≠ .quantified .all v domain body m) :
    isInstance has target p = false := by
  have hpeel : peel p = ([], p) := by
    cases p with
    | quantified k v domain body m =>
        cases k with
        | all => exact (h v domain body m rfl).elim
        | exist => rfl
    | _ => rfl
  rw [isInstance, hpeel]

theorem try_isSpecialCaseOf (target : Proposition) {q : Fact} (hq : u.Proves q) :
    Ensures (MonadExcept.tryCatch (some <$> isSpecialCaseOf target (some q.proposition) [])
        fun _ => Pure.pure none) u
      (fun found v => Deduces (fun _ => True) u v ∧
        found.isSome = isInstance u.knows target q.statement ∧ (found = none → v = u))
      fun _ => False := by
  have hafter : Ensures (isSpecialCaseOf target (some q.proposition) []) u
      (fun _ v => Deduces (fun _ => True) u v) (Deduces (fun _ => True) u) :=
    .of_after (.tactic (.isSpecialCaseOf target _ []) .refl trivial)
  obtain ⟨fs, hinfers⟩ := isSpecialCaseOf_infers target hq
  generalize isInstance u.knows target q.statement = answer at hinfers ⊢
  have hcase : Ensures (isSpecialCaseOf target (some q.proposition) []) u
      (fun _ v => Deduces (fun _ => True) u v ∧ answer = true)
      fun v => v = u ∧ answer = false := by
    cases answer with
    | true =>
        cases hinfers with
        | @derives q i hderive =>
            have hadded : Ensures (derive target i fs) u (fun _ _ => True) fun _ => False :=
              .derive trivial
            exact (hafter.and (hadded.of_run_eq hderive)).mono (fun _ _ h => ⟨h.1, rfl⟩)
              fun _ h => h.2.elim
    | false =>
        cases hinfers with
        | @refuses e hrefuse =>
            have hthrow : Ensures (MonadExcept.throw e : Action Fact) u
                (fun _ v => Deduces (fun _ => True) u v ∧ false = true)
                fun v => v = u ∧ false = false := .throw ⟨rfl, rfl⟩
            exact hthrow.of_run_eq hrefuse
  rw [map_eq_pure_bind]
  refine Ensures.tryCatch (hcase.bind fun f v hf => ?_) fun _ v hv => ?_
  · exact .pure ⟨hf.1, hf.2.symm, nofun⟩
  · refine .pure ⟨?_, hv.2.symm, fun _ => hv.1⟩
    rw [hv.1]
    exact .refl

/-- The check for instances finds one exactly if there is one. -/
theorem instance?_finds {target : Proposition} {working : List Trace}
    (hworking : ∀ x ∈ working, u.Proves x.result) :
    Ensures (instance? target working) u
      (fun found v => Deduces (fun _ => True) u v ∧ (found.isSome = true ↔
        ∃ x ∈ working, isInstance u.knows target x.result.content = true))
      fun _ => False := by
  induction working with
  | nil => exact .pure ⟨.refl, by simp⟩
  | cons x working ih =>
      have hall := List.forall_mem_cons.mp hworking
      have hcontent : isInstance u.knows target x.result.content =
          isInstance u.knows target x.result.statement := isInstance_bare _ target _
      simp only [List.exists_mem_cons_iff, hcontent]
      rw [instance?]
      split
      next =>
        apply (try_isSpecialCaseOf target hall.1).bind
        intro found v hv
        rw [← hv.2.1]
        split
        next f => exact .pure ⟨hv.1, by simp⟩
        next =>
          rw [hv.2.2 rfl]
          simpa using ih hall.2
      next hother =>
        rw [isInstance_eq_false hother]
        simpa using ih hall.2

end Steps

end Search

end Entailment
