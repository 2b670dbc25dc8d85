import Entailment.Proofs.NamedFacts
import Mathlib.Data.List.Nodup

/-!
# Validated scripts

Validation looks at the goals and the steps of a script before any of it is run. It finds no problem
exactly if every goal says something, every step at every depth takes exactly one form, and
variables are introduced and conclusions drawn in scopes only. Running relies on this: a step that
takes no form, or a variable or a conclusion without a scope, would be a fault of its own. In a
validated script no such step is ever reached, since the scope that a step runs in is open exactly
if the step stands in the steps of another one.
-/
namespace Entailment.Script

section Shape
variable {nested inScope : Bool} {step : Step} {steps : List Step}

/-- The step takes exactly one form, and it neither introduces a variable nor concludes unless it is
nested in a scope. -/
structure Step.InOrder (nested : Bool) (s : Step) : Prop where
  form : ∃! f, s.has f = true
  enclosed : nested = false → s.has .introduce = false ∧ s.attributes.concludes = false

/-- The step is one of the given ones or is found inside of them, at any depth. All steps inside are
nested in a scope; whether those at the top are is given last. -/
inductive Stands (step : Step) (inScope : Bool) : Bool → List Step → Prop
  | here {steps : List Step} : step ∈ steps → Stands step inScope inScope steps
  | inside {nested : Bool} {outer : Step} {steps : List Step} : outer ∈ steps →
      Stands step inScope true outer.inner → Stands step inScope nested steps

theorem Step.forms_nodup (s : Step) : s.forms.Nodup :=
  List.Nodup.filter _ (by decide)

theorem Step.forms_eq_singleton_iff {s : Step} {f : Form} :
    s.forms = [f] ↔ s.has f = true ∧ ∀ g, s.has g = true → g = f := by
  simp only [← mem_forms]
  constructor
  · intro h
    simp [h]
  · rintro ⟨hf, honly⟩
    have hperm : s.forms.Perm [f] := by
      rw [List.perm_ext_iff_of_nodup s.forms_nodup (List.nodup_singleton f)]
      exact fun g => ⟨fun hg => List.mem_singleton.mpr (honly g hg),
        fun hg => List.mem_singleton.mp hg ▸ hf⟩
    exact List.perm_singleton.mp hperm

theorem Step.existsUnique_form_iff {s : Step} : (∃! f, s.has f = true) ↔ ∃ f, s.forms = [f] :=
  exists_congr fun _ => forms_eq_singleton_iff.symm

theorem Step.has_of_forms {s : Step} {f : Form} (h : s.forms = [f]) (g : Form) :
    s.has g = decide (g = f) := by
  rw [Bool.eq_iff_iff, ← mem_forms, h, List.mem_singleton, decide_eq_true_iff]

/-- A step has no problems exactly if it is in order and so are the steps inside. A step with
another form than a scope of its own has no steps inside. -/
theorem Step.problems_eq_nil_iff {s : Step} :
    s.problems nested = [] ↔ s.InOrder nested ∧ stepProblems true s.inner = [] := by
  obtain ⟨a, inner⟩ := s
  have hform := (mk a inner).existsUnique_form_iff
  rw [problems]
  split
  next f hf =>
    have hhas := has_of_forms hf
    have hinner : f ≠ .nest → inner = [] := by
      intro hne
      have hnot := hhas .nest
      rw [decide_eq_false hne.symm] at hnot
      simpa [has, Step.inner] using hnot
    have hinOrder : (mk a inner).InOrder nested ↔
        (nested = false → f ≠ .introduce ∧ a.concludes = false) := by
      constructor
      · intro h hnested
        refine ⟨?_, (h.enclosed hnested).2⟩
        rintro rfl
        have hnot := (h.enclosed hnested).1
        rw [hhas] at hnot
        cases hnot
      · intro h
        refine ⟨hform.mpr ⟨f, hf⟩, fun hnested => ⟨?_, (h hnested).2⟩⟩
        rw [hhas, decide_eq_false (h hnested).1.symm]
    rw [hinOrder]
    cases nested <;> cases f <;> cases hconcludes : a.concludes <;>
      simp_all [stepProblems, Step.inner]
  next hnone =>
    constructor
    · intro h
      cases h
    · rintro ⟨h, -⟩
      obtain ⟨f, hf⟩ := hform.mp h.form
      exact absurd hf (hnone f)

theorem stepProblems_eq_nil_iff : stepProblems nested steps = [] ↔
    ∀ s ∈ steps, s.InOrder nested ∧ stepProblems true s.inner = [] := by
  induction steps with
  | nil => simp [stepProblems]
  | cons s rest ih =>
      rw [stepProblems, List.append_eq_nil_iff, ih, Step.problems_eq_nil_iff, List.forall_mem_cons]

/-- What stands at any depth of steps without problems is in order. -/
theorem Stands.inOrder (hstands : Stands step inScope nested steps)
    (h : stepProblems nested steps = []) : step.InOrder inScope := by
  induction hstands with
  | here hmem => exact (stepProblems_eq_nil_iff.mp h _ hmem).1
  | inside hmem _ ih => exact ih (stepProblems_eq_nil_iff.mp h _ hmem).2

mutual

theorem Step.problems_of_stands (nested : Bool) : (s : Step) → s.InOrder nested →
    (∀ t inScope, Stands t inScope true s.inner → t.InOrder inScope) → s.problems nested = []
  | .mk _ inner, hself, hinside =>
    Step.problems_eq_nil_iff.mpr ⟨hself, stepProblems_of_stands true inner hinside⟩

/-- Steps have no problems if all that stands at any depth of them is in order. -/
theorem stepProblems_of_stands (nested : Bool) : (steps : List Step) →
    (∀ t inScope, Stands t inScope nested steps → t.InOrder inScope) →
      stepProblems nested steps = []
  | [], _ => rfl
  | s :: rest, h => by
    have hself := h s nested (.here List.mem_cons_self)
    have hinside : ∀ t inScope, Stands t inScope true s.inner → t.InOrder inScope :=
      fun t inScope ht => h t inScope (.inside List.mem_cons_self ht)
    have hrest : ∀ t inScope, Stands t inScope nested rest → t.InOrder inScope := by
      intro t inScope ht
      apply h t inScope
      cases ht with
      | here hmem => exact .here (List.mem_cons_of_mem s hmem)
      | inside hmem ht => exact .inside (List.mem_cons_of_mem s hmem) ht
    rw [stepProblems, Step.problems_of_stands nested s hself hinside,
      stepProblems_of_stands nested rest hrest]
    rfl

end

theorem goalProblems_eq_nil_iff {number : Nat} {goals : List Goal} :
    goalProblems number goals = [] ↔ ∀ g ∈ goals, ∃ c ∈ g.statement.toList, isBlank c = false := by
  induction goals generalizing number with
  | nil => simp [goalProblems]
  | cons g rest ih =>
      rw [goalProblems, List.forall_mem_cons]
      have hempty : g.isEmpty = false ↔ ∃ c ∈ g.statement.toList, isBlank c = false := by
        simp [Goal.isEmpty]
      rw [← hempty]
      cases g.isEmpty <;> simp [ih]

end Shape

/-- Whether a fault is, in the innermost step, one that validation is there to prevent. -/
def Fault.isPreventable : Fault → Bool
  | .invalid _ | .introducedOutside | .concludedOutside => true
  | .inStep _ cause => cause.isPreventable
  | _ => false

@[simp] theorem Fault.isPreventable_ofFailure (failure : Failure) :
    (ofFailure failure).isPreventable = false := by
  cases failure <;> rfl

@[simp] theorem Fault.isPreventable_within (label : String) (fault : Fault) :
    (fault.within label).isPreventable = fault.isPreventable := by
  cases fault <;> rfl

theorem Fault.isPreventable_of_isOwn {fault : Fault} (h : fault.isOwn = true) :
    fault.isPreventable = false := by
  cases fault <;> first | rfl | cases h

/-- From wherever it starts, the execution answers as required or fails for a reason that validation
does not prevent. -/
def Averts {α : Type} (a : Execution α) (ok : α → Prop) : Prop :=
  ∀ p, match a p with
    | .ok x _ => ok x
    | .error fault _ => fault.isPreventable = false

section Rules
variable {α β : Type} {ok : α → Prop}

theorem Averts.pure {x : α} (h : ok x) : Averts (Pure.pure x) ok := fun _ => h

theorem Averts.throw {fault : Fault} (h : fault.isPreventable = false) :
    Averts (MonadExcept.throw fault : Execution α) ok := fun _ => h

theorem Averts.bind {a : Execution β} {k : β → Execution α} {mid : β → Prop} (ha : Averts a mid)
    (hk : ∀ x, mid x → Averts (k x) ok) : Averts (a >>= k) ok := by
  intro p
  change match EStateM.bind a k p with | .ok x _ => ok x | .error fault _ => _
  unfold EStateM.bind
  have hstart := ha p
  cases hrun : a p with
  | ok x q =>
      rw [hrun] at hstart
      exact hk x hstart q
  | error fault q =>
      rw [hrun] at hstart
      exact hstart

/-- Whatever the first part answers, the rest averts the same. -/
theorem Averts.seq {a : Execution β} {k : β → Execution α} (ha : Averts a fun _ => True)
    (hk : ∀ x, Averts (k x) ok) : Averts (a >>= k) ok :=
  ha.bind fun x _ => hk x

theorem Averts.get : Averts (MonadState.get : Execution Progress) fun _ => True :=
  fun _ => trivial

theorem Averts.modify (f : Progress → Progress) :
    Averts (modify f : Execution PUnit) fun _ => True := fun _ => trivial

theorem Averts.tryCatch {a : Execution α} {handle : Fault → Execution α} (ha : Averts a ok)
    (hh : ∀ fault, fault.isPreventable = false → Averts (handle fault) ok) :
    Averts (MonadExcept.tryCatch a handle) ok := by
  intro p
  change match EStateM.tryCatch a handle p with | .ok x _ => ok x | .error fault _ => _
  unfold EStateM.tryCatch
  have hstart := ha p
  cases hrun : a p with
  | ok x q =>
      rw [hrun] at hstart
      exact hstart
  | error fault q =>
      rw [hrun] at hstart
      exact hh fault hstart _

/-- What a session fails for has nothing to do with the shape of a script. -/
theorem Averts.inSession (action : Action α) : Averts (Script.inSession action) fun _ => True := by
  intro p
  unfold Script.inSession
  cases action p.session with
  | ok => trivial
  | error failure => exact Fault.isPreventable_ofFailure failure

/-- What only prepares has nothing to do with the shape of a script either. -/
theorem Prepares.averts {e : Execution α} (h : Prepares e ok) : Averts e ok := by
  intro p
  have hp := h p
  cases hrun : e p with
  | ok x q =>
      rw [hrun] at hp
      exact hp.1
  | error fault q =>
      rw [hrun] at hp
      exact Fault.isPreventable_of_isOwn hp

end Rules

section Applications
variable {rule : Rule} {a : Application} {facts : List Fact} {e : Execution Fact}

theorem Handles.averts (h : Handles rule a facts e) : Averts e fun _ => True := by
  induction h with
  | refuse hfault => exact .throw (Fault.isPreventable_of_isOwn hfault)
  | answer _ => exact .pure trivial
  | prepare he _ ih => exact he.averts.bind ih
  | enter _ _ ih => exact (Averts.inSession _).seq ih
  | takeApart _ _ _ ih => exact (Averts.inSession _).seq ih

/-- Rules fail for reasons of their own. -/
theorem ofRule?_averts {tactic : Tactic} (h : Tactic.ofRule? rule = some tactic) :
    Averts (tactic a) fun _ => True :=
  (ofRule?_handles h a).averts

end Applications

section Steps
variable {script : String} {names : Names} {a : Attributes}

theorem applyRule_averts : Averts (applyRule script names a) fun _ => True := by
  unfold applyRule
  split
  next => exact .throw rfl
  next rule _ =>
    split
    next => exact .throw rfl
    next tactic htactic => exact (prepares_premises _ _).averts.bind fun _ _ => ofRule?_averts htactic

theorem register_averts {name : String} {f : Fact} :
    Averts (register names name f) fun names' => names'.scope = names.scope := by
  have hscope : (if name = "" then names
      else { names with facts := (name, f) :: names.facts }).scope = names.scope := by
    split <;> rfl
  unfold register
  dsimp only
  split
  next => exact (Averts.modify _).seq fun _ => .pure hscope
  next => exact .pure hscope

/-- Publishing what a step derived needs a scope only if the step concludes. -/
theorem publish_averts {i : Nat} {results : List Fact}
    (h : a.concludes = true → names.scope.isSome = true) :
    Averts (publish a i names results) fun names' => names'.scope = names.scope := by
  induction results generalizing i names with
  | nil => exact .pure rfl
  | cons f results ih =>
      have hrest : Averts (do
          let names ← register names (resultName a.name i) f
          publish a (i + 1) names results) fun names' => names'.scope = names.scope := by
        apply register_averts.bind
        intro names' hnames
        rw [← hnames] at h ⊢
        exact ih h
      rw [publish]
      split
      next hconcludes =>
        obtain ⟨c, hc⟩ := Option.isSome_iff_exists.mp (h hconcludes)
        have hconclude : Averts (concludeIn names f) fun _ => True := by
          unfold concludeIn
          rw [hc]
          exact .inSession _
        exact hconclude.seq fun _ => hrest
      next => exact hrest

theorem results_avert {results : List Fact}
    (h : a.concludes = true → names.scope.isSome = true) :
    Averts (do
      checkExpectation script names a results
      publish a 0 names results) fun names' => names'.scope = names.scope :=
  (prepares_checkExpectation _ _ _ _).averts.seq fun _ => publish_averts h

/-- A scope is open where a step in order introduces a variable or concludes. -/
theorem Step.InOrder.isSome {s : Step} (h : s.InOrder names.scope.isSome)
    (hneeds : s.has .introduce = true ∨ s.attributes.concludes = true) :
    names.scope.isSome = true := by
  by_contra hnone
  have henclosed := h.enclosed (Bool.eq_false_iff.mpr hnone)
  rw [henclosed.1, henclosed.2] at hneeds
  simp at hneeds

mutual

/-- A step without problems, taken where a scope is open if it is nested, fails only for reasons
that validation does not prevent. -/
theorem Step.run_averts (script : String) (names : Names) (step : Step)
    (h : step.problems names.scope.isSome = []) :
    Averts (step.run script names) fun names' => names'.scope = names.scope := by
  cases step with
  | mk a inner =>
  obtain ⟨hinOrder, hinside⟩ := Step.problems_eq_nil_iff.mp h
  obtain ⟨f, hf⟩ := Step.existsUnique_form_iff.mp hinOrder.form
  have hthen : ∀ results : List Fact, Averts (do
      checkExpectation script names a results
      publish a 0 names results) fun names' => names'.scope = names.scope := fun results =>
    results_avert fun hconcludes => hinOrder.isSome (.inr hconcludes)
  have hhas := Step.has_of_forms hf f
  rw [decide_eq_true rfl] at hhas
  rw [Step.run]
  cases f with
  | introduce =>
      obtain ⟨c, hc⟩ := Option.isSome_iff_exists.mp (hinOrder.isSome (.inl hhas))
      simp only [hf, hc]
      exact (Averts.inSession _).seq fun _ => .pure rfl
  | assume =>
      simp only [hf]
      exact (prepares_read _ _ _ _ _).averts.seq fun _ => (Averts.inSession _).seq fun f => hthen [f]
  | apply =>
      simp only [hf]
      exact applyRule_averts.seq fun f => hthen [f]
  | nest =>
      simp only [hf]
      refine (Averts.inSession _).seq fun c => ?_
      have hinner := runSteps_averts script { names with scope := some c } inner hinside
      have hbody : Averts (do
          let _ ← runSteps script { names with scope := some c } inner
          Pure.pure PUnit.unit) fun _ => True := hinner.bind fun _ _ => .pure trivial
      refine (hbody.tryCatch fun fault hfault => ?_).seq fun _ =>
        (Averts.inSession _).seq fun results => hthen results
      exact (Averts.inSession _).seq fun _ => .throw hfault

theorem runSteps_averts (script : String) (names : Names) (steps : List Step)
    (h : stepProblems names.scope.isSome steps = []) :
    Averts (runSteps script names steps) fun names' => names'.scope = names.scope := by
  cases steps with
  | nil =>
      rw [runSteps]
      exact .pure rfl
  | cons step steps =>
      rw [stepProblems, List.append_eq_nil_iff] at h
      rw [runSteps]
      have hstep := (Step.run_averts script names step h.1).tryCatch fun fault hfault =>
        .throw ((Fault.isPreventable_within step.label fault).trans hfault)
      refine hstep.bind fun names' hnames => ?_
      have hrest := h.2
      rw [← hnames] at hrest ⊢
      exact runSteps_averts script names' steps hrest

end

/-- In steps without problems every step that is reached is in order where it stands. -/
theorem Visits.problems {step : Step} {names' : Names} {p q : Progress} {steps : List Step}
    (hvisits : Visits script step names' q names p steps)
    (h : stepProblems names.scope.isSome steps = []) :
    step.problems names'.scope.isSome = [] := by
  induction hvisits with
  | here rest =>
      rw [stepProblems, List.append_eq_nil_iff] at h
      exact h.1
  | @later names names'' p r first rest hrun _ ih =>
      rw [stepProblems, List.append_eq_nil_iff] at h
      have hstep := Step.run_averts script names first h.1 p
      rw [hrun] at hstep
      apply ih
      rw [hstep]
      exact h.2
  | inside rest _ _ _ ih =>
      rw [stepProblems, List.append_eq_nil_iff] at h
      exact ih (Step.problems_eq_nil_iff.mp h.1).2

end Steps

section Runs
variable {script : Script}

theorem postulateAll_averts {name : String} {number : Nat} {names : Names}
    {postulates : List Postulate} :
    Averts (postulateAll name number names postulates) fun names' =>
      names'.scope = names.scope := by
  induction postulates generalizing number names with
  | nil => exact .pure rfl
  | cons postulate postulates ih =>
      rw [postulateAll]
      refine (prepares_read _ _ _ _ _).averts.seq fun _ => (Averts.inSession _).seq fun _ => ?_
      apply register_averts.bind
      intro names' hnames
      rw [← hnames]
      exact ih

theorem setUp_averts (script : Script) :
    Averts script.setUp fun x => x.2.scope = none := by
  unfold Script.setUp
  refine (prepares_orderNamed _).averts.seq fun order => (Averts.inSession _).seq fun _ =>
    (prepares_declareAll _ _).averts.seq fun env => ?_
  exact postulateAll_averts.bind fun names hnames => .pure hnames

theorem prove_averts (goal : Proposition) (refute : Bool) (depth : Nat) :
    Averts (prove goal refute depth) fun _ => True := by
  unfold prove
  refine Averts.get.seq fun p => (Averts.inSession _).seq fun found => ?_
  split
  next => exact .pure trivial
  next trace =>
    dsimp only
    split
    next => exact Averts.get.seq fun _ => .pure trivial
    next => exact (Averts.modify _).seq fun _ => Averts.get.seq fun _ => .pure trivial

theorem proveAll_averts {depth number : Nat} {env : Environment} {goals : List Goal} :
    Averts (script.proveAll depth env number goals) fun _ => True := by
  induction goals generalizing number with
  | nil => exact .pure trivial
  | cons goal goals ih =>
      rw [Script.proveAll]
      exact (prepares_read _ _ _ _ _).averts.seq fun target => (prove_averts _ _ _).seq fun report =>
        ih.seq fun _ => .pure trivial

theorem execute_averts {depth : Nat} (h : stepProblems false script.steps = []) :
    Averts (script.execute depth) fun _ => True := by
  rw [Script.execute_eq]
  refine (setUp_averts script).bind fun x hx => ?_
  have hsteps := runSteps_averts script.name x.2 script.steps (by rw [hx]; exact h)
  exact hsteps.bind fun _ _ => proveAll_averts

/-- A script has no problems exactly if all goals say something and all steps, at every depth, are
in order. Wherever a step of such a script is about to be taken, it takes one form, and a scope is
open if it needs one; neither the step nor the script fails for what validation prevents. -/
theorem validation_exact (script : Script) :
    (script.problems = [] ↔
      (∀ g ∈ script.goals, ∃ c ∈ g.statement.toList, isBlank c = false) ∧
        ∀ step nested, Stands step nested false script.steps → step.InOrder nested) ∧
      (script.problems = [] →
        (∀ names p step, script.Reaches names p step → step.InOrder names.scope.isSome ∧
          ∀ fault q, step.run script.name names p = .error fault q → fault.isPreventable = false) ∧
        ∀ depth fault, script.run depth = .error fault → fault.isPreventable = false) := by
  rw [Script.problems, List.append_eq_nil_iff, goalProblems_eq_nil_iff]
  refine ⟨and_congr_right fun _ => ⟨fun h step nested hstands => hstands.inOrder h,
    stepProblems_of_stands false script.steps⟩, ?_⟩
  rintro ⟨-, h⟩
  constructor
  · rintro names p step ⟨env, start, q, hsetUp, hvisits⟩
    have hstart := setUp_averts script {}
    rw [hsetUp] at hstart
    have hproblems := hvisits.problems (by rw [hstart]; exact h)
    refine ⟨(Step.problems_eq_nil_iff.mp hproblems).1, fun fault r hrun => ?_⟩
    have hstep := Step.run_averts script.name names step hproblems p
    rw [hrun] at hstep
    exact hstep
  · intro depth fault hrun
    have hexecute := @execute_averts script depth h {}
    unfold Script.run at hrun
    split at hrun
    next => cases hrun
    next fault' q herror =>
      cases hrun
      rw [herror] at hexecute
      exact hexecute

/-- Concludes from something without a name in a scope within a scope. -/
def unfoundedScript : Script where
  name := "unfounded"
  steps := [.mk {} [.mk { introduces := "n" } [],
    .mk { name := "inner" } [.mk { name := "p", assumes := "P(n)", concludes := true } [],
      .mk { rule := "double_negation", premises := ["q"], concludes := true } []]]]
  goals := [{ statement := "P(1)" }]

/-- The script has no problems, so it fails for another reason. -/
theorem validation_exact_unfounded :
    unfoundedScript.problems = [] ∧
      (∀ step nested, Stands step nested false unfoundedScript.steps → step.InOrder nested) ∧
      ∃ fault, unfoundedScript.run 0 = .error fault ∧ fault.isPreventable = false := by
  have hexact := validation_exact unfoundedScript
  have hproblems : unfoundedScript.problems = [] := by decide +kernel
  have hfails : (unfoundedScript.run 0).toOption.isNone = true := by decide +kernel
  refine ⟨hproblems, (hexact.1.mp hproblems).2, ?_⟩
  cases hrun : unfoundedScript.run 0 with
  | ok outcome =>
      rw [hrun] at hfails
      cases hfails
  | error fault => exact ⟨fault, rfl, (hexact.2 hproblems).2 0 fault hrun⟩

end Runs

end Entailment.Script
