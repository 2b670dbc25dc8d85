import Entailment.Proofs.Atomicity
import Entailment.Proofs.NamedFacts

/-!
# What a scope exports

A scope without conclusions exports what was derived last while it was the innermost one. If its
last step applies a rule, this is what the rule answers with, because every rule but one enters its
answer last. The exception takes a conjunction apart: all conjuncts are entered, in their order, and
the one that was asked for is the answer, so that the last conjunct is exported in its place. Steps
before the last one do not interfere. Whatever they derive is recorded earlier, and conclusions that
are drawn in the scopes inside of this one are conclusions of those scopes.
-/
namespace Entailment

/-- What is put around a statement is a statement without a mark. -/
theorem Layer.strip_wrap {layer : Layer} {p q : Proposition} (hp : p.strip = p)
    (h : layer.wrap p = .ok q) : q.strip = q := by
  cases layer with
  | each v =>
      rw [wrap] at h
      split at h
      next => cases h
      next =>
        split at h
        next =>
          cases h
          rfl
        next =>
          cases h
          exact hp
  | eachIn v set =>
      rw [wrap] at h
      split at h
      next => cases h
      next =>
        cases h
        rfl
  | given first rest =>
      unfold wrap at h
      dsimp only at h
      split at h
      next =>
        cases h
        rfl
      next =>
        cases h
        rfl

theorem Proposition.strip_strip (p : Proposition) : p.strip.strip = p.strip := by
  cases p <;> rfl

namespace Scope
variable {scope : Scope} {p q : Proposition}

theorem strip_generalise (h : scope.generalise p = .ok q) : q.strip = q := by
  unfold generalise at h
  generalize Layer.ofLog scope.log = layers at h
  induction layers generalizing q with
  | nil =>
      cases h
      exact p.strip_strip
  | cons layer layers ih =>
      rw [List.foldrM_cons] at h
      cases hinner : layers.foldrM Layer.wrap p.strip with
      | error b =>
          rw [hinner] at h
          cases h
      | ok r =>
          rw [hinner] at h
          exact Layer.strip_wrap (ih hinner) h

end Scope

namespace Session
variable {s t u : Session} {c : ScopeId} {scope : Scope} {f : Fact}

section Latest

/-- Outside of speculations, the fact was derived last while the innermost scope was so. -/
structure Latest (s : Session) (f : Fact) : Prop where
  quiet : s.speculation = none
  proves : s.Proves f
  recorded : ∀ c scope, s.stack.head? = some c → s.scope? c = some scope →
    scope.proven.getLast? = some f.id

theorem Aside.speculation (h : s.Aside t) : t.speculation = s.speculation := by
  obtain ⟨_, _, _, rfl⟩ := h
  rfl

theorem Latest.aside (h : s.Latest f) (ht : s.Aside t) : t.Latest f := by
  obtain ⟨_, _, _, rfl⟩ := ht
  exact ⟨h.quiet, h.proves, h.recorded⟩

/-- Of several facts that were entered one after another, the last one is the latest. -/
theorem Gains.latest {facts : List Fact} (h : s.Gains facts t) (hquiet : s.speculation = none)
    (hlast : facts.getLast? = some f) (hproves : t.Proves f) : t.Latest f where
  quiet := h.speculation.trans hquiet
  proves := hproves
  recorded c scope hc hscope := by
    rw [h.scopes c] at hscope
    obtain ⟨before, -, rfl⟩ := Option.map_eq_some_iff.mp hscope
    rw [if_pos (h.stack ▸ hc), List.getLast?_append, List.getLast?_map, hlast]
    rfl

/-- What a tactic enters is the latest fact. -/
theorem Yields.latest {r : Rule} {a : Action Fact} (h : Yields r a s)
    (hquiet : s.speculation = none) : Ensures a s (fun f t => t.Latest f) fun _ => True := by
  refine Ensures.mono h ?_ fun _ _ => trivial
  rintro f t ⟨u, p, i, d, hu, -, -, rfl, rfl⟩
  have hnone : u.speculation = none := hu.gains.speculation.trans hquiet
  have hgains := hu.gains.append (gains_certified hnone p i d)
  exact hgains.latest hquiet rfl (proves_nextFact u p i d)

/-- Without conclusions, the latest fact is what closing a scope would restate. -/
theorem Latest.targets (h : s.Latest f) (hc : s.Innermost c scope)
    (hunmarked : scope.conclusions = []) : s.targets scope = [f] := by
  obtain ⟨e, he, hstatement, -⟩ := h.proves
  unfold Session.targets
  rw [hunmarked]
  simp [h.recorded c scope hc.2.2 hc.1, he, hstatement]

end Latest

section Unmarked

/-- Nothing is marked for export from the scope. -/
def Unmarked (s : Session) (c : ScopeId) : Prop :=
  ∀ scope, s.scope? c = some scope → scope.conclusions = []

theorem Unmarked.remembered (h : s.Unmarked c) (ht : Remembers s t) : t.Unmarked c := by
  intro scope' hscope'
  obtain ⟨scope, hscope, -, hconclusions⟩ := ht.2 c scope' hscope'
  rw [hconclusions]
  exact h scope hscope

theorem Unmarked.extended {R : Rule → Prop} (h : s.Unmarked c) (ht : Extends R s t) :
    t.Unmarked c := by
  induction ht with
  | refl => exact h
  | aside _ _ _ _ ih => exact ih
  | certify _ _ _ ih => exact ih.remembered (remembers_certified _ _ _ _)

theorem Unmarked.aside (h : s.Unmarked c) (ht : s.Aside t) : t.Unmarked c := by
  obtain ⟨_, _, _, rfl⟩ := ht
  exact h

theorem Unmarked.modifyScope {d : ScopeId} {g : Scope → Scope} (h : s.Unmarked c)
    (hg : d = c → ∀ scope, (g scope).conclusions = scope.conclusions) :
    (s.modifyScope d g).Unmarked c := by
  intro scope' hscope'
  rw [scope?_modifyScope] at hscope'
  split at hscope'
  next heq =>
    obtain ⟨scope, hscope, rfl⟩ := Option.map_eq_some_iff.mp hscope'
    rw [hg heq]
    exact h scope hscope
  next => exact h scope' hscope'

theorem Unmarked.exported {d : ScopeId} (statements : List (Fact × Proposition))
    (h : s.Unmarked c) : (Session.exported d scope s statements).Unmarked c := by
  induction statements generalizing s with
  | nil => exact h
  | cons x statements ih => exact ih (h.remembered (remembers_certified s _ _ _))

theorem Unmarked.opened (h : s.Unmarked c) (name : String) : (s.opened name).Unmarked c := by
  intro scope hscope
  have hpush : (s.opened name).scope? c =
      if c.index = s.scopes.size then some { name } else s.scope? c := by
    simp only [scope?, Session.opened, Array.getElem?_push]
  rw [hpush] at hscope
  split at hscope
  next =>
    cases hscope
    rfl
  next => exact h scope hscope

/-- The only call that marks anything is the one made for it. -/
theorem Unmarked.call (h : s.Unmarked c) (call : Call) (hcall : ∀ p, call ≠ .conclude c p) :
    (call.apply s).Unmarked c := by
  have hchange := call.change s
  generalize call.apply s = t at hchange ⊢
  cases hchange with
  | aside ht => exact h.aside ht
  | tactic ht => exact h.extended ht
  | postulate => exact h.remembered (remembers_certified s _ _ _)
  | suppose _ => exact h.remembered (remembers_supposed s _)
  | assumeIn _ _ => exact (h.remembered (remembers_supposed s _)).modifyScope fun _ _ => rfl
  | openScope => exact h.opened _
  | introduce _ ht _ => exact (h.aside ht).modifyScope fun _ _ => rfl
  | @conclude d _ p _ _ _ =>
      apply h.modifyScope
      rintro rfl
      exact absurd rfl (hcall p)
  | close _ _ =>
      exact ((h.remembered (remembers_retract s _)).exported _).modifyScope fun _ _ => rfl
  | discard _ _ => exact h.remembered (remembers_retract s _)
  | speculateFrom _ => exact h
  | settle => exact h.remembered (remembers_settled s _)

theorem Unmarked.performed {α : Type} {a : Action α} (h : s.Unmarked c)
    (ha : Performs (fun call => ∀ p, call ≠ .conclude c p) a) : (after a s).Unmarked c := by
  obtain ⟨calls, hcalls, hrun⟩ := ha s
  rw [hrun]
  exact run_induction (P := fun t => t.Unmarked c)
    (fun t call hcall ht => ht.call call hcall) h calls hcalls

theorem finish_performs {allowed : Call → Prop} (hclose : allowed (.close c))
    (hdiscard : allowed (.discard c)) : Performs allowed (finish c) := by
  unfold finish
  refine .bind (.tryCatch (.one (.close c) hclose fun _ => rfl) fun e => ?_) fun _ => ?_
  · exact .bind (.one (.discard c) hdiscard fun _ => rfl) fun _ => .throw e
  · exact .reads fun s => results_reads s c

end Unmarked

section Finishing

/-- Generalisations carry no mark, so entering them as facts does not change them. -/
theorem generalises_of_restates {ts fs : List Fact} {statements : List (Fact × Proposition)}
    (h : List.Forall₂ (Restates scope) ts statements)
    (hfs : fs.map Fact.statement = statements.map fun x => x.2.strip) :
    List.Forall₂ (fun f g => scope.generalise f.statement = .ok g.statement) ts fs := by
  induction h generalizing fs with
  | nil =>
      rw [List.map_eq_nil_iff.mp hfs]
      exact .nil
  | cons hfirst _ ih =>
      obtain ⟨g, gs, rfl, hg, hgs⟩ := List.map_eq_cons_iff.mp hfs
      refine .cons ?_ (ih hgs)
      rw [hg.trans (Scope.strip_generalise hfirst.2)]
      exact hfirst.2

/-- Finishing a scope answers with the generalisations of what there is to export, in order. -/
theorem finish_states (hc : s.Innermost c scope) :
    Ensures (finish c) s
      (fun fs _ => List.Forall₂ (fun f g => scope.generalise f.statement = .ok g.statement)
        (s.targets scope) fs) fun _ => True := by
  refine (finish_ensures hc).mono ?_ fun _ _ => trivial
  rintro fs t ⟨-, statements, results, hstatements, hfs, -⟩
  exact generalises_of_restates hstatements hfs

end Finishing

end Session

namespace Script
open Session

section Answers
variable {p : Progress} {rule : Rule} {a : Application}

/-- Outside of speculations, the execution answers with the latest fact. -/
def Derives (e : Execution Fact) : Prop :=
  ∀ p, p.session.speculation = none → Achieves e p fun f q => q.session.Latest f

/-- What is entered last is the latest fact, and only taking conjunctions apart may answer with
another one. -/
theorem Handles.derives {facts : List Fact} {e : Execution Fact} (h : Handles rule a facts e)
    (hrule : rule ≠ .conjunctionElim) (hquiet : p.session.speculation = none)
    (hfacts : ∀ f ∈ facts, p.session.Latest f) :
    Achieves e p fun f q => q.session.Latest f := by
  induction h generalizing p with
  | refuse => exact .throw
  | answer hf => exact .pure (hfacts _ hf)
  | prepare he _ ih =>
      refine .after he fun x q hx hq => ?_
      exact ih x hx (hq.2.speculation.trans hquiet) fun f hf => (hfacts f hf).aside hq.2
  | @enter facts action k hserves _ ih =>
      have hentered : Achieves (Script.inSession action) p fun f q => q.session.Latest f :=
        .inSession ((hserves.enters p.session).1.latest hquiet)
      exact hentered.bind fun f q hq => ih f hq.quiet (List.forall_mem_singleton.mpr hq)
  | takeApart hconjunction => exact absurd hconjunction hrule

/-- Every rule but one answers with what it enters last. -/
theorem ofRule?_derives {tactic : Tactic} (h : Tactic.ofRule? rule = some tactic)
    (hrule : rule ≠ .conjunctionElim) : Derives (tactic a) := fun _ hquiet =>
  (ofRule?_handles h a).derives hrule hquiet nofun

/-- What taking a conjunction apart comes to: the answer is one of its conjuncts, and the latest
fact is the last one. -/
structure TakesApart (premise answer latest : Fact) : Prop where
  conjunction : ∃ members m, premise.statement = .junction .and members m ∧
    answer.statement ∈ members.map Proposition.strip ∧
    (members.map Proposition.strip).getLast? = some latest.statement

theorem conjunctionElim_takesApart (hquiet : p.session.speculation = none)
    (h : a.Founded p.session) :
    Achieves (Tactic.conjunctionElim a) p fun f q =>
      ∃ premise ∈ a.premises, ∃ latest, q.session.Latest latest ∧ TakesApart premise f latest := by
  refine .after (prepares_target a) fun target q _ hq => ?_
  refine .after (prepares_single a) fun f r hmem hr => ?_
  have haside := hq.2.trans hr.2
  have hproves := h.aside haside f hmem
  have hnone : r.session.speculation = none := haside.speculation.trans hquiet
  have hsplit : Achieves (Script.inSession (split (some f.proposition))) r fun parts t =>
      (∀ part ∈ parts, t.session.Proves part) ∧ r.session.Gains parts t.session ∧
        ∃ members m, f.statement = .junction .and members m ∧
          parts.map Fact.statement = members.map Proposition.strip := by
    apply Achieves.inSession
    refine ((split_proves (some f.proposition) r.session).and
      (split_gains r.session (some f.proposition))).mono ?_ fun _ _ => trivial
    rintro parts t ⟨hproven, hgains⟩
    obtain ⟨⟨g, members, m, hg, hstatement, hparts⟩, hgains⟩ := hgains hnone
    rw [premise?, Option.bind_some, provenFact?_proposition hproves] at hg
    cases hg
    exact ⟨hproven, hgains, members, m, hstatement, hparts⟩
  refine hsplit.bind fun parts t ht => ?_
  obtain ⟨hproven, hgains, members, m, hstatement, hparts⟩ := ht
  split
  next part hpart =>
    have hanswer := List.mem_of_find?_eq_some hpart
    obtain ⟨latest, hlatest⟩ := Option.isSome_iff_exists.mp
      (List.getLast?_isSome.mpr (List.ne_nil_of_mem hanswer))
    refine .pure ⟨f, hmem, latest, hgains.latest hnone hlatest
      (hproven latest (List.mem_of_getLast? hlatest)), ⟨members, m, hstatement, ?_, ?_⟩⟩
    · rw [← hparts]
      exact List.mem_map_of_mem hanswer
    · rw [← hparts, List.getLast?_map, hlatest]
      rfl
  next => exact .throw

/-- The latest fact after a step has applied a rule is the one it answers with, or else the last
conjunct of the named conjunction. -/
theorem applyRule_latest {script : String} {names : Names} {a : Attributes}
    (hquiet : p.session.speculation = none) (hnames : names.Hold p.session) :
    Achieves (applyRule script names a) p fun f q => ∃ latest, q.session.Latest latest ∧
      (Rule.ofName? a.rule ≠ some .conjunctionElim → latest = f) ∧
      (Rule.ofName? a.rule = some .conjunctionElim → ∃ label ∈ a.premises, ∃ premise,
        names.facts.lookup label = some premise ∧ TakesApart premise f latest) := by
  unfold applyRule
  split
  next => exact .throw
  next rule hrule =>
    split
    next => exact .throw
    next tactic htactic =>
      refine .after (prepares_premises names a.premises) fun fs q hnamed hq => ?_
      have hnone : q.session.speculation = none := hq.2.speculation.trans hquiet
      rw [hrule]
      by_cases hconjunction : rule = .conjunctionElim
      · subst hconjunction
        cases htactic
        refine (conjunctionElim_takesApart hnone fun f hf => ?_).mono fun f r hr => ?_
        · obtain ⟨label, -, hlookup⟩ := hnamed f hf
          exact hq.2.proves (hnames.lookup hlookup)
        · obtain ⟨premise, hmem, latest, hlatest, hapart⟩ := hr
          obtain ⟨label, hlabel, hlookup⟩ := hnamed premise hmem
          exact ⟨latest, hlatest, fun hne => absurd rfl hne,
            fun _ => ⟨label, hlabel, premise, hlookup, hapart⟩⟩
      · refine (ofRule?_derives htactic hconjunction q hnone).mono fun f r hr => ?_
        exact ⟨f, hr, fun _ => rfl, fun heq => absurd (Option.some.inj heq) hconjunction⟩

end Answers

section Steps
variable {p q : Progress} {c : ScopeId} {names : Names} {a : Attributes}

theorem inSession_unmarked {α : Type} {action : Action α} (h : p.session.Unmarked c)
    (haction : Performs (fun call => ∀ f, call ≠ .conclude c f) action) :
    Achieves (Script.inSession action) p fun _ q => q.session.Unmarked c :=
  .inSession (Ensures.of_after (h.performed haction))

theorem applyRule_unmarked {script : String} (h : p.session.Unmarked c) :
    Achieves (applyRule script names a) p fun _ q => q.session.Unmarked c := by
  unfold applyRule
  split
  next => exact .throw
  next rule _ =>
    split
    next => exact .throw
    next tactic htactic =>
      refine .after (prepares_premises names a.premises) fun fs q _ hq => ?_
      refine (ofRule?_applies htactic _ q).mono fun _ r hr => ?_
      exact (h.aside hq.2).extended hr.2.1.extends

theorem register_keeps {name : String} {f : Fact} :
    Achieves (register names name f) p fun names' q =>
      names'.scope = names.scope ∧ q.session = p.session ∧
        names'.facts = if name = "" then names.facts else (name, f) :: names.facts := by
  have hnames : ∀ q : Progress, q.session = p.session → (if name = "" then names
      else { names with facts := (name, f) :: names.facts }).scope = names.scope ∧
      q.session = p.session ∧ (if name = "" then names
        else { names with facts := (name, f) :: names.facts }).facts =
          if name = "" then names.facts else (name, f) :: names.facts := by
    intro q hq
    split
    next => exact ⟨rfl, hq, rfl⟩
    next => exact ⟨rfl, hq, rfl⟩
  unfold register
  dsimp only
  split
  next => exact .modify_bind (.pure (hnames _ rfl))
  next => exact .pure (hnames _ rfl)

/-- What is concluded in another scope leaves this one unmarked. -/
theorem publish_unmarked {i : Nat} {results : List Fact} (h : p.session.Unmarked c)
    (hmark : names.scope = some c → a.concludes = false) :
    Achieves (publish a i names results) p fun _ q => q.session.Unmarked c := by
  induction results generalizing i names p with
  | nil => exact .pure h
  | cons f results ih =>
      have hrest : ∀ q : Progress, q.session.Unmarked c → Achieves (do
          let names ← register names (resultName a.name i) f
          publish a (i + 1) names results) q fun _ r => r.session.Unmarked c := by
        intro q hq
        refine register_keeps.bind fun names' r hr => ?_
        obtain ⟨hscope, hsession, -⟩ := hr
        rw [← hscope] at hmark
        rw [← hsession] at hq
        exact ih hq hmark
      rw [publish]
      split
      next hconcludes =>
        have hconclude : Achieves (concludeIn names f) p fun _ q => q.session.Unmarked c := by
          unfold concludeIn
          split
          next d hd =>
            refine inSession_unmarked h (.one (.conclude d _) ?_ fun _ => rfl)
            rintro g ⟨⟩
            rw [hmark hd] at hconcludes
            cases hconcludes
          next => exact .throw
        exact hconclude.bind fun _ q hq => hrest q hq
      next => exact hrest p h

theorem results_unmarked {script : String} {results : List Fact} (h : p.session.Unmarked c)
    (hmark : names.scope = some c → a.concludes = false) :
    Achieves (do
      checkExpectation script names a results
      publish a 0 names results) p fun _ q => q.session.Unmarked c :=
  .after (prepares_checkExpectation script names a results) fun _ _ _ hq =>
    publish_unmarked (h.aside hq.2) hmark

/-- A scope that is open is not the next one to be opened. -/
theorem ne_next_of_mem_stack (hp : p.session.Coherent) (hc : c ∈ p.session.stack) :
    c ≠ ⟨p.session.scopes.size⟩ := by
  rintro rfl
  obtain ⟨scope, hscope, -⟩ := Option.map_eq_some_iff.mp ((hp.accounted.nested.mem_stack _).mp hc)
  exact Nat.lt_irrefl _ (Array.getElem?_eq_some_iff.mp hscope).choose

/-- What names mean where the steps inside of a step begin. -/
def Names.enter (names : Names) (p : Progress) : Names :=
  { names with scope := some ⟨p.session.scopes.size⟩ }

/-- The progress where the steps inside of a step begin. -/
def Progress.enter (p : Progress) (a : Attributes) : Progress :=
  { p with session := p.session.opened (if a.name = "" then "context" else a.name) }

mutual

/-- A step leaves an open scope unmarked unless it stands directly in it and concludes. -/
theorem Step.run_unmarked (script : String) (names : Names) (step : Step) {p : Progress}
    (hp : p.session.Coherent) (hnames : names.Hold p.session) (hc : c ∈ p.session.stack)
    (hmark : names.scope = some c → step.attributes.concludes = false)
    (h : p.session.Unmarked c) :
    Achieves (step.run script names) p fun _ q => q.session.Unmarked c := by
  obtain ⟨a, inner⟩ := step
  rw [Step.run]
  split
  next =>
    split
    next => exact .throw
    next d _ =>
      refine (inSession_unmarked h (.one (.letVariable d a.introduces) nofun fun _ => rfl)).bind
        fun v q hq => .pure hq
  next =>
    refine .after (prepares_read _ _ _ _ _) fun statement q _ hq => ?_
    refine (inSession_unmarked (h.aside hq.2) (.one (.assume statement) nofun fun _ => rfl)).bind
      fun f r hr => results_unmarked hr hmark
  next => exact (applyRule_unmarked h).bind fun f q hq => results_unmarked hq hmark
  next =>
    have hopen : Achieves (Script.inSession
        (openScope (if a.name = "" then "context" else a.name))) p fun d q =>
          d = ⟨p.session.scopes.size⟩ ∧ q = p.enter a := by
      intro d q hrun
      cases hrun
      exact ⟨rfl, rfl⟩
    refine hopen.bind fun d q hq => ?_
    obtain ⟨rfl, rfl⟩ := hq
    have hne := ne_next_of_mem_stack hp hc
    have hinner := @runSteps_unmarked script (names.enter p) inner (p.enter a) (hp.opened _) hnames
      (List.mem_cons_of_mem _ hc) (fun heq => absurd (Option.some.inj heq).symm hne) (h.opened _)
    have hbody : Achieves (do
        let _ ← runSteps script (names.enter p) inner
        Pure.pure PUnit.unit) (p.enter a) fun _ q => q.session.Unmarked c :=
      hinner.bind fun _ _ hr => .pure hr
    refine (hbody.tryCatch fun fault q => ?_).bind fun _ r hr => ?_
    · exact Achieves.bind (fun _ _ _ => trivial) fun _ _ (_ : True) => .throw
    · exact (inSession_unmarked hr (finish_performs nofun nofun)).bind fun fs t ht =>
        results_unmarked ht hmark
  next => exact .throw

theorem runSteps_unmarked (script : String) (names : Names) (steps : List Step) {p : Progress}
    (hp : p.session.Coherent) (hnames : names.Hold p.session) (hc : c ∈ p.session.stack)
    (hmark : names.scope = some c → ∀ s ∈ steps, s.attributes.concludes = false)
    (h : p.session.Unmarked c) :
    Achieves (runSteps script names steps) p fun _ q => q.session.Unmarked c := by
  cases steps with
  | nil =>
      rw [runSteps]
      exact .pure h
  | cons step steps =>
      rw [runSteps]
      have hstep := Step.run_unmarked script names step hp hnames hc
        (fun hscope => hmark hscope step List.mem_cons_self) h
      have hlead := (Step.run_leads script names step hp hnames).achieves
      have hboth : Achieves (step.run script names) p fun names' q =>
          q.session.Unmarked c ∧ Leads names p names' q := fun names' q hrun =>
        ⟨hstep names' q hrun, hlead names' q hrun⟩
      refine (hboth.tryCatch fun _ _ => .throw).bind fun names' q hq => ?_
      obtain ⟨hunmarked, hq⟩ := hq
      refine runSteps_unmarked script names' steps hq.moves.coherent hq.hold
        (hq.moves.proceeds.stack ▸ hc) (fun hscope s hs => ?_) hunmarked
      exact hmark (hq.scope ▸ hscope) s (List.mem_cons_of_mem _ hs)

end

end Steps

section Exports
variable {script : String} {names names' : Names} {p q : Progress} {a : Attributes}
  {inner front : List Step} {last : Step} {results : List Fact}

/-- Takes the steps inside of a step in a scope of their own, and answers with what it exports. -/
def nest (script : String) (names : Names) (a : Attributes) (inner : List Step) :
    Execution (List Fact) := do
  let c ← inSession (openScope (if a.name = "" then "context" else a.name))
  try
    let _ ← runSteps script { names with scope := some c } inner
  catch fault =>
    inSession (Session.discard c)
    throw fault
  inSession (finish c)

theorem Step.run_nest (h : (Step.mk a inner).forms = [.nest]) :
    (Step.mk a inner).run script names = (do
      let results ← nest script names a inner
      checkExpectation script names a results
      publish a 0 names results) := by
  rw [Step.run]
  simp only [h, nest, bind_assoc]

theorem Step.run_apply (h : (Step.mk a inner).forms = [.apply]) :
    (Step.mk a inner).run script names = (do
      let f ← applyRule script names a
      checkExpectation script names a [f]
      publish a 0 names [f]) := by
  rw [Step.run]
  simp only [h]

theorem runSteps_append (front rest : List Step) :
    runSteps script names (front ++ rest) = (do
      let names ← runSteps script names front
      runSteps script names rest) := by
  induction front generalizing names with
  | nil => rw [List.nil_append, runSteps, pure_bind]
  | cons step front ih =>
      rw [List.cons_append, runSteps, runSteps, bind_assoc]
      exact bind_congr fun names => ih

/-- Both parts of a sequence that succeeds succeed. -/
theorem of_bind_eq_ok {α β : Type} {e : Execution β} {k : β → Execution α} {y : α}
    (h : (e >>= k) p = .ok y q) : ∃ x r, e p = .ok x r ∧ k x r = .ok y q := by
  change EStateM.bind e k p = .ok y q at h
  unfold EStateM.bind at h
  cases hrun : e p with
  | ok x r =>
      rw [hrun] at h
      exact ⟨x, r, rfl, h⟩
  | error fault r =>
      rw [hrun] at h
      cases h

/-- What succeeds although faults are passed on has succeeded at once. -/
theorem of_tryCatch_eq_ok {α : Type} {e : Execution α} {handle : Fault → Execution α} {y : α}
    (h : tryCatch e handle p = .ok y q)
    (hhandle : ∀ fault r, Achieves (handle fault) r fun _ _ => False) : e p = .ok y q := by
  change EStateM.tryCatch e handle p = .ok y q at h
  unfold EStateM.tryCatch at h
  cases hrun : e p with
  | ok x r =>
      rw [hrun] at h
      exact h
  | error fault r =>
      rw [hrun] at h
      exact (hhandle fault _ y q h).elim

theorem of_runSteps_singleton (h : runSteps script names [last] p = .ok names' q) :
    last.run script names p = .ok names' q := by
  rw [runSteps] at h
  obtain ⟨names'', r, hlast, hrest⟩ := of_bind_eq_ok h
  rw [runSteps] at hrest
  cases hrest
  exact of_tryCatch_eq_ok hlast fun _ _ => .throw

theorem of_nest_eq_ok (h : nest script names a inner p = .ok results q) :
    ∃ names' r, runSteps script (names.enter p) inner (p.enter a) = .ok names' r ∧
      Script.inSession (finish ⟨p.session.scopes.size⟩) r = .ok results q := by
  unfold nest at h
  obtain ⟨c, r, hopen, h⟩ := of_bind_eq_ok h
  cases hopen
  obtain ⟨_, t, hinner, hfinish⟩ := of_bind_eq_ok h
  have hbody := of_tryCatch_eq_ok hinner fun fault r =>
    Achieves.bind (fun _ _ _ => trivial) fun _ _ (_ : True) => .throw
  obtain ⟨names', u, hsteps, hpure⟩ := of_bind_eq_ok hbody
  cases hpure
  exact ⟨names', _, hsteps, hfinish⟩

/-- In a scope of their own the front steps have been taken, the last one has derived a fact by its
rule, and finishing the scope has answered with the results. -/
structure EndsIn (script : String) (names : Names) (p : Progress) (a : Attributes)
    (front : List Step) (last : Step) (inside : Names) (derived : Fact) (scope : Scope)
    (results : List Fact) : Prop where
  derives : ∃ r t, runSteps script (names.enter p) front (p.enter a) = .ok inside r ∧
    applyRule script inside last.attributes r = .ok derived t ∧
    t.session.scope? ⟨p.session.scopes.size⟩ = some scope
  answers : ∃ q, nest script names a (front ++ [last]) p = .ok results q

/-- After its result is there, a step that does not conclude in its scope changes no more of the
session. -/
theorem results_aside {f : Fact} (hconcludes : a.concludes = false) :
    Achieves (do
      checkExpectation script names a [f]
      publish a 0 names [f]) p fun _ q => p.session.Aside q.session := by
  refine .after (prepares_checkExpectation script names a [f]) fun _ q _ hq => ?_
  rw [publish, if_neg (by simp [hconcludes])]
  refine register_keeps.bind fun names' r hr => .pure ?_
  rw [hr.2.1]
  exact hq.2

/-- Without conclusions a scope exports one statement, the generalisation of what its last step
derived by a rule, or else of the last conjunct where this step took a conjunction apart. -/
theorem nest_exports (hp : p.session.Coherent) (hnames : names.Hold p.session)
    (hunmarked : ∀ s ∈ front ++ [last], s.attributes.concludes = false)
    (hlast : last.forms = [.apply])
    (h : nest script names a (front ++ [last]) p = .ok results q) :
    ∃ inside derived scope latest result,
      EndsIn script names p a front last inside derived scope results ∧ results = [result] ∧
      scope.generalise latest.statement = .ok result.statement ∧
      (Rule.ofName? last.attributes.rule ≠ some .conjunctionElim → latest = derived) ∧
      (Rule.ofName? last.attributes.rule = some .conjunctionElim →
        ∃ label ∈ last.attributes.premises, ∃ premise,
          inside.facts.lookup label = some premise ∧ TakesApart premise derived latest) := by
  obtain ⟨names', w, hsteps, hfinish⟩ := of_nest_eq_ok h
  have henter : (p.enter a).session.Coherent := hp.opened _
  have hwhole := (runSteps_leads script (names.enter p) (front ++ [last]) henter hnames).achieves
    _ _ hsteps
  rw [runSteps_append] at hsteps
  obtain ⟨inside, r, hfront, hsteps⟩ := of_bind_eq_ok hsteps
  have hlead := (runSteps_leads script (names.enter p) front henter hnames).achieves _ _ hfront
  obtain ⟨b, more⟩ := last
  have hrun := of_runSteps_singleton hsteps
  rw [Step.run_apply hlast] at hrun
  obtain ⟨derived, t, hrule, hrest⟩ := of_bind_eq_ok hrun
  -- Nothing has been marked by the time the rule is applied, nor is anything marked afterwards.
  have hfresh : p.session.Unmarked ⟨p.session.scopes.size⟩ := by
    intro scope hscope
    rw [scope?, Array.getElem?_eq_none (Nat.le_refl _)] at hscope
    cases hscope
  have hbefore := runSteps_unmarked script (names.enter p) front henter hnames List.mem_cons_self
    (fun _ s hs => hunmarked s (List.mem_append_left _ hs)) (hfresh.opened _) _ _ hfront
  have hconcludes : b.concludes = false := hunmarked (.mk b more) (by simp)
  have haside := results_aside hconcludes _ _ hrest
  have hafter := (applyRule_unmarked hbefore _ _ hrule).aside haside
  obtain ⟨latest, hlatest, hplain, hapart⟩ :=
    applyRule_latest hlead.moves.coherent.quiet hlead.hold _ _ hrule
  -- So finishing the scope looks for the latest fact, and restates it.
  have hstack : w.session.stack = ⟨p.session.scopes.size⟩ :: p.session.stack :=
    hwhole.moves.proceeds.stack
  obtain ⟨scope, hc⟩ := Innermost.of_stack hwhole.moves.coherent.accounted.nested hstack
  have htargets := (hlatest.aside haside).targets hc (hafter scope hc.1)
  have hanswer : Achieves (Script.inSession (finish ⟨p.session.scopes.size⟩)) w fun fs _ =>
      List.Forall₂ (fun f g => scope.generalise f.statement = .ok g.statement)
        (w.session.targets scope) fs := .inSession (finish_states hc)
  have hresults := hanswer _ _ hfinish
  rw [htargets] at hresults
  cases hresults with
  | @cons _ result _ _ hresult hnil =>
      cases hnil
      refine ⟨inside, derived, scope, latest, result, ⟨⟨r, t, hfront, hrule, ?_⟩, q, h⟩, rfl,
        hresult, hplain, hapart⟩
      obtain ⟨_, _, _, hw⟩ := haside
      have hscope := hc.1
      rw [hw] at hscope
      exact hscope

theorem publish_facts {result : Fact} :
    Achieves (publish a 0 names [result]) p fun names' _ =>
      names'.facts = if a.name = "" then names.facts else (a.name, result) :: names.facts := by
  have hname : resultName a.name 0 = a.name := rfl
  have hregister : ∀ q : Progress, Achieves (do
      let names ← register names (resultName a.name 0) result
      publish a 1 names []) q fun names' _ =>
        names'.facts = if a.name = "" then names.facts else (a.name, result) :: names.facts := by
    intro q
    rw [hname]
    exact register_keeps.bind fun names' r hr => .pure hr.2.2
  rw [publish]
  split
  next => exact Achieves.bind (fun _ _ _ => trivial) fun _ q (_ : True) => hregister q
  next => exact hregister p

end Exports

end Script

open Script

section Scopes
variable {script : Script} {names names' : Names} {p q : Progress} {a : Attributes}
  {front : List Step} {last : Step}

/-- A scope without conclusions whose last step applies a rule exports one fact under the name of
the scope. It is the generalisation of what the rule answered with. Only where the rule took a
conjunction apart for one of its conjuncts, the last conjunct takes the place of this one. -/
theorem scope_exports_last (hreaches : script.Reaches names p (.mk a (front ++ [last])))
    (hform : (Step.mk a (front ++ [last])).forms = [.nest])
    (hunmarked : ∀ s ∈ front ++ [last], s.attributes.concludes = false)
    (hlast : last.forms = [.apply])
    (hrun : (Step.mk a (front ++ [last])).run script.name names p = .ok names' q) :
    ∃ inside derived scope latest result,
      EndsIn script.name names p a front last inside derived scope [result] ∧
      names'.facts = (if a.name = "" then names.facts else (a.name, result) :: names.facts) ∧
      scope.generalise latest.statement = .ok result.statement ∧
      (Rule.ofName? last.attributes.rule ≠ some .conjunctionElim → latest = derived) ∧
      (Rule.ofName? last.attributes.rule = some .conjunctionElim →
        ∃ label ∈ last.attributes.premises, ∃ premise,
          inside.facts.lookup label = some premise ∧ TakesApart premise derived latest) := by
  obtain ⟨hcoherent, hhold⟩ := hreaches.hold
  rw [Step.run_nest hform] at hrun
  obtain ⟨results, r, hnest, hrest⟩ := of_bind_eq_ok hrun
  obtain ⟨inside, derived, scope, latest, result, hends, rfl, hresult⟩ :=
    nest_exports hcoherent hhold hunmarked hlast hnest
  obtain ⟨_, t, -, hpublish⟩ := of_bind_eq_ok hrest
  exact ⟨inside, derived, scope, latest, result, hends, publish_facts _ _ hpublish, hresult⟩

/-- The execution succeeds, and what it answers and leaves passes the check. -/
def succeeds {α : Type} (e : Execution α) (p : Progress) (check : α → Progress → Bool) : Bool :=
  match e p with
  | .ok x q => check x q
  | .error _ _ => false

theorem exists_of_succeeds {α : Type} {e : Execution α} {check : α → Progress → Bool}
    (h : succeeds e p check = true) : ∃ x q, e p = .ok x q ∧ check x q = true := by
  unfold succeeds at h
  split at h
  next x q hrun => exact ⟨x, q, hrun, h⟩
  next => cases h

/-- Weakens what is assumed of a new variable, after a scope of its own has concluded. -/
def weakeningFront : List Step :=
  [.mk { introduces := "x" } [], .mk { name := "h", assumes := "P(x)" } [],
    .mk { name := "inner" } [.mk { assumes := "R", concludes := true } []]]

def weakeningStep : Step :=
  .mk { rule := "disjunction_intro", premises := ["h"], proves := "P(x) ∨ Q" } []

def weakeningScript : Script where
  name := "weakening"
  steps := [.mk { name := "outer" } (weakeningFront ++ [weakeningStep])]

theorem scope_exports_last_weakening :
    ∃ names names' p q inside derived scope result,
      weakeningScript.Reaches names p
        (.mk { name := "outer" } (weakeningFront ++ [weakeningStep])) ∧
      (Step.mk { name := "outer" } (weakeningFront ++ [weakeningStep])).run "weakening" names p =
        .ok names' q ∧
      EndsIn "weakening" names p { name := "outer" } weakeningFront weakeningStep inside derived
        scope [result] ∧
      scope.generalise derived.statement = .ok result.statement ∧
      names'.facts = [("outer", result)] ∧
      result.statement.render = "∀x. P(x) → (P(x) ∨ Q)" := by
  have hpoint : succeeds (weakeningScript.setUp) {} (fun x p => x.2.facts.isEmpty &&
      succeeds ((Step.mk { name := "outer" } (weakeningFront ++ [weakeningStep])).run "weakening"
        x.2) p fun names' _ =>
          names'.facts.map (·.2.statement.render) == ["∀x. P(x) → (P(x) ∨ Q)"]) = true := by
    decide +kernel
  obtain ⟨x, p, hsetUp, hpoint⟩ := exists_of_succeeds hpoint
  obtain ⟨hempty, hpoint⟩ := Bool.and_eq_true_iff.mp hpoint
  obtain ⟨names', q, hrun, hpoint⟩ := exists_of_succeeds hpoint
  have hreaches : weakeningScript.Reaches x.2 p
      (.mk { name := "outer" } (weakeningFront ++ [weakeningStep])) :=
    ⟨x.1, x.2, p, hsetUp, .here []⟩
  obtain ⟨inside, derived, scope, latest, result, hends, hfacts, hresult, hplain, -⟩ :=
    scope_exports_last hreaches rfl (by decide) rfl hrun
  obtain rfl := hplain (by decide)
  rw [List.isEmpty_iff.mp hempty] at hfacts
  have hname : names'.facts = [("outer", result)] := hfacts
  rw [hname] at hpoint
  refine ⟨x.2, names', p, q, inside, latest, scope, result, hreaches, hrun, hends, hresult,
    hname, ?_⟩
  simpa using hpoint

/-- Takes the first conjunct of what is assumed. -/
def conjunctFront : List Step := [.mk { name := "h", assumes := "P ∧ Q" } []]

def conjunctStep : Step :=
  .mk { rule := "conjunction_elim", premises := ["h"], proves := "P" } []

def conjunctScript : Script where
  name := "conjunct"
  steps := [.mk { name := "inner" } (conjunctFront ++ [conjunctStep])]

/-- The scope exports `P ∧ Q → Q`, although its last step has derived `P`. -/
theorem scope_exports_other :
    ¬∀ (script : Script) (names names' : Names) (p q : Progress) (a : Attributes)
        (front : List Step) (last : Step),
      script.Reaches names p (.mk a (front ++ [last])) →
      (Step.mk a (front ++ [last])).forms = [.nest] →
      (∀ s ∈ front ++ [last], s.attributes.concludes = false) → last.forms = [.apply] →
      (Step.mk a (front ++ [last])).run script.name names p = .ok names' q →
      ∃ inside derived scope result,
        EndsIn script.name names p a front last inside derived scope [result] ∧
        scope.generalise derived.statement = .ok result.statement := by
  intro hclaim
  have hpoint : succeeds (conjunctScript.setUp) {} (fun x p =>
      succeeds ((Step.mk { name := "inner" } (conjunctFront ++ [conjunctStep])).run "conjunct"
        x.2) p fun _ _ =>
      succeeds (runSteps "conjunct" (x.2.enter p) conjunctFront) (p.enter { name := "inner" })
        fun inside r =>
      succeeds (applyRule "conjunct" inside conjunctStep.attributes) r fun derived t =>
      succeeds (nest "conjunct" x.2 { name := "inner" } (conjunctFront ++ [conjunctStep])) p
        fun results _ =>
      ((t.session.scope? ⟨p.session.scopes.size⟩).bind fun scope =>
        (scope.generalise derived.statement).toOption.map Proposition.render) ==
          some "(P ∧ Q) → P" &&
        results.map (·.statement.render) == ["(P ∧ Q) → Q"]) = true := by
    decide +kernel
  obtain ⟨x, p, hsetUp, hpoint⟩ := exists_of_succeeds hpoint
  obtain ⟨names', q, hrun, hpoint⟩ := exists_of_succeeds hpoint
  obtain ⟨inside, derived, scope, result, ⟨⟨r, t, hfront, hrule, hscope⟩, ⟨u, hnest⟩⟩, hsame⟩ :=
    hclaim conjunctScript x.2 names' p q { name := "inner" } conjunctFront conjunctStep
      ⟨x.1, x.2, p, hsetUp, .here []⟩ rfl (by decide) rfl hrun
  have hname : conjunctScript.name = "conjunct" := rfl
  rw [hname] at hfront hrule hnest
  have hrenders : result.statement.render = "(P ∧ Q) → P" ∧
      result.statement.render = "(P ∧ Q) → Q" := by
    simpa [succeeds, hfront, hrule, hnest, hscope, hsame, Except.toOption] using hpoint
  exact absurd (hrenders.1.symm.trans hrenders.2) (by decide)

end Scopes

end Entailment
