import Entailment.Proofs.Handling
import Entailment.Proofs.Traces

/-!
# Scripts whose facts pass their audit

A script makes facts available to search as long as it is outside of all scopes. What happens
between is completed work: tactics, whole scopes and searches. So these facts are still proven in
the end, and pass their audit, unless a step in a scope discharges assumptions. Scripts are followed
on the way to success only, since a script that fails has no facts to show.
-/
namespace Entailment

open Session

theorem Session.Proves.isProven {s : Session} {f : Fact} (h : s.Proves f) :
    s.isProven f.proposition = true := by
  have hmark : f.proposition.mark? = some f.id := by
    unfold Fact.proposition
    cases f.statement <;> rfl
  rw [Session.isProven, hmark]
  exact h.holds

namespace Script

/-- If the execution succeeds, its answer and what it leaves are as they should be. -/
def Achieves {α : Type} (a : Execution α) (p : Progress) (ok : α → Progress → Prop) : Prop :=
  ∀ x q, a p = .ok x q → ok x q

section Rules
variable {α β : Type} {p : Progress} {ok : α → Progress → Prop}

theorem Achieves.pure {x : α} (h : ok x p) : Achieves (Pure.pure x) p ok := by
  intro y q heq
  cases heq
  exact h

theorem Achieves.throw {e : Fault} : Achieves (MonadExcept.throw e) p ok := nofun

theorem Achieves.mono {a : Execution α} {ok' : α → Progress → Prop} (h : Achieves a p ok)
    (hok : ∀ x q, ok x q → ok' x q) : Achieves a p ok' := fun x q heq => hok x q (h x q heq)

theorem Achieves.bind {a : Execution β} {k : β → Execution α} {mid : β → Progress → Prop}
    (ha : Achieves a p mid) (hk : ∀ x q, mid x q → Achieves (k x) q ok) :
    Achieves (a >>= k) p ok := by
  intro y r heq
  change EStateM.bind a k p = .ok y r at heq
  unfold EStateM.bind at heq
  cases hrun : a p with
  | ok x q =>
      rw [hrun] at heq
      exact hk x q (ha x q hrun) y r heq
  | error e q =>
      rw [hrun] at heq
      cases heq

theorem Achieves.get_bind {k : Progress → Execution α} (h : Achieves (k p) p ok) :
    Achieves (MonadState.get >>= k) p ok := h

theorem Achieves.modify_bind {f : Progress → Progress} {k : PUnit → Execution α}
    (h : Achieves (k ⟨⟩) (f p) ok) : Achieves ((modify f : Execution PUnit) >>= k) p ok := h

/-- A handler that throws does not lead to success. -/
theorem Achieves.tryCatch {a : Execution α} {handle : Fault → Execution α} (ha : Achieves a p ok)
    (hh : ∀ e q, Achieves (handle e) q fun _ _ => False) :
    Achieves (MonadExcept.tryCatch a handle) p ok := by
  intro y r heq
  change EStateM.tryCatch a handle p = .ok y r at heq
  unfold EStateM.tryCatch at heq
  cases hrun : a p with
  | ok x q =>
      rw [hrun] at heq
      cases heq
      exact ha _ _ hrun
  | error e q =>
      rw [hrun] at heq
      exact (hh e _ y r heq).elim

/-- After something that only prepares, the rest goes on from a session with the same facts. -/
theorem Achieves.after {e : Execution β} {k : β → Execution α} {mid : β → Prop}
    (he : Prepares e mid)
    (hk : ∀ x q, mid x → q.available = p.available ∧ p.session.Aside q.session →
      Achieves (k x) q ok) : Achieves (e >>= k) p ok := by
  have hstart : Achieves e p fun x q =>
      mid x ∧ q.available = p.available ∧ p.session.Aside q.session := by
    intro x q hrun
    have hp := he p
    rw [hrun] at hp
    exact hp
  exact hstart.bind fun x q hx => hk x q hx.1 hx.2

theorem Achieves.inSession {action : Action α} {failed : Session → Prop}
    (h : Ensures action p.session (fun x t => ok x { p with session := t }) failed) :
    Achieves (Script.inSession action) p ok := by
  intro y q heq
  unfold Script.inSession at heq
  unfold Ensures at h
  cases hrun : action p.session with
  | ok x t =>
      rw [hrun] at heq h
      cases heq
      exact h
  | error e t =>
      rw [hrun] at heq
      cases heq

end Rules

section Handlers
variable {p : Progress} {rule : Rule} {a : Application} {facts : List Fact} {e : Execution Fact}

/-- The execution applies a rule, and what it answers counts as proven. -/
def Applies (rule : Rule) (a : Execution Fact) : Prop :=
  ∀ p, Achieves a p fun f q =>
    q.available = p.available ∧ Deduces (· = rule) p.session q.session ∧ q.session.Proves f

theorem Applies.inSession {action : Action Fact} (h : Enters rule action) :
    Applies rule (Script.inSession action) := by
  intro p
  apply Achieves.inSession
  exact (h.ensures p.session).mono (fun _ _ h => ⟨rfl, h⟩) fun _ h => h

/-- The facts derived so far are proven all along, so the answer is. -/
theorem Handles.applies (h : Handles rule a facts e) (hfacts : ∀ f ∈ facts, p.session.Proves f) :
    Achieves e p fun f q =>
      q.available = p.available ∧ Deduces (· = rule) p.session q.session ∧ q.session.Proves f := by
  induction h generalizing p with
  | refuse => exact .throw
  | answer hf => exact .pure ⟨rfl, .refl, hfacts _ hf⟩
  | prepare he _ ih =>
      refine .after he fun x q hx hq => ?_
      have hdeduces : Deduces (· = rule) p.session q.session := .aside .refl hq.2
      refine (ih x hx fun f hf => hdeduces.extends.proves (hfacts f hf)).mono fun f r hr => ?_
      exact ⟨hr.1.trans hq.1, hdeduces.trans hr.2.1, hr.2.2⟩
  | enter hserves _ ih =>
      refine (Applies.inSession hserves.enters p).bind fun f q hq => ?_
      refine (ih f (List.forall_mem_singleton.mpr hq.2.2)).mono fun g r hr => ?_
      exact ⟨hr.1.trans hq.1, hq.2.1.trans hr.2.1, hr.2.2⟩
  | @takeApart facts premise k hrule _ _ ih =>
      subst hrule
      have hsplit : Achieves (Script.inSession (split (some premise.proposition))) p
          fun parts q => q.available = p.available ∧
            Deduces (· = .conjunctionElim) p.session q.session ∧
              ∀ part ∈ parts, q.session.Proves part :=
        .inSession ((split_ensures _ _).mono (fun _ _ h => ⟨rfl, h⟩) fun _ h => h)
      refine hsplit.bind fun parts q hq => (ih parts hq.2.2).mono fun f r hr => ?_
      exact ⟨hr.1.trans hq.1, hq.2.1.trans hr.2.1, hr.2.2⟩

/-- Whatever rule a step applies, the result counts as proven, and nothing else was derived but by
that rule. -/
theorem ofRule?_applies {tactic : Tactic} (h : Tactic.ofRule? rule = some tactic)
    (a : Application) : Applies rule (tactic a) := fun _ =>
  (ofRule?_handles h a).applies nofun

end Handlers

section Steps
variable {p q r : Progress} {nested : Bool}

/-- No speculation is going on, and whatever holds passes its audit. -/
def Progress.Ready (p : Progress) : Prop := p.session.Auditable ∧ p.session.speculation = none

/-- What taking steps comes to: completed work, after which all new facts are proven. Inside a scope
no facts become available, and no assumptions are discharged. -/
structure Takes (nested : Bool) (p q : Progress) : Prop where
  advances : Advances p.session q.session
  available : ∀ f ∈ q.available, f ∈ p.available ∨ q.session.Proves f
  confined : nested = true → q.available = p.available ∧ Undischarged p.session q.session

theorem Takes.ready (h : Takes nested p q) : q.Ready := ⟨h.advances.auditable, h.advances.quiet⟩

theorem Takes.of_advances (hadvances : Advances p.session q.session)
    (havailable : q.available = p.available)
    (hfree : nested = true → Undischarged p.session q.session) : Takes nested p q :=
  ⟨hadvances, fun _ hf => .inl (havailable ▸ hf), fun hnested => ⟨havailable, hfree hnested⟩⟩

theorem Takes.trans (h : Takes nested p q) (h' : Takes nested q r) : Takes nested p r := by
  refine ⟨h.advances.trans h'.advances, fun f hf => ?_, fun hnested => ?_⟩
  · rcases h'.available f hf with hf | hf
    · rcases h.available f hf with hf | hf
      · exact .inl hf
      · exact .inr (h'.advances.proves f hf)
    · exact .inr hf
  · obtain ⟨havailable, hfree⟩ := h.confined hnested
    obtain ⟨havailable', hfree'⟩ := h'.confined hnested
    exact ⟨havailable'.trans havailable, hfree.trans h'.advances hfree'⟩

theorem Takes.of_deduces {rule : Rule} (h : p.Ready) (havailable : q.available = p.available)
    (hdeduces : Deduces (· = rule) p.session q.session)
    (hfree : nested = true → rule.discharges = false) : Takes nested p q := by
  refine .of_advances (hdeduces.advances h.1 h.2) havailable fun hnested => ?_
  exact hdeduces.undischarged fun r hr => hr ▸ hfree hnested

theorem Takes.of_aside (h : p.Ready) (havailable : q.available = p.available)
    (haside : p.session.Aside q.session) : Takes nested p q :=
  .of_deduces h havailable (.aside .refl haside : Deduces (· = .postulate) _ _) fun _ => rfl

theorem Takes.refl (h : p.Ready) : Takes nested p p := .of_aside h rfl (.refl _)

/-- A step may ask a session for anything that is neither a scope, a speculation nor a tactic. -/
theorem inSession_takes {α : Type} {action : Action α} {P : α → Session → Prop}
    {failed : Session → Prop} (nested : Bool) (call : Call) (h : p.Ready)
    (hcall : after action p.session = call.apply p.session)
    (hsteady : call.isSteady = true) (htactic : ∀ t, call ≠ .tactic t)
    (hP : Ensures action p.session P failed) :
    Achieves (Script.inSession action) p fun x q =>
      Takes nested p q ∧ P x q.session ∧ q.available = p.available := by
  have hafter : Ensures action p.session
      (fun _ t => Advances p.session t ∧ Undischarged p.session t)
      fun t => Advances p.session t ∧ Undischarged p.session t := by
    apply Ensures.of_after
    rw [hcall]
    exact ⟨.call h.1 h.2 hsteady, .call hsteady fun t ht => absurd ht (htactic t)⟩
  apply Achieves.inSession
  refine (hafter.and hP).mono ?_ fun _ h => h
  rintro x t ⟨⟨hadvances, hfree⟩, hx⟩
  exact ⟨.of_advances hadvances rfl fun _ => hfree, hx, rfl⟩

theorem register_takes {names : Names} {name : String} {f : Fact} (h : p.Ready)
    (hf : p.session.Proves f) :
    Achieves (register names name f) p fun names' q =>
      names'.scope = names.scope ∧ Takes names.scope.isSome p q := by
  have hname : (if name = "" then names
      else { names with facts := (name, f) :: names.facts }).scope = names.scope := by
    split <;> rfl
  unfold register
  dsimp only
  split
  next hnone =>
    refine .modify_bind (.pure ⟨hname, Advances.refl h.1 h.2, fun g hg => ?_, fun hsome => ?_⟩)
    · rcases List.mem_append.mp hg with hg | hg
      · exact .inl hg
      · rw [List.mem_singleton.mp hg]
        exact .inr hf
    · rw [Option.isSome_iff_ne_none] at hsome
      exact absurd (Option.isNone_iff_eq_none.mp hnone) hsome
  next => exact .pure ⟨hname, .refl h⟩

theorem concludeIn_takes {names : Names} {f : Fact} (h : p.Ready) :
    Achieves (concludeIn names f) p fun _ q => Takes nested p q := by
  unfold concludeIn
  split
  next c _ =>
    refine (inSession_takes nested (.conclude c (some f.proposition)) h rfl rfl nofun
      (Ensures.of_all _ _)).mono fun _ _ h => h.1
  next => exact .throw

theorem publish_takes {a : Attributes} {i : Nat} {names : Names} {results : List Fact}
    (h : p.Ready) (hresults : ∀ f ∈ results, p.session.Proves f) :
    Achieves (publish a i names results) p fun names' q =>
      names'.scope = names.scope ∧ Takes names.scope.isSome p q := by
  induction results generalizing i names p with
  | nil => exact .pure ⟨rfl, .refl h⟩
  | cons f results ih =>
      have hrest : ∀ q : Progress, Takes names.scope.isSome p q →
          Achieves (do
            let names ← register names (resultName a.name i) f
            publish a (i + 1) names results) q fun names' r =>
              names'.scope = names.scope ∧ Takes names.scope.isSome p r := by
        intro q hq
        have hproven := hq.advances.proves f (hresults f List.mem_cons_self)
        refine (register_takes hq.ready hproven).bind ?_
        rintro names' r ⟨hscope, hr⟩
        have hproven : ∀ g ∈ results, r.session.Proves g := fun g hg =>
          (hq.trans hr).advances.proves g (hresults g (List.mem_cons_of_mem _ hg))
        refine (ih hr.ready hproven).mono fun names'' t ht => ?_
        rw [hscope] at ht
        exact ⟨ht.1, (hq.trans hr).trans ht.2⟩
      rw [publish]
      split
      next => exact (concludeIn_takes h).bind fun _ q hq => hrest q hq
      next => exact hrest p (.refl h)

theorem results_takes {script : String} {a : Attributes} {names : Names} {results : List Fact}
    (h : p.Ready) (hresults : ∀ f ∈ results, p.session.Proves f) :
    Achieves (do
      checkExpectation script names a results
      publish a 0 names results) p fun names' q =>
        names'.scope = names.scope ∧ Takes names.scope.isSome p q := by
  refine .after (prepares_checkExpectation script names a results) fun _ q _ hprepared => ?_
  have hq : Takes names.scope.isSome p q := .of_aside h hprepared.1 hprepared.2
  refine (publish_takes hq.ready fun f hf => hq.advances.proves f (hresults f hf)).mono ?_
  rintro names' r ⟨hscope, hr⟩
  exact ⟨hscope, hq.trans hr⟩

/-- Whether a step applies a rule that discharges assumptions. -/
def Attributes.discharges (a : Attributes) : Bool := (Rule.ofName? a.rule).any Rule.discharges

theorem applyRule_takes {script : String} {names : Names} {a : Attributes} (h : p.Ready)
    (hfree : nested = true → a.discharges = false) :
    Achieves (applyRule script names a) p fun f q => Takes nested p q ∧ q.session.Proves f := by
  unfold applyRule
  split
  next => exact .throw
  next rule hrule =>
    split
    next => exact .throw
    next tactic htactic =>
      refine .after (prepares_premises names a.premises) fun fs q _ hq => ?_
      have hprepared : Takes nested p q := .of_aside h hq.1 hq.2
      refine (ofRule?_applies htactic _ q).mono fun f r hr => ⟨hprepared.trans ?_, hr.2.2⟩
      refine .of_deduces hprepared.ready hr.1 hr.2.1 fun hnested => ?_
      simpa [Attributes.discharges, hrule] using hfree hnested

mutual

/-- Whether a rule that discharges assumptions is applied inside a scope, where `nested` tells
whether the step itself stands in one. -/
def Step.dischargesInScope (nested : Bool) : Step → Bool
  | .mk a inner => (nested && a.discharges) || dischargeInScope true inner

def dischargeInScope (nested : Bool) : List Step → Bool
  | [] => false
  | s :: rest => s.dischargesInScope nested || dischargeInScope nested rest

end

/-- What is done in a scope of its own is completed work once the scope is finished. -/
theorem nest_takes {α : Type} {name : String} {body : ScopeId → Execution Names}
    {k : List Fact → Execution α} {ok : α → Progress → Prop} (h : p.Ready)
    (hbody : ∀ c q, q.Ready → Achieves (body c) q fun _ r => Takes true q r)
    (hk : ∀ fs q, Takes nested p q → (∀ f ∈ fs, q.session.Proves f) → Achieves (k fs) q ok) :
    Achieves (do
      let c ← Script.inSession (openScope name)
      try
        let _ ← body c
      catch fault =>
        Script.inSession (Session.discard c)
        throw fault
      k (← Script.inSession (finish c))) p ok := by
  have hopen : Achieves (Script.inSession (openScope name)) p fun c q =>
      c = ⟨p.session.scopes.size⟩ ∧ q = { p with session := p.session.opened name } := by
    intro c q heq
    cases heq
    exact ⟨rfl, rfl⟩
  refine hopen.bind ?_
  rintro c q ⟨rfl, rfl⟩
  have hcareful : Call.Careful p.session (.openScope name) :=
    Call.careful_of_not_retracts fun c hc => by rcases hc with ⟨hc, -⟩ | hc <;> cases hc
  have hready : Progress.Ready { p with session := p.session.opened name } :=
    ⟨h.1.call hcareful, h.2⟩
  have hinner : Achieves (do let _ ← body ⟨p.session.scopes.size⟩; Pure.pure ())
      { p with session := p.session.opened name }
      fun _ q => Takes true { p with session := p.session.opened name } q :=
    (hbody _ _ hready).bind fun _ _ hq => .pure hq
  refine (hinner.tryCatch fun e q => ?_).bind ?_
  · exact Achieves.bind (fun _ _ _ => trivial) fun _ _ (_ : True) => .throw
  rintro - q hq
  obtain ⟨havailable, hfree⟩ := hq.confined rfl
  have hstack : q.session.stack = ⟨p.session.scopes.size⟩ :: p.session.stack := hq.advances.stack
  obtain ⟨scope, hc⟩ := Innermost.of_stack hq.ready.1.accounted.nested hstack
  have hfinish : Achieves (Script.inSession (finish ⟨p.session.scopes.size⟩)) q fun fs r =>
      Takes nested p r ∧ ∀ f ∈ fs, r.session.Proves f := by
    apply Achieves.inSession
    refine (finish_ensures hc).mono ?_ fun _ h => h
    rintro fs t ⟨hproves, statements, results, hstatements, -, rfl⟩
    exact ⟨.of_advances (hq.advances.closed hfree hc hstatements) havailable
      fun _ => hfree.closed, hproves⟩
  exact hfinish.bind fun fs r hr => hk fs r hr.1 hr.2

mutual

/-- What taking a step leaves. -/
theorem Step.run_takes (script : String) (names : Names) (step : Step) {p : Progress}
    (hstep : step.dischargesInScope names.scope.isSome = false) (h : p.Ready) :
    Achieves (step.run script names) p fun names' q =>
      names'.scope = names.scope ∧ Takes names.scope.isSome p q := by
  obtain ⟨a, inner⟩ := step
  rw [Step.dischargesInScope, Bool.or_eq_false_iff] at hstep
  have hthen : ∀ {q : Progress} {results : List Fact}, Takes names.scope.isSome p q →
      (∀ f ∈ results, q.session.Proves f) → Achieves (do
        checkExpectation script names a results
        publish a 0 names results) q fun names' r =>
          names'.scope = names.scope ∧ Takes names.scope.isSome p r := fun hq hresults =>
    (results_takes hq.ready hresults).mono fun _ _ hr => ⟨hr.1, hq.trans hr.2⟩
  rw [Step.run]
  split
  next =>
    split
    next => exact .throw
    next c _ =>
      refine (inSession_takes names.scope.isSome (.letVariable c a.introduces) h rfl rfl nofun
        (Ensures.of_all _ _)).bind fun v q hq => ?_
      exact .pure ⟨rfl, hq.1⟩
  next =>
    refine .after (prepares_read _ _ _ _ _) fun statement q _ hq => ?_
    have hread : Takes names.scope.isSome p q := .of_aside h hq.1 hq.2
    refine (inSession_takes names.scope.isSome (.assume statement) hread.ready rfl rfl nofun
      (assume_proves statement _)).bind fun f r hr => ?_
    exact hthen (hread.trans hr.1) (by simpa using hr.2.1)
  next =>
    have hfree : names.scope.isSome = true → a.discharges = false := fun hnested => by
      simpa [hnested] using hstep.1
    refine (applyRule_takes h hfree).bind fun f q hq => ?_
    exact hthen hq.1 (by simpa using hq.2)
  next =>
    refine nest_takes h (fun c q hq => ?_) fun fs q => hthen
    exact (runSteps_takes script { names with scope := some c } inner hstep.2 hq).mono
      fun _ _ hr => hr.2
  next => exact .throw

theorem runSteps_takes (script : String) (names : Names) (steps : List Step) {p : Progress}
    (hsteps : dischargeInScope names.scope.isSome steps = false) (h : p.Ready) :
    Achieves (runSteps script names steps) p fun names' q =>
      names'.scope = names.scope ∧ Takes names.scope.isSome p q := by
  cases steps with
  | nil =>
      rw [runSteps]
      exact .pure ⟨rfl, .refl h⟩
  | cons step steps =>
      rw [dischargeInScope, Bool.or_eq_false_iff] at hsteps
      rw [runSteps]
      refine ((Step.run_takes script names step hsteps.1 h).tryCatch fun _ _ => .throw).bind ?_
      rintro names' q ⟨hscope, hq⟩
      refine (runSteps_takes script names' steps (hscope ▸ hsteps.2) hq.ready).mono ?_
      rintro names'' r ⟨hscope', hr⟩
      exact ⟨hscope'.trans hscope, hq.trans (hscope ▸ hr)⟩

end

end Steps

section Scripts
variable {p : Progress}

theorem postulateAll_takes {script : String} {number : Nat} {names : Names}
    {postulates : List Postulate} (hnames : names.scope = none) (h : p.Ready) :
    Achieves (postulateAll script number names postulates) p fun names' q =>
      names'.scope = none ∧ Takes false p q := by
  induction postulates generalizing number names p with
  | nil => exact .pure ⟨hnames, .refl h⟩
  | cons postulate postulates ih =>
      rw [postulateAll]
      refine .after (prepares_read _ _ _ _ _) fun statement q _ hq => ?_
      have hread : Takes false p q := .of_aside h hq.1 hq.2
      have hproves : Ensures (Session.postulate statement) q.session
          (fun f t => t.Proves f) fun _ => True := .certify (proves_nextFact _ _ _ _)
      refine (inSession_takes false (.postulate statement) hread.ready rfl rfl nofun
        hproves).bind ?_
      rintro f r ⟨hr, hf, -⟩
      refine (register_takes hr.ready hf).bind ?_
      rintro names' t ⟨hscope, ht⟩
      rw [hnames] at hscope ht
      refine (ih hscope ht.ready).mono fun names'' u hu => ⟨hu.1, ?_⟩
      exact ((hread.trans hr).trans ht).trans hu.2

theorem prove_takes {goal : Proposition} {refute : Bool} {depth : Nat} (h : p.Ready) :
    Achieves (prove goal refute depth) p fun _ q => Takes false p q := by
  unfold prove
  refine .get_bind ?_
  have hsearch : Achieves (Script.inSession (Search.run ⟨Search.Step.defaults, depth⟩
      (p.available.map Fact.proposition) goal)) p fun found q => q.available = p.available ∧
        Advances p.session q.session ∧ ∀ trace ∈ found, q.session.Proves trace.result :=
    .inSession ((search_ensures h.1 h.2 depth _ goal).mono (fun _ _ h => ⟨rfl, h⟩) fun _ h => h)
  refine hsearch.bind ?_
  rintro found q ⟨havailable, hadvances, hfound⟩
  have hq : Takes false p q := .of_advances hadvances havailable nofun
  split
  next => exact .pure hq
  next trace =>
    dsimp only
    split
    next => exact .get_bind (.pure hq)
    next =>
      refine .modify_bind (.get_bind (.pure ⟨hadvances, fun f hf => ?_, nofun⟩))
      rcases List.mem_append.mp hf with hf | hf
      · exact hq.available f hf
      · rw [List.mem_singleton.mp hf]
        exact .inr (hfound trace rfl)

theorem proveAll_takes {script : Script} {depth : Nat} {env : Environment} {number : Nat}
    {goals : List Goal} (h : p.Ready) :
    Achieves (script.proveAll depth env number goals) p fun _ q => Takes false p q := by
  induction goals generalizing number p with
  | nil => exact .pure (.refl h)
  | cons goal goals ih =>
      rw [Script.proveAll]
      refine .after (prepares_read _ _ _ _ _) fun target q _ hq => ?_
      have hread : Takes false p q := .of_aside h hq.1 hq.2
      refine (prove_takes hread.ready).bind fun report r hr => ?_
      refine (ih hr.ready).bind fun reports t ht => ?_
      exact .pure ((hread.trans hr).trans ht)

/-- Executing a script is completed work. -/
theorem execute_takes {script : Script} {depth : Nat}
    (hscript : dischargeInScope false script.steps = false) (h : p.Ready) :
    Achieves (script.execute depth) p fun _ q => Takes false p q := by
  unfold Script.execute
  refine .after (prepares_orderNamed _) fun order q _ hq => ?_
  refine .after (prepares_setOrder order) fun _ r _ hr => ?_
  refine .after (prepares_declareAll [] script.declares) fun env t _ ht => ?_
  have hdeclared : Takes false p t :=
    .of_aside h (ht.1.trans (hr.1.trans hq.1)) (hq.2.trans (hr.2.trans ht.2))
  refine (postulateAll_takes rfl hdeclared.ready).bind ?_
  rintro names u ⟨hscope, hu⟩
  have hsteps := runSteps_takes script.name names script.steps (by rw [hscope]; exact hscript)
    hu.ready
  rw [hscope] at hsteps
  refine hsteps.bind fun _ v hv => ?_
  refine (proveAll_takes hv.2.ready).mono fun _ w hw => ?_
  exact ((hdeclared.trans hu).trans hv.2).trans hw

/-- Whatever is available in the end passes its audit. -/
theorem audit_facts {script : Script} {depth : Nat} {outcome : Outcome}
    (hscript : dischargeInScope false script.steps = false)
    (hrun : script.run depth = .ok outcome) :
    ∀ f ∈ outcome.facts, outcome.session.audit f.proposition = .ok () := by
  have hready : Progress.Ready {} := ⟨.initial, rfl⟩
  unfold Script.run at hrun
  cases hexecute : script.execute depth {} with
  | error fault q =>
      rw [hexecute] at hrun
      cases hrun
  | ok reports q =>
      rw [hexecute] at hrun
      cases hrun
      have htakes := execute_takes hscript hready reports q hexecute
      intro f hf
      rcases htakes.available f hf with hempty | hproves
      · cases hempty
      · exact htakes.ready.1.audit_eq_ok hproves.isProven

end Scripts

end Script

section Results
open Script

/-- After every careful run, whatever counts as proven passes its audit; and so do all the facts of
a script that succeeds, unless it discharges assumptions inside of a scope. -/
theorem audit_accepts_proven (calls : List Call) (script : Script) (depth : Nat) :
    (CarefulRun {} calls → ∀ p, (run {} calls).isProven p = true →
      (run {} calls).audit p = .ok ()) ∧
    (dischargeInScope false script.steps = false → ∀ outcome : Outcome,
      script.run depth = .ok outcome →
        ∀ f ∈ outcome.facts, outcome.session.audit f.proposition = .ok ()) :=
  ⟨fun hcalls _ hp => (Auditable.initial.run calls hcalls).audit_eq_ok hp,
    fun hscript _ hrun => audit_facts hscript hrun⟩

/-- Derives `P → P ∨ Q` by discharging `P`, and then `R → P ∧ R` by closing a scope. -/
def dischargingFirst : List Call :=
  [.assume (.relation "P" []),
    .tactic (.disjoin (some (.relation "P" [] (some ⟨0⟩))) [some (.relation "Q" [])]),
    .tactic (.followedFrom (some (.junction .or [.relation "P" [], .relation "Q" []] (some ⟨1⟩)))
      [some (.relation "P" [] (some ⟨0⟩))]),
    .openScope "inner", .assumeIn ⟨0⟩ (.relation "R" []),
    .tactic (.conjoin [some (.relation "P" [] (some ⟨0⟩)), some (.relation "R" [] (some ⟨3⟩))]),
    .close ⟨0⟩]

/-- Discharges an assumption outside of scopes, closes a scope and searches for a goal. -/
def dischargingScript : Script where
  name := "discharging"
  postulates := [⟨"rule", "P → Q"⟩]
  steps := [
    .mk { name := "p", assumes := "P" } [],
    .mk { name := "q", rule := "modus_ponens", premises := ["p", "rule"] } [],
    .mk { name := "again", rule := "followed_from", premises := ["q", "p"] } [],
    .mk { name := "both" } [
      .mk { name := "r", assumes := "R" } [],
      .mk { name := "qr", rule := "conjunction_intro", premises := ["q", "r"] } []]]
  goals := [{ statement := "R → Q ∧ R" }]

theorem audit_accepts_proven_discharging :
    (run {} dischargingFirst).audit (.implies (.relation "P" [])
        (.junction .or [.relation "P" [], .relation "Q" []]) (some ⟨2⟩)) = .ok () ∧
      (run {} dischargingFirst).audit (.implies (.relation "R" [])
        (.junction .and [.relation "P" [], .relation "R" []]) (some ⟨5⟩)) = .ok () ∧
      ∃ outcome, dischargingScript.run 0 = .ok outcome ∧ outcome.facts.length = 5 ∧
        ∀ f ∈ outcome.facts, outcome.session.audit f.proposition = .ok () := by
  have hcareful : CarefulRun {} dischargingFirst := by
    have hsteady : ∀ (s : Session) (call : Call), (∀ c, ¬call.Retracts s c) → call.Careful s :=
      fun _ _ => Call.careful_of_not_retracts
    refine ⟨hsteady _ _ ?_, hsteady _ _ ?_, hsteady _ _ ?_, hsteady _ _ ?_, hsteady _ _ ?_,
      hsteady _ _ ?_, ⟨?_, ?_⟩, trivial⟩
    iterate 6 simp [Call.Retracts]
    · rintro c scope (⟨hclose, hhead⟩ | hdiscard) - -
      · exact (Nested.initial.run (dischargingFirst.take 6)).severable hhead rfl
      · cases hdiscard
    · rintro c scope (⟨hclose, hhead⟩ | hdiscard) hscope -
      · cases hclose
        cases hscope
        exact not_straddles_of_forall_lt (by decide)
      · cases hdiscard
  have haccepts := audit_accepts_proven dischargingFirst dischargingScript 0
  refine ⟨haccepts.1 hcareful _ (by decide), haccepts.1 hcareful _ (by decide), ?_⟩
  have hfacts : (dischargingScript.run 0).toOption.map (·.facts.length) = some 5 := by
    decide +kernel
  cases hrun : dischargingScript.run 0 with
  | error fault =>
      rw [hrun] at hfacts
      cases hfacts
  | ok outcome =>
      rw [hrun] at hfacts
      exact ⟨outcome, rfl, Option.some.inj hfacts,
        haccepts.2 (by decide) outcome hrun⟩

/-- Discharges `P` inside the scope that assumes it, which is then closed. -/
def dischargingInside : List Call :=
  [.openScope "inner", .assumeIn ⟨0⟩ (.relation "P" []),
    .tactic (.disjoin (some (.relation "P" [] (some ⟨0⟩))) [some (.relation "Q" [])]),
    .tactic (.followedFrom (some (.junction .or [.relation "P" [], .relation "Q" []] (some ⟨1⟩)))
      [some (.relation "P" [] (some ⟨0⟩))]),
    .close ⟨0⟩]

/-- Refutes the assumptions of a scope inside of it. -/
def refutingInside : List Call :=
  [.openScope "inner", .assumeIn ⟨0⟩ (.relation "P" []),
    .assumeIn ⟨0⟩ (.not (.relation "P" [])),
    .tactic (.contradicts (some (.relation "P" [] (some ⟨0⟩)))
      (some (.not (.relation "P" []) (some ⟨1⟩)))),
    .tactic (.thusAssumptionsCannotAllHold (some (.contradiction (some ⟨2⟩)))),
    .discard ⟨0⟩]

/-- Discharges an assumption in a scope. The membership derived from the result is found again when
something outside is instantiated. -/
def leakingScript : Script where
  name := "leaking"
  declares := ["x"]
  postulates := [⟨"all", "∀y∈A. R(y)"⟩, ⟨"p", "P"⟩, ⟨"member", "P → x ∈ A"⟩]
  steps := [
    .mk { name := "inner" } [
      .mk { name := "again", assumes := "P" } [],
      .mk { name := "m", rule := "modus_ponens", premises := ["again", "member"] } [],
      .mk { name := "i", rule := "followed_from", premises := ["m", "again"] } [],
      .mk { name := "n", rule := "modus_ponens", premises := ["p", "i"] } []],
    .mk { name := "r", rule := "in_particular", premises := ["all"], term := "x" } []]

/-- What is proven by discharging assumptions in a scope fails its audit once the scope is gone, and
may be what a script made available. -/
theorem audit_rejects_proven :
    ((run {} dischargingInside).isProven (.implies (.relation "P" [])
        (.junction .or [.relation "P" [], .relation "Q" []]) (some ⟨2⟩)) = true ∧
      (run {} dischargingInside).audit (.implies (.relation "P" [])
        (.junction .or [.relation "P" [], .relation "Q" []]) (some ⟨2⟩)) =
          .error (.notProven (.junction .or [.relation "P" [], .relation "Q" []]))) ∧
    ((run {} refutingInside).isProven (.junction .or [.not (.relation "P" []),
        .not (.not (.relation "P" []))] (some ⟨3⟩)) = true ∧
      (run {} refutingInside).audit (.junction .or [.not (.relation "P" []),
        .not (.not (.relation "P" []))] (some ⟨3⟩)) = .error (.notProven .contradiction)) ∧
    ∃ outcome, leakingScript.run 0 = .ok outcome ∧
      ∃ f ∈ outcome.facts, outcome.session.audit f.proposition ≠ .ok () := by
  refine ⟨⟨by decide, rfl⟩, ⟨by decide, rfl⟩, ?_⟩
  have hfails : (leakingScript.run 0).toOption.any (fun outcome =>
      outcome.facts.any fun f => !(outcome.session.audit f.proposition).isOk) = true := by
    decide +kernel
  cases hrun : leakingScript.run 0 with
  | error fault =>
      rw [hrun] at hfails
      cases hfails
  | ok outcome =>
      rw [hrun] at hfails
      obtain ⟨f, hf, haudit⟩ := List.any_eq_true.mp hfails
      refine ⟨outcome, rfl, f, hf, fun hok => ?_⟩
      rw [hok] at haudit
      cases haudit

end Results

end Entailment
