import Entailment.Proofs.AuditedScripts

/-!
# Names for facts that are live

While a script runs, whatever has a name at the current point is proven, and everything it depends
on is still assumed. A scope takes the names around it along, and the names made inside are gone
once it is closed, which is when some of what they stood for is withdrawn. So rules that are applied
to named facts never fail because a premise is not proven. Since this is about steps that fail, both
ways out of an execution are followed.
-/
namespace Entailment

open Session

/-- The fact is proven, and everything it depends on is currently assumed. -/
def Session.Live (s : Session) (f : Fact) : Prop :=
  s.Proves f ∧ ∀ a ∈ s.dependencies f.id, s.isAssumed a = true

theorem Session.Coherent.live {s : Session} {f : Fact} (h : s.Coherent) (hf : s.Proves f) :
    s.Live f :=
  ⟨hf, (stands_of_holds h.accounted hf.holds).isAssumed⟩

namespace Session

section Scopes
variable {α β : Type} {s : Session} {ok : α → Session → Prop}

theorem Coherent.opened (h : s.Coherent) (name : String) : (s.opened name).Coherent :=
  ⟨h.traced.opened name, h.accounted.opened name, h.quiet⟩

theorem Blameless.tryCatch {a : Action α} {handle : Failure → Action α} (ha : Blameless a s ok)
    (hh : ∀ e t, e.blamesPremise = false → Blameless (handle e) t ok) :
    Blameless (MonadExcept.tryCatch a handle) s ok := by
  change Blameless (EStateM.tryCatch a handle) s ok
  unfold Blameless EStateM.tryCatch
  unfold Blameless at ha
  cases hrun : a s with
  | ok x t =>
      simp only [hrun] at ha
      exact ha
  | error e t =>
      simp only [hrun] at ha
      exact hh e t ha

/-- A loop never blames a premise if none of its rounds does. -/
theorem Blameless.loop {f : β → Action α} (h : ∀ x t, Blameless (f x) t fun _ _ => True)
    (xs : List β) (s : Session) : Blameless (xs.mapM f) s fun _ _ => True := by
  induction xs generalizing s with
  | nil => exact .pure trivial
  | cons x xs ih =>
      rw [List.mapM_cons]
      apply (h x s).bind
      intro y t _
      apply (ih t).bind
      intro ys u _
      exact .pure trivial

theorem requireInnermost_blameless (c : ScopeId) :
    Blameless (requireInnermost c) s fun _ _ => True :=
  .get_bind (.guard rfl fun _ => .get_bind (.guard rfl fun _ => .pure trivial))

theorem letVariable_blameless (c : ScopeId) (name : String) :
    Blameless (letVariable c name) s fun _ _ => True := by
  have hintroduce : ∀ v t, Blameless (introduce c v) t fun _ _ => True := by
    intro v t
    apply (requireInnermost_blameless c).bind
    intro scope u _
    refine .get_bind (.guard rfl fun _ => ?_)
    split
    next => exact .throw rfl
    next => exact trivial
  have hnew : Blameless (newVariable name) s fun _ _ => True := trivial
  apply hnew.bind
  intro v t _
  exact (hintroduce v t).bind fun _ _ _ => .pure trivial

theorem assumeIn_blameless (c : ScopeId) (p : Proposition) :
    Blameless (assumeIn c p) s fun _ _ => True := by
  have hrest : ∀ t, Blameless (do let fact ← suppose p; note c (.assumed fact); Pure.pure fact) t
      fun _ _ => True := fun t => trivial
  apply (requireInnermost_blameless c).bind
  intro scope t _
  apply Blameless.get_bind
  cases p.freeVariables.find? t.isRetired with
  | some v => exact .throw rfl
  | none =>
      cases scope.memberOf? p with
      | none => exact hrest t
      | some v => exact .guard rfl fun _ => hrest t

theorem assume_blameless (p : Proposition) : Blameless (assume p) s fun _ _ => True := by
  apply Blameless.get_bind
  split
  next top _ _ => exact assumeIn_blameless top p
  next => exact trivial

theorem conclude_blameless (c : ScopeId) {p : Option Proposition} (hp : s.Backs p) :
    Blameless (conclude c p) s fun _ _ => True := by
  have hinnermost : Blameless (requireInnermost c) s fun _ t => t = s :=
    .get_bind (.guard rfl fun _ => .get_bind (.guard rfl fun _ => .pure rfl))
  apply hinnermost.bind
  intro scope t ht
  rw [ht]
  exact .require_bind hp fun f _ => trivial

theorem close_blameless (c : ScopeId) : Blameless (close c) s fun _ _ => True := by
  apply Blameless.get_bind
  split
  next => exact .pure trivial
  next =>
    refine .get_bind (.guard rfl fun _ => ?_)
    refine (Blameless.loop (fun target t => ?_) _ s).bind fun statements t _ => ?_
    · split
      next => exact .pure trivial
      next => exact .throw rfl
    · apply Blameless.modify_bind
      refine (Blameless.loop (fun x u => ?_) statements _).bind fun results u _ => trivial
      exact .get_bind (.certify trivial)

theorem discard_blameless (c : ScopeId) : Blameless (discard c) s fun _ _ => True := by
  apply Blameless.get_bind
  split
  next => exact .pure trivial
  next => exact trivial

theorem finish_blameless (c : ScopeId) : Blameless (finish c) s fun _ _ => True := by
  unfold finish
  refine ((close_blameless c).tryCatch fun e t he => ?_).bind fun _ t _ => ?_
  · exact (discard_blameless c).bind fun _ _ _ => .throw he
  · apply Blameless.get_bind
    split
    next => exact .pure trivial
    next => exact .throw rfl

end Scopes

end Session

namespace Script

/-- Whether a fault is, in the innermost step, about a premise that is not proven. -/
def Fault.blamesPremise : Fault → Bool
  | .failed failure => failure.blamesPremise
  | .inStep _ cause => cause.blamesPremise
  | _ => false

@[simp] theorem Fault.blamesPremise_ofFailure (failure : Failure) :
    (ofFailure failure).blamesPremise = failure.blamesPremise := by
  cases failure <;> rfl

@[simp] theorem Fault.blamesPremise_within (label : String) (fault : Fault) :
    (fault.within label).blamesPremise = fault.blamesPremise := by
  cases fault <;> rfl

theorem Fault.blamesPremise_of_isOwn {fault : Fault} (h : fault.isOwn = true) :
    fault.blamesPremise = false := by
  cases fault <;> first | rfl | cases h

/-- The execution answers as required, or fails for another reason than a premise that is not
proven. -/
def Acquits {α : Type} (a : Execution α) (p : Progress) (ok : α → Progress → Prop) : Prop :=
  match a p with
  | .ok x q => ok x q
  | .error fault _ => fault.blamesPremise = false

section Rules
variable {α β : Type} {p : Progress} {ok : α → Progress → Prop}

theorem Acquits.pure {x : α} (h : ok x p) : Acquits (Pure.pure x) p ok := h

theorem Acquits.throw {fault : Fault} (h : fault.blamesPremise = false) :
    Acquits (MonadExcept.throw fault : Execution α) p ok := h

theorem Acquits.achieves {a : Execution α} (h : Acquits a p ok) : Achieves a p ok := by
  intro x q hrun
  unfold Acquits at h
  rw [hrun] at h
  exact h

theorem Acquits.of_achieves {a : Execution α} {mid : α → Progress → Prop} (h : Acquits a p mid)
    (hok : Achieves a p ok) : Acquits a p ok := by
  unfold Acquits at h ⊢
  cases hrun : a p with
  | ok x q => exact hok x q hrun
  | error fault q =>
      rw [hrun] at h
      exact h

theorem Acquits.mono {a : Execution α} {ok' : α → Progress → Prop} (h : Acquits a p ok)
    (hok : ∀ x q, ok x q → ok' x q) : Acquits a p ok' :=
  h.of_achieves (h.achieves.mono hok)

theorem Acquits.bind {a : Execution β} {k : β → Execution α} {mid : β → Progress → Prop}
    (ha : Acquits a p mid) (hk : ∀ x q, mid x q → Acquits (k x) q ok) :
    Acquits (a >>= k) p ok := by
  change Acquits (EStateM.bind a k) p ok
  unfold Acquits EStateM.bind
  unfold Acquits at ha
  cases hrun : a p with
  | ok x q =>
      simp only [hrun] at ha
      exact hk x q ha
  | error fault q => simpa only [hrun] using ha

theorem Acquits.modify_bind {f : Progress → Progress} {k : PUnit → Execution α}
    (h : Acquits (k ⟨⟩) (f p) ok) : Acquits ((modify f : Execution PUnit) >>= k) p ok := h

theorem Acquits.tryCatch {a : Execution α} {handle : Fault → Execution α} (ha : Acquits a p ok)
    (hh : ∀ fault q, fault.blamesPremise = false → Acquits (handle fault) q fun _ _ => False) :
    Acquits (MonadExcept.tryCatch a handle) p ok := by
  change Acquits (EStateM.tryCatch a handle) p ok
  unfold Acquits EStateM.tryCatch
  unfold Acquits at ha
  cases hrun : a p with
  | ok x q =>
      simp only [hrun] at ha
      exact ha
  | error fault q =>
      simp only [hrun] at ha
      have hhandle := hh fault (EStateM.Backtrackable.restore q (EStateM.Backtrackable.save p)) ha
      exact hhandle.mono fun _ _ hnot => hnot.elim

theorem Acquits.blameless {action : Action α} {mid : α → Session → Prop}
    (h : Blameless action p.session mid) :
    Acquits (Script.inSession action) p fun _ _ => True := by
  unfold Acquits Script.inSession
  unfold Blameless at h
  cases hrun : action p.session with
  | ok x t => trivial
  | error failure t =>
      rw [hrun] at h
      exact (Fault.blamesPremise_ofFailure failure).trans h

theorem Acquits.inSession {action : Action α} {mid : α → Session → Prop}
    {failed : Session → Prop} (hblame : Blameless action p.session mid)
    (h : Ensures action p.session (fun x t => ok x { p with session := t }) failed) :
    Acquits (Script.inSession action) p ok :=
  (Acquits.blameless hblame).of_achieves (.inSession h)

/-- After something that only prepares, the rest goes on from a session with the same facts. -/
theorem Acquits.after {e : Execution β} {k : β → Execution α} {mid : β → Prop}
    (he : Prepares e mid)
    (hk : ∀ x q, mid x → q.available = p.available ∧ p.session.Aside q.session →
      Acquits (k x) q ok) : Acquits (e >>= k) p ok := by
  have hstart : Acquits e p fun x q =>
      mid x ∧ q.available = p.available ∧ p.session.Aside q.session := by
    have hp := he p
    unfold Acquits
    cases hrun : e p with
    | ok x q =>
        rw [hrun] at hp
        exact hp
    | error fault q =>
        rw [hrun] at hp
        exact Fault.blamesPremise_of_isOwn hp
  exact hstart.bind fun x q hx => hk x q hx.1 hx.2

end Rules

section Tactics
variable {p : Progress} {rule : Rule} {a : Application} {facts : List Fact} {e : Execution Fact}

/-- The premises stay proven all along, so no deduction blames them. -/
theorem Handles.acquits (h : Handles rule a facts e) (hfounded : a.Founded p.session) :
    Acquits e p fun _ _ => True := by
  induction h generalizing p with
  | refuse hfault => exact .throw (Fault.blamesPremise_of_isOwn hfault)
  | answer _ => exact .pure trivial
  | prepare he _ ih => exact .after he fun x q hx hq => ih x hx (hfounded.aside hq.2)
  | @enter facts action k hserves _ ih =>
      have hentered : Acquits (Script.inSession action) p fun _ q => a.Founded q.session := by
        apply Acquits.inSession (hserves.blameless _ hfounded)
        refine (hserves.enters.ensures p.session).mono (fun _ _ ht => ?_) fun _ ht => ht
        exact fun f hf => ht.1.extends.proves (hfounded f hf)
      exact hentered.bind fun f q hq => ih f hq
  | @takeApart facts premise k _ hmem _ ih =>
      have hsplit : Acquits (Script.inSession (split (some premise.proposition))) p
          fun _ q => a.Founded q.session := by
        apply Acquits.inSession (split_blameless (backs_proposition (hfounded premise hmem)))
        refine (split_ensures _ p.session).mono (fun _ _ ht => ?_) fun _ ht => ht
        exact fun f hf => ht.1.extends.proves (hfounded f hf)
      exact hsplit.bind fun parts q hq => ih parts hq

/-- A rule that is applied to proven premises does not fail for want of a proven premise. -/
theorem ofRule?_acquits {tactic : Tactic} (htactic : Tactic.ofRule? rule = some tactic)
    (h : a.Founded p.session) : Acquits (tactic a) p fun _ _ => True :=
  (ofRule?_handles htactic a).acquits h

end Tactics

section Steps
variable {p q r : Progress} {nested : Bool} {names names' names'' : Names}

/-- Everything that has a name is proven. -/
def Names.Hold (names : Names) (s : Session) : Prop := ∀ x ∈ names.facts, s.Proves x.2

theorem Names.Hold.proceeds {s t : Session} (h : names.Hold s) (ht : Proceeds s t) : names.Hold t :=
  fun x hx => ht.proves x.2 (h x hx)

/-- What moving on in a script comes to: completed work, after which all new facts are proven.
Inside a scope no facts become available. -/
structure Moves (nested : Bool) (p q : Progress) : Prop where
  proceeds : Proceeds p.session q.session
  available : ∀ f ∈ q.available, f ∈ p.available ∨ q.session.Proves f
  confined : nested = true → q.available = p.available

/-- From one point of a script, with what names mean there, to another one in the same scope. -/
structure Leads (names : Names) (p : Progress) (names' : Names) (q : Progress) : Prop where
  scope : names'.scope = names.scope
  moves : Moves names.scope.isSome p q
  hold : names'.Hold q.session

theorem Moves.coherent (h : Moves nested p q) : q.session.Coherent := h.proceeds.coherent

theorem Moves.of_proceeds (h : Proceeds p.session q.session)
    (havailable : q.available = p.available) : Moves nested p q :=
  ⟨h, fun _ hf => .inl (havailable ▸ hf), fun _ => havailable⟩

theorem Moves.refl (h : p.session.Coherent) : Moves nested p p := .of_proceeds (.refl h) rfl

theorem Moves.of_aside (h : p.session.Coherent) (havailable : q.available = p.available)
    (haside : p.session.Aside q.session) : Moves nested p q := by
  have hextends : Extends (fun _ => False) p.session q.session := Extends.refl.ofAside haside
  exact .of_proceeds (hextends.proceeds h) havailable

theorem Moves.trans (h : Moves nested p q) (h' : Moves nested q r) : Moves nested p r := by
  constructor
  · exact h.proceeds.trans h'.proceeds
  · intro f hf
    cases h'.available f hf with
    | inr hnew => exact .inr hnew
    | inl hold =>
        cases h.available f hold with
        | inl holder => exact .inl holder
        | inr hnew => exact .inr (h'.proceeds.proves f hnew)
  · intro hnested
    rw [h'.confined hnested, h.confined hnested]

theorem Leads.refl (h : p.session.Coherent) (hnames : names.Hold p.session) :
    Leads names p names p := ⟨rfl, .refl h, hnames⟩

theorem Leads.trans (h : Leads names p names' q) (h' : Leads names' q names'' r) :
    Leads names p names'' r := by
  have hmoves := h'.moves
  rw [h.scope] at hmoves
  exact ⟨h'.scope.trans h.scope, h.moves.trans hmoves, h'.hold⟩

theorem Moves.leads (h : Moves names.scope.isSome p q) (hnames : names.Hold p.session) :
    Leads names p names q := ⟨rfl, h, hnames.proceeds h.proceeds⟩

/-- A step may ask a session for anything that is neither a scope nor a speculation. -/
theorem inSession_moves {α : Type} {action : Action α} {P : α → Session → Prop}
    {mid : α → Session → Prop} {failed : Session → Prop} (nested : Bool) (call : Call)
    (h : p.session.Coherent)
    (hcall : after action p.session = call.apply p.session) (hsteady : call.isSteady = true)
    (hblame : Blameless action p.session mid) (hP : Ensures action p.session P failed) :
    Acquits (Script.inSession action) p fun x q => Moves nested p q ∧ P x q.session := by
  have hafter : Ensures action p.session (fun _ t => Proceeds p.session t)
      fun t => Proceeds p.session t := by
    apply Ensures.of_after
    rw [hcall]
    exact .call h hsteady
  apply Acquits.inSession hblame
  refine (hafter.and hP).mono (fun x t ht => ?_) fun _ ht => ht
  exact ⟨.of_proceeds ht.1 rfl, ht.2⟩

theorem register_leads {name : String} {f : Fact} (h : p.session.Coherent)
    (hnames : names.Hold p.session) (hf : p.session.Proves f) :
    Acquits (register names name f) p fun names' q => Leads names p names' q := by
  have hscope : (if name = "" then names
      else { names with facts := (name, f) :: names.facts }).scope = names.scope := by
    split <;> rfl
  have hhold : Names.Hold (if name = "" then names
      else { names with facts := (name, f) :: names.facts }) p.session := by
    split
    next => exact hnames
    next => exact List.forall_mem_cons.mpr ⟨hf, hnames⟩
  unfold register
  dsimp only
  split
  next hnone =>
    refine .modify_bind (.pure ⟨hscope, ⟨.refl h, fun g hg => ?_, fun hsome => ?_⟩, hhold⟩)
    · cases List.mem_append.mp hg with
      | inl hold => exact .inl hold
      | inr hnew =>
          rw [List.mem_singleton.mp hnew]
          exact .inr hf
    · rw [Option.isNone_iff_eq_none.mp hnone] at hsome
      cases hsome
  next => exact .pure ⟨hscope, .refl h, hhold⟩

theorem concludeIn_moves {f : Fact} (h : p.session.Coherent) (hf : p.session.Proves f) :
    Acquits (concludeIn names f) p fun _ q => Moves nested p q := by
  unfold concludeIn
  split
  next c _ =>
    have hblame := conclude_blameless c (backs_proposition hf)
    exact (inSession_moves nested (.conclude c (some f.proposition)) h rfl rfl hblame
      (Ensures.of_all _ _)).mono fun _ _ hq => hq.1
  next => exact .throw rfl

theorem publish_leads {a : Attributes} {i : Nat} {results : List Fact} (h : p.session.Coherent)
    (hnames : names.Hold p.session) (hresults : ∀ f ∈ results, p.session.Proves f) :
    Acquits (publish a i names results) p fun names' q => Leads names p names' q := by
  induction results generalizing i names p with
  | nil => exact .pure (.refl h hnames)
  | cons f results ih =>
      have hall := List.forall_mem_cons.mp hresults
      have hrest : ∀ q : Progress, Moves names.scope.isSome p q →
          Acquits (do
            let names ← register names (resultName a.name i) f
            publish a (i + 1) names results) q fun names' r => Leads names p names' r := by
        intro q hq
        have hlead := hq.leads hnames
        apply (register_leads hq.coherent hlead.hold (hq.proceeds.proves f hall.1)).bind
        intro names' r hr
        have hproven : ∀ g ∈ results, r.session.Proves g := fun g hg =>
          (hlead.trans hr).moves.proceeds.proves g (hall.2 g hg)
        exact (ih hr.moves.coherent hr.hold hproven).mono fun _ _ ht =>
          (hlead.trans hr).trans ht
      rw [publish]
      split
      next => exact (concludeIn_moves h hall.1).bind fun _ q hq => hrest q hq
      next => exact hrest p (.refl h)

theorem results_lead {script : String} {a : Attributes} {results : List Fact}
    (h : p.session.Coherent) (hnames : names.Hold p.session)
    (hresults : ∀ f ∈ results, p.session.Proves f) :
    Acquits (do
      checkExpectation script names a results
      publish a 0 names results) p fun names' q => Leads names p names' q := by
  refine .after (prepares_checkExpectation script names a results) fun _ q _ hprepared => ?_
  have hq : Moves names.scope.isSome p q := .of_aside h hprepared.1 hprepared.2
  have hlead := hq.leads hnames
  have hproven : ∀ f ∈ results, q.session.Proves f := fun f hf =>
    hq.proceeds.proves f (hresults f hf)
  exact (publish_leads hq.coherent hlead.hold hproven).mono fun _ _ hr => hlead.trans hr

theorem Names.Hold.lookup {s : Session} {label : String} {f : Fact} (h : names.Hold s)
    (hf : names.facts.lookup label = some f) : s.Proves f := by
  obtain ⟨before, rest, hfacts, -⟩ := List.lookup_eq_some_iff.mp hf
  exact h (label, f) (by simp [hfacts])

theorem applyRule_moves {script : String} {a : Attributes} (h : p.session.Coherent)
    (hnames : names.Hold p.session) :
    Acquits (applyRule script names a) p fun f q => Moves nested p q ∧ q.session.Proves f := by
  unfold applyRule
  split
  next => exact .throw rfl
  next rule _ =>
    split
    next => exact .throw rfl
    next tactic htactic =>
      refine .after (prepares_premises names a.premises) fun fs q hfs hq => ?_
      have hprepared : Moves nested p q := .of_aside h hq.1 hq.2
      refine (ofRule?_acquits htactic fun f hf => ?_).of_achieves ?_
      · obtain ⟨label, -, hlookup⟩ := hfs f hf
        exact hprepared.proceeds.proves f (hnames.lookup hlookup)
      refine (ofRule?_applies htactic _ q).mono fun f r hr => ⟨hprepared.trans ?_, hr.2.2⟩
      exact .of_proceeds (hr.2.1.extends.proceeds hprepared.coherent) hr.1

/-- What is done in a scope of its own is completed work once the scope is finished, whatever was
done there. -/
theorem nest_moves {name : String} {body : ScopeId → Execution Names}
    {k : List Fact → Execution Names} {ok : Names → Progress → Prop}
    (hbody : Acquits (body ⟨p.session.scopes.size⟩) { p with session := p.session.opened name }
      fun _ q => Moves true { p with session := p.session.opened name } q)
    (hk : ∀ fs q, Moves nested p q → (∀ f ∈ fs, q.session.Proves f) → Acquits (k fs) q ok) :
    Acquits (do
      let c ← Script.inSession (openScope name)
      try
        let _ ← body c
      catch fault =>
        Script.inSession (Session.discard c)
        throw fault
      k (← Script.inSession (finish c))) p ok := by
  have hopen : Acquits (Script.inSession (openScope name)) p fun c q =>
      c = ⟨p.session.scopes.size⟩ ∧ q = { p with session := p.session.opened name } := ⟨rfl, rfl⟩
  apply hopen.bind
  intro c q hq
  rw [hq.1, hq.2]
  have hinner : Acquits (do let _ ← body ⟨p.session.scopes.size⟩; Pure.pure ())
      { p with session := p.session.opened name }
      fun _ q => Moves true { p with session := p.session.opened name } q :=
    hbody.bind fun _ _ hr => .pure hr
  refine (hinner.tryCatch fun fault r hfault => ?_).bind fun _ r hr => ?_
  · exact (Acquits.blameless (discard_blameless _)).bind fun _ _ _ => .throw hfault
  have hstack : r.session.stack = ⟨p.session.scopes.size⟩ :: p.session.stack := hr.proceeds.stack
  obtain ⟨scope, hc⟩ := Innermost.of_stack hr.coherent.accounted.nested hstack
  have hfinish : Acquits (Script.inSession (finish ⟨p.session.scopes.size⟩)) r fun fs t =>
      Moves nested p t ∧ ∀ f ∈ fs, t.session.Proves f := by
    apply Acquits.inSession (finish_blameless _)
    refine (finish_ensures hc).mono (fun fs t ht => ?_) fun _ ht => ht
    obtain ⟨hproves, statements, results, hstatements, -, rfl⟩ := ht
    exact ⟨.of_proceeds (hr.proceeds.closed hc hstatements) (hr.confined rfl), hproves⟩
  exact hfinish.bind fun fs t ht => hk fs t ht.1 ht.2

mutual

/-- Taking a step leads from names for proven facts to such names, and never fails for want of a
proven premise. -/
theorem Step.run_leads (script : String) (names : Names) (step : Step) {p : Progress}
    (h : p.session.Coherent) (hnames : names.Hold p.session) :
    Acquits (step.run script names) p fun names' q => Leads names p names' q := by
  cases step with
  | mk a inner =>
  have hthen : ∀ {q : Progress} {results : List Fact}, Moves names.scope.isSome p q →
      (∀ f ∈ results, q.session.Proves f) → Acquits (do
        checkExpectation script names a results
        publish a 0 names results) q fun names' r => Leads names p names' r := fun hq hresults =>
    (results_lead hq.coherent (hq.leads hnames).hold hresults).mono fun _ _ hr =>
      (hq.leads hnames).trans hr
  rw [Step.run]
  split
  next =>
    split
    next => exact .throw rfl
    next c _ =>
      apply (inSession_moves names.scope.isSome (.letVariable c a.introduces) h rfl rfl
        (letVariable_blameless c a.introduces) (Ensures.of_all _ _)).bind
      intro v q hq
      exact .pure ⟨rfl, hq.1, (hq.1.leads hnames).hold⟩
  next =>
    refine .after (prepares_read _ _ _ _ _) fun statement q _ hq => ?_
    have hread : Moves names.scope.isSome p q := .of_aside h hq.1 hq.2
    apply (inSession_moves names.scope.isSome (.assume statement) hread.coherent rfl rfl
      (assume_blameless statement) (assume_proves statement _)).bind
    intro f r hr
    exact hthen (hread.trans hr.1) (List.forall_mem_singleton.mpr hr.2)
  next =>
    apply (applyRule_moves h hnames).bind
    intro f q hq
    exact hthen hq.1 (List.forall_mem_singleton.mpr hq.2)
  next =>
    apply nest_moves
    · have hinner := fun name =>
        @runSteps_leads script { names with scope := some ⟨p.session.scopes.size⟩ } inner
          { p with session := p.session.opened name } (h.opened name) hnames
      exact (hinner _).mono fun _ _ hr => hr.moves
    · exact fun fs q => hthen
  next => exact .throw rfl

theorem runSteps_leads (script : String) (names : Names) (steps : List Step) {p : Progress}
    (h : p.session.Coherent) (hnames : names.Hold p.session) :
    Acquits (runSteps script names steps) p fun names' q => Leads names p names' q := by
  cases steps with
  | nil =>
      rw [runSteps]
      exact .pure (.refl h hnames)
  | cons step steps =>
      rw [runSteps]
      refine ((Step.run_leads script names step h hnames).tryCatch fun fault q hfault => ?_).bind
        fun names' q hq => ?_
      · exact .throw ((Fault.blamesPremise_within step.label fault).trans hfault)
      · exact (runSteps_leads script names' steps hq.moves.coherent hq.hold).mono
          fun _ _ hr => hq.trans hr

end

end Steps

section Points
variable {script : String} {names names' : Names} {p q : Progress} {steps : List Step} {step : Step}

/-- While steps are taken, from the given names and progress on, `step` is about to be taken with
the names and the progress at that point. -/
inductive Visits (script : String) (step : Step) (names' : Names) (q : Progress) :
    Names → Progress → List Step → Prop
  | here (rest : List Step) : Visits script step names' q names' q (step :: rest)
  | later {names names'' : Names} {p r : Progress} {first : Step} {rest : List Step} :
      first.run script names p = .ok names'' r → Visits script step names' q names'' r rest →
        Visits script step names' q names p (first :: rest)
  | inside {names : Names} {p r : Progress} {a : Attributes} {inner : List Step} {c : ScopeId}
      (rest : List Step) :
      (Step.mk a inner).forms = [.nest] →
        inSession (openScope (if a.name = "" then "context" else a.name)) p = .ok c r →
        Visits script step names' q { names with scope := some c } r inner →
          Visits script step names' q names p (.mk a inner :: rest)

theorem Visits.hold (hvisits : Visits script step names' q names p steps)
    (h : p.session.Coherent) (hnames : names.Hold p.session) :
    q.session.Coherent ∧ names'.Hold q.session := by
  induction hvisits with
  | here => exact ⟨h, hnames⟩
  | @later names names'' p r first rest hrun _ ih =>
      have hlead := (Step.run_leads script names first h hnames).achieves _ _ hrun
      exact ih hlead.moves.coherent hlead.hold
  | inside _ _ hopen _ ih =>
      cases hopen
      exact ih (h.opened _) hnames

theorem postulateAll_leads {number : Nat} {postulates : List Postulate} (h : p.session.Coherent)
    (hnames : names.Hold p.session) :
    Achieves (postulateAll script number names postulates) p fun names' q =>
      Leads names p names' q := by
  induction postulates generalizing number names p with
  | nil => exact .pure (.refl h hnames)
  | cons postulate postulates ih =>
      rw [postulateAll]
      refine .after (prepares_read _ _ _ _ _) fun statement q _ hq => ?_
      have hread : Moves names.scope.isSome p q := .of_aside h hq.1 hq.2
      have hproves : Ensures (Session.postulate statement) q.session
          (fun f t => t.Proves f) fun _ => True := .certify (proves_nextFact _ _ _ _)
      have hblame : Blameless (Session.postulate statement) q.session fun _ _ => True :=
        .certify trivial
      refine (inSession_moves names.scope.isSome (.postulate statement) hread.coherent rfl rfl
        hblame hproves).achieves.bind fun f r hr => ?_
      have hlead := (hread.trans hr.1).leads hnames
      refine (register_leads hr.1.coherent hlead.hold hr.2).achieves.bind fun names' t ht => ?_
      exact (ih ht.moves.coherent ht.hold).mono fun _ _ hu => (hlead.trans ht).trans hu

theorem prove_moves {goal : Proposition} {refute : Bool} {depth : Nat} (h : p.session.Coherent) :
    Achieves (prove goal refute depth) p fun _ q => Moves false p q := by
  unfold prove
  refine .get_bind ?_
  have hsearch : Achieves (Script.inSession (Search.run ⟨Search.Step.defaults, depth⟩
      (p.available.map Fact.proposition) goal)) p fun found q => q.available = p.available ∧
        Proceeds p.session q.session ∧ ∀ trace ∈ found, q.session.Proves trace.result := by
    apply Achieves.inSession
    refine (Search.run_settles h.quiet depth _ goal).mono (fun found t ht => ?_) fun _ ht => ht
    exact ⟨rfl, ht.1.proceeds h, ht.2⟩
  refine hsearch.bind fun found q hq => ?_
  have hmoves : Moves false p q := .of_proceeds hq.2.1 hq.1
  split
  next => exact .pure hmoves
  next trace =>
    dsimp only
    split
    next => exact .get_bind (.pure hmoves)
    next =>
      refine .modify_bind (.get_bind (.pure ⟨hq.2.1, fun f hf => ?_, nofun⟩))
      cases List.mem_append.mp hf with
      | inl hold => exact hmoves.available f hold
      | inr hnew =>
          rw [List.mem_singleton.mp hnew]
          exact .inr (hq.2.2 trace rfl)

end Points

end Script

open Script

/-- What a script does before its first step. -/
def Script.setUp (script : Script) : Execution (Environment × Names) := do
  inSession (Session.setOrder (← orderNamed script.order))
  let env ← declareAll [] script.declares
  return (env, ← postulateAll script.name 1 { environment := env } script.postulates)

theorem Script.execute_eq (script : Script) (depth : Nat) :
    script.execute depth = (do
      let (env, names) ← script.setUp
      let _ ← runSteps script.name names script.steps
      script.proveAll depth env 1 script.goals) := by
  simp only [Script.execute, Script.setUp, bind_assoc, pure_bind]

/-- Running the script gets to where `step` is about to be taken. -/
def Script.Reaches (script : Script) (names : Names) (p : Progress) (step : Step) : Prop :=
  ∃ env start q, script.setUp {} = .ok (env, start) q ∧
    Visits script.name step names p start q script.steps

section Runs
variable {script : Script} {names : Names} {p : Progress} {step : Step} {depth : Nat}

theorem Session.Coherent.initial : Session.Coherent {} := ⟨.initial, .initial, rfl⟩

theorem setUp_leads (script : Script) :
    Achieves script.setUp {} fun x q => Leads {} {} x.2 q := by
  unfold Script.setUp
  refine .after (prepares_orderNamed script.order) fun order q _ hq => ?_
  refine .after (prepares_setOrder order) fun _ r _ hr => ?_
  refine .after (prepares_declareAll [] script.declares) fun env t _ ht => ?_
  have hdeclared : Moves false {} t := .of_aside .initial (ht.1.trans (hr.1.trans hq.1))
    (hq.2.trans (hr.2.trans ht.2))
  have hnames : Names.Hold { environment := env } t.session := nofun
  refine (postulateAll_leads hdeclared.coherent hnames).bind fun names u hu => ?_
  exact .pure ⟨hu.scope, hdeclared.trans hu.moves, hu.hold⟩

theorem proveAll_moves {env : Environment} {number : Nat} {goals : List Goal}
    (h : p.session.Coherent) :
    Achieves (script.proveAll depth env number goals) p fun _ q => Moves false p q := by
  induction goals generalizing number p with
  | nil => exact .pure (.refl h)
  | cons goal goals ih =>
      rw [Script.proveAll]
      refine .after (prepares_read _ _ _ _ _) fun target q _ hq => ?_
      have hread : Moves false p q := .of_aside h hq.1 hq.2
      refine (prove_moves hread.coherent).bind fun report r hr => ?_
      refine (ih hr.coherent).bind fun reports t ht => ?_
      exact .pure ((hread.trans hr).trans ht)

theorem Script.Reaches.hold (h : script.Reaches names p step) :
    p.session.Coherent ∧ names.Hold p.session := by
  obtain ⟨env, start, q, hsetUp, hvisits⟩ := h
  have hlead := setUp_leads script _ _ hsetUp
  exact hvisits.hold hlead.moves.coherent hlead.hold

theorem execute_moves (script : Script) (depth : Nat) :
    Achieves (script.execute depth) {} fun _ q => Moves false {} q := by
  rw [Script.execute_eq]
  refine (setUp_leads script).bind fun x q hq => ?_
  have hsteps := runSteps_leads script.name x.2 script.steps hq.moves.coherent hq.hold
  refine hsteps.achieves.bind fun names r hr => ?_
  have hlead := hq.trans hr
  exact (proveAll_moves hlead.moves.coherent).mono fun _ t ht => hlead.moves.trans ht

/-- Wherever a step is about to be taken, everything that has a name is proven and depends on
current assumptions only, and the step does not fail because a premise is not proven. A script that
succeeds leaves no scope open, and its facts are of the same kind. -/
theorem named_facts_live (script : Script) (depth : Nat) :
    (∀ names p step, script.Reaches names p step →
      (∀ x ∈ names.facts, p.session.Live x.2) ∧
        ∀ fault q, step.run script.name names p = .error fault q →
          fault.blamesPremise = false) ∧
      ∀ outcome, script.run depth = .ok outcome →
        outcome.session.stack = [] ∧ ∀ f ∈ outcome.facts, outcome.session.Live f := by
  constructor
  · intro names p step hreaches
    obtain ⟨hcoherent, hhold⟩ := hreaches.hold
    constructor
    · exact fun x hx => hcoherent.live (hhold x hx)
    · intro fault q hrun
      have hacquits := Step.run_leads script.name names step hcoherent hhold
      unfold Acquits at hacquits
      rw [hrun] at hacquits
      exact hacquits
  · intro outcome hrun
    unfold Script.run at hrun
    cases hexecute : script.execute depth {} with
    | error fault q =>
        rw [hexecute] at hrun
        cases hrun
    | ok reports q =>
        rw [hexecute] at hrun
        cases hrun
        have hmoves := execute_moves script depth reports q hexecute
        constructor
        · exact hmoves.proceeds.stack
        · intro f hf
          cases hmoves.available f hf with
          | inl hempty => cases hempty
          | inr hproves => exact hmoves.coherent.live hproves

end Runs

section Example

/-- Assumes `R` by the name `r`. -/
def assumingStep : Step := .mk { name := "r", assumes := "R" } []

/-- Applies a rule to one fact from outside the scope and to one from inside. -/
def conjoiningStep : Step :=
  .mk { name := "both", rule := "conjunction_intro", premises := ["p", "r"] } []

/-- Derives `R → P ∧ R` in a scope, and searches for what follows from it. -/
def conjoiningScript : Script where
  name := "conjoining"
  postulates := [⟨"p", "P"⟩, ⟨"given", "R"⟩]
  steps := [.mk { name := "inner" } [assumingStep, conjoiningStep]]
  goals := [{ statement := "P ∧ R" }]

theorem named_facts_live_conjoining :
    (∃ names p, conjoiningScript.Reaches names p conjoiningStep ∧
      names.facts.map Prod.fst = ["r", "given", "p"] ∧ ∀ x ∈ names.facts, p.session.Live x.2) ∧
    ∃ outcome, conjoiningScript.run 0 = .ok outcome ∧ outcome.facts.length = 4 ∧
      outcome.session.stack = [] ∧ ∀ f ∈ outcome.facts, outcome.session.Live f := by
  have hlive := named_facts_live conjoiningScript 0
  constructor
  · have hpoint : (match conjoiningScript.setUp {} with
        | .error _ _ => false
        | .ok x p => match inSession (openScope "inner") p with
          | .error _ _ => false
          | .ok c q => match assumingStep.run "conjoining" { x.2 with scope := some c } q with
            | .error _ _ => false
            | .ok names _ => names.facts.map Prod.fst == ["r", "given", "p"]) = true := by
      decide +kernel
    split at hpoint
    next => cases hpoint
    next x p hsetUp =>
      split at hpoint
      next => cases hpoint
      next c q hopen =>
        split at hpoint
        next => cases hpoint
        next names r hassume =>
          have hreaches : conjoiningScript.Reaches names r conjoiningStep :=
            ⟨x.1, x.2, p, hsetUp, .inside [] rfl hopen (.later hassume (.here []))⟩
          exact ⟨names, r, hreaches, beq_iff_eq.mp hpoint, (hlive.1 names r _ hreaches).1⟩
  · have hfacts : (conjoiningScript.run 0).toOption.map (·.facts.length) = some 4 := by
      decide +kernel
    cases hrun : conjoiningScript.run 0 with
    | error fault =>
        rw [hrun] at hfacts
        cases hfacts
    | ok outcome =>
        rw [hrun] at hfacts
        exact ⟨outcome, rfl, Option.some.inj hfacts, hlive.2 outcome hrun⟩

end Example

end Entailment
