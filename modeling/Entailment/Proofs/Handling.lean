import Entailment.Proofs.Premises
import Entailment.Proofs.Searching
import Entailment.Script.Run

/-!
# How rules are handled

A step applies a rule by reading what the rule needs, counting premises, and having the session
enter a fact by that rule. `Handles` says in which order this may happen, for one rule at a time,
and `ofRule?_handles` goes through the table of rules once. What is shown about all rules elsewhere
is shown by induction on `Handles`. Everything but the deductions themselves only prepares: it
answers without deducing anything, or finds a fault with the step.
-/
namespace Entailment.Script

open Session

/-- Whether a fault is one of the text or the step it is found in, and neither a deduction that
fails nor something that validation is there to prevent. -/
def Fault.isOwn : Fault → Bool
  | .failed _ | .invalid _ | .introducedOutside | .concludedOutside | .inStep _ _ => false
  | _ => true

/-- Nothing happens apart from new variables, and what counts as available stays. The answer is as
required, and only the text or the step can be at fault. -/
def Prepares {α : Type} (e : Execution α) (ok : α → Prop) : Prop :=
  ∀ p, match e p with
    | .ok x q => ok x ∧ q.available = p.available ∧ p.session.Aside q.session
    | .error fault _ => fault.isOwn = true

section Preparations
variable {α β : Type} {ok : α → Prop}

theorem Prepares.pure {x : α} (h : ok x) : Prepares (Pure.pure x) ok := fun p =>
  ⟨h, rfl, .refl p.session⟩

theorem Prepares.throw {fault : Fault} (h : fault.isOwn = true) :
    Prepares (MonadExcept.throw fault : Execution α) ok := fun _ => h

theorem Prepares.bind {e : Execution β} {k : β → Execution α} {mid : β → Prop}
    (he : Prepares e mid) (hk : ∀ x, mid x → Prepares (k x) ok) : Prepares (e >>= k) ok := by
  intro p
  change match EStateM.bind e k p with | .ok x q => _ | .error fault _ => _
  unfold EStateM.bind
  have hstart := he p
  cases hrun : e p with
  | error fault q =>
      rw [hrun] at hstart
      exact hstart
  | ok x q =>
      rw [hrun] at hstart
      obtain ⟨hx, havailable, haside⟩ := hstart
      have hrest := hk x hx q
      dsimp only
      cases hrun' : k x q with
      | error fault r =>
          rw [hrun'] at hrest
          exact hrest
      | ok y r =>
          rw [hrun'] at hrest
          exact ⟨hrest.1, hrest.2.1.trans havailable, haside.trans hrest.2.2⟩

theorem Prepares.guard {c : Prop} [Decidable c] {fault : Fault} {k : PUnit → Execution α}
    (hfault : fault.isOwn = true) (h : Prepares (k ⟨⟩) ok) :
    Prepares (if c then MonadExcept.throw fault >>= k else k ⟨⟩) ok := by
  split
  next => exact fun _ => hfault
  next => exact h

/-- What a session does without deducing anything, and without fail, prepares. -/
theorem Prepares.inSession {action : Action α}
    (h : ∀ s, Ensures action s (fun _ t => s.Aside t) fun _ => False) :
    Prepares (Script.inSession action) fun _ => True := by
  intro p
  have haction := h p.session
  unfold Ensures at haction
  unfold Script.inSession
  cases hrun : action p.session with
  | ok x t =>
      rw [hrun] at haction
      exact ⟨trivial, rfl, haction⟩
  | error failure t =>
      rw [hrun] at haction
      exact haction.elim

theorem prepares_read (grammar : Source → Environment → Nat → Except Unreadable α × Nat)
    (script label text : String) (env : Environment) :
    Prepares (read grammar script label text env) fun _ => True := by
  intro p
  unfold read
  dsimp only [bind, EStateM.bind, get, getThe, MonadStateOf.get, EStateM.get, modify, modifyGet,
    MonadStateOf.modifyGet, EStateM.modifyGet]
  generalize (grammar _ env p.session.fresh).1 = result
  cases result with
  | ok x => exact ⟨trivial, rfl, _, _, _, rfl⟩
  | error e =>
      cases e with
      | complaint span c => rfl
      | malformed cause => rfl

theorem prepares_target (a : Application) : Prepares a.target fun _ => True := by
  unfold Application.target
  exact .guard rfl (prepares_read _ _ _ _ _)

theorem prepares_term (a : Application) : Prepares a.term fun _ => True := by
  unfold Application.term
  exact .guard rfl (prepares_read _ _ _ _ _)

theorem prepares_exactly (a : Application) (n : Nat) : Prepares (a.exactly n) fun _ => True := by
  unfold Application.exactly
  exact .guard rfl (.pure trivial)

theorem prepares_single (a : Application) : Prepares a.single (· ∈ a.premises) := by
  unfold Application.single
  split
  next heq => exact .pure (by simp [heq])
  next => exact .throw rfl

theorem prepares_atLeastOne (a : Application) :
    Prepares a.atLeastOne fun x => ∀ f ∈ x.1 :: x.2, f ∈ a.premises := by
  unfold Application.atLeastOne
  split
  next heq => exact .pure (by simp [heq])
  next => exact .throw rfl

/-- What premises name is what names stand for. -/
theorem prepares_premises (names : Names) (labels : List String) :
    Prepares (premises names labels) fun fs =>
      ∀ f ∈ fs, ∃ label ∈ labels, names.facts.lookup label = some f := by
  induction labels with
  | nil => exact .pure nofun
  | cons label labels ih =>
      rw [premises]
      split
      next f hf =>
        refine ih.bind fun fs hfs => .pure (List.forall_mem_cons.mpr ⟨?_, fun g hg => ?_⟩)
        · exact ⟨label, List.mem_cons_self, hf⟩
        · obtain ⟨other, hother, hlookup⟩ := hfs g hg
          exact ⟨other, List.mem_cons_of_mem _ hother, hlookup⟩
      next => exact .throw rfl

theorem prepares_checkExpectation (script : String) (names : Names) (a : Attributes)
    (results : List Fact) :
    Prepares (checkExpectation script names a results) fun _ => True := by
  unfold checkExpectation
  split
  next =>
    refine (prepares_read _ _ _ _ _).bind fun expected _ => ?_
    split
    next => exact .throw rfl
    next => exact .guard rfl (.pure trivial)
  next => exact .pure trivial

theorem prepares_setOrder (order : Order) :
    Prepares (Script.inSession (setOrder order)) fun _ => True :=
  .inSession fun _ => ⟨_, _, _, rfl⟩

theorem prepares_orderNamed (name : String) : Prepares (orderNamed name) fun _ => True := by
  unfold orderNamed
  split
  next => exact .pure trivial
  next => exact .pure trivial
  next => exact .pure trivial
  next => exact .throw rfl

theorem prepares_declareAll (env : Environment) (names : List String) :
    Prepares (declareAll env names) fun _ => True := by
  induction names generalizing env with
  | nil => exact .pure trivial
  | cons name names ih =>
      have hnew : Prepares (Script.inSession (newVariable name)) fun _ => True :=
        .inSession fun _ => ⟨_, _, _, rfl⟩
      rw [declareAll]
      refine hnew.bind fun v _ => ?_
      split
      next env' _ => exact ih env'
      next => exact .throw rfl

end Preparations

section Handlers
variable {rule : Rule} {a : Application} {facts : List Fact}

/-- All premises of an application are proven. -/
def Application.Founded (a : Application) (s : Session) : Prop := ∀ f ∈ a.premises, s.Proves f

theorem Application.Founded.aside {s t : Session} (h : a.Founded s) (ht : s.Aside t) :
    a.Founded t := fun f hf => ht.proves (h f hf)

theorem backs_map {s : Session} {fs : List Fact} (h : ∀ f ∈ fs, s.Proves f) :
    ∀ p ∈ fs.map fun f => some f.proposition, s.Backs p := by
  intro p hp
  obtain ⟨f, hf, rfl⟩ := List.mem_map.mp hp
  exact backs_proposition (h f hf)

theorem backs_handed {s : Session} {fs : List Fact} (h : ∀ f ∈ fs, s.Proves f) :
    ∀ p ∈ fs.map Fact.proposition, s.Backs (some p) := by
  intro p hp
  obtain ⟨f, hf, rfl⟩ := List.mem_map.mp hp
  exact backs_proposition (h f hf)

/-- The action enters a fact by the rule, and it does not fail for want of a proven premise if those
of the step are proven. -/
structure Serves (rule : Rule) (a : Application) (action : Action Fact) : Prop where
  enters : Enters rule action
  blameless : ∀ s, a.Founded s → Blameless action s fun _ _ => True

/-- What applying a rule comes to, given what was derived for it last: it is refused, answered with
a fact that was derived, or goes on after something was prepared, after a fact was entered, or after
a premise was taken apart by the one rule for that. -/
inductive Handles (rule : Rule) (a : Application) : List Fact → Execution Fact → Prop
  | refuse {facts : List Fact} {fault : Fault} :
      fault.isOwn = true → Handles rule a facts (throw fault)
  | answer {facts : List Fact} {f : Fact} : f ∈ facts → Handles rule a facts (pure f)
  | prepare {facts : List Fact} {α : Type} {e : Execution α} {ok : α → Prop}
      {k : α → Execution Fact} :
      Prepares e ok → (∀ x, ok x → Handles rule a facts (k x)) → Handles rule a facts (e >>= k)
  | enter {facts : List Fact} {action : Action Fact} {k : Fact → Execution Fact} :
      Serves rule a action → (∀ f, Handles rule a [f] (k f)) →
        Handles rule a facts (inSession action >>= k)
  | takeApart {facts : List Fact} {premise : Fact} {k : List Fact → Execution Fact} :
      rule = .conjunctionElim → premise ∈ a.premises → (∀ parts, Handles rule a parts (k parts)) →
        Handles rule a facts (inSession (split (some premise.proposition)) >>= k)

theorem Handles.guard {c : Prop} [Decidable c] {fault : Fault} {k : PUnit → Execution Fact}
    (hfault : fault.isOwn = true) (h : Handles rule a facts (k ⟨⟩)) :
    Handles rule a facts (if c then MonadExcept.throw fault >>= k else k ⟨⟩) := by
  have hthrow : Prepares (MonadExcept.throw fault : Execution PUnit) fun _ => False :=
    .throw hfault
  split
  next => exact .prepare hthrow fun _ hnot => hnot.elim
  next => exact h

/-- What is entered last is the answer. -/
theorem Serves.handles {action : Action Fact} (h : Serves rule a action) :
    Handles rule a facts (inSession action) := by
  rw [← bind_pure (inSession action)]
  exact .enter h fun f => .answer (List.mem_singleton_self f)

theorem Serves.of_blameless {action : Action Fact} {mid : Session → Fact → Session → Prop}
    (henters : Enters rule action) (h : ∀ s, a.Founded s → Blameless action s (mid s)) :
    Serves rule a action :=
  ⟨henters, fun s hs => (h s hs).mono fun _ _ _ => trivial⟩

theorem unary_handles {tactic : Option Proposition → Action Fact}
    (henters : ∀ p, Enters rule (tactic p))
    (h : ∀ (s : Session) p, s.Backs p → Blameless (tactic p) s (s.Entered rule [p] [])) :
    Handles rule a facts (Tactic.unary tactic a) := by
  refine .prepare (prepares_single a) fun f hf => Serves.handles ?_
  exact .of_blameless (henters _) fun s hs => h s _ (backs_proposition (hs f hf))

theorem binary_handles {tactic : Option Proposition → Option Proposition → Action Fact}
    (henters : ∀ p q, Enters rule (tactic p q))
    (h : ∀ (s : Session) p q, s.Backs p → s.Backs q →
      Blameless (tactic p q) s (s.Entered rule [p, q] [])) :
    Handles rule a facts (Tactic.binary tactic a) := by
  unfold Tactic.binary
  split
  next f g heq =>
    have hf : f ∈ a.premises := by simp [heq]
    have hg : g ∈ a.premises := by simp [heq]
    apply Serves.handles
    exact .of_blameless (henters _ _) fun s hs =>
      h s _ _ (backs_proposition (hs f hf)) (backs_proposition (hs g hg))
  next => exact .refuse rfl

theorem variadic_handles {tactic : Option Proposition → List (Option Proposition) → Action Fact}
    (henters : ∀ p ps, Enters rule (tactic p ps))
    (h : ∀ (s : Session) p ps, s.Backs p → (∀ q ∈ ps, s.Backs q) →
      Blameless (tactic p ps) s (s.Entered rule (p :: ps) [])) :
    Handles rule a facts (Tactic.variadic tactic a) := by
  refine .prepare (prepares_atLeastOne a) fun x hx => Serves.handles ?_
  have hall := List.forall_mem_cons.mp hx
  exact .of_blameless (henters _ _) fun s hs =>
    h s _ _ (backs_proposition (hs x.1 hall.1)) (backs_map fun f hf => hs f (hall.2 f hf))

theorem conjunctionElim_handles :
    Handles .conjunctionElim a facts (Tactic.conjunctionElim a) := by
  refine .prepare (prepares_target a) fun target _ => .prepare (prepares_single a) fun f hf => ?_
  refine .takeApart rfl hf fun parts => ?_
  split
  next part hpart => exact .answer (List.mem_of_find?_eq_some hpart)
  next => exact .refuse rfl

/-- The backward direction is derived only if it is the answer. -/
theorem iffElim_handles : Handles .iffElim a facts (Tactic.iffElim a) := by
  refine .prepare (prepares_single a) fun f hf => ?_
  have hforward : Serves .iffElim a (iffForward (some f.proposition)) :=
    .of_blameless (fun s => ⟨iffForward_yields s _, .iffForward _, rfl, rfl⟩)
      fun s hs => iffForward_blameless (backs_proposition (hs f hf))
  have hbackward : Serves .iffElim a (iffBackward (some f.proposition)) :=
    .of_blameless (fun s => ⟨iffBackward_yields s _, .iffBackward _, rfl, rfl⟩)
      fun s hs => iffBackward_blameless (backs_proposition (hs f hf))
  refine .enter hforward fun forward => ?_
  split
  next => exact .answer (List.mem_singleton_self forward)
  next =>
    refine .prepare (prepares_target a) fun target _ => ?_
    split
    next => exact .answer (List.mem_singleton_self forward)
    next => exact hbackward.handles

theorem conjunctionIntro_handles :
    Handles .conjunctionIntro a facts (Tactic.conjunctionIntro a) := by
  apply Serves.handles
  exact .of_blameless (fun s => ⟨conjoin_yields s _, .conjoin _, rfl, rfl⟩)
    fun s hs => conjoin_blameless (backs_map hs)

theorem disjunctionIntro_handles :
    Handles .disjunctionIntro a facts (Tactic.disjunctionIntro a) := by
  refine .prepare (prepares_target a) fun target _ => .prepare (prepares_single a) fun f hf => ?_
  split
  next =>
    apply Serves.handles
    exact .of_blameless (fun s => ⟨disjoin_yields s _ _, .disjoin _ _, rfl, rfl⟩)
      fun s hs => disjoin_blameless _ (backs_proposition (hs f hf))
  next => exact .refuse rfl

theorem generalise_handles : Handles .thusForall a facts (Tactic.generalise a) := by
  refine .prepare (prepares_single a) fun f hf => .prepare (prepares_term a) fun t _ => ?_
  split
  next =>
    apply Serves.handles
    exact .of_blameless (fun s => ⟨thusForall_yields s _ _, .thusForall _ _, rfl, rfl⟩)
      fun s hs => thusForall_blameless _ (backs_proposition (hs f hf))
  next => exact .refuse rfl

theorem abstractTerm_handles : Handles .thusThereExists a facts (Tactic.abstractTerm a) := by
  refine .prepare (prepares_single a) fun f hf => .guard rfl ?_
  refine .prepare (prepares_term a) fun witness _ => Serves.handles ?_
  exact .of_blameless
    (fun s => ⟨thusThereExists_yields s _ _ _ _, .thusThereExists _ _ _ _, rfl, rfl⟩)
    fun s hs => thusThereExists_blameless _ _ _ (backs_proposition (hs f hf))

theorem instantiate_handles : Handles .inParticular a facts (Tactic.instantiate a) := by
  refine .prepare (prepares_atLeastOne a) fun x hx => .prepare (prepares_term a) fun t _ => ?_
  have hall := List.forall_mem_cons.mp hx
  apply Serves.handles
  exact .of_blameless (fun s => ⟨inParticular_yields s _ _ _, .inParticular _ _ _, rfl, rfl⟩)
    fun s hs => inParticular_blameless t (backs_proposition (hs x.1 hall.1))
      (backs_handed fun f hf => hs f (hall.2 f hf))

theorem specialCase_handles : Handles .isSpecialCaseOf a facts (Tactic.specialCase a) := by
  refine .prepare (prepares_target a) fun target _ =>
    .prepare (prepares_atLeastOne a) fun x hx => ?_
  have hall := List.forall_mem_cons.mp hx
  apply Serves.handles
  exact .of_blameless
    (fun s => ⟨isSpecialCaseOf_yields s _ _ _, .isSpecialCaseOf _ _ _, rfl, rfl⟩)
    fun s hs => isSpecialCaseOf_blameless target (backs_proposition (hs x.1 hall.1))
      (backs_handed fun f hf => hs f (hall.2 f hf))

theorem quantifiedPonens_handles :
    Handles .quantifiedModusPonens a facts (Tactic.quantifiedPonens a) := by
  unfold Tactic.quantifiedPonens
  split
  next f g rest heq =>
    have hall : ∀ s, a.Founded s → s.Proves f ∧ s.Proves g ∧ ∀ x ∈ rest, s.Proves x := by
      intro s hs
      simpa [Application.Founded, heq] using hs
    apply Serves.handles
    exact .of_blameless
      (fun s => ⟨quantifiedModusPonens_yields s _ _ _, .quantifiedModusPonens _ _ _, rfl, rfl⟩)
      fun s hs => quantifiedModusPonens_blameless (backs_proposition (hall s hs).1)
        (backs_proposition (hall s hs).2.1) (backs_handed (hall s hs).2.2)
  next => exact .refuse rfl

theorem reflexive_handles : Handles .reflexivity a facts (Tactic.reflexive a) := by
  refine .prepare (prepares_exactly a 0) fun _ _ => .prepare (prepares_term a) fun t _ => ?_
  apply Serves.handles
  exact .of_blameless (fun s => ⟨reflexivity_yields s t, .reflexivity t, rfl, rfl⟩)
    fun s _ => reflexivity_blameless t

theorem simplification_handles :
    Handles .bySimplification a facts (Tactic.simplification a) := by
  refine .prepare (prepares_target a) fun target _ => .prepare (prepares_exactly a 0) fun _ _ => ?_
  apply Serves.handles
  exact .of_blameless
    (fun s => ⟨bySimplification_yields s target, .bySimplification target, rfl, rfl⟩)
    fun s _ => bySimplification_blameless target

theorem chain_handles : Handles .transitive a facts (Tactic.chain a) := by
  have hchain : ∀ want, Serves .transitive a
      (transitive want (a.premises.map fun f => some f.proposition)) := fun want =>
    .of_blameless (fun s => ⟨transitive_yields s want _, .transitive want _, rfl, rfl⟩)
      fun s hs => transitive_blameless want (backs_map hs)
  unfold Tactic.chain
  dsimp only
  split
  next =>
    rw [map_eq_pure_bind, bind_assoc]
    exact .prepare (prepares_target a) fun target _ => (hchain _).handles
  next => exact (hchain _).handles

/-- Every rule that steps can apply is handled by deductions of that rule, from the premises of the
step. -/
theorem ofRule?_handles {tactic : Tactic} (h : Tactic.ofRule? rule = some tactic)
    (a : Application) : Handles rule a [] (tactic a) := by
  cases rule <;> cases h
  -- Handlers with a form of their own come first, then those that only count premises.
  case conjunctionIntro => exact conjunctionIntro_handles
  case conjunctionElim => exact conjunctionElim_handles
  case disjunctionIntro => exact disjunctionIntro_handles
  case iffElim => exact iffElim_handles
  case thusForall => exact generalise_handles
  case thusThereExists => exact abstractTerm_handles
  case inParticular => exact instantiate_handles
  case isSpecialCaseOf => exact specialCase_handles
  case quantifiedModusPonens => exact quantifiedPonens_handles
  case reflexivity => exact reflexive_handles
  case bySimplification => exact simplification_handles
  case transitive => exact chain_handles
  case modusPonens =>
    exact binary_handles (fun p q s => ⟨modusPonens_yields s p q, .modusPonens p q, rfl, rfl⟩)
      fun _ _ _ => modusPonens_blameless
  case modusTollens =>
    exact binary_handles (fun p q s => ⟨modusTollens_yields s p q, .modusTollens p q, rfl, rfl⟩)
      fun _ _ _ => modusTollens_blameless
  case hypotheticalSyllogism =>
    exact binary_handles
      (fun p q s => ⟨hypotheticalSyllogism_yields s p q, .hypotheticalSyllogism p q, rfl, rfl⟩)
      fun _ _ _ => hypotheticalSyllogism_blameless
  case followedFrom =>
    exact variadic_handles
      (fun p ps s => ⟨followedFrom_yields s p ps, .followedFrom p ps, rfl, rfl⟩)
      fun _ _ _ hp _ => followedFrom_blameless hp
  case resolve =>
    exact variadic_handles (fun p ps s => ⟨resolve_yields s p ps, .resolve p ps, rfl, rfl⟩)
      fun _ _ _ => resolveBy_blameless .resolve
  case unitResolve =>
    exact binary_handles (fun p q s => ⟨unitResolve_yields s p q, .unitResolve p q, rfl, rfl⟩)
      fun _ _ _ => unitResolve_blameless
  case resolveClauses =>
    exact binary_handles
      (fun p q s => ⟨resolveClauses_yields s p q, .resolveClauses p q, rfl, rfl⟩)
      fun _ _ _ => resolveClauses_blameless
  case exorElim =>
    exact binary_handles (fun p q s => ⟨exorEliminate_yields s p q, .exorEliminate p q, rfl, rfl⟩)
      fun _ _ _ => exorEliminate_blameless
  case doubleNegation =>
    exact unary_handles (fun p s => ⟨doubleNegation_yields s p, .doubleNegation p, rfl, rfl⟩)
      fun _ _ => doubleNegation_blameless
  case contrapositive =>
    exact unary_handles (fun p s => ⟨contrapositive_yields s p, .contrapositive p, rfl, rfl⟩)
      fun _ _ => contrapositive_blameless
  case iffIntro =>
    exact binary_handles (fun p q s => ⟨iffIntro_yields s p q, .iffIntro p q, rfl, rfl⟩)
      fun _ _ _ => iffIntro_blameless
  case contradicts =>
    exact binary_handles (fun p q s => ⟨contradicts_yields s p q, .contradicts p q, rfl, rfl⟩)
      fun _ _ _ => contradicts_blameless
  case assumptionsCannotAllHold =>
    exact unary_handles (fun p s =>
      ⟨thusAssumptionsCannotAllHold_yields s p, .thusAssumptionsCannotAllHold p, rfl, rfl⟩)
      fun _ _ => thusAssumptionsCannotAllHold_blameless
  case existentialElim =>
    exact binary_handles (fun p q s =>
      ⟨existentialElimination_yields s p q, .existentialElimination p q, rfl, rfl⟩)
      fun _ _ _ => existentialElimination_blameless
  case symmetry =>
    exact unary_handles (fun p s => ⟨symmetry_yields s p, .symmetry p, rfl, rfl⟩)
      fun _ _ => symmetry_blameless
  case substitute =>
    exact binary_handles (fun p q s => ⟨substitute_yields s p q [], .substitute p q [], rfl, rfl⟩)
      fun _ _ _ => substitute_blameless []

end Handlers

end Entailment.Script
