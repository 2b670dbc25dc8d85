import Entailment.Proofs.Tactics
import Entailment.Proofs.Withdrawal

/-!
# Runs

A run is a list of calls, each of which may succeed or fail, and each of which sees the session that
the previous one left. `Change` says what one call can do to a session. Invariants of runs are
proved by a case analysis of `Change` and carried along by `run_induction`.

A run contains every deduction that callers can write: running a body inside a scope of its own, and
running one speculatively, are made of the calls listed here (`Performs.within`,
`Performs.speculate`), whatever their bodies do.
-/
namespace Entailment.Session

/-- The tactics, each with what it is applied to. -/
inductive Tactic where
  | modusPonens (p imp : Option Proposition)
  | modusTollens (notQ imp : Option Proposition)
  | hypotheticalSyllogism (ab bc : Option Proposition)
  | followedFrom (p : Option Proposition) (assumptions : List (Option Proposition))
  | conjoin (ps : List (Option Proposition))
  | extract (p : Option Proposition) (i : Int)
  | split (p : Option Proposition)
  | disjoin (p : Option Proposition) (alternatives : List (Option Proposition))
  | resolve (p : Option Proposition) (refutations : List (Option Proposition))
  | unitResolve (p refutation : Option Proposition)
  | resolveClauses (lhs rhs : Option Proposition)
  | exorEliminate (exor p : Option Proposition)
  | doubleNegation (p : Option Proposition)
  | contrapositive (imp : Option Proposition)
  | iffIntro (ab ba : Option Proposition)
  | iffForward (p : Option Proposition)
  | iffBackward (p : Option Proposition)
  | contradicts (p q : Option Proposition)
  | thusAssumptionsCannotAllHold (c : Option Proposition)
  | thusForall (p : Option Proposition) (v : Option Variable)
  | thusThereExists (p : Option Proposition) (name : String) (witness : Term) (paths : List Path)
  | thusThereExistsIn (p : Option Proposition) (name : String) (witness set : Term)
      (given : Option Proposition) (paths : List Path)
  | inParticular (p : Option Proposition) (t : Term) (facts : List Proposition)
  | isSpecialCaseOf (p : Proposition) (universal : Option Proposition) (facts : List Proposition)
  | quantifiedModusPonens (universal p : Option Proposition) (facts : List Proposition)
  | existentialElimination (existential universal : Option Proposition)
  | reflexivity (t : Term)
  | symmetry (p : Option Proposition)
  | substitute (equality p : Option Proposition) (paths : List Path)
  | bySimplification (p : Proposition)
  | transitiveIn (order : Order) (want : String) (links : List (Option Proposition))
  | transitive (want : String) (links : List (Option Proposition))

namespace Tactic

/-- The rule by which a tactic enters its conclusions. -/
def rule : Tactic → Rule
  | modusPonens .. => .modusPonens
  | modusTollens .. => .modusTollens
  | hypotheticalSyllogism .. => .hypotheticalSyllogism
  | followedFrom .. => .followedFrom
  | conjoin .. => .conjunctionIntro
  | extract .. | split .. => .conjunctionElim
  | disjoin .. => .disjunctionIntro
  | resolve .. => .resolve
  | unitResolve .. => .unitResolve
  | resolveClauses .. => .resolveClauses
  | exorEliminate .. => .exorElim
  | doubleNegation .. => .doubleNegation
  | contrapositive .. => .contrapositive
  | iffIntro .. => .iffIntro
  | iffForward .. | iffBackward .. => .iffElim
  | contradicts .. => .contradicts
  | thusAssumptionsCannotAllHold .. => .assumptionsCannotAllHold
  | thusForall .. => .thusForall
  | thusThereExists .. | thusThereExistsIn .. => .thusThereExists
  | inParticular .. => .inParticular
  | isSpecialCaseOf .. => .isSpecialCaseOf
  | quantifiedModusPonens .. => .quantifiedModusPonens
  | existentialElimination .. => .existentialElim
  | reflexivity .. => .reflexivity
  | symmetry .. => .symmetry
  | substitute .. => .substitute
  | bySimplification .. => .bySimplification
  | transitiveIn .. | transitive .. => .transitive

def apply (s : Session) : Tactic → Session
  | modusPonens p imp => after (Session.modusPonens p imp) s
  | modusTollens notQ imp => after (Session.modusTollens notQ imp) s
  | hypotheticalSyllogism ab bc => after (Session.hypotheticalSyllogism ab bc) s
  | followedFrom p assumptions => after (Session.followedFrom p assumptions) s
  | conjoin ps => after (Session.conjoin ps) s
  | extract p i => after (Session.extract p i) s
  | split p => after (Session.split p) s
  | disjoin p alternatives => after (Session.disjoin p alternatives) s
  | resolve p refutations => after (Session.resolve p refutations) s
  | unitResolve p refutation => after (Session.unitResolve p refutation) s
  | resolveClauses lhs rhs => after (Session.resolveClauses lhs rhs) s
  | exorEliminate exor p => after (Session.exorEliminate exor p) s
  | doubleNegation p => after (Session.doubleNegation p) s
  | contrapositive imp => after (Session.contrapositive imp) s
  | iffIntro ab ba => after (Session.iffIntro ab ba) s
  | iffForward p => after (Session.iffForward p) s
  | iffBackward p => after (Session.iffBackward p) s
  | contradicts p q => after (Session.contradicts p q) s
  | thusAssumptionsCannotAllHold c => after (Session.thusAssumptionsCannotAllHold c) s
  | thusForall p v => after (Session.thusForall p v) s
  | thusThereExists p name witness paths => after (Session.thusThereExists p name witness paths) s
  | thusThereExistsIn p name witness set given paths =>
      after (Session.thusThereExistsIn p name witness set given paths) s
  | inParticular p t facts => after (Session.inParticular p t facts) s
  | isSpecialCaseOf p universal facts => after (Session.isSpecialCaseOf p universal facts) s
  | quantifiedModusPonens universal p facts =>
      after (Session.quantifiedModusPonens universal p facts) s
  | existentialElimination existential universal =>
      after (Session.existentialElimination existential universal) s
  | reflexivity t => after (Session.reflexivity t) s
  | symmetry p => after (Session.symmetry p) s
  | substitute equality p paths => after (Session.substitute equality p paths) s
  | bySimplification p => after (Session.bySimplification p) s
  | transitiveIn order want links => after (Session.transitiveIn order want links) s
  | transitive want links => after (Session.transitive want links) s

/-- Every tactic enters statements by its own rule only. -/
theorem apply_extends (t : Tactic) (s : Session) : Extends (· = t.rule) s (t.apply s) := by
  cases t with
  | modusPonens p imp => exact (modusPonens_yields s p imp).left
  | modusTollens notQ imp => exact (modusTollens_yields s notQ imp).left
  | hypotheticalSyllogism ab bc => exact (hypotheticalSyllogism_yields s ab bc).left
  | followedFrom p assumptions => exact (followedFrom_yields s p assumptions).left
  | conjoin ps => exact (conjoin_yields s ps).left
  | extract p i => exact (extract_yields s p i).left
  | split p => exact split_extends s p
  | disjoin p alternatives => exact (disjoin_yields s p alternatives).left
  | resolve p refutations => exact (resolve_yields s p refutations).left
  | unitResolve p refutation => exact (unitResolve_yields s p refutation).left
  | resolveClauses lhs rhs => exact (resolveClauses_yields s lhs rhs).left
  | exorEliminate exor p => exact (exorEliminate_yields s exor p).left
  | doubleNegation p => exact (doubleNegation_yields s p).left
  | contrapositive imp => exact (contrapositive_yields s imp).left
  | iffIntro ab ba => exact (iffIntro_yields s ab ba).left
  | iffForward p => exact (iffForward_yields s p).left
  | iffBackward p => exact (iffBackward_yields s p).left
  | contradicts p q => exact (contradicts_yields s p q).left
  | thusAssumptionsCannotAllHold c => exact (thusAssumptionsCannotAllHold_yields s c).left
  | thusForall p v => exact (thusForall_yields s p v).left
  | thusThereExists p name witness paths =>
      exact (thusThereExists_yields s p name witness paths).left
  | thusThereExistsIn p name witness set given paths =>
      exact (thusThereExistsIn_yields s p name witness set given paths).left
  | inParticular p t facts => exact (inParticular_yields s p t facts).left
  | isSpecialCaseOf p universal facts => exact (isSpecialCaseOf_yields s p universal facts).left
  | quantifiedModusPonens universal p facts =>
      exact (quantifiedModusPonens_yields s universal p facts).left
  | existentialElimination existential universal =>
      exact (existentialElimination_yields s existential universal).left
  | reflexivity t => exact (reflexivity_yields s t).left
  | symmetry p => exact (symmetry_yields s p).left
  | substitute equality p paths => exact (substitute_yields s equality p paths).left
  | bySimplification p => exact (bySimplification_yields s p).left
  | transitiveIn order want links => exact (transitiveIn_yields s order want links).left
  | transitive want links => exact (transitive_yields s want links).left

end Tactic

/-- What a caller can ask of a session. -/
inductive Call where
  | postulate (p : Proposition)
  | assume (p : Proposition)
  | openScope (name : String)
  | introduce (c : ScopeId) (v : Variable)
  | letVariable (c : ScopeId) (name : String)
  | assumeIn (c : ScopeId) (p : Proposition)
  | conclude (c : ScopeId) (p : Option Proposition)
  | close (c : ScopeId)
  | discard (c : ScopeId)
  | speculateFrom
  | settle (keep : List FactId)
  | newVariable (name : String)
  | setOrder (order : Order)
  | tactic (t : Tactic)

/-- The session that a call leaves, whether it succeeds or fails. -/
def Call.apply (s : Session) : Call → Session
  | postulate p => after (Session.postulate p) s
  | assume p => after (Session.assume p) s
  | openScope name => after (Session.openScope name) s
  | introduce c v => after (Session.introduce c v) s
  | letVariable c name => after (Session.letVariable c name) s
  | assumeIn c p => after (Session.assumeIn c p) s
  | conclude c p => after (Session.conclude c p) s
  | close c => after (Session.close c) s
  | discard c => after (Session.discard c) s
  | speculateFrom => after Session.speculateFrom s
  | settle keep => after (Session.settle keep) s
  | newVariable name => after (Session.newVariable name) s
  | setOrder order => after (Session.setOrder order) s
  | tactic t => t.apply s

def run (s : Session) (calls : List Call) : Session := calls.foldl Call.apply s

theorem run_append (s : Session) (calls calls' : List Call) :
    run s (calls ++ calls') = run (run s calls) calls' := List.foldl_append

/-- What holds at the start and survives every call that is allowed holds after every run. -/
theorem run_induction {P : Session → Prop} {allowed : Call → Prop} {s : Session}
    (hcall : ∀ t c, allowed c → P t → P (c.apply t)) (hs : P s) (calls : List Call)
    (hcalls : ∀ c ∈ calls, allowed c) : P (run s calls) := by
  induction calls generalizing s with
  | nil => exact hs
  | cons c calls ih =>
      have hc : P (c.apply s) := hcall s c (hcalls c (by simp)) hs
      exact ih hc fun d hd => hcalls d (by simp [hd])

/-- The scope is the innermost one, and open. -/
def Innermost (s : Session) (c : ScopeId) (scope : Scope) : Prop :=
  s.scope? c = some scope ∧ scope.closed = false ∧ s.stack.head? = some c

/-- The session with a supposition added to the log of a scope. -/
def noted (s : Session) (c : ScopeId) (x : Supposition) : Session :=
  s.modifyScope c fun scope => { scope with log := scope.log ++ [x] }

/-- The session with a fact added to the conclusions of a scope. -/
def concluded (s : Session) (c : ScopeId) (f : Fact) : Session :=
  s.modifyScope c fun scope => { scope with conclusions := scope.conclusions ++ [f] }

/-- The session with a new innermost scope. -/
def opened (s : Session) (name : String) : Session :=
  { s with scopes := s.scopes.push { name }, stack := ⟨s.scopes.size⟩ :: s.stack }

/-- Enters what closing a scope restates, one statement after another. -/
def exported (c : ScopeId) (scope : Scope) : Session → List (Fact × Proposition) → Session
  | s, [] => s
  | s, (t, p) :: rest =>
      exported c scope (s.certified p { rule := .closeScope, first := some t.id, closed := [c] }
        ((s.dependencies t.id).filter (· ∉ scope.assumptions.map Fact.id))) rest

theorem Proves.exported {s : Session} {c : ScopeId} {scope : Scope} {f : Fact} (h : s.Proves f)
    (statements : List (Fact × Proposition)) : (exported c scope s statements).Proves f := by
  induction statements generalizing s with
  | nil => exact h
  | cons x statements ih => exact ih (h.certified _ _ _)

theorem proves_nextFact (s : Session) (p : Proposition) (i : Inference FactId)
    (d : List FactId) : (s.certified p i d).Proves (s.nextFact p) :=
  ⟨_, (entry?_certified s p i d _).trans (if_pos rfl), rfl, rfl⟩

/-- What closing a scope restates a fact as. -/
def Restates (scope : Scope) (t : Fact) (x : Fact × Proposition) : Prop :=
  x.1 = t ∧ scope.generalise t.statement = .ok x.2

theorem restates_of_mem {scope : Scope} {ts : List Fact} {statements : List (Fact × Proposition)}
    (h : List.Forall₂ (Restates scope) ts statements) {x : Fact × Proposition}
    (hx : x ∈ statements) : x.1 ∈ ts ∧ Restates scope x.1 x := by
  induction h with
  | nil => cases hx
  | cons hfirst _ ih =>
      rcases List.mem_cons.mp hx with rfl | hx
      · rw [hfirst.1]
        exact ⟨by simp, hfirst⟩
      · exact ⟨List.mem_cons_of_mem _ (ih hx).1, (ih hx).2⟩

/-- What one call can do to a session. -/
inductive Change (s : Session) : Call → Session → Prop
  | aside {call : Call} {t : Session} : s.Aside t → s.fresh ≤ t.fresh → Change s call t
  | tactic {t : Tactic} {u : Session} : Extends (· = t.rule) s u → Change s (.tactic t) u
  | postulate {p : Proposition} :
      Change s (.postulate p) (s.certified p { rule := .postulate } [])
  | suppose {p : Proposition} : s.stack = [] → Change s (.assume p) (s.supposed p)
  | assumeIn {call : Call} {c : ScopeId} {scope : Scope} {p : Proposition} :
      call = .assume p ∨ call = .assumeIn c p → s.Innermost c scope →
      Change s call ((s.supposed p).noted c (.assumed (s.nextFact p)))
  | openScope {name : String} : Change s (.openScope name) (s.opened name)
  | introduce {call : Call} {t : Session} {c : ScopeId} {scope : Scope} {v : Variable} :
      call = .introduce c v ∨ (∃ name, call = .letVariable c name) → s.Aside t →
      s.Innermost c scope → s.fresh ≤ t.fresh → Change s call (t.noted c (.introduced v))
  | conclude {c : ScopeId} {scope : Scope} {p : Option Proposition} {f : Fact} :
      s.Innermost c scope → s.Proves f → Change s (.conclude c p) (s.concluded c f)
  | close {c : ScopeId} {scope : Scope} {statements : List (Fact × Proposition)}
      {results : List Fact} : s.Innermost c scope →
      List.Forall₂ (Restates scope) (s.targets scope) statements →
      Change s (.close c)
        ((exported c scope (s.retract c) statements).modifyScope c ({ · with results }))
  | discard {c : ScopeId} {scope : Scope} : s.scope? c = some scope → scope.closed = false →
      Change s (.discard c) (s.retract c)
  | speculateFrom : s.speculation = none →
      Change s .speculateFrom { s with speculation := some [] }
  | settle {keep : List FactId} : Change s (.settle keep) (s.settled keep)

section Calls
variable (s : Session)

theorem getScope_reads (c : ScopeId) :
    Reads (getScope c) s fun scope => scope.closed = false → s.scope? c = some scope := by
  unfold getScope
  refine .get_bind (.pure ?_)
  cases h : s.scope? c with
  | none => simp
  | some scope => simp

theorem requireInnermost_reads (c : ScopeId) : Reads (requireInnermost c) s (s.Innermost c) := by
  unfold requireInnermost
  refine .bind (getScope_reads s c) fun scope hscope => .guard fun hopen => .get_bind ?_
  refine .guard fun htop => .pure ?_
  have hclosed : scope.closed = false := by simpa using hopen
  exact ⟨hscope hclosed, hclosed, by simpa using htop⟩

theorem results_reads (c : ScopeId) : Reads (results c) s fun _ => True := by
  unfold results
  refine .bind (getScope_reads s c) fun scope _ => ?_
  split
  next => exact .pure trivial
  next => exact .throw

/-- A call whose failure leaves everything as it was. -/
def Answers {α : Type} (call : Call) (a : Action α) (s : Session) : Prop :=
  Ensures a s (fun _ t => Change s call t) s.Spares

theorem Answers.change {α : Type} {call : Call} {a : Action α} {s : Session}
    (h : Answers call a s) : Change s call (after a s) :=
  Ensures.left (h.mono (fun _ _ ht => ht) fun _ ht => .aside ht.aside ht.1)

theorem change_refl (call : Call) : Change s call s :=
  .aside (.refl s) (Nat.le_refl _)

theorem introduce_answers (call : Call) (c : ScopeId) (v : Variable)
    (h : call = .introduce c v ∨ ∃ name, call = .letVariable c name) {t : Session}
    (ht : s.Spares t) :
    Ensures (introduce c v) t (fun _ u => Change s call u) s.Spares := by
  unfold introduce
  refine (requireInnermost_reads t c).ensures_bind ht fun scope hscope => ?_
  refine .get_bind (.guard ht fun _ => ?_)
  split
  next => exact .breach ht
  next =>
    have hinnermost : s.Innermost c scope := by
      rw [ht.2] at hscope
      exact hscope
    exact .modify (.introduce h ht.aside hinnermost ht.1)

theorem assumeIn_answers (call : Call) (c : ScopeId) (p : Proposition)
    (h : call = .assume p ∨ call = .assumeIn c p) : Answers call (assumeIn c p) s := by
  unfold assumeIn
  refine (requireInnermost_reads s c).ensures_bind (Spares.refl s) fun scope hscope => ?_
  refine .get_bind ?_
  have hrest : Ensures (do let fact ← suppose p; note c (.assumed fact); Pure.pure fact) s
      (fun _ t => Change s call t) s.Spares := by
    have hsuppose : Ensures (suppose p) s (fun f t => f = s.nextFact p ∧ t = s.supposed p)
        s.Spares := .suppose ⟨rfl, rfl⟩
    apply hsuppose.bind
    rintro f t ⟨rfl, rfl⟩
    exact Change.assumeIn h hscope
  cases p.freeVariables.find? s.isRetired with
  | some v => exact Spares.refl s
  | none =>
      cases scope.memberOf? p with
      | none => exact hrest
      | some v => exact .guard (Spares.refl s) fun _ => hrest

theorem assume_answers (p : Proposition) : Answers (.assume p) (assume p) s := by
  unfold assume
  refine .get_bind ?_
  split
  next top rest hstack => exact assumeIn_answers s (.assume p) top p (.inl rfl)
  next hstack => exact .suppose (.suppose hstack)

theorem conclude_answers (c : ScopeId) (p : Option Proposition) :
    Answers (.conclude c p) (conclude c p) s := by
  unfold conclude
  refine (requireInnermost_reads s c).ensures_bind (.refl s) fun scope hscope => ?_
  refine (require_reads _ p s).ensures_bind (.refl s) fun f hf => ?_
  exact .modify (.conclude hscope hf)

/-- What is restated outside a scope is what was put together inside, and counts as proven. -/
theorem export_ensures (c : ScopeId) (scope : Scope) (statements : List (Fact × Proposition))
    (s : Session) :
    Ensures (statements.mapM fun (t, p) => do
        let dependencies :=
          ((← get).dependencies t.id).filter (· ∉ scope.assumptions.map Fact.id)
        certify p { rule := .closeScope, first := some t.id, closed := [c] } dependencies) s
      (fun fs t => t = exported c scope s statements ∧ (∀ f ∈ fs, t.Proves f) ∧
        fs.map Fact.statement = statements.map fun x => x.2.strip) fun _ => False := by
  induction statements generalizing s with
  | nil => exact ⟨rfl, by simp, rfl⟩
  | cons x statements ih =>
      obtain ⟨t, p⟩ := x
      rw [List.mapM_cons]
      have hfirst : Ensures (do
          let dependencies :=
            ((← get).dependencies t.id).filter (· ∉ scope.assumptions.map Fact.id)
          certify p { rule := .closeScope, first := some t.id, closed := [c] } dependencies) s
          (fun f u => u.Proves f ∧ f.statement = p.strip ∧
            u = s.certified p { rule := .closeScope, first := some t.id, closed := [c] }
              ((s.dependencies t.id).filter (· ∉ scope.assumptions.map Fact.id)))
          fun _ => False := .get_bind (.certify ⟨proves_nextFact s p _ _, rfl, rfl⟩)
      apply hfirst.bind
      rintro f u ⟨hf, hstatement, rfl⟩
      apply (ih _).bind
      rintro fs v ⟨rfl, hfs, hstatements⟩
      refine .pure ⟨rfl, fun g hg => ?_, ?_⟩
      · rcases List.mem_cons.mp hg with rfl | hg
        · exact hf.exported statements
        · exact hfs g hg
      · rw [List.map_cons, List.map_cons, hstatement, hstatements]

theorem generalise_reads (scope : Scope) (targets : List Fact) :
    Reads (targets.mapM fun t =>
      match scope.generalise t.statement with
      | .ok p => Pure.pure (t, p)
      | .error b => breach scope b) s (List.Forall₂ (Restates scope) targets) := by
  refine .mapM fun t _ => ?_
  split
  next p hp => exact .pure ⟨rfl, hp⟩
  next => exact .throw

theorem close_answers (c : ScopeId) : Answers (.close c) (close c) s := by
  unfold close
  refine (getScope_reads s c).ensures_bind (.refl s) fun scope hscope => ?_
  split
  next => exact .pure (change_refl s _)
  next hopen =>
    have hclosed : scope.closed = false := by simpa using hopen
    refine .get_bind (.guard (.refl s) fun htop => ?_)
    have hinnermost : s.Innermost c scope := ⟨hscope hclosed, hclosed, by simpa using htop⟩
    have hrestate := generalise_reads s scope (s.targets scope)
    refine hrestate.ensures_bind (.refl s) fun statements hstatements => ?_
    refine .modify_bind ?_
    have hexport := (export_ensures c scope statements (s.retract c)).mono (fun _ _ h => h)
      (fun t (h : False) => (h.elim : s.Spares t))
    apply hexport.bind
    rintro results u ⟨rfl, -⟩
    exact .modify (.close hinnermost hstatements)

theorem discard_answers (c : ScopeId) : Answers (.discard c) (discard c) s := by
  unfold discard
  refine (getScope_reads s c).ensures_bind (.refl s) fun scope hscope => ?_
  split
  next => exact .pure (change_refl s _)
  next hopen =>
    have hclosed : scope.closed = false := by simpa using hopen
    exact .modify (.discard (hscope hclosed) hclosed)

theorem speculateFrom_answers : Answers .speculateFrom speculateFrom s := by
  cases h : s.speculation with
  | none =>
      have hrun : speculateFrom s = .ok true { s with speculation := some [] } := by
        simp [speculateFrom, modifyGet_run, h]
      simpa only [Answers, Ensures, hrun] using Change.speculateFrom h
  | some derived =>
      have hrun : speculateFrom s = .ok false s := by
        simp [speculateFrom, modifyGet_run, h]
      simpa only [Answers, Ensures, hrun] using change_refl s _

theorem letVariable_answers (c : ScopeId) (name : String) :
    Answers (.letVariable c name) (letVariable c name) s := by
  have hnew : Ensures (newVariable name) s (fun _ t => s.Spares t) s.Spares :=
    ⟨Nat.le_succ _, rfl⟩
  unfold letVariable
  refine hnew.bind fun v t ht => ?_
  refine (introduce_answers s _ c v (.inr ⟨name, rfl⟩) ht).bind fun _ u hu => ?_
  exact .pure hu

end Calls

/-- Every call changes the session in one of the ways listed. -/
theorem Call.change (call : Call) (s : Session) : Change s call (call.apply s) := by
  cases call with
  | postulate p => exact Answers.change (Ensures.certify .postulate)
  | assume p => exact (assume_answers s p).change
  | openScope name => exact .openScope
  | introduce c v => exact Answers.change (introduce_answers s _ c v (.inl rfl) (.refl s))
  | letVariable c name => exact (letVariable_answers s c name).change
  | assumeIn c p => exact (assumeIn_answers s _ c p (.inr rfl)).change
  | conclude c p => exact (conclude_answers s c p).change
  | close c => exact (close_answers s c).change
  | discard c => exact (discard_answers s c).change
  | speculateFrom => exact (speculateFrom_answers s).change
  | settle keep => exact .settle
  | newVariable name => exact .aside ⟨_, _, _, rfl⟩ (Nat.le_succ _)
  | setOrder order => exact .aside ⟨_, _, _, rfl⟩ (Nat.le_refl _)
  | tactic t => exact .tactic (t.apply_extends s)

/-- A deduction that does no more than some run of allowed calls, in whatever session. -/
def Performs {α : Type} (allowed : Call → Prop) (a : Action α) : Prop :=
  ∀ s, ∃ calls, (∀ c ∈ calls, allowed c) ∧ after a s = run s calls

section Performs
variable {α β : Type} {allowed : Call → Prop}

theorem Performs.one {a : Action α} (call : Call) (h : allowed call)
    (ha : ∀ s, after a s = call.apply s) : Performs allowed a :=
  fun s => ⟨[call], by simpa using h, ha s⟩

theorem Performs.pure (x : α) : Performs allowed (Pure.pure x : Action α) :=
  fun _ => ⟨[], by simp, rfl⟩

theorem Performs.reads {a : Action α} {P : α → Prop} (h : ∀ s, Reads a s P) :
    Performs allowed a := by
  intro s
  have hleft : after a s = s := (Ensures.mono (h s) (fun _ _ ht => ht.1) fun _ ht => ht).left
  exact ⟨[], by simp, hleft⟩

theorem Performs.throw (e : Failure) : Performs allowed (MonadExcept.throw e : Action α) :=
  fun _ => ⟨[], by simp, rfl⟩

/-- What follows a run in the session that it left makes a longer run. -/
theorem after_eq_run {a : Action α} {s t : Session} {calls : List Call} {b : Action β}
    (hcalls : ∀ c ∈ calls, allowed c) (hrun : t = run s calls) (hb : Performs allowed b)
    (ha : after a s = after b t) :
    ∃ calls, (∀ c ∈ calls, allowed c) ∧ after a s = run s calls := by
  obtain ⟨more, hmore, hafter⟩ := hb t
  refine ⟨calls ++ more, ?_, ?_⟩
  · intro c hc
    rcases List.mem_append.mp hc with hc | hc
    · exact hcalls c hc
    · exact hmore c hc
  · rw [run_append, ← hrun, ← hafter, ha]

theorem Performs.bind {a : Action β} {k : β → Action α} (ha : Performs allowed a)
    (hk : ∀ x, Performs allowed (k x)) : Performs allowed (a >>= k) := by
  intro s
  obtain ⟨calls, hcalls, hrun⟩ := ha s
  change ∃ calls, _ ∧ after (EStateM.bind a k) s = _
  unfold after at hrun
  cases h : a s with
  | ok x t =>
      rw [h] at hrun
      exact after_eq_run hcalls hrun (hk x) (by simp only [after, EStateM.bind, h])
  | error e t =>
      rw [h] at hrun
      exact ⟨calls, hcalls, by simpa only [after, EStateM.bind, h] using hrun⟩

theorem Performs.tryCatch {a : Action α} {handle : Failure → Action α} (ha : Performs allowed a)
    (hh : ∀ e, Performs allowed (handle e)) :
    Performs allowed (MonadExcept.tryCatch a handle) := by
  intro s
  obtain ⟨calls, hcalls, hrun⟩ := ha s
  change ∃ calls, _ ∧ after (EStateM.tryCatch a handle) s = _
  unfold after at hrun
  cases h : a s with
  | ok x t =>
      rw [h] at hrun
      exact ⟨calls, hcalls, by simpa only [after, EStateM.tryCatch, h] using hrun⟩
  | error e t =>
      rw [h] at hrun
      exact after_eq_run hcalls hrun (hh e) (by simp only [after, EStateM.tryCatch, h]; rfl)

/-- Running a body inside a scope of its own is a run, if running the body is one. -/
theorem Performs.within {name : String} {body : ScopeId → Action Unit}
    (hopen : allowed (.openScope name)) (hclose : ∀ c, allowed (.close c))
    (hdiscard : ∀ c, allowed (.discard c)) (hbody : ∀ c, Performs allowed (body c)) :
    Performs allowed (within name body) := by
  have hgiveUp : ∀ {γ : Type} (c : ScopeId) (e : Failure),
      Performs allowed (do Session.discard c; MonadExcept.throw e : Action γ) := fun c e =>
    .bind (.one (.discard c) (hdiscard c) fun _ => rfl) fun _ => .throw e
  unfold Session.within finish
  refine .bind (.one (.openScope name) hopen fun _ => rfl) fun c => ?_
  refine .bind (.tryCatch (hbody c) (hgiveUp c)) fun _ => ?_
  refine .bind (.tryCatch (.one (.close c) (hclose c) fun _ => rfl) (hgiveUp c)) fun _ => ?_
  exact .reads fun s => results_reads s c

/-- Running a body speculatively is a run, if running the body is one. -/
theorem Performs.speculate {body : Action (α × List FactId)} (hfrom : allowed .speculateFrom)
    (hsettle : ∀ keep, allowed (.settle keep)) (hbody : Performs allowed body) :
    Performs allowed (speculate body) := by
  unfold Session.speculate
  refine .bind (.one .speculateFrom hfrom fun _ => rfl) fun outermost => ?_
  refine .bind hbody fun ⟨result, keep⟩ => ?_
  cases outermost with
  | true => exact .bind (.one (.settle keep) (hsettle keep) fun _ => rfl) fun _ => .pure result
  | false => exact .pure result

end Performs

end Entailment.Session
