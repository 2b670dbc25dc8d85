import Entailment.Proofs.Checked
import Entailment.Proofs.WellFormed
import Entailment.Tactic.Guarded

/-!
# Tactics that withstand their checks

`Withstands` says that a tactic goes through all its checks: it ends with the very answer or failure
of the tactic without them. Most tactics withstand whatever the session is and whatever they are
given. Those that take an alternative away from a connective or make up a variable rely on the
session being well-formed.
-/
namespace Entailment

namespace Guarded
open Session (refuse)
open Checked (part lhs item)

section Rules
variable {α β : Type} {s : Session}

/-- The deduction with checks ends as the plain one does, with the same answer or failure. -/
def Withstands (a : Action α) (g : Guarded α) (s : Session) : Prop := (liftM a : Guarded α) s = g s

@[simp] theorem liftM_checked_pure (x : α) : (liftM (pure x : Checked α) : Guarded α) = pure x :=
  rfl

@[simp] theorem liftM_pure (x : α) : (liftM (pure x : Action α) : Guarded α) = pure x := rfl

theorem liftM_run (a : Action α) (s : Session) :
    (liftM a : Guarded α) s = match a s with
      | .error e t => .error (.failed e) t
      | .ok x t => .ok x t := by
  change EStateM.adaptExcept _ a s = _
  unfold EStateM.adaptExcept
  cases a s <;> rfl

theorem bind_run {ε : Type} (a : EStateM ε Session α) (k : α → EStateM ε Session β) (s : Session) :
    (a >>= k) s = match a s with
      | .ok x t => k x t
      | .error e t => .error e t := by
  change EStateM.bind a k s = _
  unfold EStateM.bind
  cases a s <;> rfl

@[simp] theorem liftM_bind (a : Action α) (k : α → Action β) :
    (liftM (a >>= k) : Guarded β) = liftM a >>= fun x => liftM (k x) := by
  funext s
  rw [liftM_run, bind_run, bind_run, liftM_run]
  cases a s with
  | ok x t => exact (liftM_run (k x) t).symm
  | error e t => rfl

@[simp] theorem liftM_ite (c : Prop) [Decidable c] (a b : Action α) :
    (liftM (if c then a else b) : Guarded α) = if c then liftM a else liftM b :=
  apply_ite _ c a b

@[simp] theorem liftM_throw (e : Failure) :
    (liftM (throw e : Action α) : Guarded α) = throw (.failed e) := rfl

@[simp] theorem throw_bind (e : Halt) (g : α → Guarded β) :
    (throw e : Guarded α) >>= g = throw e := rfl

@[simp] theorem liftM_refuse (r : Rule) (o : Obstacle) (fs : List Fact) :
    (liftM (refuse r o fs : Action α) : Guarded α) =
      throw (.failed (.tactic r o (fs.map fun f => some f.statement))) := rfl

theorem liftM_mapM (f : α → Action β) (xs : List α) :
    (liftM (xs.mapM f) : Guarded (List β)) = xs.mapM fun x => liftM (f x) := by
  induction xs with
  | nil => rfl
  | cons x xs ih => simp only [List.mapM_cons, liftM_bind, liftM_pure, ih]

theorem Withstands.of_eq {g : Guarded α} {a : Action α} (h : liftM a = g) : Withstands a g s := by
  rw [Withstands, h]

theorem Withstands.bind {a : Action β} {b : Guarded β} {k : β → Action α} {g : β → Guarded α}
    (hb : Withstands a b s) (hk : ∀ x t, a s = .ok x t → Withstands (k x) (g x) t) :
    Withstands (a >>= k) (b >>= g) s := by
  unfold Withstands at hb ⊢
  rw [liftM_bind, bind_run, bind_run, ← hb, liftM_run]
  cases hrun : a s with
  | ok x t => exact hk x t hrun
  | error e t => rfl

/-- What a plain deduction finds out can be relied on afterwards. -/
theorem Withstands.after {a : Action β} {k : β → Action α} {g : β → Guarded α} {P : β → Prop}
    (ha : Session.Reads a s P) (h : ∀ x, P x → Withstands (k x) (g x) s) :
    Withstands (a >>= k) (liftM a >>= g) s := by
  refine .bind rfl fun x t hrun => ?_
  obtain ⟨rfl, hx⟩ := Session.Ensures.answer ha hrun
  exact h x hx

theorem Withstands.require {r : Rule} {p : Option Proposition} {k : Fact → Action α}
    {g : Fact → Guarded α} (h : ∀ f, s.Proves f → Withstands (k f) (g f) s) :
    Withstands (Session.require r p >>= k) (liftM (Session.require r p) >>= g) s :=
  .after (Session.require_reads r p s) h

theorem Withstands.get_bind {k : Session → Action α} {g : Session → Guarded α}
    (h : Withstands (k s) (g s) s) :
    Withstands (MonadState.get >>= k) (liftM (MonadState.get : Action Session) >>= g) s := by
  refine .bind rfl fun x t hrun => ?_
  cases hrun
  exact h

theorem Withstands.guard {c : Prop} [Decidable c] {e : Failure} {k : PUnit → Action α}
    {g : PUnit → Guarded α} (h : ¬c → Withstands (k ⟨⟩) (g ⟨⟩) s) :
    Withstands (if c then throw e >>= k else k ⟨⟩)
      (if c then throw (.failed e) >>= g else g ⟨⟩) s := by
  split
  next => rfl
  next hc => exact h hc

theorem Withstands.pass {c : Prop} [Decidable c] {e : Halt} {a : Action α} {g : PUnit → Guarded α}
    (hc : ¬c) (h : Withstands a (g ⟨⟩) s) :
    Withstands a (if c then throw e >>= g else g ⟨⟩) s := by
  rw [if_neg hc]
  exact h

end Rules

section Tactics

/-- A deduction with one result. -/
def alone (g : Guarded Fact) : Guarded (List Fact) := return [← g]

/-- The deduction that a tactic is, with all its checks. -/
def perform : Session.Tactic → Guarded (List Fact)
  | .modusPonens p imp => alone (modusPonens p imp)
  | .modusTollens notQ imp => alone (modusTollens notQ imp)
  | .hypotheticalSyllogism ab bc => alone (hypotheticalSyllogism ab bc)
  | .followedFrom p assumptions => alone (followedFrom p assumptions)
  | .conjoin ps => alone (conjoin ps)
  | .extract p i => alone (extract p i)
  | .split p => split p
  | .disjoin p alternatives => alone (disjoin p alternatives)
  | .resolve p refutations => alone (resolveBy .resolve p refutations)
  | .unitResolve p refutation => alone (unitResolve p refutation)
  | .resolveClauses lhs rhs => alone (resolveClauses lhs rhs)
  | .exorEliminate exor p => alone (exorEliminate exor p)
  | .doubleNegation p => alone (doubleNegation p)
  | .contrapositive imp => alone (contrapositive imp)
  | .iffIntro ab ba => alone (iffIntro ab ba)
  | .iffForward p => alone (iffForward p)
  | .iffBackward p => alone (iffBackward p)
  | .contradicts p q => alone (contradicts p q)
  | .thusAssumptionsCannotAllHold c => alone (thusAssumptionsCannotAllHold c)
  | .thusForall p v => alone (thusForall p v)
  | .thusThereExists p name witness paths => alone (thusThereExists p name witness paths)
  | .thusThereExistsIn p name witness set given paths =>
      alone (thusThereExistsIn p name witness set given paths)
  | .inParticular p t facts => alone (inParticular p t facts)
  | .isSpecialCaseOf p universal facts => alone (isSpecialCaseOf p universal facts)
  | .quantifiedModusPonens universal p facts => alone (quantifiedModusPonens universal p facts)
  | .existentialElimination existential universal =>
      alone (existentialElimination existential universal)
  | .reflexivity t => alone (Session.reflexivity t)
  | .symmetry p => alone (symmetry p)
  | .substitute equality p paths => alone (substitute equality p paths)
  | .bySimplification p => alone (bySimplification p)
  | .transitiveIn order want links => alone (transitiveIn order want links)
  | .transitive want links => alone (transitive want links)

theorem Withstands.alone {s : Session} {a : Action Fact} {g : Guarded Fact}
    (h : Withstands a g s) : Withstands (Session.Tactic.alone a) (alone g) s :=
  .bind h fun _ _ _ => rfl

end Tactics

section PropositionalWithstands
variable (s : Session)

theorem modusPonens_withstands (p imp : Option Proposition) :
    Withstands (Session.modusPonens p imp) (modusPonens p imp) s := by
  unfold Session.modusPonens modusPonens
  refine .require fun p _ => .require fun imp _ => .of_eq ?_
  split
  next a b m himp => simp [himp, Checked.equal_eq_pure]
  next hother => simp [Checked.kind_ne .implies fun ⟨a, b, m, h⟩ => hother a b m h]

theorem modusTollens_withstands (notQ imp : Option Proposition) :
    Withstands (Session.modusTollens notQ imp) (modusTollens notQ imp) s := by
  unfold Session.modusTollens modusTollens
  refine .require fun notQ _ => .require fun imp _ => .of_eq ?_
  split
  next a b m himp =>
    split
    next q m' hnot => simp [himp, hnot, Checked.equal_eq_pure]
    next hother => simp [himp, Checked.kind_ne .not fun ⟨a, m, h⟩ => hother a m h]
  next hother => simp [Checked.kind_ne .implies fun ⟨a, b, m, h⟩ => hother a b m h]

theorem kinds_ne_implies {p q : Proposition}
    (h : ∀ a b m c d m', p = .implies a b m → q = .implies c d m' → False) :
    p.kind ≠ .implies ∨ q.kind ≠ .implies := by
  by_contra hboth
  rw [not_or, not_not, not_not] at hboth
  obtain ⟨a, b, m, hp⟩ := Checked.hasForm hboth.1
  obtain ⟨c, d, m', hq⟩ := Checked.hasForm hboth.2
  exact h a b m c d m' hp hq

theorem hypotheticalSyllogism_withstands (ab bc : Option Proposition) :
    Withstands (Session.hypotheticalSyllogism ab bc) (hypotheticalSyllogism ab bc) s := by
  unfold Session.hypotheticalSyllogism hypotheticalSyllogism
  refine .require fun ab _ => .require fun bc _ => .of_eq ?_
  split
  next a b m b' c m' hab hbc => simp [hab, hbc, Checked.equal_eq_pure]
  next hother => simp [kinds_ne_implies hother]

theorem followedFrom_withstands (p : Option Proposition) (assumptions : List (Option Proposition)) :
    Withstands (Session.followedFrom p assumptions) (followedFrom p assumptions) s := by
  unfold Session.followedFrom followedFrom
  refine .require fun p _ => .guard fun hne => ?_
  refine .after (.mapM fun a _ => Session.requireAssumption_reads s a) fun facts hfacts => ?_
  cases facts with
  | nil => simp [List.forall₂_nil_right_iff.mp hfacts] at hne
  | cons a rest => exact .of_eq (by simp [Checked.join_and])

theorem conjoin_withstands (ps : List (Option Proposition)) :
    Withstands (Session.conjoin ps) (conjoin ps) s := by
  unfold Session.conjoin conjoin
  refine .guard fun hlength => .after (Session.requireAll_reads _ _ s) fun facts ⟨hfacts, _⟩ => ?_
  have hmany : 2 ≤ (facts.map Fact.statement).length := by rw [List.length_map, hfacts]; omega
  rw [Checked.junction_map_some .and hmany]
  cases facts with
  | nil => exact absurd hfacts (by simp; omega)
  | cons f fs => exact .of_eq (by simp)

theorem extract_withstands (p : Option Proposition) (i : Int) :
    Withstands (Session.extract p i) (extract p i) s := by
  unfold Session.extract Session.requireConjuncts extract
  rw [bind_assoc]
  refine .require fun p _ => .of_eq ?_
  split
  next members m hp =>
    have hkind : p.statement.kind = .and := by rw [hp]; rfl
    have hchildren : p.statement.children = members := by rw [hp]; rfl
    rw [pure_bind]
    by_cases hrange : i < 0 ∨ (members.length : Int) ≤ i
    · have hnone : (if i < 0 then none else members[i.toNat]?) = none := by
        split
        next => rfl
        next => exact List.getElem?_eq_none (by omega)
      simp [hkind, hchildren, hrange, hnone]
    · have hlt : i.toNat < members.length := by omega
      have hsome : (if i < 0 then none else members[i.toNat]?) = some members[i.toNat] := by
        rw [if_neg fun hneg => hrange (.inl hneg), List.getElem?_eq_getElem hlt]
      have hpart : part p.statement i.toNat = pure members[i.toNat] := by
        rw [part, hchildren, Checked.item_of_getElem? (List.getElem?_eq_getElem hlt)]
      simp [hkind, hchildren, hrange, hsome, hpart]
  next hother => simp [Checked.kind_ne .and fun ⟨ps, m, h⟩ => hother ps m h]

theorem split_withstands (p : Option Proposition) : Withstands (Session.split p) (split p) s := by
  unfold Session.split Session.requireConjuncts split
  rw [bind_assoc]
  refine .require fun p _ => .of_eq ?_
  split
  next members m hp => simp [hp, Connective.kind, Proposition.children]
  next hother => simp [Checked.kind_ne .and fun ⟨ps, m, h⟩ => hother ps m h]

/-- Alternatives that are all there make a disjunction. -/
theorem disjoin_withstands (p : Option Proposition) (alternatives : List Proposition) :
    Withstands (Session.disjoin p (alternatives.map some)) (disjoin p (alternatives.map some))
      s := by
  unfold Session.disjoin disjoin
  refine .require fun p _ => .guard fun hne => ?_
  have hlength : 2 ≤ (p.statement :: alternatives).length := by
    cases alternatives with
    | nil => simp at hne
    | cons a rest => simp
  have hplain := Checked.junction?_map_some .or hlength
  have hchecked := Checked.junction_map_some .or hlength
  rw [List.map_cons] at hplain hchecked
  exact .of_eq (by simp [hplain, hchecked])

theorem refuted_eq (rule : Rule) (alone : Bool) (r : Fact) :
    liftM (Session.refuted rule alone r) = refuted rule alone r := by
  unfold Session.refuted refuted
  split
  next p m hr => simp [hr]
  next members m hr =>
    have hkind : r.statement.kind = .and := by rw [hr]; rfl
    have hchildren : r.statement.children = members := by rw [hr]; rfl
    simp only [liftM_mapM, hkind, hchildren, and_self, if_true, reduceCtorEq, if_false]
    refine congrArg (fun f => members.mapM f) (funext fun c => ?_)
    split
    next => simp
    next hother => simp [Checked.kind_ne .not fun ⟨a, m, h⟩ => hother a m h]
  next alone _ _ hnot hand =>
    have halone : r.statement.kind = .and → alone = false := by
      intro hkind
      obtain ⟨ps, m, hr⟩ := Checked.hasForm hkind
      exact Bool.eq_false_iff.mpr (hand ps m hr)
    by_cases hkind : r.statement.kind = .and
    · simp [hkind, halone hkind]
    · simp [Checked.kind_ne .not fun ⟨a, m, h⟩ => hnot a m h, hkind]

theorem removeRefuted_eq (rule : Rule) (disjunction : Fact) (ns ps : List Proposition) :
    liftM (Session.removeRefuted rule disjunction ns ps) =
      removeRefuted rule disjunction ns ps := by
  induction ns generalizing ps with
  | nil => rfl
  | cons n ns ih =>
      simp [Session.removeRefuted, removeRefuted, funext (Checked.equal_eq_pure n),
        Checked.discard_eq_pure, ih]

theorem resolveBy_withstands (rule : Rule) (p : Option Proposition)
    (refutations : List (Option Proposition)) :
    Withstands (Session.resolveBy rule p refutations) (resolveBy rule p refutations) s := by
  unfold Session.resolveBy resolveBy
  refine .require fun p _ => ?_
  split
  next members m hp =>
    refine .pass (by simp [hp, Connective.kind]) (.guard fun _ => ?_)
    refine .after (Session.requireAll_reads _ _ s) fun facts _ => ?_
    refine .bind (.of_eq ?_) fun negated t _ => .bind (.of_eq ?_) fun remaining u _ => ?_
    · simp only [liftM_mapM, refuted_eq]
    · rw [removeRefuted_eq, hp]
      rfl
    · cases remaining with
      | nil => rfl
      | cons first rest => exact .of_eq (by simp [Checked.join_or])
  next hother => exact .of_eq (by simp [Checked.kind_ne .or fun ⟨ps, m, h⟩ => hother ps m h])

theorem unitResolve_withstands (p refutation : Option Proposition) :
    Withstands (Session.unitResolve p refutation) (unitResolve p refutation) s := by
  unfold Session.unitResolve unitResolve
  split
  next r m => exact resolveBy_withstands s _ p _
  next => exact resolveBy_withstands s _ p _
  next r hother =>
    have hkind : r.kind ≠ .not := Checked.kind_ne .not fun ⟨a, m, h⟩ => hother a m h
    exact .of_eq (by simp [hkind])

theorem literals_eq (p : Proposition) : literals p = Session.literals p := by
  unfold literals Session.literals
  split
  next hkind =>
    obtain ⟨ps, m, rfl⟩ := Checked.hasForm hkind
    rfl
  next hkind =>
    split
    next => exact absurd rfl hkind
    next => rfl

theorem lt_of_clash? {ls rs : List Proposition} {i j : Nat}
    (h : Session.clash? ls rs = some (i, j)) : i < ls.length ∧ j < rs.length := by
  obtain ⟨⟨l, k⟩, hmem, hfound⟩ := List.exists_of_findSome?_eq_some h
  obtain ⟨j', hj', hpair⟩ := Option.map_eq_some_iff.mp hfound
  obtain ⟨rfl, rfl⟩ := Prod.mk.inj hpair
  exact ⟨by simpa using List.snd_lt_of_mem_zipIdx hmem,
    (List.findIdx?_eq_some_iff_getElem.mp hj').choose⟩

theorem resolveClauses_withstands (lhs rhs : Option Proposition) :
    Withstands (Session.resolveClauses lhs rhs) (resolveClauses lhs rhs) s := by
  unfold Session.resolveClauses resolveClauses
  refine .require fun p _ => .require fun q _ => .of_eq ?_
  simp only [literals_eq, Checked.clash_eq_pure, liftM_checked_pure, pure_bind]
  cases hclash : Session.clash? (Session.literals p.statement) (Session.literals q.statement) with
  | none => rfl
  | some found =>
      obtain ⟨hi, hj⟩ := lt_of_clash? hclash
      simp only [Checked.without_of_lt hi, Checked.without_of_lt hj, Checked.distinct_eq_pure,
        liftM_checked_pure, pure_bind]
      split
      next hnone => simp [hnone]
      next first rest hsome => simp [hsome, Checked.join_or]

/-- An exclusive disjunction of two or more has others to refute. -/
theorem exorEliminate_withstands (h : s.WellFormed) (exor p : Option Proposition) :
    Withstands (Session.exorEliminate exor p) (exorEliminate exor p) s := by
  unfold Session.exorEliminate exorEliminate
  refine .require fun exor hexor => .require fun p _ => .of_eq ?_
  split
  next members m hstatement =>
    have hlength : 2 ≤ members.length := by
      have hexclusive := h.lists hexor.lists
      rw [hstatement, Proposition.isWellFormed_junction] at hexclusive
      exact hexclusive.1
    have hkind : exor.statement.kind = .exor := by rw [hstatement]; rfl
    have hchildren : exor.statement.children = members := by rw [hstatement]; rfl
    simp only [hkind, hchildren, ne_eq, not_true_eq_false, if_false, Proposition.indexIn?,
      funext (Checked.equal_eq_pure p.statement), Checked.position_pure, liftM_checked_pure,
      pure_bind]
    cases hindex : members.findIdx? p.statement.equal with
    | none => rfl
    | some i =>
        have hlt : i < members.length := (List.findIdx?_eq_some_iff_getElem.mp hindex).choose
        cases hrest : (members.eraseIdx i).map fun c => Proposition.not c with
        | nil =>
            have := congrArg List.length hrest
            rw [List.length_map, List.length_eraseIdx_of_lt hlt, List.length_nil] at this
            omega
        | cons first rest => simp [hrest, Checked.join_and]
  next hother =>
    have hkind : exor.statement.kind ≠ .exor := by
      refine Checked.kind_ne .exor ?_
      rintro ⟨ps, m, h⟩
      exact hother ps m h
    simp [hkind]

theorem doubleNegation_withstands (p : Option Proposition) :
    Withstands (Session.doubleNegation p) (doubleNegation p) s := by
  unfold Session.doubleNegation doubleNegation
  refine .require fun p _ => .of_eq ?_
  split
  next a m m' hp => simp [hp]
  next hother =>
    by_cases hkind : p.statement.kind = .not
    · obtain ⟨a, m, hp⟩ := Checked.hasForm hkind
      have hinner : a.kind ≠ .not :=
        Checked.kind_ne .not fun ⟨b, m', ha⟩ => hother b m' m (ha ▸ hp)
      simp [hp, hinner]
    · simp [hkind]

theorem contrapositive_withstands (imp : Option Proposition) :
    Withstands (Session.contrapositive imp) (contrapositive imp) s := by
  unfold Session.contrapositive contrapositive
  refine .require fun imp _ => .of_eq ?_
  split
  next a b m himp => simp [himp]
  next hother => simp [Checked.kind_ne .implies fun ⟨a, b, m, h⟩ => hother a b m h]

theorem iffIntro_withstands (ab ba : Option Proposition) :
    Withstands (Session.iffIntro ab ba) (iffIntro ab ba) s := by
  unfold Session.iffIntro iffIntro
  refine .require fun ab _ => .require fun ba _ => .of_eq ?_
  split
  next a b m b' a' m' hab hba =>
    simp only [hab, hba, Checked.kind_implies, ne_eq, not_true_eq_false, or_self, if_false,
      Checked.part_implies_zero, Checked.part_implies_one, Checked.equal_eq_pure,
      liftM_checked_pure, pure_bind, liftM_ite, Bool.and_eq_true]
    cases a.equal a' <;> cases b.equal b' <;> rfl
  next hother => simp [kinds_ne_implies hother]

theorem iffForward_withstands (p : Option Proposition) :
    Withstands (Session.iffForward p) (iffForward p) s := by
  unfold Session.iffForward Session.requireBiconditional iffForward
  rw [bind_assoc]
  refine .require fun p _ => .of_eq ?_
  split
  next a b m hp => simp [hp]
  next hother => simp [Checked.kind_ne .iff fun ⟨a, b, m, h⟩ => hother a b m h]

theorem iffBackward_withstands (p : Option Proposition) :
    Withstands (Session.iffBackward p) (iffBackward p) s := by
  unfold Session.iffBackward Session.requireBiconditional iffBackward
  rw [bind_assoc]
  refine .require fun p _ => .of_eq ?_
  split
  next a b m hp => simp [hp]
  next hother => simp [Checked.kind_ne .iff fun ⟨a, b, m, h⟩ => hother a b m h]

theorem contradicts_withstands (p q : Option Proposition) :
    Withstands (Session.contradicts p q) (contradicts p q) s := by
  unfold Session.contradicts contradicts
  refine .require fun p _ => .require fun q _ => .of_eq ?_
  simp [Checked.complementary_eq_pure]

theorem thusAssumptionsCannotAllHold_withstands (c : Option Proposition) :
    Withstands (Session.thusAssumptionsCannotAllHold c) (thusAssumptionsCannotAllHold c) s := by
  unfold Session.thusAssumptionsCannotAllHold thusAssumptionsCannotAllHold
  refine .require fun c _ => ?_
  split
  next m hc =>
    refine .pass (by simp [hc]) (.get_bind (.guard fun hlength => .of_eq ?_))
    have hmany : 2 ≤ (((s.dependencies c.id).filterMap s.entry?).map fun e =>
        Proposition.not e.statement).length := by rw [List.length_map]; omega
    rw [Checked.junction_map_some .or hmany, liftM_checked_pure, pure_bind]
  next hother => exact .of_eq (by simp [Checked.kind_ne .contradiction fun ⟨m, h⟩ => hother m h])

end PropositionalWithstands

section QuantifierWithstands
variable (s : Session)

theorem isRelation_eq_false {p : Proposition} {name : String}
    (h : ∀ other l r m, p = .relation other [l, r] m → False) : p.isRelation name = false := by
  unfold Proposition.isRelation
  split
  next other l r m => exact (h other l r m rfl).elim
  next => rfl

theorem isBinary_eq_false {p : Proposition}
    (h : ∀ other l r m, p = .relation other [l, r] m → False) : p.isBinary = false := by
  unfold Proposition.isBinary Proposition.sides?
  split
  next other l r m => exact (h other l r m rfl).elim
  next => rfl

theorem matching_eq_pure (want : Proposition) (id : FactId) :
    matching s want id = pure (if s.holds id then
      ((s.entry? id).map fun e => (⟨id, e.statement⟩ : Fact)).filter fun f => f.statement.equal want
      else none) := by
  unfold matching
  cases s.entry? id with
  | none => simp
  | some e => cases s.holds id <;> simp [Checked.equal_eq_pure, Option.filter_some, apply_ite pure]

theorem lookup_eq_pure (want : Proposition) (facts : List Proposition) :
    lookup s want facts = pure (s.lookup want facts) := by
  unfold lookup Session.lookup
  simp only [Checked.equal_eq_pure, List.findM?_pure, pure_bind]
  cases (facts.filterMap s.provenFact?).find? fun f => f.statement.equal want with
  | some f => rfl
  | none =>
      simp only [funext (matching_eq_pure s want), List.findSomeM?_pure, Option.none_or]

theorem rejectFacts_eq (rule : Rule) (element set : Term) (facts : List Proposition) :
    liftM (Session.rejectFacts rule element (.rel .element element set) facts) =
      rejectFacts rule (.rel .element element set) facts := by
  induction facts with
  | nil => rfl
  | cons f facts ih =>
      unfold Session.rejectFacts rejectFacts
      rw [liftM_bind]
      refine bind_congr fun s => ?_
      have hlhs : lhs (.rel .element element set) = pure element := rfl
      cases s.isProven f with
      | false => rfl
      | true =>
          split
          next name l r m =>
            by_cases hname : name = Relation.element.name
            · simp [hname, hlhs, ih, Proposition.isRelation]
            · simp [hname, ih, Proposition.isRelation]
          next hother =>
            simp [isRelation_eq_false hother, ih]

theorem membership_eq (rule : Rule) (element set : Term) (facts : List Proposition) :
    liftM (Session.membership rule element set facts) = membership rule element set facts := by
  unfold Session.membership membership
  rw [liftM_bind]
  refine bind_congr fun s => ?_
  rw [lookup_eq_pure, liftM_checked_pure, pure_bind]
  cases s.lookup (.rel .element element set) facts with
  | some f => rfl
  | none => simp [rejectFacts_eq]

theorem memberships_eq (rule : Rule) (σ : Substitution) (facts : List Proposition)
    (layers : List (Variable × Option Term)) :
    liftM (Session.memberships rule σ facts layers) = memberships rule σ facts layers := by
  induction layers with
  | nil => rfl
  | cons layer layers ih =>
      obtain ⟨v, domain⟩ := layer
      cases domain with
      | none => exact ih
      | some set =>
          unfold Session.memberships memberships
          cases σ.find? v with
          | none => rfl
          | some t => simp only [liftM_bind, liftM_pure, membership_eq, ih]

theorem thusForall_withstands (p : Option Proposition) (v : Option Variable) :
    Withstands (Session.thusForall p v) (thusForall p v) s := by
  unfold Session.thusForall thusForall
  refine .require fun p _ => ?_
  cases v with
  | none => rfl
  | some v =>
      refine .guard fun hbinds => .of_eq ?_
      have hquantified := Checked.quantified_of_unbound .all (by simpa using hbinds)
      simp [hquantified]

theorem abstractWitness_eq (p : Fact) (name : String) (witness : Term) (paths : List Path) :
    liftM (Session.abstractWitness p name witness paths) =
      abstractWitness p name witness paths := by
  simp only [Session.abstractWitness, abstractWitness, liftM_bind, liftM_ite, liftM_refuse,
    liftM_pure, throw_bind, Checked.replace_eq_pure, Checked.equal_eq_pure, liftM_checked_pure,
    pure_bind]

/-- The new variable is bound nowhere, also after it has been put in the place of the witness. -/
theorem binds_abstracted {f : Fact} (h : s.WellFormed) (hf : s.Proves f) (name : String)
    (witness : Term) (paths : List Path) :
    (f.statement.replace witness (.var ⟨s.fresh, name⟩) paths).binds ⟨s.fresh, name⟩ = false := by
  have hstatement := h.lists hf.lists
  exact Proposition.binds_of_isWellFormed (Proposition.isWellFormed_replace _ _ _ hstatement)
    (Nat.le_refl _)

theorem thusThereExists_withstands (h : s.WellFormed) (p : Option Proposition) (name : String)
    (witness : Term) (paths : List Path) :
    Withstands (Session.thusThereExists p name witness paths)
      (thusThereExists p name witness paths) s := by
  unfold Session.thusThereExists thusThereExists
  refine .require fun p hp => .bind (.of_eq (abstractWitness_eq p name witness paths)) ?_
  rintro ⟨v, inner⟩ t hrun
  obtain ⟨-, rfl, rfl⟩ := (Session.abstractWitness_fresh p name witness paths).answer hrun
  have hbinds := binds_abstracted s h hp name witness paths
  exact .of_eq (by simp [Checked.quantified_of_unbound .exist hbinds])

theorem thusThereExistsIn_withstands (h : s.WellFormed) (p : Option Proposition) (name : String)
    (witness : Term) {set : Term} (given : Option Proposition) (paths : List Path)
    (hset : (Term.var ⟨s.fresh, name⟩).occursIn set = false) :
    Withstands (Session.thusThereExistsIn p name witness set given paths)
      (thusThereExistsIn p name witness set given paths) s := by
  unfold Session.thusThereExistsIn thusThereExistsIn
  refine .require fun p hp => .bind (.of_eq (membership_eq _ _ _ _)) fun m t hm => ?_
  obtain ⟨rfl, -⟩ := Session.Ensures.answer (Session.membership_reads _ _ _ _ _) hm
  refine .bind (.of_eq (abstractWitness_eq p name witness paths)) ?_
  rintro ⟨v, inner⟩ u hrun
  obtain ⟨-, rfl, rfl⟩ := (Session.abstractWitness_fresh p name witness paths).answer hrun
  have hbinds := binds_abstracted t h hp name witness paths
  exact .of_eq (by simp [Checked.quantified_of_unbound_in .exist hbinds hset])

theorem inParticular_withstands (p : Option Proposition) (t : Term) (facts : List Proposition) :
    Withstands (Session.inParticular p t facts) (inParticular p t facts) s := by
  unfold Session.inParticular inParticular
  refine .require fun p _ => .of_eq ?_
  split
  next v inner m hp => simp [hp, Checked.replace_eq_pure, Proposition.replaceAll]
  next v set inner m hp => simp [hp, Checked.replace_eq_pure, Proposition.replaceAll, membership_eq]
  next hplain hin =>
    split
    next v domain inner m hp =>
      cases domain with
      | none => exact (hplain v inner m hp).elim
      | some set => exact (hin v set inner m hp).elim
    next => rfl

theorem isSpecialCaseOf_withstands (p : Proposition) (universal : Option Proposition)
    (facts : List Proposition) :
    Withstands (Session.isSpecialCaseOf p universal facts) (isSpecialCaseOf p universal facts)
      s := by
  unfold Session.isSpecialCaseOf isSpecialCaseOf
  refine .require fun q _ => .of_eq ?_
  obtain ⟨layers, body⟩ := Session.peel q.statement
  cases layers with
  | nil => rfl
  | cons layer layers =>
      simp only [Checked.unify_eq_pure, liftM_checked_pure, pure_bind, Proposition.unify?]
      cases Unify.proposition (.ofList ((layer :: layers).map (·.1))) .empty [] p body with
      | none => rfl
      | some σ => simp [memberships_eq]

theorem quantifiedModusPonens_withstands (universal p : Option Proposition)
    (facts : List Proposition) :
    Withstands (Session.quantifiedModusPonens universal p facts)
      (quantifiedModusPonens universal p facts) s := by
  unfold Session.quantifiedModusPonens quantifiedModusPonens
  refine .require fun q _ => .require fun p _ => .of_eq ?_
  obtain ⟨layers, body⟩ := Session.peel q.statement
  split
  next layer layers a b m hpeel =>
    obtain ⟨rfl, rfl⟩ := Prod.mk.inj hpeel
    simp only [List.isEmpty_cons, Checked.kind_implies, ne_eq, not_true_eq_false, or_false,
      Bool.false_eq_true, if_false, Checked.part_implies_zero, Checked.part_implies_one,
      Checked.unify_eq_pure, Proposition.unify?, liftM_checked_pure, pure_bind]
    cases Unify.proposition (.ofList ((layer :: layers).map (·.1))) .empty [] p.statement a with
    | none => rfl
    | some σ =>
        dsimp only
        cases ((layer :: layers).map (·.1)).find? fun v =>
            (σ.find? v).isNone && b.contains (.var v) with
        | some v => rfl
        | none => simp only [liftM_bind, memberships_eq]
  next hother =>
    have hnot : layers.isEmpty = true ∨ body.kind ≠ .implies := by
      cases layers with
      | nil => exact .inl rfl
      | cons layer layers =>
          refine .inr (Checked.kind_ne .implies ?_)
          rintro ⟨a, b, m, rfl⟩
          exact hother layer layers a b m rfl
    simp only [if_pos hnot, liftM_refuse, throw_bind]

theorem existentialElimination_withstands (existential universal : Option Proposition) :
    Withstands (Session.existentialElimination existential universal)
      (existentialElimination existential universal) s := by
  unfold Session.existentialElimination existentialElimination
  refine .require fun e _ => .require fun u _ => .of_eq ?_
  split
  next v d inner m w d' body m' he hu =>
    simp only [eliminate, he, hu, Checked.part_quantified, liftM_checked_pure, pure_bind]
    by_cases hdomain : d = d'
    · by_cases hkind : body.kind = .implies
      · obtain ⟨a, b, m'', rfl⟩ := Checked.hasForm hkind
        simp [hdomain, Checked.replace_eq_pure, Checked.equal_eq_pure, Proposition.replaceAll]
      · simp only [hdomain, ne_eq, not_true_eq_false, if_false, hkind, not_false_eq_true, if_true,
          liftM_refuse, throw_bind]
        split
        next => exact absurd rfl hkind
        next => rfl
    · simp [hdomain]
  next hother =>
    unfold eliminate
    split
    next v d inner m w d' body m' he hu => exact (hother v d inner m w d' body m' he hu).elim
    next => rfl

end QuantifierWithstands

section RelationWithstands
variable (s : Session)

theorem isBinary_iff {p : Proposition} :
    p.isBinary = true ↔ ∃ name l r m, p = .relation name [l, r] m := by
  constructor
  · intro h
    by_contra hother
    rw [isBinary_eq_false fun name l r m hp => hother ⟨name, l, r, m, hp⟩] at h
    cases h
  · rintro ⟨name, l, r, m, rfl⟩
    rfl

/-- A walk that has come as far as `before`, over links that are all binary. -/
theorem followChain_eq {order : Order} {chain : List Fact} (before rest : List Fact)
    (acc : Session.Chain) (hchain : chain = before ++ rest)
    (hbinary : ∀ r ∈ before, r.statement.isBinary = true) :
    liftM (Session.followChain order chain before.getLast? acc rest) =
      followChain order chain before.length acc rest := by
  induction rest generalizing before acc with
  | nil => rfl
  | cons r rest ih =>
      unfold Session.followChain followChain
      cases hr : r.statement.sides? with
      | none => simp [Proposition.isBinary, hr]
      | some sides =>
          obtain ⟨l, r'⟩ := sides
          have hrbinary : r.statement.isBinary = true := by rw [Proposition.isBinary, hr]; rfl
          have hlhs : lhs r.statement = pure l := by rw [lhs, hr]
          have hnext : ∀ acc, liftM (Session.followChain order chain (some r) acc rest) =
              followChain order chain (before.length + 1) acc rest := by
            intro acc
            have hall : ∀ q ∈ before ++ [r], q.statement.isBinary = true := by
              intro q hq
              rcases List.mem_append.mp hq with hq | hq
              · exact hbinary q hq
              · rw [List.mem_singleton.mp hq]
                exact hrbinary
            simpa using ih (before ++ [r]) acc (by simp [hchain]) hall
          rcases List.eq_nil_or_concat before with rfl | ⟨init, q, rfl⟩
          · cases hclassify : order.classify r.statement.name with
            | none => simp [hrbinary]
            | some link =>
                cases hextend : acc.extend link with
                | none => simp [hrbinary, hextend]
                | some acc => simpa [hrbinary, hextend] using hnext acc
          · obtain ⟨name, y, z, m, hq⟩ := isBinary_iff.mp (hbinary q (by simp))
            have hitem : item chain init.length = pure q := by
              apply Checked.item_of_getElem?
              simp [hchain]
            by_cases hbroken : z = l
            · cases hclassify : order.classify r.statement.name with
              | none => simp [hrbinary, hitem, hq, hlhs, Proposition.sides?, hbroken]
              | some link =>
                  cases hextend : acc.extend link with
                  | none => simp [hrbinary, hextend, hitem, hq, hlhs, Proposition.sides?, hbroken]
                  | some acc =>
                      simpa [hrbinary, hextend, hitem, hq, hlhs, Proposition.sides?, hbroken]
                        using hnext acc
            · simp [hrbinary, hitem, hq, hlhs, Proposition.sides?, hbroken]

/-- A walk that comes to the end of a chain has passed binary relations only. -/
theorem followChain_binary (order : Order) (chain : List Fact) (previous : Option Fact)
    (acc : Session.Chain) (links : List Fact) :
    Session.Reads (Session.followChain order chain previous acc links) s
      fun _ => ∀ r ∈ links, r.statement.isBinary = true := by
  induction links generalizing previous acc with
  | nil => exact .pure (by simp)
  | cons r links ih =>
      unfold Session.followChain
      split
      next => exact .refuse
      next lhs rhs hsides =>
        have hr : r.statement.isBinary = true := by rw [Proposition.isBinary, hsides]; rfl
        have hlink : ∀ acc, Session.Reads (Session.followChain order chain (some r) acc links) s
            fun _ => ∀ q ∈ r :: links, q.statement.isBinary = true := by
          intro acc
          refine Session.Ensures.mono (ih (some r) acc) ?_ fun _ ht => ht
          rintro _ t ⟨ht, hlinks⟩
          exact ⟨ht, List.forall_mem_cons.mpr ⟨hr, hlinks⟩⟩
        cases previous with
        | none => exact Session.extendChain_reads s hlink
        | some q => exact .guard fun _ => Session.extendChain_reads s hlink

theorem transitiveIn_withstands (order : Order) (want : String)
    (links : List (Option Proposition)) :
    Withstands (Session.transitiveIn order want links) (transitiveIn order want links) s := by
  unfold Session.transitiveIn transitiveIn
  cases order.classify want with
  | none => rfl
  | some goal =>
    refine .guard fun hne => .after (Session.requireAll_reads _ _ s) fun chain ⟨hlength, _⟩ => ?_
    refine .bind (.of_eq (followChain_eq [] chain _ rfl (by simp))) fun found t hrun => ?_
    have hbinary := (Session.Ensures.answer (followChain_binary s _ _ _ _ _) hrun).2
    refine .guard fun _ => .guard fun _ => .guard fun _ => .of_eq ?_
    have hchain : chain ≠ [] := by
      rintro rfl
      exact hne (List.isEmpty_iff.mpr (List.length_eq_zero_iff.mp hlength.symm))
    obtain ⟨_, l, _, _, hfirst⟩ := isBinary_iff.mp (hbinary _ (List.head_mem hchain))
    obtain ⟨_, _, r, _, hlast⟩ := isBinary_iff.mp (hbinary _ (List.getLast_mem hchain))
    have hhead : chain.head? = some (chain.head hchain) := List.head?_eq_some_head hchain
    have hend : chain.getLast? = some (chain.getLast hchain) := List.getLast?_eq_some_getLast hchain
    have hitem : item chain 0 = pure (chain.head hchain) :=
      Checked.item_of_getElem? (by rw [← List.head?_eq_getElem?, hhead])
    have hitem' : item chain (chain.length - 1) = pure (chain.getLast hchain) :=
      Checked.item_of_getElem? (by rw [← List.getLast?_eq_getElem?, hend])
    simp [hhead, hend, hitem, hitem', hfirst, hlast, Proposition.sides?]

theorem transitive_withstands (want : String) (links : List (Option Proposition)) :
    Withstands (Session.transitive want links) (transitive want links) s :=
  .get_bind (transitiveIn_withstands s s.order want links)

theorem symmetry_withstands (p : Option Proposition) :
    Withstands (Session.symmetry p) (symmetry p) s := by
  unfold Session.symmetry symmetry
  refine .require fun p _ => ?_
  split
  next name l r m hp =>
    refine .pass (by simp [hp, Proposition.isBinary, Proposition.sides?]) (.get_bind (.of_eq ?_))
    simp only [hp, Proposition.name, Checked.lhs_relation, Checked.rhs_relation,
      liftM_checked_pure, pure_bind]
    cases (if name = Relation.notEqual.name then some name else s.order.flip? name) <;> rfl
  next hother => exact .of_eq (by simp [isBinary_eq_false hother])

theorem substitute_withstands (equality p : Option Proposition) (paths : List Path) :
    Withstands (Session.substitute equality p paths) (substitute equality p paths) s := by
  unfold Session.substitute substitute
  refine .require fun eq _ => .require fun p _ => .of_eq ?_
  split
  next name l r m heq =>
    by_cases hname : name = Relation.equal.name
    · simp [heq, hname, Proposition.isRelation, Checked.replace_eq_pure, Checked.equal_eq_pure]
    · simp [heq, hname, Proposition.isRelation]
  next hother => simp [isRelation_eq_false hother]

theorem bySimplification_eq {p target : Proposition} {negated : Bool}
    (h : (match p with
      | .not q _ => (q, true)
      | q => (q, false)) = (target, negated)) :
    bySimplification p = decideBy p target negated := by
  unfold bySimplification
  split at h
  next q m =>
    obtain ⟨rfl, rfl⟩ := Prod.mk.inj h
    rfl
  next hother =>
    obtain ⟨rfl, rfl⟩ := Prod.mk.inj h
    rw [if_neg (Checked.kind_ne .not fun ⟨a, m, h⟩ => hother a m h)]

theorem bySimplification_withstands (p : Proposition) :
    Withstands (Session.bySimplification p) (bySimplification p) s := by
  unfold Session.bySimplification
  refine .of_eq ?_
  split
  next target negated hp =>
    rw [bySimplification_eq hp, decideBy]
    split
    next name l r m =>
      simp only [Proposition.isBinary, Proposition.sides?, Proposition.name, Checked.lhs_relation,
        Checked.rhs_relation, liftM_checked_pure, pure_bind]
      cases Session.decideRelation name l r with
      | none => rfl
      | some holds => simp
    next hother => simp [isBinary_eq_false hother]

end RelationWithstands

end Guarded

end Entailment
