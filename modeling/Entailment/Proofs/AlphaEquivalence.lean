import Entailment.Proofs.Equations

/-!
# Equivalence is equality of nameless forms

An equation is settled in one of three ways (`Settles`): its two sides are the same already, up to
the names of bound variables; a variable has the value that stands opposite it; or a variable gets
that value now. Only the last one adds a value, so unification ends without any if and only if the
two sides have the same nameless form, whatever variables it may bind. With nothing to bind there is
no other way to succeed, which makes equivalence the equality of nameless forms.
-/
namespace Entailment

universe u

namespace Unify

/-- A variable that is free in its place stands opposite a term. -/
def Equation.Poses (e : Equation) (v : Variable) (t : Term) : Prop :=
  (e.left = t ∧ e.right = .var v ∧ v ∉ e.binders.right) ∨
    (e.left = .var v ∧ e.right = t ∧ v ∉ e.binders.left)

section Step
variable {allowed : Bindable} {b : Binders} {σ τ : Substitution} {e : Equation}

theorem depth?_eq_none_iff {vs : List Variable} {v : Variable} :
    Binders.depth? vs (.var v) = none ↔ v ∉ vs :=
  List.idxOf?_eq_none_iff

/-- Two sides are the same when both are bound at the same distance, or the same free variable. -/
theorem Equation.holds_nil_iff :
    e.Holds [] [] ↔
      (∃ l r i, e.left = .var l ∧ e.right = .var r ∧ e.binders.left.idxOf? l = some i ∧
        e.binders.right.idxOf? r = some i) ∨
      ∃ x, e.left = .var x ∧ e.right = .var x ∧ x ∉ e.binders.left ∧ x ∉ e.binders.right := by
  rw [Holds, Substitution.readTerm_empty, Substitution.readTerm_empty]
  constructor
  · intro h
    rcases e.hasVariable with ⟨l, hl⟩ | ⟨r, hr⟩
    · cases hi : e.binders.left.idxOf? l with
      | none =>
          rw [hl, Term.indexed, hi] at h
          obtain ⟨hr, hright⟩ := Term.indexed_eq_free_iff.mp h.symm
          exact .inr ⟨l, hl, hr, List.idxOf?_eq_none_iff.mp hi, hright⟩
      | some i =>
          rw [hl, Term.indexed, hi] at h
          obtain ⟨r, hr, hright⟩ := Term.indexed_eq_bound_iff.mp h.symm
          exact .inl ⟨l, r, i, hl, hr, hi, hright⟩
    · cases hi : e.binders.right.idxOf? r with
      | none =>
          rw [hr, Term.indexed, hi] at h
          obtain ⟨hl, hleft⟩ := Term.indexed_eq_free_iff.mp h
          exact .inr ⟨r, hl, hr, hleft, List.idxOf?_eq_none_iff.mp hi⟩
      | some i =>
          rw [hr, Term.indexed, hi] at h
          obtain ⟨l, hl, hleft⟩ := Term.indexed_eq_bound_iff.mp h
          exact .inl ⟨l, r, i, hl, hr, hleft, hi⟩
  · rintro (⟨l, r, i, hl, hr, hleft, hright⟩ | ⟨x, hl, hr, hleft, hright⟩)
    · rw [hl, hr, Term.indexed_var_of_some hleft, Term.indexed_var_of_some hright]
    · rw [hl, hr, Term.indexed_var_of_notMem hleft, Term.indexed_var_of_notMem hright]

theorem bind_self (v : Variable) : bind b σ v (.var v) = some σ := by simp [bind]

/-- An equation between the same things is passed over. -/
theorem leaf_of_holds (h : e.Holds [] []) :
    leaf allowed e.binders σ e.left e.right = some σ := by
  rcases Equation.holds_nil_iff.mp h with
    ⟨l, r, i, hl, hr, hleft, hright⟩ | ⟨x, hl, hr, hleft, hright⟩
  · have hleft : Binders.depth? e.binders.left (.var l) = some i := hleft
    have hright : Binders.depth? e.binders.right (.var r) = some i := hright
    simp [leaf, hl, hr, hleft, hright]
  · simp [leaf, hl, hr, depth?_eq_none_iff.mpr hleft, depth?_eq_none_iff.mpr hright, bind_self]

/-- What solving one equation can do. -/
inductive Settles (allowed : Bindable) (σ : Substitution) (e : Equation) : Substitution → Prop
  | same : e.Holds [] [] → Settles allowed σ e σ
  | known {v : Variable} {t : Term} : e.Poses v t → σ.find? v = some t → Settles allowed σ e σ
  | found {v : Variable} {t : Term} : e.Poses v t → allowed.allows v = true → σ.find? v = none →
      (∀ x, (Term.var x).occursIn t = true → x ∉ e.binders.left ∧ x ∉ e.binders.right) →
      Settles allowed σ e (σ ++ [(v, t)])

theorem settles_of_bind {v : Variable} {t : Term} (h : bind e.binders σ v t = some τ)
    (hposes : e.Poses v t) (hallowed : allowed.allows v = true)
    (hsame : t = .var v → e.Holds [] []) : Settles allowed σ e τ := by
  rcases bind_cases h with ⟨rfl, ht⟩ | ⟨rfl, hfound⟩ | ⟨hnone, hescapes, rfl⟩
  · exact .same (hsame ht)
  · exact .known hposes hfound
  · exact .found hposes hallowed hnone hescapes

/-- Two equal sides that are free in their place are the same. -/
theorem Equation.holds_of_eq (heq : e.left = e.right)
    (hleft : Binders.depth? e.binders.left e.left = none)
    (hright : Binders.depth? e.binders.right e.right = none) : e.Holds [] [] := by
  obtain ⟨x, hl⟩ : ∃ x, e.left = .var x := e.hasVariable.elim id fun h => heq ▸ h
  have hr : e.right = .var x := heq.symm.trans hl
  rw [hl, depth?_eq_none_iff] at hleft
  rw [hr, depth?_eq_none_iff] at hright
  exact holds_nil_iff.mpr (.inr ⟨x, hl, hr, hleft, hright⟩)

theorem settles_of_leaf (h : leaf allowed e.binders σ e.left e.right = some τ) :
    Settles allowed σ e τ := by
  rcases leaf_cases h with ⟨l, r, i, hl, hr, hleft, hright, rfl⟩ |
    ⟨hleft, hright, ⟨heq, rfl⟩ | ⟨r, hr, hallowed, hbind⟩ | ⟨l, hl, hallowed, hbind⟩⟩
  · exact .same (Equation.holds_nil_iff.mpr (.inl ⟨l, r, i, hl, hr, hleft, hright⟩))
  · exact .same (Equation.holds_of_eq heq hleft hright)
  · have hfree : r ∉ e.binders.right := depth?_eq_none_iff.mp (hr ▸ hright)
    refine settles_of_bind hbind (.inl ⟨rfl, hr, hfree⟩) hallowed fun heq => ?_
    exact Equation.holds_of_eq (heq.trans hr.symm) hleft hright
  · have hfree : l ∉ e.binders.left := depth?_eq_none_iff.mp (hl ▸ hleft)
    refine settles_of_bind hbind (.inr ⟨hl, rfl, hfree⟩) hallowed fun heq => ?_
    exact Equation.holds_of_eq (hl.trans heq.symm) hleft hright

theorem Settles.grows (h : Settles allowed σ e τ) : σ <+: τ := by
  cases h with
  | same | known => exact List.prefix_rfl
  | found => exact List.prefix_append _ _

/-- An equation after which there are still no values is one between the same things. -/
theorem Settles.holds_of_nil (h : Settles allowed σ e τ) (hτ : τ = []) : e.Holds [] [] := by
  cases h with
  | same hholds => exact hholds
  | known _ hfound =>
      rw [hτ] at hfound
      cases hfound
  | found => simp at hτ

theorem Settles.eq_of_nothing (h : Settles .nothing σ e τ) : τ = σ := by
  cases h with
  | same | known => rfl
  | found _ hallowed => cases hallowed

end Step

section Run
variable {allowed : Bindable} {σ τ : Substitution} {e : Equation} {es : List Equation}

theorem solve_cons_eq_some (h : solve allowed σ (e :: es) = some τ) :
    ∃ ι, Settles allowed σ e ι ∧ solve allowed ι es = some τ := by
  rw [solve_cons] at h
  obtain ⟨ι, hfirst, hrest⟩ := Option.bind_eq_some_iff.mp h
  exact ⟨ι, settles_of_leaf hfirst, hrest⟩

theorem solve_grows (h : solve allowed σ es = some τ) : σ <+: τ := by
  induction es generalizing σ with
  | nil =>
      cases h
      exact List.prefix_rfl
  | cons e es ih =>
      obtain ⟨ι, hfirst, hrest⟩ := solve_cons_eq_some h
      exact hfirst.grows.trans (ih hrest)

/-- Solving gives no values if and only if all equations are between the same things. -/
theorem solve_eq_nil_iff : solve allowed [] es = some [] ↔ ∀ e ∈ es, e.Holds [] [] := by
  induction es with
  | nil => simp
  | cons e es ih =>
      rw [List.forall_mem_cons, ← ih]
      constructor
      · intro h
        obtain ⟨ι, hfirst, hrest⟩ := solve_cons_eq_some h
        obtain rfl : ι = [] := List.prefix_nil.mp (solve_grows hrest)
        exact ⟨hfirst.holds_of_nil rfl, hrest⟩
      · rintro ⟨hfirst, hrest⟩
        rw [solve_cons, leaf_of_holds hfirst]
        exact hrest

theorem solve_nothing (h : solve .nothing σ es = some τ) : τ = σ := by
  induction es generalizing σ with
  | nil => exact (Option.some.inj h).symm
  | cons e es ih =>
      obtain ⟨ι, hfirst, hrest⟩ := solve_cons_eq_some h
      rw [ih hrest, hfirst.eq_of_nothing]

end Run

/-- Unification gives no values if and only if the two sides have the same nameless form. -/
theorem proposition_eq_nil_iff (allowed : Bindable) (b : Binders) (p q : Proposition) :
    Unify.proposition allowed b [] p q = some [] ↔ p.indexed b.left = q.indexed b.right := by
  calc Unify.proposition allowed b [] p q = some []
      ↔ ∃ es, equate b p q = some es ∧ solve allowed [] es = some [] := by
        rw [proposition_eq_solve, Option.bind_eq_some_iff]
    _ ↔ Yields (Equation.Holds [] []) (equate b p q) := by
        simp only [Yields, solve_eq_nil_iff]
    _ ↔ p.indexed b.left = q.indexed b.right := by
        rw [← read_eq_iff, Substitution.read_empty, Substitution.read_empty]

end Unify

namespace Proposition

theorem equivalent_iff {p q : Proposition} :
    p.equivalent q = true ↔ p.namelessForm = q.namelessForm := by
  rw [equivalent, Option.isSome_iff_exists, namelessForm, namelessForm]
  constructor
  · rintro ⟨τ, hτ⟩
    obtain ⟨es, -, hsolved⟩ := Option.bind_eq_some_iff.mp
      ((Unify.proposition_eq_solve _ _ p q).symm.trans hτ)
    obtain rfl : τ = [] := Unify.solve_nothing hsolved
    exact (Unify.proposition_eq_nil_iff _ _ p q).mp hτ
  · intro h
    exact ⟨[], (Unify.proposition_eq_nil_iff _ .empty p q).mpr h⟩

/-- What unifies without giving any variable a value says the same. -/
theorem satisfies_of_equivalent {D : Type u} {I : Interpretation D} {ρ : Variable → D}
    {p q : Proposition} (h : p.equivalent q = true) : I.Satisfies ρ p ↔ I.Satisfies ρ q := by
  have hunified : Unify.proposition .nothing .empty [] p q = some [] :=
    (Unify.proposition_eq_nil_iff _ .empty p q).mpr (equivalent_iff.mp h)
  have hnone : ∀ v, Substitution.find? [] v = none := fun _ => rfl
  have hfits : Fits [] .empty p := by
    refine ⟨fun x _ _ => hnone x, ?_⟩
    intro v t x hv
    cases hv
  exact (satisfies_of_unify hunified).2 List.prefix_rfl (matched_empty I ρ []) hfits

/-- Equivalence is equality of nameless forms. Hence it is an equivalence relation, and equivalent
propositions are true together. -/
theorem equivalent_iff_namelessForm_eq {D : Type u} (I : Interpretation D) (ρ : Variable → D) :
    (∀ p q : Proposition, p.equivalent q = true ↔ p.namelessForm = q.namelessForm) ∧
      Equivalence (fun p q : Proposition => p.equivalent q = true) ∧
      ∀ p q : Proposition, p.equivalent q = true → (I.Satisfies ρ p ↔ I.Satisfies ρ q) := by
  refine ⟨fun p q => equivalent_iff, ⟨fun p => ?_, fun h => ?_, fun h h' => ?_⟩,
    fun p q h => satisfies_of_equivalent h⟩
  · exact equivalent_iff.mpr rfl
  · exact equivalent_iff.mpr (equivalent_iff.mp h).symm
  · exact equivalent_iff.mpr ((equivalent_iff.mp h).trans (equivalent_iff.mp h'))

/-- Each value of `f` at some `x` has a member that is related to `z`. -/
def relatedIn (x y z : Variable) : Proposition :=
  .quantified .all x none (.quantified .exist y (some (.app "f" [.var x]))
    (.relation "R" [.var y, .var z]))

/-- Two objects, where a relation holds when its first and last argument are equal. -/
def sameEnds : Interpretation Bool where
  constant _ := false
  number _ := false
  function _ _ := true
  relation _ args := args.head? = args.getLast?

/-- The inner quantifier may bind the variable of the outer one again. -/
theorem equivalent_iff_namelessForm_eq_shadowed :
    (relatedIn ⟨1, "x"⟩ ⟨1, "x"⟩ ⟨3, "z"⟩).equivalent
        (relatedIn ⟨2, "y"⟩ ⟨1, "x"⟩ ⟨3, "z"⟩) = true ∧
      (relatedIn ⟨1, "x"⟩ ⟨1, "x"⟩ ⟨3, "z"⟩).namelessForm =
        (relatedIn ⟨2, "y"⟩ ⟨1, "x"⟩ ⟨3, "z"⟩).namelessForm ∧
      (sameEnds.Satisfies (fun _ => true) (relatedIn ⟨1, "x"⟩ ⟨1, "x"⟩ ⟨3, "z"⟩) ↔
        sameEnds.Satisfies (fun _ => true) (relatedIn ⟨2, "y"⟩ ⟨1, "x"⟩ ⟨3, "z"⟩)) := by
  have hequivalent : (relatedIn ⟨1, "x"⟩ ⟨1, "x"⟩ ⟨3, "z"⟩).equivalent
      (relatedIn ⟨2, "y"⟩ ⟨1, "x"⟩ ⟨3, "z"⟩) = true := by decide
  obtain ⟨hforms, -, htruth⟩ := equivalent_iff_namelessForm_eq sameEnds fun _ => true
  exact ⟨hequivalent, (hforms _ _).mp hequivalent, htruth _ _ hequivalent⟩

/-- Unification has nothing to do exactly between equivalent propositions, whatever variables it may
give values to. -/
theorem unification_trivial_iff (p q : Proposition) (vs : List Variable) :
    p.unify? q vs = some [] ↔ p.equivalent q = true := by
  rw [unify?, Unify.proposition_eq_nil_iff, equivalent_iff]
  rfl

end Proposition

end Entailment
