import Entailment.Proofs.NamelessForm
import Entailment.Proofs.NormalForm

/-!
# Simplified terms are canonical

A term and its simplification have the same value in the ring of integer polynomials over keys, and
arithmetic takes two terms for equal exactly if they have the same value there. Terms with the same
value are simplified to terms with the same key. A key identifies a legible term up to the names of
variables, which variables with numbers of their own do not have to be told apart by. So simplifying
chooses one term for all that arithmetic takes for equal, and leaves the chosen ones alone.
-/
namespace Entailment

open MvPolynomial

/-- Variables that occur in the terms and have the same number are the same. Every new variable gets
a number of its own, so this holds of terms that are made from such variables. -/
def NumberedApart (ts : List Term) : Prop :=
  ∀ v w : Variable, (∃ t ∈ ts, (Term.var v).occursIn t = true) →
    (∃ t ∈ ts, (Term.var w).occursIn t = true) → v.id = w.id → v = w

namespace Term
variable {t u : Term}

/-- Terms that differ in the names of variables are the same, if no variables share a number. -/
theorem eq_of_nameless_eq (h : t.nameless = u.nameless)
    (hnumber : ∀ v w : Variable, (Term.var v).occursIn t = true → (Term.var w).occursIn u = true →
      v.id = w.id → v = w) : t = u := by
  induction t using inductionOn generalizing u with
  | var v =>
      cases u with
      | var w =>
          have hid : v.id = w.id := by simpa [nameless] using h
          rw [hnumber v w (occursIn_self v) (occursIn_self w) hid]
      | _ => simp [nameless] at h
  | const name =>
      cases u with
      | const name' => simpa [nameless] using h
      | _ => simp [nameless] at h
  | num n =>
      cases u with
      | num n' => simpa [nameless] using h
      | _ => simp [nameless] at h
  | app head args ih =>
      cases u with
      | app head' args' =>
          simp only [nameless, namelessList_eq_map, app.injEq] at h
          obtain ⟨hhead, hargs⟩ := h
          simp only [occursIn_app, List.any_eq_true] at hnumber
          have hlength : args.length = args'.length := by simpa using congrArg List.length hargs
          have hsame : args = args' := by
            apply List.ext_getElem hlength
            intro i hi hi'
            apply ih args[i] (List.getElem_mem hi)
            · simpa [hi, hi'] using congrArg (·[i]?) hargs
            · intro v w hv hw
              exact hnumber v w ⟨_, List.getElem_mem hi, hv⟩ ⟨_, List.getElem_mem hi', hw⟩
          rw [hhead, hsame]
      | _ => simp [nameless] at h

/-- Keys tell legible terms apart: an application from a constant of the same name, whatever the
number of arguments, and a negative number from the operator put in front of a positive one. -/
theorem key_eq_iff (ht : t.isLegible = true) (hu : u.isLegible = true)
    (hnumber : NumberedApart [t, u]) : t.key = u.key ↔ t = u := by
  constructor
  · intro h
    apply eq_of_nameless_eq (nameless_eq_of_key_eq ht hu h)
    intro v w hv hw
    exact hnumber v w ⟨t, by simp, hv⟩ ⟨u, by simp, hw⟩
  · exact congrArg key

/-- The term `f(-(1), g(), x)`, made of an operator and a symbol without arguments. -/
def applications : Term := .app "f" [.app "-" [.num 1], .app "g" [], .var ⟨1, "x"⟩]

/-- The term `f(-1, g, x)`, made of a number and a constant, with another variable named `x`. -/
def leaves : Term := .app "f" [.num (-1), .const "g", .var ⟨2, "x"⟩]

/-- Terms that are written much alike have keys of their own. -/
theorem key_eq_iff_lookalikes :
    applications.isLegible = true ∧ leaves.isLegible = true ∧
      NumberedApart [applications, leaves] ∧ applications.key ≠ leaves.key := by
  have hlegible : applications.isLegible = true := by decide +kernel
  have hlegible' : leaves.isLegible = true := by decide +kernel
  have hnumber : NumberedApart [applications, leaves] := by
    have htwo : ∀ v : Variable, (∃ t ∈ [applications, leaves], (Term.var v).occursIn t = true) →
        v = ⟨1, "x"⟩ ∨ v = ⟨2, "x"⟩ := by
      intro v hv
      simp only [applications, leaves, List.mem_cons, List.not_mem_nil, exists_eq_or_imp] at hv
      simpa [occursIn, eq_comm (b := v)] using hv
    intro v w hv hw hid
    rcases htwo v hv with rfl | rfl <;> rcases htwo w hw with rfl | rfl <;> simp_all
  exact ⟨hlegible, hlegible', hnumber, mt (key_eq_iff hlegible hlegible' hnumber).mp (by decide)⟩

section Variables
variable {allowed : Variable → Prop}

theorem allowed_of_occursIn_app {head : String} {args : List Term} {v : Variable}
    (h : ∀ t ∈ args, ∀ v, (Term.var v).occursIn t = true → allowed v)
    (hv : (Term.var v).occursIn (.app head args) = true) : allowed v := by
  rw [occursIn_app, List.any_eq_true] at hv
  obtain ⟨t, ht, hv⟩ := hv
  exact h t ht v hv

theorem hereditary_variables :
    Hereditary fun t => ∀ v, (Term.var v).occursIn t = true → allowed v where
  number n v hv := by simp [occursIn] at hv
  argument h t ht v hv := by
    apply h v
    rw [occursIn_app, List.any_eq_true]
    exact ⟨t, ht, hv⟩
  rebuilt _ h _ hv := allowed_of_occursIn_app h hv
  sum h _ hv := allowed_of_occursIn_app h hv
  product h _ hv := allowed_of_occursIn_app h hv

/-- Simplifying brings in no variables. -/
theorem occursIn_of_simplify {v : Variable} (h : (Term.var v).occursIn t.simplify = true) :
    (Term.var v).occursIn t = true :=
  (hereditary_variables.normalised fun _ hv => hv).2 v h

end Variables

end Term

section Values
variable {t u : Term}

theorem byNumber_generic : ByNumber fun v => (X (Term.var v).key : MvPolynomial String ℤ) := by
  intro v w hvw
  simp only [Term.key, hvw]

theorem toMvPolynomial_simplify (ht : t.isLegible = true) :
    t.simplify.toPolynomial.toMvPolynomial = t.toPolynomial.toMvPolynomial := by
  rw [← value_generic, ← value_generic]
  exact (generic_isArithmetic.value_normalised byNumber_generic ht).2

/-- Arithmetic takes two terms for equal exactly if their polynomials have the same value. -/
theorem decideEqual_eq_true_iff :
    t.decideEqual u = some true ↔
      t.toPolynomial.toMvPolynomial = u.toPolynomial.toMvPolynomial := by
  have hzero : t.decideEqual u = some true ↔ t.difference? u = some 0 := by
    simp [Term.decideEqual, Option.map_eq_some_iff]
  rw [hzero, Term.difference?]
  split
  next heq => simp [heq]
  next =>
    have hvalue : (t.toPolynomial.sub u.toPolynomial).toMvPolynomial =
        t.toPolynomial.toMvPolynomial - u.toPolynomial.toMvPolynomial := Polynomial.eval_sub ..
    constructor
    · intro h
      have hconstant := Polynomial.eval_of_constant? (X : String → MvPolynomial String ℤ) h
      exact sub_eq_zero.mp (hvalue.symm.trans (hconstant.trans Int.cast_zero))
    · intro h
      have hreduced := t.isReduced_toPolynomial.sub u.isReduced_toPolynomial
      have hnothing : Polynomial.zero.toMvPolynomial =
          (t.toPolynomial.sub u.toPolynomial).toMvPolynomial := by
        rw [hvalue, h, sub_self]
        rfl
      have hperm := Polynomial.isReduced_zero.outlines_perm hreduced hnothing
      exact Polynomial.constant?_congr hperm rfl

/-- Terms with the same value are simplified to the same term. -/
theorem simplify_eq_of_toMvPolynomial_eq (ht : t.isLegible = true) (hu : u.isLegible = true)
    (hnumber : NumberedApart [t, u])
    (h : t.toPolynomial.toMvPolynomial = u.toPolynomial.toMvPolynomial) :
    t.simplify = u.simplify := by
  have hnameless := Term.nameless_eq_of_key_eq (Term.isLegible_normalised ht).2
    (Term.isLegible_normalised hu).2 (Term.key_simplify_eq h)
  apply Term.eq_of_nameless_eq hnameless
  intro v w hv hw hid
  apply hnumber v w _ _ hid
  · exact ⟨t, by simp, Term.occursIn_of_simplify hv⟩
  · exact ⟨u, by simp, Term.occursIn_of_simplify hw⟩

end Values

/-- A term is equal to its simplification as far as arithmetic can tell, simplifying it again
changes nothing, and arithmetic takes two terms for equal exactly if they have the same
simplification. -/
theorem simplify_canonical {t u : Term} (ht : t.isLegible = true) (hu : u.isLegible = true)
    (hnumber : NumberedApart [t, u]) :
    t.decideEqual t.simplify = some true ∧ t.simplify.simplify = t.simplify ∧
      (t.decideEqual u = some true ↔ t.simplify = u.simplify) := by
  have hkept := toMvPolynomial_simplify ht
  have hself : NumberedApart [t.simplify, t] := by
    intro v w hv hw
    have hmem : ∀ x : Variable, (∃ s ∈ [t.simplify, t], (Term.var x).occursIn s = true) →
        ∃ s ∈ [t, u], (Term.var x).occursIn s = true := by
      intro x hx
      have hx' : (Term.var x).occursIn t.simplify = true ∨ (Term.var x).occursIn t = true := by
        simpa using hx
      exact ⟨t, by simp, hx'.elim Term.occursIn_of_simplify id⟩
    exact hnumber v w (hmem v hv) (hmem w hw)
  refine ⟨decideEqual_eq_true_iff.mpr hkept.symm, ?_, ?_⟩
  · exact simplify_eq_of_toMvPolynomial_eq (Term.isLegible_normalised ht).2 ht hself hkept
  · rw [decideEqual_eq_true_iff]
    constructor
    · exact simplify_eq_of_toMvPolynomial_eq ht hu hnumber
    · intro h
      rw [← hkept, ← toMvPolynomial_simplify hu, h]

/-- The term `(f(x * x - 1) + 1) + 1`. -/
def nestedForm : Term := .app "+" [Session.squareForm, .num 1]

/-- The terms `f((x + 1) * (x - 1)) + 2` and `(f(x * x - 1) + 1) + 1` have one simplification. -/
theorem simplify_canonical_nested :
    Session.productForm.isLegible = true ∧ nestedForm.isLegible = true ∧
      NumberedApart [Session.productForm, nestedForm] ∧
      Session.productForm.decideEqual nestedForm = some true ∧
      Session.productForm.simplify = nestedForm.simplify := by
  have hproduct : Session.productForm.isLegible = true := by decide +kernel
  have hnested : nestedForm.isLegible = true := by decide +kernel
  have hnumber : NumberedApart [Session.productForm, nestedForm] := by
    have hone : ∀ v : Variable, (∃ t ∈ [Session.productForm, nestedForm],
        (Term.var v).occursIn t = true) → v = ⟨1, "x"⟩ := by
      intro v hv
      simp [Session.productForm, nestedForm, Session.squareForm, Term.occursIn] at hv
      exact hv.symm
    intro v w hv hw _
    rw [hone v hv, hone w hw]
  have hdecided : Session.productForm.decideEqual nestedForm = some true := by cbv
  have hcanonical := simplify_canonical hproduct hnested hnumber
  exact ⟨hproduct, hnested, hnumber, hdecided, hcanonical.2.2.mp hdecided⟩

end Entailment
