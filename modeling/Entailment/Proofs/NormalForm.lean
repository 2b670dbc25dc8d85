import Entailment.Proofs.Reduced

/-!
# Completeness of arithmetic

Reduced polynomials are a normal form. Evaluated in the ring of integer polynomials with one
indeterminate for each key, a reduced polynomial shows its coefficients, so reduced polynomials with
the same value there have the same monomials and are written down as terms with the same key. This
makes a reading of all terms possible in which every term has the value of its own polynomial: what
a symbol without a meaning in arithmetic makes of its arguments depends on their values only, since
arguments with the same values are simplified to the same. If two terms differ by the same integer
under every reading, they do so under this one, and arithmetic finds the integer.
-/
namespace Entailment

open MvPolynomial

/-- How often each key occurs in a list. -/
noncomputable def exponent (keys : List String) : String →₀ ℕ :=
  Multiset.toFinsupp (keys : Multiset String)

theorem exponent_cons (key : String) (keys : List String) :
    exponent (key :: keys) = Finsupp.single key 1 + exponent keys := by
  rw [exponent, ← Multiset.cons_coe, ← Multiset.singleton_add, map_add,
    Multiset.toFinsupp_singleton, exponent]

theorem exponent_inj {ks ls : List String} (hks : ks.Pairwise (· ≤ ·))
    (hls : ls.Pairwise (· ≤ ·)) : exponent ks = exponent ls ↔ ks = ls := by
  constructor
  · intro h
    have hperm : ks.Perm ls := Multiset.coe_eq_coe.mp (Multiset.toFinsupp.injective h)
    exact hperm.eq_of_pairwise (fun _ _ _ _ hab hba => le_antisymm hab hba) hks hls
  · exact congrArg exponent

theorem prod_X (keys : List String) :
    (keys.map (X : String → MvPolynomial String ℤ)).prod = monomial (exponent keys) 1 := by
  induction keys with
  | nil => simp [exponent]
  | cons key keys ih =>
      rw [List.map_cons, List.prod_cons, ih, exponent_cons, X, monomial_mul, one_mul]

theorem Monomial.coeff_eval (m : Monomial) (e : String →₀ ℕ) :
    coeff e (m.eval X) = if exponent m.keys = e then m.coefficient else 0 := by
  rw [eval, prod_X, ← map_intCast (C : ℤ →+* MvPolynomial String ℤ), C_mul_monomial, mul_one,
    coeff_monomial]
  simp

/-- What the printed form of a monomial depends on. -/
def Monomial.outline (m : Monomial) : Int × List String := (m.coefficient, m.keys)

namespace Polynomial
variable {p q : Polynomial}

/-- The value of a polynomial where every key stands for itself. -/
noncomputable def toMvPolynomial (p : Polynomial) : MvPolynomial String ℤ := p.eval X

theorem coeff_toMvPolynomial (p : Polynomial) (e : String →₀ ℕ) :
    coeff e p.toMvPolynomial =
      (p.monomials.map fun m => if exponent m.keys = e then m.coefficient else 0).sum := by
  rw [toMvPolynomial, eval]
  induction p.monomials with
  | nil => simp
  | cons m ms ih =>
      rw [List.map_cons, List.sum_cons, coeff_add, m.coeff_eval, ih, List.map_cons, List.sum_cons]

/-- The coefficient of a monomial can be read off the value of a reduced polynomial. -/
theorem IsReduced.coeff_eq (hp : p.IsReduced) {m : Monomial} (hm : m ∈ p.monomials) :
    coeff (exponent m.keys) p.toMvPolynomial = m.coefficient := by
  have hsorted := (hp.monomials m hm).2
  rw [coeff_toMvPolynomial]
  obtain ⟨ms⟩ := p
  induction ms with
  | nil => cases hm
  | cons n ms ih =>
      obtain ⟨hn, hms⟩ := List.forall_mem_cons.mp hp.monomials
      obtain ⟨hnew, hdistinct⟩ := List.nodup_cons.mp hp.distinct
      rw [List.map_cons, List.sum_cons]
      rcases List.mem_cons.mp hm with rfl | hm
      · -- no other monomial has these keys
        rw [if_pos rfl, List.sum_eq_zero, add_zero]
        intro c hc
        obtain ⟨n, hmem, rfl⟩ := List.mem_map.mp hc
        apply if_neg
        rw [exponent_inj (hms n hmem).2 hsorted]
        intro heq
        exact hnew (heq ▸ List.mem_map_of_mem hmem)
      · have hne : exponent n.keys ≠ exponent m.keys := by
          rw [Ne, exponent_inj hn.2 hsorted]
          intro heq
          exact hnew (heq ▸ List.mem_map_of_mem hm)
        rw [if_neg hne, zero_add]
        exact ih ⟨hms, hdistinct⟩ hm

theorem exists_of_coeff_ne_zero {e : String →₀ ℕ} (h : coeff e p.toMvPolynomial ≠ 0) :
    ∃ m ∈ p.monomials, exponent m.keys = e := by
  by_contra hnone
  apply h
  rw [coeff_toMvPolynomial, List.sum_eq_zero]
  intro c hc
  obtain ⟨m, hm, rfl⟩ := List.mem_map.mp hc
  exact if_neg fun heq => hnone ⟨m, hm, heq⟩

theorem IsReduced.nodup_outlines (hp : p.IsReduced) :
    (p.monomials.map Monomial.outline).Nodup := by
  have hkeys : ((p.monomials.map Monomial.outline).map Prod.snd).Nodup := by
    rw [List.map_map]
    exact hp.distinct
  exact List.Nodup.of_map Prod.snd hkeys

theorem IsReduced.outlines_subset (hp : p.IsReduced) (hq : q.IsReduced)
    (h : p.toMvPolynomial = q.toMvPolynomial) {o : Int × List String}
    (ho : o ∈ p.monomials.map Monomial.outline) : o ∈ q.monomials.map Monomial.outline := by
  obtain ⟨m, hm, rfl⟩ := List.mem_map.mp ho
  have hcoefficient := hp.coeff_eq hm
  obtain ⟨hne, hsorted⟩ := hp.monomials m hm
  rw [h] at hcoefficient
  obtain ⟨n, hn, hexponent⟩ := exists_of_coeff_ne_zero (hcoefficient ▸ hne)
  have hkeys : n.keys = m.keys := (exponent_inj (hq.monomials n hn).2 hsorted).mp hexponent
  rw [← hkeys, hq.coeff_eq hn] at hcoefficient
  refine List.mem_map.mpr ⟨n, hn, ?_⟩
  rw [Monomial.outline, Monomial.outline, hkeys, hcoefficient]

/-- Reduced polynomials with the same value have the same monomials, up to their order and the
terms of their atoms. -/
theorem IsReduced.outlines_perm (hp : p.IsReduced) (hq : q.IsReduced)
    (h : p.toMvPolynomial = q.toMvPolynomial) :
    (p.monomials.map Monomial.outline).Perm (q.monomials.map Monomial.outline) := by
  rw [List.perm_ext_iff_of_nodup hp.nodup_outlines hq.nodup_outlines]
  exact fun o => ⟨hp.outlines_subset hq h, hq.outlines_subset hp h.symm⟩

theorem constant?_eq_some_iff {n : Int} : p.constant? = some n ↔
    (p.monomials.map Monomial.outline = [] ∧ n = 0) ∨
      p.monomials.map Monomial.outline = [(n, [])] := by
  unfold constant?
  split
  next h => simp [h, eq_comm]
  next c h => simp [h, Monomial.outline, Monomial.keys]
  next hzero hone =>
    simp only [reduceCtorEq, List.map_eq_nil_iff, false_iff, not_or, not_and]
    refine ⟨fun h => absurd h hzero, fun h => ?_⟩
    obtain ⟨m, hm, hm'⟩ := List.map_eq_singleton_iff.mp h
    obtain ⟨c, atoms⟩ := m
    obtain ⟨-, hatoms⟩ := Prod.mk.inj hm'
    obtain rfl : atoms = [] := by simpa [Monomial.keys] using hatoms
    exact hone c hm

theorem constant?_congr
    (h : (p.monomials.map Monomial.outline).Perm (q.monomials.map Monomial.outline)) {n : Int}
    (hp : p.constant? = some n) : q.constant? = some n := by
  rw [constant?_eq_some_iff] at hp ⊢
  rcases hp with ⟨hnil, rfl⟩ | hone
  · rw [hnil] at h
    exact .inl ⟨List.nil_perm.mp h, rfl⟩
  · rw [hone] at h
    exact .inr (List.singleton_perm.mp h).symm

end Polynomial

section Printing

/-- The key of terms joined by an operator, from the keys of the terms. -/
def joinedKey (head : String) (keys : List String) : String :=
  if keys.length = 1 then keys.headD "" else head ++ "(" ++ ",".intercalate keys ++ ")"

/-- The key of a printed monomial. -/
def outlineKey (o : Int × List String) : String :=
  joinedKey "*" (if o.2.isEmpty || o.1 != 1 then (Term.num o.1).key :: o.2 else o.2)

/-- The key of the atom is that of its term. -/
def Atom.IsKeyed (a : Atom) : Prop := a.key = a.term.key

theorem joinedKey_of_ne {head : String} {ts : List Term} (h : ∀ t, ts ≠ [t]) :
    joinedKey head (ts.map Term.key) = (Term.app head ts).key := by
  have hlength : (ts.map Term.key).length ≠ 1 := by
    rw [List.length_map]
    intro hone
    obtain ⟨t, ht⟩ := List.length_eq_one_iff.mp hone
    exact h t ht
  rw [joinedKey, if_neg hlength, Term.key, Term.keyList_eq_map]

theorem Monomial.key_toTerm {m : Monomial} (hm : m.Over Atom.IsKeyed) :
    m.toTerm.key = outlineKey m.outline := by
  have hatoms : (m.atoms.map Atom.term).map Term.key = m.keys := by
    rw [List.map_map, keys]
    exact List.map_congr_left fun a ha => (hm a ha).symm
  have hempty : (m.atoms.map Atom.term).isEmpty = m.keys.isEmpty := by
    simp [keys]
  have hfactors : m.factors.map Term.key =
      if m.keys.isEmpty || m.coefficient != 1 then (Term.num m.coefficient).key :: m.keys
      else m.keys := by
    rw [factors, hempty]
    split
    next => rw [List.map_cons, hatoms]
    next => rw [hatoms]
  rw [outlineKey, outline, ← hfactors, toTerm_eq]
  split
  next t h => simp [h, joinedKey]
  next h => exact (joinedKey_of_ne fun t ht => h t ht).symm

namespace Polynomial
variable {p q : Polynomial}

theorem keysLE_iff {ks ls : List String} : keysLE ks ls = true ↔ ks ≤ ls := by
  induction ks generalizing ls with
  | nil => exact iff_of_true rfl (not_lt.mp (List.not_lt_nil ls))
  | cons k ks ih =>
      cases ls with
      | nil => exact iff_of_false Bool.false_ne_true (not_le.mpr (List.nil_lt_cons k ks))
      | cons l ls =>
          have hle : k :: ks ≤ l :: ls ↔ ¬(l < k ∨ l = k ∧ ls < ks) :=
            not_lt.symm.trans (not_congr List.cons_lt_cons_iff)
          rw [keysLE, hle]
          by_cases hkl : k = l
          · subst hkl
            simp [ih]
          · rw [if_neg hkl, decide_eq_true_iff]
            simp only [Ne.symm hkl, false_and, or_false, not_lt]

/-- The outlines of the monomials as they are printed. -/
def printed (p : Polynomial) : List (Int × List String) :=
  (p.monomials.map Monomial.outline).mergeSort fun a b => keysLE a.2 b.2

theorem key_toTerm (hp : p.Over Atom.IsKeyed) (h : p.constant? = none) :
    p.toTerm.key = joinedKey "+" (p.printed.map outlineKey) := by
  have hsummands : p.summands.map Term.key = p.printed.map outlineKey := by
    rw [printed, ← List.map_mergeSort (r := fun a b => keysLE a.keys b.keys) fun _ _ _ _ => rfl,
      List.map_map, summands, List.map_map]
    apply List.map_congr_left
    intro m hm
    exact Monomial.key_toTerm (hp m (List.mem_mergeSort.mp hm))
  rw [toTerm_eq h, ← hsummands]
  split
  next t ht => simp [ht, joinedKey]
  next hne => exact (joinedKey_of_ne fun t ht => hne t ht).symm

theorem pairwise_printed (p : Polynomial) : p.printed.Pairwise fun a b => a.2 ≤ b.2 := by
  have hsorted : p.printed.Pairwise fun a b => keysLE a.2 b.2 = true := by
    refine List.pairwise_mergeSort (fun a b c hab hbc => ?_) (fun a b => ?_) _
    · rw [keysLE_iff] at *
      exact le_trans hab hbc
    · rw [Bool.or_eq_true, keysLE_iff, keysLE_iff]
      exact le_total a.2 b.2
  exact hsorted.imp keysLE_iff.mp

/-- The order of the keys settles the order of printing, since no keys occur twice. -/
theorem IsReduced.printed_eq (hp : p.IsReduced)
    (h : (p.monomials.map Monomial.outline).Perm (q.monomials.map Monomial.outline)) :
    p.printed = q.printed := by
  have hperm : p.printed.Perm q.printed :=
    (List.mergeSort_perm _ _).trans (h.trans (List.mergeSort_perm _ _).symm)
  have hkeys : (p.printed.map Prod.snd).Nodup := by
    have hmap : (p.printed.map Prod.snd).Perm (p.monomials.map Monomial.keys) := by
      have hprinted := (List.mergeSort_perm (p.monomials.map Monomial.outline)
        fun a b => keysLE a.2 b.2).map Prod.snd
      rwa [List.map_map] at hprinted
    exact hmap.nodup_iff.mpr hp.distinct
  refine hperm.eq_of_pairwise (fun a b ha hb hab hba => ?_) (pairwise_printed p)
    (pairwise_printed q)
  exact List.inj_on_of_nodup_map hkeys ha (hperm.mem_iff.mpr hb) (le_antisymm hab hba)

/-- Reduced polynomials with the same value are printed alike. -/
theorem IsReduced.key_toTerm_eq (hp : p.IsReduced) (hq : q.IsReduced)
    (hpkeyed : p.Over Atom.IsKeyed) (hqkeyed : q.Over Atom.IsKeyed)
    (h : p.toMvPolynomial = q.toMvPolynomial) : p.toTerm.key = q.toTerm.key := by
  have hperm := hp.outlines_perm hq h
  cases hconstant : p.constant? with
  | some n => rw [toTerm, hconstant, toTerm, constant?_congr hperm hconstant]
  | none =>
      have hconstant' : q.constant? = none := by
        by_contra hne
        obtain ⟨n, hn⟩ := Option.ne_none_iff_exists'.mp hne
        rw [constant?_congr hperm.symm hn] at hconstant
        cases hconstant
      rw [key_toTerm hpkeyed hconstant, key_toTerm hqkeyed hconstant', hp.printed_eq hperm]

end Polynomial

theorem Term.isKeyed_toPolynomial (t : Term) : t.toPolynomial.Over Atom.IsKeyed := by
  have hereditary : Hereditary fun _ => True := by
    constructor <;> intros <;> trivial
  intro m hm a ha
  exact ((hereditary.normalised trivial).1 m hm a ha).1

/-- Terms with the same polynomial are simplified to terms with the same key. -/
theorem Term.key_simplify_eq {t u : Term}
    (h : t.toPolynomial.toMvPolynomial = u.toPolynomial.toMvPolynomial) :
    t.simplify.key = u.simplify.key := by
  rw [simplify_eq, simplify_eq]
  exact t.isReduced_toPolynomial.key_toTerm_eq u.isReduced_toPolynomial t.isKeyed_toPolynomial
    u.isKeyed_toPolynomial h

end Printing

section Generic

open Classical in
/-- The key of a symbol applied to terms with the given polynomials. -/
noncomputable def genericKey (head : String) (xs : List (MvPolynomial String ℤ)) : String :=
  if h : ∃ ts : List Term, ts.map (·.toPolynomial.toMvPolynomial) = xs then
    (Term.app head (h.choose.map Term.simplify)).key
  else ""

/-- The reading in which a variable, a constant, and whatever arithmetic cannot look into stand for
themselves. -/
noncomputable def generic : Interpretation (MvPolynomial String ℤ) where
  constant name := X name
  number n := n
  function head xs :=
    if xs = [] then X (genericKey head xs)
    else if head = "+" then xs.sum
    else if head = "*" then xs.prod
    else if head = "-" then if xs.tail = [] then -xs.sum else xs.tail.foldl (· - ·) (xs.headD 0)
    else X (genericKey head xs)
  relation _ _ := True

theorem generic_isArithmetic : generic.IsArithmetic where
  number _ := rfl
  sum x xs := by simp [generic]
  product x xs := by simp [generic]
  negation x := by simp [generic]
  difference x y ys := by simp [generic]

theorem generic_function {head : String} {xs : List (MvPolynomial String ℤ)}
    (h : xs = [] ∨ Arithmetic.ofHead? head = none) :
    generic.function head xs = X (genericKey head xs) := by
  rcases h with rfl | hhead
  · simp [generic]
  · have hsum : head ≠ "+" := by
      rintro rfl
      cases hhead
    have hproduct : head ≠ "*" := by
      rintro rfl
      cases hhead
    have hdifference : head ≠ "-" := by
      rintro rfl
      cases hhead
    simp [generic, hsum, hproduct, hdifference]

/-- What a symbol makes of its arguments does not depend on how the arguments are written. -/
theorem genericKey_eq (head : String) (ts : List Term) :
    genericKey head (ts.map (·.toPolynomial.toMvPolynomial)) =
      (Term.app head (ts.map Term.simplify)).key := by
  have hexists : ∃ us : List Term, us.map (·.toPolynomial.toMvPolynomial) =
      ts.map (·.toPolynomial.toMvPolynomial) := ⟨ts, rfl⟩
  have hkeys : ∀ us : List Term, us.map (·.toPolynomial.toMvPolynomial) =
      ts.map (·.toPolynomial.toMvPolynomial) → us.map (·.simplify.key) = ts.map (·.simplify.key) := by
    induction ts with
    | nil =>
        intro us h
        simpa using h
    | cons t ts ih =>
        intro us h
        cases us with
        | nil => cases h
        | cons u us =>
            obtain ⟨hfirst, hrest⟩ := List.cons.inj h
            rw [List.map_cons, List.map_cons, Term.key_simplify_eq hfirst, ih ⟨ts, rfl⟩ us hrest]
  have hchosen := hkeys _ hexists.choose_spec
  rw [genericKey, dif_pos hexists, Term.key, Term.key, Term.keyList_eq_map, Term.keyList_eq_map,
    List.map_map, List.map_map]
  exact congrArg (fun keys => head ++ "(" ++ ",".intercalate keys ++ ")") hchosen

theorem toMvPolynomial_ofTerm (t : Term) :
    (Polynomial.ofAtom (.ofTerm t)).toMvPolynomial = X t.key :=
  Polynomial.eval_ofAtom X (.ofTerm t)

/-- Every term has the value of its own polynomial. -/
theorem value_generic (t : Term) :
    generic.value (fun v => X (Term.var v).key) t = t.toPolynomial.toMvPolynomial := by
  induction t using Term.inductionOn with
  | var v => exact (toMvPolynomial_ofTerm (.var v)).symm
  | const name => exact (toMvPolynomial_ofTerm (.const name)).symm
  | num n => exact (Polynomial.eval_constant X n).symm
  | app head args ih =>
      have hvalues : args.map (generic.value fun v => X (Term.var v).key) =
          args.map (·.toPolynomial.toMvPolynomial) := List.map_congr_left ih
      rw [Interpretation.value, Interpretation.values_eq_map, hvalues, Term.toPolynomial,
        Term.toPolynomials_eq_map, Term.simplifyList_eq_map]
      cases hop : Arithmetic.ofHead? head with
      | none =>
          rw [generic_function (.inr hop), genericKey_eq]
          exact (toMvPolynomial_ofTerm (.app head (args.map Term.simplify))).symm
      | some op =>
          cases args with
          | nil =>
              rw [generic_function (.inl List.map_nil), genericKey_eq]
              exact (toMvPolynomial_ofTerm (.app head [])).symm
          | cons first rest =>
              have hcombine := generic_isArithmetic.eval_combine X hop first.toPolynomial
                (rest.map Term.toPolynomial)
              rw [List.map_cons, List.map_map] at hcombine
              exact hcombine.symm

end Generic

/-- If two terms differ by the same integer under every reading in every commutative ring, then
arithmetic tells whether they are equal and how they are ordered. -/
theorem arithmetic_complete {t u : Term} {c : Int}
    (h : ∀ (R : Type) [CommRing R] (I : Interpretation R) (ρ : Variable → R), I.IsArithmetic →
      ByNumber ρ → I.value ρ t - I.value ρ u = c) :
    t.decideEqual u = some (c == 0) ∧ t.decideOrder u = some (compare c 0) := by
  have hnumber : ByNumber fun v => (X (Term.var v).key : MvPolynomial String ℤ) := by
    intro v w hvw
    simp only [Term.key, hvw]
  have hgeneric := h _ generic _ generic_isArithmetic hnumber
  have hdifference : t.difference? u = some c := by
    rw [Term.difference?]
    split
    next heq =>
      rw [heq, sub_self] at hgeneric
      have hc : c = 0 := by exact_mod_cast hgeneric.symm
      rw [hc]
    next =>
      have hvalue : (t.toPolynomial.sub u.toPolynomial).toMvPolynomial =
          (Polynomial.constant c).toMvPolynomial := by
        rw [value_generic, value_generic] at hgeneric
        rw [Polynomial.toMvPolynomial, Polynomial.toMvPolynomial, Polynomial.eval_sub,
          Polynomial.eval_constant]
        exact hgeneric
      have hreduced := t.isReduced_toPolynomial.sub u.isReduced_toPolynomial
      have hperm := (Polynomial.isReduced_constant c).outlines_perm hreduced hvalue.symm
      exact Polynomial.constant?_congr hperm (Polynomial.constant?_constant c)
  rw [Term.decideEqual, Term.decideOrder, hdifference]
  exact ⟨rfl, rfl⟩

/-- The argument of `f` is written in two ways, which no reading can tell apart. -/
theorem arithmetic_complete_squares :
    (∀ (R : Type) [CommRing R] (I : Interpretation R) (ρ : Variable → R), I.IsArithmetic →
      ByNumber ρ → I.value ρ Session.productForm - I.value ρ Session.squareForm = (1 : Int)) ∧
    Session.productForm.decideEqual Session.squareForm = some false ∧
      Session.productForm.decideOrder Session.squareForm = some .gt := by
  have hvalue : ∀ (R : Type) [CommRing R] (I : Interpretation R) (ρ : Variable → R),
      I.IsArithmetic → ByNumber ρ →
      I.value ρ Session.productForm - I.value ρ Session.squareForm = (1 : Int) := by
    intro R _ I ρ hI _
    have hargument : (ρ ⟨1, "x"⟩ + 1) * (ρ ⟨1, "x"⟩ - 1) = ρ ⟨1, "x"⟩ * ρ ⟨1, "x"⟩ - 1 := by ring
    simp only [Session.productForm, Session.squareForm, Interpretation.value,
      Interpretation.values, hI.number, hI.sum, hI.product, hI.difference, List.sum_cons,
      List.sum_nil, List.prod_cons, List.prod_nil, List.foldl_cons, List.foldl_nil, Int.cast_one,
      Int.cast_ofNat, add_zero, mul_one, hargument]
    ring
  exact ⟨hvalue, arithmetic_complete hvalue⟩

end Entailment
