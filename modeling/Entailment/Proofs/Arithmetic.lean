import Entailment.Proofs.AtomKey
import Entailment.Proofs.Deduction
import Entailment.Tactic.Relation
import Mathlib

/-!
# Soundness of arithmetic

Polynomials are evaluated in a commutative ring, given a value for each key. The operations on
polynomials are those of the ring, whatever the values. Keys identify terms, so the values of terms
give one value to each key; with these values a term and its polynomial agree, and so do a term and
its simplification. A difference that is a constant polynomial is then the difference of the values,
and what arithmetic says of two integers is true under every reading of the other symbols.
-/
namespace Entailment

universe u

section Evaluation
variable {R : Type u} [CommRing R] (x : String → R)

/-- The value of a monomial, given the values of its atoms by their keys. -/
def Monomial.eval (m : Monomial) : R := m.coefficient * (m.keys.map x).prod

def Polynomial.eval (p : Polynomial) : R := (p.monomials.map (Monomial.eval x)).sum

namespace Monomial

theorem eval_ofAtoms (n : Int) (atoms : List Atom) :
    (ofAtoms n atoms).eval x = n * (atoms.map fun a => x a.key).prod := by
  have hperm := Quicksort.sort_perm (fun a b : Atom => decide (a.key < b.key)) atoms
  rw [eval, keys, ofAtoms, List.map_map, (hperm.map _).prod_eq]
  rfl

theorem eval_mul (m n : Monomial) : (m.mul n).eval x = m.eval x * n.eval x := by
  rw [mul, eval_ofAtoms, List.map_append, List.prod_append]
  simp only [eval, keys, List.map_map, Int.cast_mul, Function.comp_def]
  ring

theorem eval_neg (m : Monomial) : m.neg.eval x = -m.eval x := by
  simp [eval, neg, keys]

end Monomial

namespace Polynomial
open Monomial

theorem sum_insert (m : Monomial) (ms : List Monomial) :
    ((insert m ms).map (Monomial.eval x)).sum = (ms.map (Monomial.eval x)).sum + m.eval x := by
  induction ms with
  | nil => simp [insert]
  | cons n rest ih =>
      rw [insert]
      split
      next hkeys =>
        have hsum : ((n.coefficient + m.coefficient : Int) : R) * (n.keys.map x).prod =
            n.eval x + m.eval x := by
          rw [Monomial.eval, Monomial.eval, hkeys]
          push_cast
          ring
        dsimp only
        split
        next hzero =>
          rw [hzero, Int.cast_zero, zero_mul] at hsum
          rw [List.map_cons, List.sum_cons]
          linear_combination hsum
        next =>
          rw [List.map_cons, List.map_cons, List.sum_cons, List.sum_cons]
          change ((n.coefficient + m.coefficient : Int) : R) * (n.keys.map x).prod + _ = _
          linear_combination hsum
      next =>
        rw [List.map_cons, List.map_cons, List.sum_cons, List.sum_cons, ih]
        ring

/-- Inserting monomials one after the other adds all of them up. -/
theorem sum_foldl_insert (f : Monomial → Monomial) (ns ms : List Monomial) :
    ((ns.foldl (fun ms n => insert (f n) ms) ms).map (Monomial.eval x)).sum =
      (ms.map (Monomial.eval x)).sum + (ns.map fun n => (f n).eval x).sum := by
  induction ns generalizing ms with
  | nil => simp
  | cons n ns ih =>
      rw [List.foldl_cons, ih, sum_insert, List.map_cons, List.sum_cons]
      ring

theorem eval_zero : zero.eval x = 0 := rfl

theorem eval_constant (n : Int) : (constant n).eval x = n := by
  rw [constant]
  split
  next h => simp [h, eval_zero]
  next => simp [eval, eval_ofAtoms]

theorem eval_ofAtom (a : Atom) : (ofAtom a).eval x = x a.key := by
  simp [ofAtom, eval, eval_ofAtoms]

theorem eval_add (p q : Polynomial) : (p.add q).eval x = p.eval x + q.eval x :=
  sum_foldl_insert x id q.monomials p.monomials

theorem eval_sub (p q : Polynomial) : (p.sub q).eval x = p.eval x - q.eval x := by
  rw [eval, sub, sum_foldl_insert x Monomial.neg]
  simp only [Monomial.eval_neg, neg_eq_neg_one_mul (Monomial.eval x _), List.sum_map_mul_left, eval]
  ring

theorem eval_mul (p q : Polynomial) : (p.mul q).eval x = p.eval x * q.eval x := by
  have hrow : ∀ ms acc : List Monomial,
      ((ms.foldl (fun acc m => q.monomials.foldl (fun ms n => insert (m.mul n) ms) acc) acc).map
        (Monomial.eval x)).sum =
      (acc.map (Monomial.eval x)).sum + (ms.map (Monomial.eval x)).sum * q.eval x := by
    intro ms
    induction ms with
    | nil => simp
    | cons m ms ih =>
        intro acc
        rw [List.foldl_cons, ih, sum_foldl_insert x m.mul, List.map_cons, List.sum_cons]
        simp only [Monomial.eval_mul, List.sum_map_mul_left, eval]
        ring
  simpa [eval, mul] using hrow p.monomials []

theorem eval_of_constant? {p : Polynomial} {n : Int} (h : p.constant? = some n) :
    p.eval x = n := by
  unfold constant? at h
  split at h
  next hp =>
    obtain rfl : 0 = n := by simpa using h
    simp [eval, hp]
  next hp => simp_all [eval, Monomial.eval, keys]
  next => simp at h

end Polynomial

end Evaluation

section Atoms
variable {P : Atom → Prop}

def Monomial.Over (P : Atom → Prop) (m : Monomial) : Prop := ∀ a ∈ m.atoms, P a

/-- A polynomial all atoms of which have a property. -/
def Polynomial.Over (P : Atom → Prop) (p : Polynomial) : Prop := ∀ m ∈ p.monomials, m.Over P

namespace Monomial

theorem over_ofAtoms {n : Int} {atoms : List Atom} (h : ∀ a ∈ atoms, P a) :
    (ofAtoms n atoms).Over P := by
  intro a ha
  exact h a ((Quicksort.sort_perm _ atoms).mem_iff.mp ha)

theorem Over.mul {m n : Monomial} (hm : m.Over P) (hn : n.Over P) : (m.mul n).Over P :=
  over_ofAtoms fun a ha => (List.mem_append.mp ha).elim (hm a) (hn a)

end Monomial

namespace Polynomial

theorem over_insert {m : Monomial} {ms : List Monomial} (hm : m.Over P)
    (hms : ∀ n ∈ ms, n.Over P) : ∀ n ∈ insert m ms, n.Over P := by
  induction ms with
  | nil => simpa [insert] using hm
  | cons n rest ih =>
      obtain ⟨hn, hrest⟩ := List.forall_mem_cons.mp hms
      rw [insert]
      split
      · dsimp only
        split
        · exact hrest
        · exact List.forall_mem_cons.mpr ⟨hn, hrest⟩
      · exact List.forall_mem_cons.mpr ⟨hn, ih hrest⟩

theorem over_foldl_insert {f : Monomial → Monomial} {ns ms : List Monomial}
    (hns : ∀ n ∈ ns, (f n).Over P) (hms : ∀ m ∈ ms, m.Over P) :
    ∀ m ∈ ns.foldl (fun ms n => insert (f n) ms) ms, m.Over P := by
  induction ns generalizing ms with
  | nil => exact hms
  | cons n ns ih =>
      obtain ⟨hn, hrest⟩ := List.forall_mem_cons.mp hns
      exact ih hrest (over_insert hn hms)

theorem over_constant (n : Int) : (constant n).Over P := by
  rw [constant]
  split
  · simp [Over, zero]
  · simpa [Over] using Monomial.over_ofAtoms (by simp)

theorem over_ofAtom {a : Atom} (h : P a) : (ofAtom a).Over P := by
  simpa [Over, ofAtom] using Monomial.over_ofAtoms (by simpa using h)

theorem Over.add {p q : Polynomial} (hp : p.Over P) (hq : q.Over P) : (p.add q).Over P :=
  over_foldl_insert (f := id) hq hp

theorem Over.sub {p q : Polynomial} (hp : p.Over P) (hq : q.Over P) : (p.sub q).Over P :=
  over_foldl_insert (f := Monomial.neg) hq hp

theorem Over.mul {p q : Polynomial} (hp : p.Over P) (hq : q.Over P) : (p.mul q).Over P := by
  have hrow : ∀ ms acc : List Monomial, (∀ m ∈ ms, m.Over P) → (∀ m ∈ acc, m.Over P) →
      ∀ m ∈ ms.foldl (fun acc m => q.monomials.foldl (fun ms n => insert (m.mul n) ms) acc) acc,
        m.Over P := by
    intro ms
    induction ms with
    | nil => exact fun acc _ hacc => hacc
    | cons m ms ih =>
        intro acc hms hacc
        obtain ⟨hm, hrest⟩ := List.forall_mem_cons.mp hms
        exact ih _ hrest (over_foldl_insert (fun n hn => hm.mul (hq n hn)) hacc)
  exact hrow p.monomials [] hp (by simp)

theorem over_foldl {f : Polynomial → Polynomial → Polynomial} {first : Polynomial}
    {rest : List Polynomial} (hf : ∀ p q, p.Over P → q.Over P → (f p q).Over P)
    (hfirst : first.Over P) (hrest : ∀ p ∈ rest, p.Over P) : (rest.foldl f first).Over P := by
  induction rest generalizing first with
  | nil => exact hfirst
  | cons p rest ih =>
      obtain ⟨hp, hrest⟩ := List.forall_mem_cons.mp hrest
      exact ih (hf first p hfirst hp) hrest

end Polynomial

theorem Arithmetic.over_combine (op : Arithmetic) {first : Polynomial} {rest : List Polynomial}
    (hfirst : first.Over P) (hrest : ∀ p ∈ rest, p.Over P) : (op.combine first rest).Over P := by
  unfold combine
  split
  · exact Polynomial.Over.sub (by simp [Polynomial.Over, Polynomial.zero]) hfirst
  · exact Polynomial.over_foldl (fun _ _ => .add) hfirst hrest
  · exact Polynomial.over_foldl (fun _ _ => .sub) hfirst hrest
  · exact Polynomial.over_foldl (fun _ _ => .mul) hfirst hrest

end Atoms

section Readings
variable {R : Type u} [CommRing R]

/-- Numbers and the signs of arithmetic have their usual meaning. Nothing is asked of other
symbols, nor of a sign without arguments. -/
structure Interpretation.IsArithmetic (I : Interpretation R) : Prop where
  number : ∀ n, I.number n = n
  sum : ∀ x xs, I.function "+" (x :: xs) = (x :: xs).sum
  product : ∀ x xs, I.function "*" (x :: xs) = (x :: xs).prod
  negation : ∀ x, I.function "-" [x] = -x
  difference : ∀ x y ys, I.function "-" (x :: y :: ys) = (y :: ys).foldl (· - ·) x

variable {I : Interpretation R}

theorem Polynomial.eval_foldl (x : String → R) {f : Polynomial → Polynomial → Polynomial}
    {g : R → R → R} (h : ∀ p q, (f p q).eval x = g (p.eval x) (q.eval x)) (first : Polynomial)
    (rest : List Polynomial) :
    (rest.foldl f first).eval x = (rest.map (Polynomial.eval x)).foldl g (first.eval x) := by
  rw [List.foldl_map]
  exact (List.foldl_hom (Polynomial.eval x) fun p q => (h p q).symm).symm

/-- Combining polynomials is what the sign of arithmetic stands for. -/
theorem Interpretation.IsArithmetic.eval_combine (hI : I.IsArithmetic) (x : String → R)
    {head : String} {op : Arithmetic} (hop : Arithmetic.ofHead? head = some op)
    (first : Polynomial) (rest : List Polynomial) :
    (op.combine first rest).eval x =
      I.function head ((first :: rest).map (Polynomial.eval x)) := by
  unfold Arithmetic.ofHead? at hop
  split at hop
  · obtain rfl := Option.some.inj hop
    rw [List.map_cons, hI.sum, List.sum_eq_foldl, List.foldl_cons, zero_add]
    exact Polynomial.eval_foldl x (Polynomial.eval_add x) first rest
  · obtain rfl := Option.some.inj hop
    cases rest with
    | nil =>
        rw [List.map_cons, List.map_nil, hI.negation]
        exact (Polynomial.eval_sub x _ _).trans (by rw [Polynomial.eval_zero, zero_sub])
    | cons second rest =>
        rw [List.map_cons, List.map_cons, hI.difference]
        exact Polynomial.eval_foldl x (Polynomial.eval_sub x) first (second :: rest)
  · obtain rfl := Option.some.inj hop
    rw [List.map_cons, hI.product, List.prod_eq_foldl, List.foldl_cons, one_mul]
    exact Polynomial.eval_foldl x (Polynomial.eval_mul x) first rest
  · simp at hop

end Readings

section Keys
variable {D : Type u} {I : Interpretation D} {ρ : Variable → D}

/-- The assignment goes by the numbers of variables. -/
def ByNumber (ρ : Variable → D) : Prop := ∀ v w : Variable, v.id = w.id → ρ v = ρ w

theorem Interpretation.value_nameless (hρ : ByNumber ρ) (t : Term) :
    I.value ρ t.nameless = I.value ρ t := by
  induction t using Term.inductionOn with
  | var v => exact hρ ⟨v.id, ""⟩ v rfl
  | const name => rfl
  | num n => rfl
  | app head args ih =>
      rw [Term.nameless, value, value, values_eq_map, values_eq_map, Term.namelessList_eq_map,
        List.map_map]
      congr 1
      exact List.map_congr_left ih

open Classical in
/-- The value of the terms that have a key. -/
noncomputable def Interpretation.keyValue (I : Interpretation D) (ρ : Variable → D)
    (key : String) : D :=
  if h : ∃ t : Term, t.isLegible = true ∧ t.key = key then I.value ρ h.choose else I.number 0

theorem Interpretation.keyValue_key (hρ : ByNumber ρ) {t : Term} (ht : t.isLegible = true) :
    I.keyValue ρ t.key = I.value ρ t := by
  have hexists : ∃ u : Term, u.isLegible = true ∧ u.key = t.key := ⟨t, ht, rfl⟩
  obtain ⟨hlegible, hkey⟩ := hexists.choose_spec
  rw [keyValue, dif_pos hexists, ← value_nameless hρ hexists.choose,
    Term.nameless_eq_of_key_eq hlegible ht hkey, value_nameless hρ]

/-- The key of the atom is that of its term, and the term can be told from its key. -/
def Atom.IsLegible (a : Atom) : Prop := a.key = a.term.key ∧ a.term.isLegible = true

theorem Interpretation.value_atom (hρ : ByNumber ρ) {a : Atom} (h : a.IsLegible) :
    I.value ρ a.term = I.keyValue ρ a.key := by
  rw [h.1, keyValue_key hρ h.2]

end Keys

section Terms

/-- The factors that a monomial is written with. -/
def Monomial.factors (m : Monomial) : List Term :=
  let atoms := m.atoms.map Atom.term
  if atoms.isEmpty || m.coefficient != 1 then .num m.coefficient :: atoms else atoms

/-- The summands that a polynomial is written with. -/
def Polynomial.summands (p : Polynomial) : List Term :=
  (p.monomials.mergeSort fun a b => Polynomial.keysLE a.keys b.keys).map Monomial.toTerm

/-- The terms in a list joined by an operator, where a single one stands for itself. -/
def Joins (head : String) (ts : List Term) (t : Term) : Prop :=
  ts = [t] ∨ ts ≠ [] ∧ t = .app head ts

/-- A property of terms that arguments inherit, and that arguments hand on to an application with
the same head, to a sum and to a product. -/
structure Term.Hereditary (P : Term → Prop) : Prop where
  number : ∀ n, P (.num n)
  argument : ∀ {head args}, P (.app head args) → ∀ t ∈ args, P t
  rebuilt : ∀ {head args args'}, P (.app head args) → (∀ t ∈ args', P t) → P (.app head args')
  sum : ∀ {ts}, (∀ t ∈ ts, P t) → P (.app "+" ts)
  product : ∀ {ts}, (∀ t ∈ ts, P t) → P (.app "*" ts)

theorem Joins.hereditary {P : Term → Prop} {head : String} {ts : List Term} {t : Term}
    (h : Joins head ts t) (hts : ∀ u ∈ ts, P u) (happ : P (.app head ts)) : P t := by
  rcases h with rfl | ⟨-, rfl⟩
  · exact hts t (by simp)
  · exact happ

theorem Monomial.toTerm_eq (m : Monomial) :
    m.toTerm = match m.factors with | [t] => t | factors => .app "*" factors := rfl

theorem Monomial.joins_factors (m : Monomial) : Joins "*" m.factors m.toTerm := by
  have hne : m.factors ≠ [] := by
    rw [factors]
    split
    next => simp
    next h =>
      intro hnil
      simp [hnil] at h
  rw [m.toTerm_eq]
  split
  next t h => exact .inl h
  next => exact .inr ⟨hne, rfl⟩

theorem Polynomial.toTerm_eq {p : Polynomial} (h : p.constant? = none) :
    p.toTerm = match p.summands with | [t] => t | summands => .app "+" summands := by
  rw [toTerm, h]
  rfl

theorem Polynomial.joins_summands {p : Polynomial} (h : p.constant? = none) :
    Joins "+" p.summands p.toTerm := by
  have hne : p.summands ≠ [] := by
    intro hnil
    have hp : p.monomials = [] := by simpa [summands, ← List.length_eq_zero_iff] using hnil
    simp [constant?, hp] at h
  rw [toTerm_eq h]
  split
  next t h => exact .inl h
  next => exact .inr ⟨hne, rfl⟩

section Hereditary
variable {P : Term → Prop}

/-- The key of the atom is that of its term, and the term has a property. -/
def Atom.Keyed (P : Term → Prop) (a : Atom) : Prop := a.key = a.term.key ∧ P a.term

theorem Atom.keyed_ofTerm {t : Term} (h : P t) : (ofTerm t).Keyed P := ⟨rfl, h⟩

theorem Term.Hereditary.monomial (hP : Hereditary P) {m : Monomial} (hm : m.Over (Atom.Keyed P)) :
    P m.toTerm := by
  have hatoms : ∀ t ∈ m.atoms.map Atom.term, P t := by
    intro t ht
    obtain ⟨a, ha, rfl⟩ := List.mem_map.mp ht
    exact (hm a ha).2
  have hfactors : ∀ t ∈ m.factors, P t := by
    rw [Monomial.factors]
    split
    next => exact List.forall_mem_cons.mpr ⟨hP.number _, hatoms⟩
    next => exact hatoms
  exact m.joins_factors.hereditary hfactors (hP.product hfactors)

theorem Term.Hereditary.polynomial (hP : Hereditary P) {p : Polynomial}
    (hp : p.Over (Atom.Keyed P)) : P p.toTerm := by
  cases hconstant : p.constant? with
  | some n =>
      rw [Polynomial.toTerm, hconstant]
      exact hP.number n
  | none =>
      have hsummands : ∀ t ∈ p.summands, P t := by
        intro t ht
        obtain ⟨m, hm, rfl⟩ := List.mem_map.mp ht
        exact hP.monomial (hp m (List.mem_mergeSort.mp hm))
      exact (Polynomial.joins_summands hconstant).hereditary hsummands (hP.sum hsummands)

end Hereditary

namespace Term

@[simp] theorem simplifyList_eq_map (ts : List Term) : simplifyList ts = ts.map simplify := by
  induction ts with
  | nil => rfl
  | cons t ts ih => simp [simplifyList, ih]

@[simp] theorem toPolynomials_eq_map (ts : List Term) :
    toPolynomials ts = ts.map toPolynomial := by
  induction ts with
  | nil => rfl
  | cons t ts ih => simp [toPolynomials, ih]

/-- An application is an atom, or arithmetic on its arguments. -/
theorem normalise_app (head : String) (args : List Term) :
    ((app head args).simplify = .app head (args.map simplify) ∧
      (app head args).toPolynomial = .ofAtom (.ofTerm (.app head (args.map simplify)))) ∨
    ∃ op first rest, Arithmetic.ofHead? head = some op ∧ args = first :: rest ∧
      (app head args).toPolynomial = op.combine first.toPolynomial (rest.map toPolynomial) ∧
      (app head args).simplify = (app head args).toPolynomial.toTerm := by
  rw [simplify, toPolynomial, toPolynomials_eq_map, simplifyList_eq_map]
  cases hop : Arithmetic.ofHead? head with
  | none => exact .inl ⟨rfl, rfl⟩
  | some op =>
      cases args with
      | nil => exact .inl ⟨rfl, rfl⟩
      | cons first rest => exact .inr ⟨op, first, rest, rfl, rfl, rfl, rfl⟩

/-- Normalising keeps a hereditary property, and all atoms have it. -/
theorem Hereditary.normalised {P : Term → Prop} (hP : Hereditary P) {t : Term} (ht : P t) :
    t.toPolynomial.Over (Atom.Keyed P) ∧ P t.simplify := by
  induction t using inductionOn with
  | var v => exact ⟨Polynomial.over_ofAtom (Atom.keyed_ofTerm ht), ht⟩
  | const name => exact ⟨Polynomial.over_ofAtom (Atom.keyed_ofTerm ht), ht⟩
  | num n => exact ⟨Polynomial.over_constant n, ht⟩
  | app head args ih =>
      have hargs := hP.argument ht
      rcases normalise_app head args with ⟨hsimplify, hpolynomial⟩ |
        ⟨op, first, rest, hop, rfl, hpolynomial, hsimplify⟩
      · have happ : P (app head (args.map simplify)) :=
          hP.rebuilt ht (List.forall_mem_map.mpr fun t hmem => (ih t hmem (hargs t hmem)).2)
        rw [hsimplify, hpolynomial]
        exact ⟨Polynomial.over_ofAtom (Atom.keyed_ofTerm happ), happ⟩
      · have hover : ((app head (first :: rest)).toPolynomial).Over (Atom.Keyed P) := by
          rw [hpolynomial]
          refine op.over_combine (ih first (by simp) (hargs first (by simp))).1 fun p hp => ?_
          obtain ⟨t, hmem, rfl⟩ := List.mem_map.mp hp
          exact (ih t (by simp [hmem]) (hargs t (by simp [hmem]))).1
        rw [hsimplify]
        exact ⟨hover, hP.polynomial hover⟩

theorem hereditary_isLegible : Hereditary fun t => t.isLegible = true where
  number _ := rfl
  argument h := by
    rw [isLegible, Bool.and_eq_true, areLegible_eq_all, List.all_eq_true] at h
    exact h.2
  rebuilt h hargs := by
    rw [isLegible, Bool.and_eq_true] at h
    rw [isLegible, areLegible_eq_all, h.1, Bool.true_and, List.all_eq_true]
    exact hargs
  sum h := by simpa [isLegible, isOperator] using h
  product h := by simpa [isLegible, isOperator] using h

theorem isLegible_normalised {t : Term} (ht : t.isLegible = true) :
    t.toPolynomial.Over Atom.IsLegible ∧ t.simplify.isLegible = true :=
  hereditary_isLegible.normalised ht

end Term

end Terms

namespace Interpretation
variable {R : Type u} [CommRing R] {I : Interpretation R} {ρ : Variable → R}

theorem IsArithmetic.value_product (hI : I.IsArithmetic) {ts : List Term} {t : Term}
    (h : Joins "*" ts t) : I.value ρ t = (ts.map (I.value ρ)).prod := by
  rcases h with rfl | ⟨hne, rfl⟩
  · simp
  · obtain ⟨u, us, rfl⟩ := List.exists_cons_of_ne_nil hne
    rw [value, values_eq_map, List.map_cons, hI.product]

theorem IsArithmetic.value_sum (hI : I.IsArithmetic) {ts : List Term} {t : Term}
    (h : Joins "+" ts t) : I.value ρ t = (ts.map (I.value ρ)).sum := by
  rcases h with rfl | ⟨hne, rfl⟩
  · simp
  · obtain ⟨u, us, rfl⟩ := List.exists_cons_of_ne_nil hne
    rw [value, values_eq_map, List.map_cons, hI.sum]

theorem IsArithmetic.value_monomial (hI : I.IsArithmetic) (hρ : ByNumber ρ) {m : Monomial}
    (hm : m.Over Atom.IsLegible) : I.value ρ m.toTerm = m.eval (I.keyValue ρ) := by
  have hatoms : (m.atoms.map Atom.term).map (I.value ρ) = m.keys.map (I.keyValue ρ) := by
    rw [Monomial.keys, List.map_map, List.map_map]
    exact List.map_congr_left fun a ha => value_atom hρ (hm a ha)
  rw [hI.value_product m.joins_factors, Monomial.factors, Monomial.eval]
  split
  next => rw [List.map_cons, List.prod_cons, hatoms, value, hI.number]
  next h =>
    have hone : m.coefficient = 1 := by simp_all
    rw [hatoms, hone, Int.cast_one, one_mul]

theorem IsArithmetic.value_polynomial (hI : I.IsArithmetic) (hρ : ByNumber ρ) {p : Polynomial}
    (hp : p.Over Atom.IsLegible) : I.value ρ p.toTerm = p.eval (I.keyValue ρ) := by
  cases hconstant : p.constant? with
  | some n =>
      have hterm : p.toTerm = .num n := by rw [Polynomial.toTerm, hconstant]
      rw [hterm, value, hI.number, Polynomial.eval_of_constant? _ hconstant]
  | none =>
      have hperm := List.mergeSort_perm p.monomials fun a b => Polynomial.keysLE a.keys b.keys
      rw [hI.value_sum (Polynomial.joins_summands hconstant), Polynomial.summands, List.map_map,
        (hperm.map _).sum_eq, Polynomial.eval]
      congr 1
      exact List.map_congr_left fun m hm => hI.value_monomial hρ (hp m hm)

/-- A term agrees with its polynomial and with its simplification. -/
theorem IsArithmetic.value_normalised (hI : I.IsArithmetic) (hρ : ByNumber ρ) {t : Term}
    (ht : t.isLegible = true) :
    t.toPolynomial.eval (I.keyValue ρ) = I.value ρ t ∧ I.value ρ t.simplify = I.value ρ t := by
  induction t using Term.inductionOn with
  | var v => exact ⟨(Polynomial.eval_ofAtom _ _).trans (keyValue_key hρ rfl), rfl⟩
  | const name => exact ⟨(Polynomial.eval_ofAtom _ _).trans (keyValue_key hρ ht), rfl⟩
  | num n => exact ⟨(Polynomial.eval_constant _ n).trans (hI.number n).symm, rfl⟩
  | app head args ih =>
      have hlegible := Term.isLegible_normalised ht
      rw [Term.isLegible, Bool.and_eq_true, Term.areLegible_eq_all, List.all_eq_true] at ht
      rcases Term.normalise_app head args with ⟨hsimplify, hpolynomial⟩ |
        ⟨op, first, rest, hop, rfl, hpolynomial, hsimplify⟩
      · have hvalue : I.value ρ (Term.app head args).simplify = I.value ρ (.app head args) := by
          rw [hsimplify, value, value, values_eq_map, values_eq_map, List.map_map]
          congr 1
          exact List.map_congr_left fun t hmem => (ih t hmem (ht.2 t hmem)).2
        refine ⟨?_, hvalue⟩
        rw [hpolynomial, Polynomial.eval_ofAtom, ← hsimplify]
        exact (keyValue_key hρ hlegible.2).trans hvalue
      · have heval : (Term.app head (first :: rest)).toPolynomial.eval (I.keyValue ρ) =
            I.value ρ (.app head (first :: rest)) := by
          rw [hpolynomial, hI.eval_combine _ hop, value, values_eq_map, ← List.map_cons,
            List.map_map]
          congr 1
          exact List.map_congr_left fun t hmem => (ih t hmem (ht.2 t hmem)).1
        refine ⟨heval, ?_⟩
        rw [hsimplify, hI.value_polynomial hρ hlegible.1, heval]

/-- What arithmetic finds as the difference of two terms is the difference of their values. -/
theorem IsArithmetic.value_difference (hI : I.IsArithmetic) (hρ : ByNumber ρ) {t u : Term}
    {n : Int} (ht : t.isLegible = true) (hu : u.isLegible = true)
    (h : t.difference? u = some n) : I.value ρ t - I.value ρ u = n := by
  rw [Term.difference?] at h
  split at h
  next heq =>
    obtain rfl := Option.some.inj h
    rw [heq, sub_self, Int.cast_zero]
  next =>
    have hconstant := Polynomial.eval_of_constant? (I.keyValue ρ) h
    rwa [Polynomial.eval_sub, (hI.value_normalised hρ ht).1, (hI.value_normalised hρ hu).1]
      at hconstant

/-- An arithmetic of the integers in which the relations of the order, equality and inequality have
their usual meaning. -/
structure IsOrdered (I : Interpretation Int) : Prop extends I.IsArithmetic where
  equal : ∀ x y, I.relation Relation.equal.name [x, y] ↔ x = y
  notEqual : ∀ x y, I.relation Relation.notEqual.name [x, y] ↔ x ≠ y
  less : ∀ x y, I.relation Relation.less.name [x, y] ↔ x < y
  lessEqual : ∀ x y, I.relation Relation.lessEqual.name [x, y] ↔ x ≤ y
  greater : ∀ x y, I.relation Relation.greater.name [x, y] ↔ x > y
  greaterEqual : ∀ x y, I.relation Relation.greaterEqual.name [x, y] ↔ x ≥ y

end Interpretation

theorem Relation.name_of_ofName? {name : String} {r : Relation}
    (h : Relation.ofName? name = some r) : name = r.name := by
  have hfound := List.find?_some h
  exact (beq_iff_eq.mp hfound).symm

namespace Interpretation
variable {I : Interpretation Int} {ρ : Variable → Int} {t u : Term}

theorem IsOrdered.decideEqual_iff (hI : I.IsOrdered) (hρ : ByNumber ρ) (ht : t.isLegible = true)
    (hu : u.isLegible = true) {b : Bool} (h : t.decideEqual u = some b) :
    b = true ↔ I.value ρ t = I.value ρ u := by
  obtain ⟨n, hdifference, rfl⟩ := Option.map_eq_some_iff.mp h
  have hvalue := hI.toIsArithmetic.value_difference hρ ht hu hdifference
  simp only [Int.cast_id] at hvalue
  rw [beq_iff_eq]
  omega

theorem IsOrdered.decideOrder_eq (hI : I.IsOrdered) (hρ : ByNumber ρ) (ht : t.isLegible = true)
    (hu : u.isLegible = true) {o : Ordering} (h : t.decideOrder u = some o) :
    o = compare (I.value ρ t - I.value ρ u) 0 := by
  obtain ⟨n, hdifference, rfl⟩ := Option.map_eq_some_iff.mp h
  rw [hI.toIsArithmetic.value_difference hρ ht hu hdifference, Int.cast_id]

/-- A relation that arithmetic decides holds under every reading, or fails under every one. -/
theorem IsOrdered.decideRelation_iff (hI : I.IsOrdered) (hρ : ByNumber ρ)
    (ht : t.isLegible = true) (hu : u.isLegible = true) {name : String} {b : Bool}
    (h : Session.decideRelation name t u = some b) :
    b = true ↔ I.relation name [I.value ρ t, I.value ρ u] := by
  unfold Session.decideRelation at h
  split at h
  next hname =>
    rw [Relation.name_of_ofName? hname, hI.equal]
    exact hI.decideEqual_iff hρ ht hu h
  next hname =>
    obtain ⟨c, hc, rfl⟩ := Option.map_eq_some_iff.mp h
    rw [Relation.name_of_ofName? hname, hI.notEqual, ne_eq, ← hI.decideEqual_iff hρ ht hu hc]
    simp
  next hname =>
    obtain ⟨o, ho, rfl⟩ := Option.map_eq_some_iff.mp h
    rw [Relation.name_of_ofName? hname, hI.less, hI.decideOrder_eq hρ ht hu ho]
    rw [Ordering.isLT_iff_eq_lt, Std.compare_eq_lt]
    omega
  next hname =>
    obtain ⟨o, ho, rfl⟩ := Option.map_eq_some_iff.mp h
    rw [Relation.name_of_ofName? hname, hI.lessEqual, hI.decideOrder_eq hρ ht hu ho]
    rw [Std.isLE_compare]
    omega
  next hname =>
    obtain ⟨o, ho, rfl⟩ := Option.map_eq_some_iff.mp h
    rw [Relation.name_of_ofName? hname, hI.greater, hI.decideOrder_eq hρ ht hu ho]
    rw [Ordering.isGT_iff_eq_gt, Std.compare_eq_gt]
    omega
  next hname =>
    obtain ⟨o, ho, rfl⟩ := Option.map_eq_some_iff.mp h
    rw [Relation.name_of_ofName? hname, hI.greaterEqual, hI.decideOrder_eq hρ ht hu ho]
    rw [Std.isGE_compare]
    omega
  next => simp at h

end Interpretation

namespace Session

/-- A relation that arithmetic shows to hold, or the negation of one that it shows to fail. -/
inductive Decided : Proposition → Prop
  | holds {name : String} {t u : Term} {m : Option FactId} :
      decideRelation name t u = some true → Decided (.relation name [t, u] m)
  | fails {name : String} {t u : Term} {m m' : Option FactId} :
      decideRelation name t u = some false → Decided (.not (.relation name [t, u] m) m')

theorem bySimplification_ensures (p : Proposition) (s : Session) :
    Ensures (bySimplification p) s (fun f _ => f.statement = p.strip ∧ Decided p)
      fun _ => True := by
  unfold bySimplification
  split
  next target negated hp =>
    split
    next name t u m =>
      split
      next => exact .throw trivial
      next decided hdecided =>
        refine .guard trivial fun hne => .certify ⟨rfl, ?_⟩
        split at hp
        next q m' =>
          obtain ⟨rfl, rfl⟩ := Prod.mk.inj hp
          exact .fails (by simpa [hdecided] using hne)
        next =>
          obtain ⟨rfl, rfl⟩ := Prod.mk.inj hp
          exact .holds (by simpa [hdecided] using hne)
    next => exact .throw trivial

/-- What arithmetic says of two terms is true under every reading of variables, constants and
functions over the integers, and so is every relation entered on its word. -/
theorem arithmetic_sound {I : Interpretation Int} (hI : I.IsOrdered) {ρ : Variable → Int}
    (hρ : ByNumber ρ) {t u : Term} (ht : t.isLegible = true) (hu : u.isLegible = true) :
    (t.decideEqual u = some true → I.value ρ t = I.value ρ u) ∧
      (t.decideEqual u = some false → I.value ρ t ≠ I.value ρ u) ∧
      (∀ o, t.decideOrder u = some o → o = compare (I.value ρ t - I.value ρ u) 0) ∧
      ∀ (p : Proposition) (name : String) (m m' : Option FactId) (s s' : Session) (f : Fact),
        p = .relation name [t, u] m ∨ p = .not (.relation name [t, u] m) m' →
        bySimplification p s = .ok f s' → f.statement = p.strip ∧ I.Satisfies ρ f.statement := by
  refine ⟨fun h => ?_, fun h => ?_, fun o h => hI.decideOrder_eq hρ ht hu h, ?_⟩
  · exact (hI.decideEqual_iff hρ ht hu h).mp rfl
  · exact fun heq => absurd ((hI.decideEqual_iff hρ ht hu h).mpr heq) (by decide)
  · intro p name m m' s s' f hp hrun
    obtain ⟨hstatement, hdecided⟩ := (bySimplification_ensures p s).answer hrun
    refine ⟨hstatement, ?_⟩
    rw [hstatement, Interpretation.satisfies_strip]
    rcases hp with rfl | rfl
    · cases hdecided with
      | holds h => exact (hI.decideRelation_iff hρ ht hu h).mp rfl
    · cases hdecided with
      | fails h =>
          intro hrelation
          exact absurd ((hI.decideRelation_iff hρ ht hu h).mpr hrelation) (by decide)

/-- The integers, where symbols without a meaning in arithmetic count their arguments. -/
def integers : Interpretation Int where
  constant _ := 0
  number n := n
  function
    | "+", xs => xs.sum
    | "*", xs => xs.prod
    | "-", [x] => -x
    | "-", x :: xs => xs.foldl (· - ·) x
    | _, xs => xs.length
  relation
    | "=", [x, y] => x = y
    | "≠", [x, y] => x ≠ y
    | "<", [x, y] => x < y
    | "<=", [x, y] => x ≤ y
    | ">", [x, y] => x > y
    | ">=", [x, y] => x ≥ y
    | _, _ => False

theorem integers_isOrdered : integers.IsOrdered where
  number _ := rfl
  sum _ _ := rfl
  product _ _ := rfl
  negation _ := rfl
  difference _ _ _ := rfl
  equal _ _ := Iff.rfl
  notEqual _ _ := Iff.rfl
  less _ _ := Iff.rfl
  lessEqual _ _ := Iff.rfl
  greater _ _ := Iff.rfl
  greaterEqual _ _ := Iff.rfl

/-- The term `f((x + 1) * (x - 1)) + 2`. -/
def productForm : Term :=
  let x : Term := .var ⟨1, "x"⟩
  .app "+" [.app "f" [.app "*" [.app "+" [x, .num 1], .app "-" [x, .num 1]]], .num 2]

/-- The term `f(x * x - 1) + 1`. -/
def squareForm : Term :=
  let x : Term := .var ⟨1, "x"⟩
  .app "+" [.app "f" [.app "-" [.app "*" [x, x], .num 1]], .num 1]

theorem arithmetic_sound_squares :
    integers.IsOrdered ∧ ByNumber (fun v => (v.id : Int)) ∧ productForm.isLegible = true ∧
      squareForm.isLegible = true ∧ productForm.decideOrder squareForm = some .gt ∧
      ∃ s, bySimplification (.rel .greater productForm squareForm) {} =
          .ok ⟨⟨0⟩, .rel .greater productForm squareForm⟩ s ∧
        integers.Satisfies (fun v => v.id) (.rel .greater productForm squareForm) := by
  have hproduct : productForm.isLegible = true := by decide +kernel
  have hsquare : squareForm.isLegible = true := by decide +kernel
  have hnumber : ByNumber fun v => (v.id : Int) := fun v w h => by simp [h]
  have hdecided : decideRelation Relation.greater.name productForm squareForm = some true := by cbv
  have hrun : bySimplification (.rel .greater productForm squareForm) {} =
      .ok ⟨⟨0⟩, .rel .greater productForm squareForm⟩
        (after (bySimplification (.rel .greater productForm squareForm)) {}) := by
    unfold bySimplification after
    simp only [Proposition.rel, hdecided]
    rfl
  have hsound := arithmetic_sound integers_isOrdered hnumber hproduct hsquare
  refine ⟨integers_isOrdered, hnumber, hproduct, hsquare, by cbv, _, hrun, ?_⟩
  exact (hsound.2.2.2 _ _ none none _ _ _ (.inl rfl) hrun).2

end Session

end Entailment
