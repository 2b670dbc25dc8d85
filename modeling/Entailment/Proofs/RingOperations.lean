import Entailment.Proofs.NormalForm

/-!
# Polynomials as a ring

Polynomials are made of constants and atoms by copying, adding, subtracting and multiplying. All of
them are reduced, the operations are those of the ring of integers whatever the atoms stand for, and
a polynomial is told to be a constant exactly if none of its monomials contains an atom. Looking at
the shape is enough for that, since two monomials without atoms would have been merged, and one with
coefficient zero would have been dropped. A copy has its atoms sorted once more, which changes
nothing: what is in order already is left alone by sorting, elements that tie included.
-/
namespace Entailment

namespace Quicksort
variable {α : Type} {lt : α → α → Bool} {xs : Array α}

/-- No element comes before one to the left of it. -/
def Rising (lt : α → α → Bool) (xs : Array α) : Prop :=
  ∀ i j, i ≤ j → less lt xs j i = false

theorem rising_of_inOrder
    (htrans : ∀ x y z, lt y x = false → lt z y = false → lt z x = false)
    (hirrefl : ∀ x, lt x x = false) {xs : List α} (h : inOrder lt xs = true) :
    Rising lt xs.toArray := by
  have hpairwise := pairwise_of_inOrder htrans h
  intro i j hij
  unfold less
  split
  next x y hx hy =>
    rw [List.getElem?_toArray, List.getElem?_eq_some_iff] at hx hy
    obtain ⟨hj, rfl⟩ := hx
    obtain ⟨hi, rfl⟩ := hy
    rcases hij.eq_or_lt with rfl | hij
    · exact hirrefl _
    · exact List.pairwise_iff_getElem.mp hpairwise i j hi hj hij
  next => rfl

namespace Rising

theorem sinkLeft_eq (h : Rising lt xs) (least j : Nat) : sinkLeft lt least xs j = xs := by
  cases j with
  | zero => rfl
  | succ j => simp [sinkLeft, h j (j + 1) j.le_succ]

theorem insertion_eq (h : Rising lt xs) (a b : Nat) : insertion lt xs a b = xs := by
  unfold insertion
  induction List.range' (a + 1) (b - (a + 1)) with
  | nil => rfl
  | cons j js ih => rw [List.foldl_cons, h.sinkLeft_eq, ih]

theorem firstDescent_eq (h : Rising lt xs) (i n : Nat) : firstDescent lt xs i n = i + n := by
  induction n generalizing i with
  | zero => rfl
  | succ n ih =>
      rw [firstDescent, h (i - 1) i i.pred_le, if_neg Bool.false_ne_true, ih]
      omega

theorem settle_eq (h : Rising lt xs) {a b : Nat} (hab : a < b) (n : Nat) :
    settle lt a b (n + 1) (a + 1) xs = (xs, true) := by
  have hend : firstDescent lt xs (a + 1) (b - (a + 1)) = b := by
    rw [h.firstDescent_eq]
    omega
  simp only [settle, hend, if_true]

theorem median_eq (h : Rising lt xs) {i j k : Nat} (hij : i ≤ j) (hjk : j ≤ k) (swaps : Nat) :
    median lt xs i j k swaps = (j, swaps) := by
  simp [median, ordered, h i j hij, h j k hjk]

/-- No two of the elements that a pivot is chosen from have to be exchanged. -/
theorem choose_eq (h : Rising lt xs) (a b : Nat) : (choose lt xs a b).2 = .rising := by
  have haround : ∀ i swaps, medianAround lt xs i swaps = (i, swaps) := fun i swaps =>
    h.median_eq i.pred_le i.le_succ swaps
  have hmedian := h.median_eq (i := a + (b - a) / 4) (j := a + 2 * ((b - a) / 4))
    (k := a + 3 * ((b - a) / 4)) (by omega) (by omega) 0
  simp [choose, haround, hmedian]

theorem prepare_eq (h : Rising lt xs) {a b : Nat} (hab : a < b) (limit : Nat) :
    prepare lt xs a b limit true true = (xs, limit, (choose lt xs a b).1, true) := by
  simp [prepare, h.choose_eq, h.settle_eq hab]

/-- Short ranges are passed by insertion, and longer ones are seen to be settled before anything is
split. -/
theorem sortRange_eq (h : Rising lt xs) {limit : Nat} (hlimit : limit ≠ 0) (n a b : Nat) :
    sortRange lt (n + 1) xs a b limit true true = xs := by
  rw [sortRange]
  dsimp only
  split
  next => exact h.insertion_eq a b
  next hlong =>
    have hab : a < b := by
      have := Nat.lt_of_not_le hlong
      omega
    rw [h.prepare_eq hab]
    rfl

end Rising

/-- Sorting leaves alone what is in order. -/
theorem sort_eq_self (htrans : ∀ x y z, lt y x = false → lt z y = false → lt z x = false)
    (hirrefl : ∀ x, lt x x = false) {xs : List α} (h : inOrder lt xs = true) :
    sort lt xs = xs := by
  have hrising := rising_of_inOrder htrans hirrefl h
  have hsorted : (sortRange lt (xs.length + 1) xs.toArray 0 xs.length (width xs.length) true
      true).toList = xs := by
    by_cases hlength : xs.length = 0
    · rw [List.eq_nil_of_length_eq_zero hlength]
      rfl
    · rw [hrising.sortRange_eq (by simp [width, hlength])]
  dsimp only [sort]
  rw [hsorted, if_pos h]

theorem inOrder_of_pairwise {xs : List α} (h : xs.Pairwise fun x y => lt y x = false) :
    inOrder lt xs = true := by
  fun_induction inOrder lt xs with
  | case1 x y rest ih =>
      have hfirst := List.rel_of_pairwise_cons h List.mem_cons_self
      rw [hfirst, ih h.of_cons]
      rfl
  | case2 => rfl

end Quicksort

/-- The atoms of a reduced monomial are in order, so sorting them again is no change. -/
theorem Monomial.IsReduced.ofAtoms_eq {m : Monomial} (h : m.IsReduced) :
    ofAtoms m.coefficient m.atoms = m := by
  have hle : ∀ a b : Atom, decide (b.key < a.key) = false ↔ a.key ≤ b.key := fun a b =>
    decide_eq_false_iff_not.trans not_lt
  have hpairwise : m.atoms.Pairwise fun a b => decide (b.key < a.key) = false :=
    (List.pairwise_map.mp h.2).imp fun hab => (hle _ _).mpr hab
  rw [ofAtoms, Quicksort.sort_eq_self]
  · intro a b c hab hbc
    exact (hle a c).mpr (le_trans ((hle a b).mp hab) ((hle b c).mp hbc))
  · exact fun a => (hle a a).mpr le_rfl
  · exact Quicksort.inOrder_of_pairwise hpairwise

namespace Polynomial
variable {p : Polynomial}

/-- A copy of a polynomial, made anew from the atoms of its monomials. -/
def copy (p : Polynomial) : Polynomial :=
  ⟨p.monomials.map fun m => .ofAtoms m.coefficient m.atoms⟩

theorem IsReduced.copy_eq (h : p.IsReduced) : p.copy = p := by
  have hmonomials : p.monomials.map (fun m => Monomial.ofAtoms m.coefficient m.atoms) =
      p.monomials.map id :=
    List.map_congr_left fun m hm => (h.monomials m hm).ofAtoms_eq
  rw [copy, hmonomials, List.map_id]

/-- The polynomials that are made of constants and atoms by the operations. -/
inductive Made : Polynomial → Prop
  | constant (n : Int) : Made (constant n)
  | ofAtom (a : Atom) : Made (ofAtom a)
  | copy {p : Polynomial} : Made p → Made p.copy
  | add {p q : Polynomial} : Made p → Made q → Made (p.add q)
  | sub {p q : Polynomial} : Made p → Made q → Made (p.sub q)
  | mul {p q : Polynomial} : Made p → Made q → Made (p.mul q)

/-- Every operation keeps polynomials reduced, so all that are made are. -/
theorem Made.isReduced (h : p.Made) : p.IsReduced := by
  induction h with
  | constant n => exact isReduced_constant n
  | ofAtom a => exact isReduced_ofAtom a
  | copy _ ih =>
      rw [ih.copy_eq]
      exact ih
  | add _ _ ihp ihq => exact ihp.add ihq
  | sub _ _ ihp ihq => exact ihp.sub ihq
  | mul _ _ ihp ihq => exact ihp.mul ihq

/-- Without atoms all monomials have the same keys, and there is room for one of them only. -/
theorem IsReduced.exists_constant? (h : p.IsReduced) (hatoms : ∀ m ∈ p.monomials, m.atoms = []) :
    ∃ n, p.constant? = some n := by
  obtain ⟨ms⟩ := p
  match ms with
  | [] => exact ⟨0, rfl⟩
  | [m] =>
      have hnone := hatoms m (by simp)
      obtain ⟨n, atoms⟩ := m
      obtain rfl : atoms = [] := hnone
      exact ⟨n, rfl⟩
  | m :: n :: rest =>
      have hkeys : m.keys = n.keys := by
        rw [Monomial.keys, Monomial.keys, hatoms m (by simp), hatoms n (by simp)]
      have hne : m.keys ≠ n.keys := List.rel_of_pairwise_cons h.distinct (by simp)
      exact absurd hkeys hne

theorem atoms_eq_nil_of_constant? {n : Int} (h : p.constant? = some n) :
    ∀ m ∈ p.monomials, m.atoms = [] := by
  unfold constant? at h
  split at h
  next hp => simp [hp]
  next c hp => simp [hp]
  next => simp at h

theorem IsReduced.constant?_iff (h : p.IsReduced) (n : Int) : p.constant? = some n ↔
    (∀ m ∈ p.monomials, m.atoms = []) ∧ ∀ x : String → Int, p.eval x = n := by
  constructor
  · intro hconstant
    exact ⟨atoms_eq_nil_of_constant? hconstant, fun x => eval_of_constant? x hconstant⟩
  · rintro ⟨hatoms, hvalue⟩
    obtain ⟨c, hc⟩ := h.exists_constant? hatoms
    have hcn : c = n := (eval_of_constant? (fun _ => (0 : Int)) hc).symm.trans (hvalue _)
    rw [hc, hcn]

/-- A polynomial that is made is reduced and the same as its copy. It adds up, subtracts and
multiplies as its value does whatever integers the keys of the atoms stand for, and it is told to be
constant exactly if no monomial contains an atom. -/
theorem reduced_ring_operations (hp : p.Made) :
    p.IsReduced ∧ p.copy = p ∧
      (∀ (q : Polynomial) (x : String → Int), (p.add q).eval x = p.eval x + q.eval x ∧
        (p.sub q).eval x = p.eval x - q.eval x ∧ (p.mul q).eval x = p.eval x * q.eval x) ∧
      ∀ n : Int, p.constant? = some n ↔
        (∀ m ∈ p.monomials, m.atoms = []) ∧ ∀ x : String → Int, p.eval x = n := by
  have hreduced := hp.isReduced
  refine ⟨hreduced, hreduced.copy_eq, fun q x => ?_, hreduced.constant?_iff⟩
  exact ⟨eval_add x p q, eval_sub x p q, eval_mul x p q⟩

/-- The polynomials `x * x - 1` and `(x + 1) * (x - 1)` differ by nothing. -/
theorem reduced_ring_operations_squares :
    let x := ofAtom (.ofTerm (.var ⟨1, "x"⟩))
    let square := (x.mul x).sub (constant 1)
    let product := (x.add (constant 1)).mul (x.copy.sub (constant 1))
    square.Made ∧ product.Made ∧ (square.sub product).constant? = some 0 ∧
      ∀ x : String → Int, (square.sub product).eval x = 0 := by
  intro x square product
  have hx : x.Made := .ofAtom _
  have hsquare : square.Made := .sub (.mul hx hx) (.constant 1)
  have hproduct : product.Made := .mul (.add hx (.constant 1)) (.sub (.copy hx) (.constant 1))
  have hconstant : (square.sub product).constant? = some 0 := by decide +kernel
  have hring := reduced_ring_operations (hsquare.sub hproduct)
  exact ⟨hsquare, hproduct, hconstant, ((hring.2.2.2 0).mp hconstant).2⟩

end Polynomial

end Entailment
