import Entailment.Proofs.Arithmetic

/-!
# Reduced polynomials

A polynomial is reduced if no coefficient is zero, the atoms of each monomial are in the order of
their keys, and no two monomials have the same keys. Constants and atoms are reduced, and the
operations keep polynomials so: inserting a monomial merges it with the one that has its keys, and
drops the two if they cancel out. Hence the polynomial of every term is reduced, and simplifying a
term is writing this polynomial down.
-/
namespace Entailment

namespace Quicksort
variable {α : Type} {lt : α → α → Bool}

theorem pairwise_of_inOrder
    (htrans : ∀ x y z, lt y x = false → lt z y = false → lt z x = false) {xs : List α}
    (h : inOrder lt xs = true) : xs.Pairwise fun x y => lt y x = false := by
  fun_induction inOrder lt xs with
  | case1 x y rest ih =>
      simp only [Bool.and_eq_true, Bool.not_eq_true'] at h
      have hrest := ih h.2
      refine List.pairwise_cons.mpr ⟨fun z hz => ?_, hrest⟩
      rcases List.mem_cons.mp hz with rfl | hz
      · exact h.1
      · exact htrans x y z h.1 (List.rel_of_pairwise_cons hrest hz)
  | case2 xs hshort =>
      cases xs with
      | nil => exact .nil
      | cons x rest =>
          cases rest with
          | nil => exact List.pairwise_singleton _ _
          | cons y rest => exact absurd rfl (hshort x y rest)

/-- Sorting leaves nothing before what has to precede it. -/
theorem pairwise_sort (htrans : ∀ x y z, lt y x = false → lt z y = false → lt z x = false)
    (htotal : ∀ x y, lt y x = false ∨ lt x y = false) (xs : List α) :
    (sort lt xs).Pairwise fun x y => lt y x = false := by
  simp only [sort]
  split
  next h => exact pairwise_of_inOrder htrans h
  next =>
    have hsorted : (xs.mergeSort fun x y => !lt y x).Pairwise fun x y => (!lt y x) = true := by
      refine List.pairwise_mergeSort (fun x y z hxy hyz => ?_) (fun x y => ?_) xs
      · simpa using htrans x y z (by simpa using hxy) (by simpa using hyz)
      · simpa using htotal x y
    simpa using hsorted

end Quicksort

/-- The coefficient is not zero, and the atoms are in the order of their keys. -/
def Monomial.IsReduced (m : Monomial) : Prop :=
  m.coefficient ≠ 0 ∧ m.keys.Pairwise (· ≤ ·)

namespace Monomial

theorem pairwise_keys_ofAtoms (n : Int) (atoms : List Atom) :
    (ofAtoms n atoms).keys.Pairwise (· ≤ ·) := by
  have hle : ∀ a b : Atom, decide (b.key < a.key) = false ↔ a.key ≤ b.key := fun a b =>
    decide_eq_false_iff_not.trans not_lt
  rw [keys, List.pairwise_map, ofAtoms]
  refine (Quicksort.pairwise_sort ?_ ?_ atoms).imp fun hab => (hle _ _).mp hab
  · intro a b c hab hbc
    exact (hle a c).mpr (le_trans ((hle a b).mp hab) ((hle b c).mp hbc))
  · intro a b
    rw [hle, hle]
    exact le_total a.key b.key

theorem isReduced_ofAtoms {n : Int} (h : n ≠ 0) (atoms : List Atom) : (ofAtoms n atoms).IsReduced :=
  ⟨h, pairwise_keys_ofAtoms n atoms⟩

theorem IsReduced.neg {m : Monomial} (h : m.IsReduced) : m.neg.IsReduced :=
  ⟨neg_ne_zero.mpr h.1, h.2⟩

theorem IsReduced.mul {m n : Monomial} (hm : m.IsReduced) (hn : n.IsReduced) :
    (m.mul n).IsReduced :=
  isReduced_ofAtoms (mul_ne_zero hm.1 hn.1) _

end Monomial

namespace Polynomial

structure IsReduced (p : Polynomial) : Prop where
  monomials : ∀ m ∈ p.monomials, m.IsReduced
  distinct : (p.monomials.map Monomial.keys).Nodup

theorem keys_insert_subset {m : Monomial} {ms : List Monomial} {ks : List String}
    (h : ks ∈ (insert m ms).map Monomial.keys) : ks = m.keys ∨ ks ∈ ms.map Monomial.keys := by
  induction ms with
  | nil => simpa [insert] using h
  | cons n rest ih =>
      rw [insert] at h
      split at h
      next =>
        dsimp only at h
        split at h
        next => exact .inr (List.mem_cons_of_mem _ h)
        next => exact .inr h
      next =>
        rw [List.map_cons] at h ⊢
        rcases List.mem_cons.mp h with rfl | h
        · exact .inr List.mem_cons_self
        · exact (ih h).imp_right (List.mem_cons_of_mem _)

/-- A monomial meets at most one with its keys, so merging the two leaves all keys distinct. -/
theorem isReduced_insert {m : Monomial} {ms : List Monomial} (hm : m.IsReduced)
    (hms : IsReduced ⟨ms⟩) : IsReduced ⟨insert m ms⟩ := by
  induction ms with
  | nil =>
      refine ⟨?_, ?_⟩
      · simpa [insert] using hm
      · simp [insert]
  | cons n rest ih =>
      obtain ⟨hn, hrest⟩ := List.forall_mem_cons.mp hms.monomials
      obtain ⟨hnew, hdistinct⟩ := List.nodup_cons.mp hms.distinct
      rw [insert]
      split
      next =>
        dsimp only
        split
        next => exact ⟨hrest, hdistinct⟩
        next hsum => exact ⟨List.forall_mem_cons.mpr ⟨⟨hsum, hn.2⟩, hrest⟩, hms.distinct⟩
      next hkeys =>
        obtain ⟨hmonomials, hnodup⟩ := ih ⟨hrest, hdistinct⟩
        refine ⟨List.forall_mem_cons.mpr ⟨hn, hmonomials⟩, List.nodup_cons.mpr ⟨?_, hnodup⟩⟩
        intro hmem
        rcases keys_insert_subset hmem with heq | hmem
        · exact hkeys heq
        · exact hnew hmem

theorem isReduced_foldl_insert {f : Monomial → Monomial} {ns ms : List Monomial}
    (hns : ∀ n ∈ ns, (f n).IsReduced) (hms : IsReduced ⟨ms⟩) :
    IsReduced ⟨ns.foldl (fun ms n => insert (f n) ms) ms⟩ := by
  induction ns generalizing ms with
  | nil => exact hms
  | cons n ns ih =>
      obtain ⟨hn, hrest⟩ := List.forall_mem_cons.mp hns
      exact ih hrest (isReduced_insert hn hms)

theorem isReduced_zero : zero.IsReduced := ⟨by simp [zero], by simp [zero]⟩

theorem isReduced_singleton {m : Monomial} (h : m.IsReduced) : IsReduced ⟨[m]⟩ :=
  isReduced_insert h isReduced_zero

theorem isReduced_constant (n : Int) : (constant n).IsReduced := by
  rw [constant]
  split
  next => exact isReduced_zero
  next h => exact isReduced_singleton (Monomial.isReduced_ofAtoms h [])

theorem isReduced_ofAtom (a : Atom) : (ofAtom a).IsReduced :=
  isReduced_singleton (Monomial.isReduced_ofAtoms one_ne_zero [a])

theorem IsReduced.add {p q : Polynomial} (hp : p.IsReduced) (hq : q.IsReduced) :
    (p.add q).IsReduced := isReduced_foldl_insert (f := id) hq.monomials hp

theorem IsReduced.sub {p q : Polynomial} (hp : p.IsReduced) (hq : q.IsReduced) :
    (p.sub q).IsReduced := isReduced_foldl_insert (fun m hm => (hq.monomials m hm).neg) hp

theorem IsReduced.mul {p q : Polynomial} (hp : p.IsReduced) (hq : q.IsReduced) :
    (p.mul q).IsReduced := by
  have hrow : ∀ ms acc : List Monomial, (∀ m ∈ ms, m.IsReduced) → IsReduced ⟨acc⟩ →
      IsReduced
        ⟨ms.foldl (fun acc m => q.monomials.foldl (fun ms n => insert (m.mul n) ms) acc) acc⟩ := by
    intro ms
    induction ms with
    | nil => exact fun acc _ hacc => hacc
    | cons m ms ih =>
        intro acc hms hacc
        obtain ⟨hm, hrest⟩ := List.forall_mem_cons.mp hms
        have hfirst := isReduced_foldl_insert (fun n hn => hm.mul (hq.monomials n hn)) hacc
        exact ih _ hrest hfirst
  exact hrow p.monomials [] hp.monomials isReduced_zero

theorem isReduced_foldl {f : Polynomial → Polynomial → Polynomial} {first : Polynomial}
    {rest : List Polynomial} (hf : ∀ p q, p.IsReduced → q.IsReduced → (f p q).IsReduced)
    (hfirst : first.IsReduced) (hrest : ∀ p ∈ rest, p.IsReduced) :
    (rest.foldl f first).IsReduced := by
  induction rest generalizing first with
  | nil => exact hfirst
  | cons p rest ih =>
      obtain ⟨hp, hrest⟩ := List.forall_mem_cons.mp hrest
      exact ih (hf first p hfirst hp) hrest

end Polynomial

theorem Arithmetic.isReduced_combine (op : Arithmetic) {first : Polynomial}
    {rest : List Polynomial} (hfirst : first.IsReduced) (hrest : ∀ p ∈ rest, p.IsReduced) :
    (op.combine first rest).IsReduced := by
  unfold combine
  split
  · exact Polynomial.isReduced_zero.sub hfirst
  · exact Polynomial.isReduced_foldl (fun _ _ => .add) hfirst hrest
  · exact Polynomial.isReduced_foldl (fun _ _ => .sub) hfirst hrest
  · exact Polynomial.isReduced_foldl (fun _ _ => .mul) hfirst hrest

namespace Term

theorem isReduced_toPolynomial (t : Term) : t.toPolynomial.IsReduced := by
  induction t using inductionOn with
  | var v => exact Polynomial.isReduced_ofAtom _
  | const name => exact Polynomial.isReduced_ofAtom _
  | num n => exact Polynomial.isReduced_constant n
  | app head args ih =>
      rcases normalise_app head args with ⟨-, hpolynomial⟩ | ⟨op, first, rest, -, rfl, hpolynomial, -⟩
      · rw [hpolynomial]
        exact Polynomial.isReduced_ofAtom _
      · rw [hpolynomial]
        refine op.isReduced_combine (ih first (by simp)) fun p hp => ?_
        obtain ⟨t, ht, rfl⟩ := List.mem_map.mp hp
        exact ih t (by simp [ht])

end Term

theorem Polynomial.toTerm_ofAtom (a : Atom) : (ofAtom a).toTerm = a.term := by
  have hsorted : Quicksort.sort (fun a b : Atom => decide (a.key < b.key)) [a] = [a] :=
    List.perm_singleton.mp (Quicksort.sort_perm _ [a])
  have hmonomials : (ofAtom a).monomials = [⟨1, [a]⟩] := by
    rw [ofAtom, Monomial.ofAtoms, hsorted]
  have hconstant : (ofAtom a).constant? = none := by
    rw [constant?, hmonomials]
  rw [toTerm, hconstant, hmonomials, List.mergeSort_singleton]
  rfl

theorem Polynomial.constant?_constant (n : Int) : (constant n).constant? = some n := by
  have hsorted : Quicksort.sort (fun a b : Atom => decide (a.key < b.key)) [] = [] :=
    List.perm_nil.mp (Quicksort.sort_perm _ [])
  rw [constant]
  split
  next h =>
    rw [h]
    rfl
  next =>
    rw [Monomial.ofAtoms, hsorted]
    rfl

/-- Simplifying a term is writing down its polynomial. -/
theorem Term.simplify_eq (t : Term) : t.simplify = t.toPolynomial.toTerm := by
  cases t with
  | var v => exact (Polynomial.toTerm_ofAtom (.ofTerm (.var v))).symm
  | const name => exact (Polynomial.toTerm_ofAtom (.ofTerm (.const name))).symm
  | num n =>
      change Term.num n = (Polynomial.constant n).toTerm
      rw [Polynomial.toTerm, Polynomial.constant?_constant]
  | app head args =>
      rcases normalise_app head args with ⟨hsimplify, hpolynomial⟩ | ⟨_, _, _, -, -, -, hsimplify⟩
      · rw [hsimplify, hpolynomial, Polynomial.toTerm_ofAtom]
        rfl
      · exact hsimplify

end Entailment
