import Entailment.Proofs.Interpretation
import Entailment.Proofs.Valuation
import Entailment.Proposition.Unify

/-!
# Equality and equivalence of propositions

Structural equality compares what is left of two propositions without their marks and the variables
that their quantifiers bind (`skeleton`), so it is an equivalence relation. Equivalence up to the
names of bound variables does not see marks either. Every proposition is equivalent to itself, and
where there are no quantifiers the two relations agree.
-/
namespace Entailment

namespace Proposition

mutual

/-- What `equal` looks at. Marks are left out, and which variable a quantifier binds. -/
def skeleton : Proposition → Proposition
  | .relation name args _ => .relation name args
  | .not p _ => .not (skeleton p)
  | .junction c ps _ => .junction c (skeletons ps)
  | .implies a b _ => .implies (skeleton a) (skeleton b)
  | .iff a b _ => .iff (skeleton a) (skeleton b)
  | .quantified q _ domain p _ => .quantified q ⟨0, ""⟩ domain (skeleton p)
  | .contradiction _ => .contradiction

def skeletons : List Proposition → List Proposition
  | [] => []
  | p :: ps => skeleton p :: skeletons ps

end

mutual

theorem equal_iff_skeleton (p q : Proposition) :
    p.equal q = true ↔ p.skeleton = q.skeleton := by
  cases p with
  | relation name args m => cases q <;> simp [equal, skeleton]
  | not p m => cases q <;> simp [equal, skeleton, equal_iff_skeleton p]
  | junction c ps m => cases q <;> simp [equal, skeleton, equalList_iff_skeletons ps]
  | implies a b m =>
      cases q <;> simp [equal, skeleton, equal_iff_skeleton a, equal_iff_skeleton b]
  | iff a b m => cases q <;> simp [equal, skeleton, equal_iff_skeleton a, equal_iff_skeleton b]
  | quantified k v domain p m =>
      cases q <;> simp [equal, skeleton, equal_iff_skeleton p, and_assoc]
  | contradiction m => cases q <;> simp [equal, skeleton]

theorem equalList_iff_skeletons (ps qs : List Proposition) :
    equalList ps qs = true ↔ skeletons ps = skeletons qs := by
  cases ps with
  | nil => cases qs <;> simp [equalList, skeletons]
  | cons p ps =>
      cases qs <;> simp [equalList, skeletons, equal_iff_skeleton p, equalList_iff_skeletons ps]

end

theorem skeletons_eq_map (ps : List Proposition) : skeletons ps = ps.map skeleton := by
  induction ps with
  | nil => rfl
  | cons p ps ih => rw [skeletons, ih, List.map_cons]

@[simp] theorem skeleton_strip (p : Proposition) : p.strip.skeleton = p.skeleton := by
  cases p <;> rfl

@[simp] theorem skeleton_skeleton (p : Proposition) : p.skeleton.skeleton = p.skeleton := by
  induction p using Proposition.inductionOn with
  | relation name args m => rfl
  | not p m ih => rw [skeleton, skeleton, ih]
  | junction c ps m ih =>
      rw [skeleton, skeleton, skeletons_eq_map, skeletons_eq_map, List.map_map]
      congr 1
      exact List.map_congr_left ih
  | implies a b m iha ihb => rw [skeleton, skeleton, iha, ihb]
  | iff a b m iha ihb => rw [skeleton, skeleton, iha, ihb]
  | quantified q v domain p m ih => rw [skeleton, skeleton, ih]
  | contradiction m => rfl

/-- Equality does not see more than the skeletons. -/
theorem equal_skeleton (p q : Proposition) : p.skeleton.equal q.skeleton = p.equal q := by
  rw [Bool.eq_iff_iff, equal_iff_skeleton, equal_iff_skeleton, skeleton_skeleton, skeleton_skeleton]

mutual

/-- No quantifier occurs in the proposition. -/
def isQuantifierFree : Proposition → Bool
  | .relation _ _ _ | .contradiction _ => true
  | .not p _ => isQuantifierFree p
  | .junction _ ps _ => areQuantifierFree ps
  | .implies a b _ | .iff a b _ => isQuantifierFree a && isQuantifierFree b
  | .quantified _ _ _ _ _ => false

def areQuantifierFree : List Proposition → Bool
  | [] => true
  | p :: ps => isQuantifierFree p && areQuantifierFree ps

end

theorem areQuantifierFree_iff (ps : List Proposition) :
    areQuantifierFree ps = true ↔ ∀ p ∈ ps, p.isQuantifierFree = true := by
  induction ps with
  | nil => simp [areQuantifierFree]
  | cons p ps ih => simp [areQuantifierFree, ih]

@[simp] theorem isQuantifierFree_skeleton (p : Proposition) :
    p.skeleton.isQuantifierFree = p.isQuantifierFree := by
  induction p using Proposition.inductionOn with
  | relation name args m => rfl
  | not p m ih => exact ih
  | junction c ps m ih =>
      rw [skeleton, isQuantifierFree, isQuantifierFree, skeletons_eq_map, Bool.eq_iff_iff,
        areQuantifierFree_iff, areQuantifierFree_iff, List.forall_mem_map]
      exact forall₂_congr fun p hp => by rw [ih p hp]
  | implies a b m iha ihb => rw [skeleton, isQuantifierFree, isQuantifierFree, iha, ihb]
  | iff a b m iha ihb => rw [skeleton, isQuantifierFree, isQuantifierFree, iha, ihb]
  | quantified q v domain p m ih => rfl
  | contradiction m => rfl

end Proposition

section Unification
variable {bound : List Variable} {σ : Substitution}

theorem Unify.term_self (t : Term) (σ : Substitution) :
    Unify.term .nothing ⟨bound, bound⟩ σ t t = some σ := by
  induction t using Term.inductionOn generalizing σ with
  | var v =>
      rw [Unify.term, Unify.leaf]
      · cases Binders.depth? bound (.var v) with
        | none => simp [Bindable.allows]
        | some i => simp
      · nofun
  | const name => simp [Unify.term, Unify.leaf, Binders.depth?]
  | num n => simp [Unify.term, Unify.leaf, Binders.depth?]
  | app head args ih =>
      rw [Unify.term, if_pos rfl]
      induction args generalizing σ with
      | nil => rfl
      | cons t ts ihs =>
          rw [Unify.terms, ih t List.mem_cons_self]
          exact ihs (fun u hu => ih u (List.mem_cons_of_mem _ hu)) σ

theorem Unify.terms_self (ts : List Term) (σ : Substitution) :
    Unify.terms .nothing ⟨bound, bound⟩ σ ts ts = some σ := by
  induction ts generalizing σ with
  | nil => rfl
  | cons t ts ih =>
      rw [Unify.terms, Unify.term_self]
      exact ih σ

theorem Unify.proposition_self (p : Proposition) (σ : Substitution) :
    Unify.proposition .nothing ⟨bound, bound⟩ σ p p = some σ := by
  induction p using Proposition.inductionOn generalizing bound σ with
  | relation name args m => rw [Unify.proposition, if_pos rfl, Unify.terms_self]
  | not p m ih => rw [Unify.proposition, ih]
  | junction c ps m ih =>
      rw [Unify.proposition, if_pos rfl]
      induction ps generalizing σ with
      | nil => rfl
      | cons p ps ihs =>
          rw [Unify.members, ih p List.mem_cons_self]
          exact ihs (fun q hq => ih q (List.mem_cons_of_mem _ hq)) σ
  | implies a b m iha ihb => simp only [Unify.proposition, iha, ihb]
  | iff a b m iha ihb => simp only [Unify.proposition, iha, ihb]
  | quantified q v domain p m ih =>
      have hdomain : Unify.domain .nothing ⟨bound, bound⟩ σ domain domain = some σ := by
        cases domain with
        | none => rfl
        | some set => exact Unify.term_self set σ
      rw [Unify.proposition, if_pos rfl, hdomain]
      exact ih σ
  | contradiction m => rfl

theorem Unify.leaf_empty (s t : Term) (σ : Substitution) :
    Unify.leaf .nothing .empty σ s t = if s = t then some σ else none := by
  have hnone : ∀ u, Binders.depth? [] u = none := fun u => by cases u <;> rfl
  cases s <;> cases t <;> simp [Unify.leaf, Binders.empty, hnone, Bindable.allows]

theorem Unify.terms_of_members {ss : List Term}
    (h : ∀ s ∈ ss, ∀ t, Unify.term .nothing .empty σ s t = if s = t then some σ else none)
    (ts : List Term) :
    Unify.terms .nothing .empty σ ss ts = if ss = ts then some σ else none := by
  induction ss generalizing ts with
  | nil => cases ts <;> simp [Unify.terms]
  | cons s ss ih =>
      cases ts with
      | nil => simp [Unify.terms]
      | cons t ts =>
          have hall := List.forall_mem_cons.mp h
          rw [Unify.terms, hall.1]
          by_cases hst : s = t <;> simp [hst, ih hall.2]

/-- With nothing to bind and no quantifier around, terms unify only with themselves. -/
theorem Unify.term_empty (s t : Term) (σ : Substitution) :
    Unify.term .nothing .empty σ s t = if s = t then some σ else none := by
  induction s using Term.inductionOn generalizing t with
  | var v => rw [Unify.term, Unify.leaf_empty]; nofun
  | const name => rw [Unify.term, Unify.leaf_empty]; nofun
  | num n => rw [Unify.term, Unify.leaf_empty]; nofun
  | app head args ih =>
      cases t with
      | app head' args' =>
          rw [Unify.term, Unify.terms_of_members ih]
          by_cases hhead : head = head' <;> simp [hhead]
      | _ => rw [Unify.term, Unify.leaf_empty]; nofun

theorem Unify.terms_empty (ss ts : List Term) (σ : Substitution) :
    Unify.terms .nothing .empty σ ss ts = if ss = ts then some σ else none :=
  Unify.terms_of_members (fun s _ t => Unify.term_empty s t σ) ts

/-- Where there are no quantifiers, nothing but equality is left of unification. -/
theorem Unify.proposition_empty {p : Proposition} (h : p.isQuantifierFree = true)
    (q : Proposition) (σ : Substitution) :
    Unify.proposition .nothing .empty σ p q = if p.equal q then some σ else none := by
  induction p using Proposition.inductionOn generalizing q with
  | relation name args m =>
      cases q <;> simp [Unify.proposition, Proposition.equal, Unify.terms_empty, ite_and]
  | not p m ih =>
      cases q with
      | not q m' => exact ih h q
      | _ => rfl
  | junction c ps m ih =>
      cases q with
      | junction c' qs m' =>
          have hfree := (Proposition.areQuantifierFree_iff ps).mp h
          have hmembers : ∀ qs, Unify.members .nothing .empty σ ps qs =
              if Proposition.equalList ps qs then some σ else none := by
            clear h
            induction ps with
            | nil => intro qs; cases qs <;> simp [Unify.members, Proposition.equalList]
            | cons p ps ihs =>
                intro qs
                cases qs with
                | nil => simp [Unify.members, Proposition.equalList]
                | cons q qs =>
                    have hall := List.forall_mem_cons.mp hfree
                    have hrest := ihs (fun r hr => ih r (List.mem_cons_of_mem _ hr)) hall.2 qs
                    rw [Unify.members, ih p List.mem_cons_self hall.1 q, Proposition.equalList]
                    by_cases hpq : p.equal q = true <;> simp [hpq, hrest]
          simp [Unify.proposition, Proposition.equal, hmembers, ite_and]
      | _ => rfl
  | implies a b m iha ihb =>
      cases q with
      | implies a' b' m' =>
          obtain ⟨ha, hb⟩ := Bool.and_eq_true_iff.mp h
          rw [Unify.proposition, Proposition.equal, iha ha]
          by_cases heq : a.equal a' = true <;> simp [heq, ihb hb]
      | _ => rfl
  | iff a b m iha ihb =>
      cases q with
      | iff a' b' m' =>
          obtain ⟨ha, hb⟩ := Bool.and_eq_true_iff.mp h
          rw [Unify.proposition, Proposition.equal, iha ha]
          by_cases heq : a.equal a' = true <;> simp [heq, ihb hb]
      | _ => rfl
  | quantified k v domain p m ih => cases h
  | contradiction m => cases q <;> rfl

end Unification

namespace Proposition

/-- A proposition is equivalent to itself, whatever its mark. -/
theorem strip_equivalent (p : Proposition) : p.strip.equivalent p = true := by
  have hself : Unify.proposition .nothing .empty [] p p = some [] := Unify.proposition_self p []
  have hstrip : Unify.proposition .nothing .empty [] p.strip p =
      Unify.proposition .nothing .empty [] p p := by
    cases p <;> simp only [strip, withMark, Unify.proposition]
  rw [equivalent, hstrip, hself]
  rfl

theorem equivalent_eq_equal {p : Proposition} (h : p.isQuantifierFree = true) (q : Proposition) :
    p.equivalent q = p.equal q := by
  rw [equivalent, Unify.proposition_empty h]
  cases p.equal q <;> rfl

/-- Propositions without quantifiers are equivalent to those that have the same skeleton. -/
theorem equivalent_iff_skeleton {p : Proposition} (h : p.isQuantifierFree = true)
    (q : Proposition) : p.equivalent q = true ↔ p.skeleton = q.skeleton := by
  rw [equivalent_eq_equal h, equal_iff_skeleton]

end Proposition

end Entailment
