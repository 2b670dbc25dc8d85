import Entailment.Proofs.Equivalence
import Entailment.Proofs.Instantiation
import Entailment.Tactic.Quantifier

/-!
# Propositions without their marks

A mark says which entry of a ledger a proposition is. It has no part in what the proposition says,
and nothing that compares, matches or rewrites propositions looks at it. So all of this can be done
to what is left of a proposition without its marks (`bare`), and two propositions that are the same
up to marks can stand for each other.
-/
namespace Entailment

namespace Proposition

mutual

/-- The proposition without its marks, and without those inside. -/
def bare : Proposition → Proposition
  | .relation name args _ => .relation name args
  | .not p _ => .not (bare p)
  | .junction c ps _ => .junction c (bareList ps)
  | .implies a b _ => .implies (bare a) (bare b)
  | .iff a b _ => .iff (bare a) (bare b)
  | .quantified q v domain p _ => .quantified q v domain (bare p)
  | .contradiction _ => .contradiction

def bareList : List Proposition → List Proposition
  | [] => []
  | p :: ps => bare p :: bareList ps

end

@[simp] theorem bareList_eq_map (ps : List Proposition) : bareList ps = ps.map bare := by
  induction ps with
  | nil => rfl
  | cons p ps ih => rw [bareList, ih, List.map_cons]

@[simp] theorem bare_strip (p : Proposition) : p.strip.bare = p.bare := by
  cases p <;> rfl

@[simp] theorem bare_bare (p : Proposition) : p.bare.bare = p.bare := by
  induction p using Proposition.inductionOn with
  | relation name args m => rfl
  | not p m ih => rw [bare, bare, ih]
  | junction c ps m ih =>
      rw [bare, bare, bareList_eq_map, bareList_eq_map, List.map_map]
      congr 1
      exact List.map_congr_left ih
  | implies a b m iha ihb => rw [bare, bare, iha, ihb]
  | iff a b m iha ihb => rw [bare, bare, iha, ihb]
  | quantified q v domain p m ih => rw [bare, bare, ih]
  | contradiction m => rfl

@[simp] theorem skeleton_bare (p : Proposition) : p.bare.skeleton = p.skeleton := by
  induction p using Proposition.inductionOn with
  | relation name args m => rfl
  | not p m ih => rw [bare, skeleton, skeleton, ih]
  | junction c ps m ih =>
      rw [bare, skeleton, skeleton, bareList_eq_map, skeletons_eq_map, skeletons_eq_map,
        List.map_map]
      congr 1
      exact List.map_congr_left ih
  | implies a b m iha ihb => rw [bare, skeleton, skeleton, iha, ihb]
  | iff a b m iha ihb => rw [bare, skeleton, skeleton, iha, ihb]
  | quantified q v domain p m ih => rw [bare, skeleton, skeleton, ih]
  | contradiction m => rfl

/-- Where no variable is bound, the marks are all that equality leaves out. -/
theorem bare_eq_skeleton {p : Proposition} (h : p.isQuantifierFree = true) :
    p.bare = p.skeleton := by
  induction p using Proposition.inductionOn with
  | relation name args m => rfl
  | not p m ih => rw [bare, skeleton, ih h]
  | junction c ps m ih =>
      have hfree := (areQuantifierFree_iff ps).mp h
      rw [bare, skeleton, bareList_eq_map, skeletons_eq_map]
      congr 1
      exact List.map_congr_left fun p hp => ih p hp (hfree p hp)
  | implies a b m iha ihb =>
      obtain ⟨ha, hb⟩ := Bool.and_eq_true_iff.mp h
      rw [bare, skeleton, iha ha, ihb hb]
  | iff a b m iha ihb =>
      obtain ⟨ha, hb⟩ := Bool.and_eq_true_iff.mp h
      rw [bare, skeleton, iha ha, ihb hb]
  | quantified q v domain p m ih => cases h
  | contradiction m => rfl

@[simp] theorem equal_bare (p q : Proposition) : p.bare.equal q.bare = p.equal q := by
  rw [Bool.eq_iff_iff, equal_iff_skeleton, equal_iff_skeleton, skeleton_bare, skeleton_bare]

mutual

/-- Propositions that differ in marks only are the same without them. -/
theorem same_iff_bare (p q : Proposition) : p.same q = true ↔ p.bare = q.bare := by
  cases p with
  | relation name args m => cases q <;> simp [same, bare]
  | not p m => cases q <;> simp [same, bare, same_iff_bare p]
  | junction c ps m =>
      cases q <;> simp only [same, bare, reduceCtorEq, Bool.false_eq_true, Bool.and_eq_true,
        beq_iff_eq, sameList_iff_bare ps, junction.injEq, and_true]
  | implies a b m => cases q <;> simp [same, bare, same_iff_bare a, same_iff_bare b]
  | iff a b m => cases q <;> simp [same, bare, same_iff_bare a, same_iff_bare b]
  | quantified k v domain p m => cases q <;> simp [same, bare, same_iff_bare p, and_assoc]
  | contradiction m => cases q <;> simp [same, bare]

theorem sameList_iff_bare (ps qs : List Proposition) :
    sameList ps qs = true ↔ bareList ps = bareList qs := by
  cases ps with
  | nil => cases qs <;> simp [sameList]
  | cons p ps =>
      cases qs with
      | nil => simp [sameList]
      | cons q qs =>
          rw [sameList, Bool.and_eq_true, same_iff_bare p, sameList_iff_bare ps, bareList, bareList,
            List.cons.injEq]

end

@[simp] theorem contains_bare (t : Term) (p : Proposition) : p.bare.contains t = p.contains t := by
  induction p using Proposition.inductionOn with
  | relation name args m => rfl
  | not p m ih => exact ih
  | junction c ps m ih =>
      rw [bare, contains, contains, bareList_eq_map, containsAny_eq_any, containsAny_eq_any,
        List.any_map, Bool.eq_iff_iff, List.any_eq_true, List.any_eq_true]
      exact exists_congr fun p => and_congr_right fun hp => by rw [Function.comp_apply, ih p hp]
  | implies a b m iha ihb => rw [bare, contains, contains, iha, ihb]
  | iff a b m iha ihb => rw [bare, contains, contains, iha, ihb]
  | quantified q v domain p m ih => rw [bare, contains, contains, ih]
  | contradiction m => rfl

theorem bare_replaceAll (old new : Term) (p : Proposition) :
    (p.replaceAll old new).bare = p.bare.replaceAll old new := by
  induction p using Proposition.inductionOn with
  | relation name args m => rfl
  | not p m ih => exact congrArg (Proposition.not ·) ih
  | junction c ps m ih =>
      rw [bare, replaceAll_junction, replaceAll_junction, bare, bareList_eq_map, bareList_eq_map,
        List.map_map, List.map_map]
      congr 1
      exact List.map_congr_left ih
  | implies a b m iha ihb => exact congrArg₂ (Proposition.implies · ·) iha ihb
  | iff a b m iha ihb => exact congrArg₂ (Proposition.iff · ·) iha ihb
  | quantified q v domain p m ih =>
      rw [bare, replaceAll_quantified, replaceAll_quantified]
      split_ifs
      · rfl
      · rw [bare, ih]
  | contradiction m => rfl

theorem bare_apply (σ : Substitution) (p : Proposition) : (σ.apply p).bare = σ.apply p.bare := by
  induction p using Proposition.inductionOn generalizing σ with
  | relation name args m => rfl
  | not p m ih => rw [bare, Substitution.apply, Substitution.apply, bare, ih]
  | junction c ps m ih =>
      simp only [bare, Substitution.apply, bareList_eq_map, Substitution.applyMembers_eq_map,
        List.map_map]
      congr 1
      exact List.map_congr_left fun p hp => ih p hp σ
  | implies a b m iha ihb => rw [bare, Substitution.apply, Substitution.apply, bare, iha, ihb]
  | iff a b m iha ihb => rw [bare, Substitution.apply, Substitution.apply, bare, iha, ihb]
  | quantified q v domain p m ih => rw [bare, Substitution.apply, Substitution.apply, bare, ih]
  | contradiction m => rfl

theorem peel_bare (p : Proposition) :
    Session.peel p.bare = ((Session.peel p).1, (Session.peel p).2.bare) := by
  induction p using Proposition.inductionOn with
  | quantified q v domain p m ih =>
      cases q with
      | all => rw [bare, Session.peel, Session.peel, ih]
      | exist => rfl
  | _ => rfl

end Proposition

/-- Unification does not see marks. -/
theorem Unify.proposition_bare (allowed : Bindable) (binders : Binders) (σ : Substitution)
    (p q : Proposition) :
    Unify.proposition allowed binders σ p.bare q.bare =
      Unify.proposition allowed binders σ p q := by
  induction p using Proposition.inductionOn generalizing binders σ q with
  | relation name args m => cases q <;> rfl
  | not p m ih =>
      cases q with
      | not q m' => exact ih binders σ q
      | _ => rfl
  | junction c ps m ih =>
      cases q with
      | junction d qs m' =>
          have hmembers : ∀ τ, Unify.members allowed binders τ (Proposition.bareList ps)
              (Proposition.bareList qs) = Unify.members allowed binders τ ps qs := by
            induction ps generalizing qs with
            | nil => intro τ; cases qs <;> rfl
            | cons p ps ihs =>
                intro τ
                cases qs with
                | nil => rfl
                | cons q qs =>
                    have hrest := fun τ => ihs (fun r hr => ih r (List.mem_cons_of_mem p hr)) qs τ
                    rw [Proposition.bareList, Proposition.bareList, Unify.members, Unify.members,
                      ih p List.mem_cons_self]
                    simp only [hrest]
          rw [Proposition.bare, Proposition.bare, Unify.proposition, Unify.proposition, hmembers]
      | _ => rfl
  | implies a b m iha ihb =>
      cases q with
      | implies c d m' =>
          simp only [Proposition.bare, Unify.proposition, iha, ihb]
      | _ => rfl
  | iff a b m iha ihb =>
      cases q with
      | iff c d m' => simp only [Proposition.bare, Unify.proposition, iha, ihb]
      | _ => rfl
  | quantified k v domain p m ih =>
      cases q with
      | quantified l w domain' q m' => simp only [Proposition.bare, Unify.proposition, ih]
      | _ => rfl
  | contradiction m => cases q <;> rfl

@[simp] theorem Proposition.equivalent_bare (p q : Proposition) :
    p.bare.equivalent q.bare = p.equivalent q := by
  rw [equivalent, equivalent, Unify.proposition_bare]

@[simp] theorem Proposition.unify?_bare (p q : Proposition) (vs : List Variable) :
    p.bare.unify? q.bare vs = p.unify? q vs := Unify.proposition_bare _ _ _ p q

/-- What a fact says. -/
def Fact.content (f : Fact) : Proposition := f.statement.bare

end Entailment
