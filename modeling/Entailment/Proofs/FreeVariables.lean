import Entailment.Proofs.AlphaEquivalence
import Entailment.Proofs.Knowledge

/-!
# Free variables

There are two ways to ask which variables are free. One goes through a proposition and collects
them, and hands the binders around and what it has found so far from part to part. The other looks
for a single variable, and turns back at its binders. They agree at every place, whatever is bound
there and whatever was found before (`mem_addFree`).

In a nameless form all variables are free. Collecting them there finds the same ones in the same
order (`addFree_indexed`), so equivalent propositions have the same list of free variables.
-/
namespace Entailment

namespace IndexedTerm

mutual

/-- Extends `seen` by the variables of a nameless term that it lacks. -/
def addFree (seen : List Variable) : IndexedTerm → List Variable
  | .free v => if v ∈ seen then seen else seen ++ [v]
  | .app _ args => addFreeList seen args
  | .bound _ | .const _ | .num _ => seen

def addFreeList (seen : List Variable) : List IndexedTerm → List Variable
  | [] => seen
  | t :: ts => addFreeList (addFree seen t) ts

end

@[simp] theorem addFreeList_eq_foldl (seen : List Variable) (ts : List IndexedTerm) :
    addFreeList seen ts = ts.foldl addFree seen := by
  induction ts generalizing seen with
  | nil => rfl
  | cons t ts ih => simp [addFreeList, ih]

end IndexedTerm

namespace IndexedProposition

mutual

/-- Extends `seen` by the variables of a nameless proposition that it lacks. -/
def addFree (seen : List Variable) : IndexedProposition → List Variable
  | .relation _ args => args.foldl IndexedTerm.addFree seen
  | .not p => addFree seen p
  | .junction _ ps => addFreeList seen ps
  | .implies a b | .iff a b => addFree (addFree seen a) b
  | .quantified _ domain p => addFree (domain.elim seen (IndexedTerm.addFree seen)) p
  | .contradiction => seen

def addFreeList (seen : List Variable) : List IndexedProposition → List Variable
  | [] => seen
  | p :: ps => addFreeList (addFree seen p) ps

end

@[simp] theorem addFreeList_eq_foldl (seen : List Variable) (ps : List IndexedProposition) :
    addFreeList seen ps = ps.foldl addFree seen := by
  induction ps generalizing seen with
  | nil => rfl
  | cons p ps ih => simp [addFreeList, ih]

end IndexedProposition

section Folds
variable {α β : Type} {f : List β → α → List β}

theorem mem_foldl_iff {P : α → Prop} {y : β} {xs : List α}
    (h : ∀ x ∈ xs, ∀ seen, y ∈ f seen x ↔ y ∈ seen ∨ P x) (seen : List β) :
    y ∈ xs.foldl f seen ↔ y ∈ seen ∨ ∃ x ∈ xs, P x := by
  induction xs generalizing seen with
  | nil => simp
  | cons x xs ih =>
      obtain ⟨hfirst, hrest⟩ := List.forall_mem_cons.mp h
      rw [List.foldl_cons, ih hrest, hfirst, or_assoc]
      simp only [List.mem_cons, exists_eq_or_imp]

theorem nodup_foldl {xs : List α} (h : ∀ x ∈ xs, ∀ seen, seen.Nodup → (f seen x).Nodup)
    {seen : List β} (hseen : seen.Nodup) : (xs.foldl f seen).Nodup := by
  induction xs generalizing seen with
  | nil => exact hseen
  | cons x xs ih =>
      obtain ⟨hfirst, hrest⟩ := List.forall_mem_cons.mp h
      exact ih hrest (hfirst seen hseen)

end Folds

namespace Proposition

theorem mem_addUnbound_vars (v : Variable) (bound seen : List Variable) (t : Term) :
    v ∈ addUnbound bound seen t.vars ↔
      v ∈ seen ∨ (v ∉ bound ∧ (Term.var v).occursIn t = true) := by
  rw [mem_addUnbound, Term.mem_vars]

/-- Both ways of asking agree, also inside of a proposition. -/
theorem mem_addFree (p : Proposition) (bound seen : List Variable) (v : Variable) :
    v ∈ addFree bound seen p ↔ v ∈ seen ∨ (v ∉ bound ∧ p.contains (.var v) = true) := by
  induction p using Proposition.inductionOn generalizing bound seen with
  | relation name args m =>
      rw [addFree, mem_foldl_iff fun t _ seen => mem_addUnbound_vars v bound seen t, contains,
        List.any_eq_true]
      simp only [and_left_comm (b := v ∉ bound), exists_and_left]
  | not p m ih => exact ih bound seen
  | junction c ps m ih =>
      rw [addFree, addFreeList_eq_foldl, mem_foldl_iff fun p hp seen => ih p hp bound seen,
        contains, containsAny_eq_any, List.any_eq_true]
      simp only [and_left_comm (b := v ∉ bound), exists_and_left]
  | implies a b m iha ihb =>
      rw [addFree, ihb, iha, contains, Bool.or_eq_true, and_or_left, or_assoc]
  | iff a b m iha ihb =>
      rw [addFree, ihb, iha, contains, Bool.or_eq_true, and_or_left, or_assoc]
  | quantified q w domain p m ih =>
      have hdomain : v ∈ domain.elim seen (fun set => addUnbound bound seen set.vars) ↔
          v ∈ seen ∨ (v ∉ bound ∧ domain.any (Term.var v).occursIn = true) := by
        cases domain with
        | none => simp
        | some set => exact mem_addUnbound_vars v bound seen set
      have hbinder : (Term.var w).occursIn (.var v) = false ↔ v ≠ w := by
        simp [Term.occursIn]
      rw [addFree, ih, hdomain, contains, List.mem_cons, not_or, Bool.or_eq_true, Bool.and_eq_true,
        Bool.not_eq_true', hbinder, and_or_left, or_assoc, and_comm (a := v ≠ w), and_assoc]
  | contradiction m => simp [addFree, contains]

theorem nodup_addFree (p : Proposition) (bound : List Variable) {seen : List Variable}
    (h : seen.Nodup) : (addFree bound seen p).Nodup := by
  induction p using Proposition.inductionOn generalizing bound seen with
  | relation name args m =>
      exact nodup_foldl (fun t _ seen hseen => nodup_addUnbound bound t.vars hseen) h
  | not p m ih => exact ih bound h
  | junction c ps m ih =>
      rw [addFree, addFreeList_eq_foldl]
      exact nodup_foldl (fun p hp seen hseen => ih p hp bound hseen) h
  | implies a b m iha ihb => exact ihb bound (iha bound h)
  | iff a b m iha ihb => exact ihb bound (iha bound h)
  | quantified q w domain p m ih =>
      cases domain with
      | none => exact ih (w :: bound) h
      | some set => exact ih (w :: bound) (nodup_addUnbound bound set.vars h)
  | contradiction m => exact h

theorem mem_freeVariables {p : Proposition} {v : Variable} :
    v ∈ p.freeVariables ↔ p.contains (.var v) = true := by
  simp [freeVariables, mem_addFree]

end Proposition

section Nameless
variable {bound : List Variable}

theorem Proposition.addUnbound_append (bound seen vs ws : List Variable) :
    addUnbound bound seen (vs ++ ws) = addUnbound bound (addUnbound bound seen vs) ws :=
  List.foldl_append

theorem Proposition.addUnbound_singleton (bound seen : List Variable) (v : Variable) :
    addUnbound bound seen [v] = if v ∈ bound ∨ v ∈ seen then seen else seen ++ [v] :=
  rfl

/-- The distinct variables of a term are collected like all its variables in a row. -/
theorem Term.addUnbound_addVariables (t : Term) (seen found : List Variable) :
    Proposition.addUnbound bound seen (t.addVariables found) =
      (t.indexed bound).addFree (Proposition.addUnbound bound seen found) := by
  induction t using Term.inductionOn generalizing found with
  | var v =>
      by_cases hbound : v ∈ bound
      · obtain ⟨i, hi⟩ := Option.isSome_iff_exists.mp (List.isSome_idxOf?.mpr hbound)
        rw [indexed_var_of_some hi, IndexedTerm.addFree, addVariables]
        split
        next => rfl
        next => rw [Proposition.addUnbound_append, Proposition.addUnbound_singleton,
            if_pos (.inl hbound)]
      · rw [indexed_var_of_notMem hbound, IndexedTerm.addFree, addVariables]
        by_cases hfound : v ∈ found
        · -- It was collected when it was found, if not before.
          have hcollected : v ∈ Proposition.addUnbound bound seen found :=
            (Proposition.mem_addUnbound ..).mpr (.inr ⟨hbound, hfound⟩)
          rw [if_pos hfound, if_pos hcollected]
        · rw [if_neg hfound, Proposition.addUnbound_append, Proposition.addUnbound_singleton]
          simp only [hbound, false_or]
  | const name => rfl
  | num n => rfl
  | app head args ih =>
      rw [addVariables, addVariablesList_eq_foldl, indexed, indexedList_eq_map,
        IndexedTerm.addFree, IndexedTerm.addFreeList_eq_foldl]
      induction args generalizing found with
      | nil => rfl
      | cons t args ihargs =>
          obtain ⟨hfirst, hrest⟩ := List.forall_mem_cons.mp ih
          rw [List.foldl_cons, ihargs hrest, hfirst, List.map_cons, List.foldl_cons]

theorem Term.addUnbound_vars (t : Term) (seen : List Variable) :
    Proposition.addUnbound bound seen t.vars = (t.indexed bound).addFree seen :=
  t.addUnbound_addVariables seen []

namespace Proposition

/-- Free variables can be collected from the nameless form. -/
theorem addFree_indexed (p : Proposition) (bound seen : List Variable) :
    (p.indexed bound).addFree seen = addFree bound seen p := by
  induction p using Proposition.inductionOn generalizing bound seen with
  | relation name args m =>
      rw [indexed, IndexedProposition.addFree, List.foldl_map, addFree]
      simp only [Term.addUnbound_vars]
  | not p m ih => exact ih bound seen
  | junction c ps m ih =>
      rw [indexed, indexedMembers_eq_map, IndexedProposition.addFree,
        IndexedProposition.addFreeList_eq_foldl, List.foldl_map, addFree, addFreeList_eq_foldl]
      exact List.foldl_ext _ _ _ fun seen p hp => ih p hp bound seen
  | implies a b m iha ihb => rw [indexed, IndexedProposition.addFree, iha, ihb, addFree]
  | iff a b m iha ihb => rw [indexed, IndexedProposition.addFree, iha, ihb, addFree]
  | quantified q v domain p m ih =>
      rw [indexed, IndexedProposition.addFree, ih, addFree]
      cases domain with
      | none => rfl
      | some set => exact congrArg (addFree (v :: bound) · p) (set.addUnbound_vars seen).symm
  | contradiction m => rfl

/-- The list of free variables has those that occur free, each of them once, and is the same for
equivalent propositions. -/
theorem freeVariables_exact (p q : Proposition) :
    (∀ v, v ∈ p.freeVariables ↔ p.contains (.var v) = true) ∧ p.freeVariables.Nodup ∧
      (p.equivalent q = true → p.freeVariables = q.freeVariables) := by
  refine ⟨fun v => mem_freeVariables, nodup_addFree p [] List.nodup_nil, fun h => ?_⟩
  have hforms : p.namelessForm = q.namelessForm := equivalent_iff.mp h
  calc p.freeVariables
      = p.namelessForm.addFree [] := (addFree_indexed p [] []).symm
    _ = q.namelessForm.addFree [] := by rw [hforms]
    _ = q.freeVariables := addFree_indexed q [] []

/-- The proposition `∀outer∈f(x). R(outer, z) ∧ (∃inner. R(inner, y))`. -/
def related (outer inner x y z : Variable) : Proposition :=
  .quantified .all outer (some (.app "f" [.var x])) (.junction .and
    [.relation "R" [.var outer, .var z],
      .quantified .exist inner none (.relation "R" [.var inner, .var y])])

/-- In `∀x∈f(x). R(x, z) ∧ (∃x. R(x, y))` the variable `x` is bound twice, and free in the domain
alone. -/
theorem freeVariables_exact_boundTwice :
    let p := related ⟨1, "x"⟩ ⟨1, "x"⟩ ⟨1, "x"⟩ ⟨2, "y"⟩ ⟨3, "z"⟩
    let q := related ⟨4, "v"⟩ ⟨5, "w"⟩ ⟨1, "x"⟩ ⟨2, "y"⟩ ⟨3, "z"⟩
    p.equivalent q = true ∧ p.freeVariables = q.freeVariables ∧
      p.freeVariables = [⟨1, "x"⟩, ⟨3, "z"⟩, ⟨2, "y"⟩] ∧ ⟨1, "x"⟩ ∈ p.freeVariables := by
  intro p q
  have hequivalent : p.equivalent q = true := by decide
  obtain ⟨hmem, -, hsame⟩ := freeVariables_exact p q
  exact ⟨hequivalent, hsame hequivalent, by decide, (hmem _).mpr (by decide)⟩

end Proposition

end Nameless

end Entailment
