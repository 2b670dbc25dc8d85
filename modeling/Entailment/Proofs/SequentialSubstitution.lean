import Entailment.Proofs.Marks
import Entailment.Proofs.Spelling
import Entailment.Proofs.Unifiers

/-!
# Bindings at once and one after another

A substitution puts in all of its terms at once. Replacing its variables one after another does the
same as long as no term mentions a variable that is replaced, and then the order does not matter.
The two treat quantifiers differently: a substitution drops the binding of the bound variable and
goes on, with all of its bindings in the domain, and replacing that variable stops at the
quantifier. This makes no difference if the domain does not mention the bound variable.
-/
namespace Entailment

namespace Substitution
variable {σ τ : Substitution}

/-- Replaces the variables one after another. -/
def inTurn (σ : Substitution) (p : Proposition) : Proposition :=
  σ.foldl (fun q b => q.replaceAll (.var b.1) b.2) p

/-- Replaces the variables one after another in a term. -/
def inTurnTerm (σ : Substitution) (t : Term) : Term :=
  σ.foldl (fun u b => Term.replace (.var b.1) b.2 u) t

/-- No term of a substitution mentions one of its variables. -/
def IsApart (σ : Substitution) : Prop :=
  ∀ v ∈ σ.map Prod.fst, ∀ t ∈ σ.map Prod.snd, (Term.var v).occursIn t = false

instance (σ : Substitution) : Decidable σ.IsApart :=
  inferInstanceAs (Decidable (∀ v ∈ σ.map Prod.fst, ∀ t ∈ σ.map Prod.snd,
    (Term.var v).occursIn t = false))

theorem IsApart.mono (h : σ.IsApart) (hsub : τ ⊆ σ) : τ.IsApart := by
  intro v hv t ht
  exact h v (List.map_subset _ hsub hv) t (List.map_subset _ hsub ht)

theorem without_subset (σ : Substitution) (v : Variable) : σ.without v ⊆ σ := by
  intro b hb
  exact (List.mem_filter.mp hb).1

/-- Which bindings there are decides what is found, if no variable has several. -/
theorem find?_perm (honce : (σ.map Prod.fst).Nodup) (hperm : τ.Perm σ) (v : Variable) :
    τ.find? v = σ.find? v := by
  have honce' : (τ.map Prod.fst).Nodup := ((hperm.map _).nodup_iff).mpr honce
  cases hfind : σ.find? v with
  | none =>
      rw [find?_eq_none_iff] at hfind ⊢
      rwa [(hperm.map _).mem_iff]
  | some t => exact find?_of_mem honce' (hperm.mem_iff.mpr (mem_of_find? hfind))

section Terms

theorem inTurnTerm_cons (v : Variable) (t u : Term) :
    inTurnTerm ((v, t) :: σ) u = σ.inTurnTerm (Term.replace (.var v) t u) := rfl

theorem inTurnTerm_app (σ : Substitution) (head : String) (args : List Term) :
    σ.inTurnTerm (.app head args) = .app head (args.map σ.inTurnTerm) := by
  induction σ generalizing args with
  | nil =>
      unfold inTurnTerm
      simp
  | cons b σ ih =>
      obtain ⟨v, t⟩ := b
      rw [inTurnTerm_cons, Term.replace, if_neg (by simp), Term.replaceList_eq_map, ih,
        List.map_map]
      rfl

theorem inTurnTerm_of_clear {t : Term}
    (h : ∀ v ∈ σ.map Prod.fst, (Term.var v).occursIn t = false) : σ.inTurnTerm t = t := by
  induction σ with
  | nil => rfl
  | cons b σ ih =>
      obtain ⟨v, u⟩ := b
      obtain ⟨hv, hrest⟩ := List.forall_mem_cons.mp h
      rw [inTurnTerm_cons, Term.replace_of_not_occursIn hv, ih hrest]

theorem inTurnTerm_var (h : σ.IsApart) (v : Variable) :
    σ.inTurnTerm (.var v) = σ.applyTerm (.var v) := by
  induction σ with
  | nil => rfl
  | cons b σ ih =>
      obtain ⟨w, t⟩ := b
      have hrest : IsApart σ := h.mono (List.subset_cons_self _ _)
      rw [inTurnTerm_cons, Term.replace, applyTerm, find?_cons]
      by_cases hvw : v = w
      · rw [if_pos (by rw [hvw]), if_pos hvw, Option.getD_some]
        apply inTurnTerm_of_clear
        intro x hx
        exact h x (List.mem_cons_of_mem _ hx) t (by simp)
      · rw [if_neg (by simpa using hvw), if_neg hvw, ih hrest, applyTerm]

theorem inTurnTerm_eq_applyTerm (h : σ.IsApart) (t : Term) : σ.inTurnTerm t = σ.applyTerm t := by
  induction t using Term.inductionOn with
  | var v => exact inTurnTerm_var h v
  | const name =>
      apply inTurnTerm_of_clear
      simp [Term.occursIn]
  | num n =>
      apply inTurnTerm_of_clear
      simp [Term.occursIn]
  | app head args ih =>
      rw [inTurnTerm_app, applyTerm, applyTerms_eq_map]
      congr 1
      exact List.map_congr_left ih

end Terms

section Propositions

theorem inTurn_cons (v : Variable) (t : Term) (p : Proposition) :
    inTurn ((v, t) :: σ) p = σ.inTurn (p.replaceAll (.var v) t) := rfl

theorem inTurn_relation (σ : Substitution) (name : String) (args : List Term) :
    σ.inTurn (.relation name args) = .relation name (args.map σ.inTurnTerm) := by
  induction σ generalizing args with
  | nil =>
      unfold inTurn inTurnTerm
      simp
  | cons b σ ih =>
      obtain ⟨v, t⟩ := b
      have hreplace : (Proposition.relation name args).replaceAll (.var v) t =
          .relation name (args.map (Term.replace (.var v) t)) := rfl
      rw [inTurn_cons, hreplace, ih, List.map_map]
      rfl

theorem inTurn_not (σ : Substitution) (p : Proposition) :
    σ.inTurn (.not p) = .not (σ.inTurn p) := by
  induction σ generalizing p with
  | nil => rfl
  | cons b σ ih => exact ih _

theorem inTurn_junction (σ : Substitution) (c : Connective) (ps : List Proposition) :
    σ.inTurn (.junction c ps) = .junction c (ps.map σ.inTurn) := by
  induction σ generalizing ps with
  | nil =>
      unfold inTurn
      simp
  | cons b σ ih =>
      obtain ⟨v, t⟩ := b
      rw [inTurn_cons, Proposition.replaceAll_junction, ih, List.map_map]
      rfl

theorem inTurn_implies (σ : Substitution) (a b : Proposition) :
    σ.inTurn (.implies a b) = .implies (σ.inTurn a) (σ.inTurn b) := by
  induction σ generalizing a b with
  | nil => rfl
  | cons first σ ih => exact ih _ _

theorem inTurn_iff (σ : Substitution) (a b : Proposition) :
    σ.inTurn (.iff a b) = .iff (σ.inTurn a) (σ.inTurn b) := by
  induction σ generalizing a b with
  | nil => rfl
  | cons first σ ih => exact ih _ _

/-- Replacing the bound variable changes nothing, and other variables are replaced on both sides of
the quantifier. -/
theorem inTurn_quantified (σ : Substitution) (q : Quantifier) (v : Variable) (domain : Option Term)
    (p : Proposition) :
    σ.inTurn (.quantified q v domain p) =
      .quantified q v (domain.map (σ.without v).inTurnTerm) ((σ.without v).inTurn p) := by
  induction σ generalizing domain p with
  | nil =>
      cases domain <;> rfl
  | cons b σ ih =>
      obtain ⟨w, t⟩ := b
      rw [inTurn_cons, Proposition.replaceAll_quantified]
      by_cases hw : w = v
      · have hskip : without ((w, t) :: σ) v = without σ v := by simp [without, hw]
        rw [if_pos (by rw [hw]), ih, hskip]
      · have hkeep : without ((w, t) :: σ) v = (w, t) :: without σ v := by simp [without, hw]
        rw [if_neg (by simpa using hw), ih, hkeep, Option.map_map]
        rfl

theorem inTurn_contradiction (σ : Substitution) : σ.inTurn .contradiction = .contradiction := by
  induction σ with
  | nil => rfl
  | cons b σ ih => exact ih

theorem bare_inTurn (σ : Substitution) (p : Proposition) :
    (σ.inTurn p).bare = σ.inTurn p.bare := by
  induction σ generalizing p with
  | nil => rfl
  | cons b σ ih =>
      obtain ⟨v, t⟩ := b
      rw [inTurn_cons, inTurn_cons, ih, Proposition.bare_replaceAll]

/-- Bindings that find the same do the same, at once and one after another. -/
theorem apply_eq_inTurn {p : Proposition} (hmade : p.isWellMade = true) (hapart : τ.IsApart)
    (hfind : ∀ v, σ.find? v = τ.find? v) : σ.apply p.bare = τ.inTurn p.bare := by
  induction p using Proposition.inductionOn generalizing σ τ with
  | relation name args m =>
      rw [Proposition.bare, apply, inTurn_relation, applyTerms_eq_map]
      congr 1
      apply List.map_congr_left
      intro t _
      rw [inTurnTerm_eq_applyTerm hapart, applyTerm_eq_iff]
      intro x _
      rw [applyTerm, applyTerm, hfind x]
  | not p m ih => rw [Proposition.bare, apply, inTurn_not, ih hmade hapart hfind]
  | junction c ps m ih =>
      rw [Proposition.isWellMade, Proposition.areWellMade_eq_all, Bool.and_eq_true,
        List.all_eq_true] at hmade
      rw [Proposition.bare, Proposition.bareList_eq_map, apply, applyMembers_eq_map,
        inTurn_junction, List.map_map, List.map_map]
      congr 1
      exact List.map_congr_left fun p hp => ih p hp (hmade.2 p hp) hapart hfind
  | implies a b m iha ihb =>
      rw [Proposition.isWellMade, Bool.and_eq_true] at hmade
      rw [Proposition.bare, apply, inTurn_implies, iha hmade.1 hapart hfind,
        ihb hmade.2 hapart hfind]
  | iff a b m iha ihb =>
      rw [Proposition.isWellMade, Bool.and_eq_true] at hmade
      rw [Proposition.bare, apply, inTurn_iff, iha hmade.1 hapart hfind, ihb hmade.2 hapart hfind]
  | quantified q v domain p m ih =>
      simp only [Proposition.isWellMade, Bool.and_eq_true, Bool.not_eq_true',
        Option.any_eq_false] at hmade
      obtain ⟨⟨-, hdomain⟩, hbody⟩ := hmade
      have hrest : (τ.without v).IsApart := hapart.mono (without_subset τ v)
      have hfind' : ∀ x, (σ.without v).find? x = (τ.without v).find? x := by
        intro x
        rw [find?_without, find?_without, hfind x]
      rw [Proposition.bare, apply, inTurn_quantified, ih hbody hrest hfind']
      congr 1
      apply Option.map_congr
      intro t ht
      rw [inTurnTerm_eq_applyTerm hrest, applyTerm_eq_iff]
      -- The domain does not mention the one variable that is not replaced in it.
      intro x hx
      have hxv : x ≠ v := by
        rintro rfl
        rw [hdomain t ht] at hx
        cases hx
      rw [applyTerm, applyTerm, find?_without, if_neg hxv, hfind x]
  | contradiction m => rw [Proposition.bare, apply, inTurn_contradiction]

end Propositions

/-- Putting in the terms of a substitution all at once gives the same proposition as replacing its
variables one after another, in any order, if no variable has several terms and no term mentions one
of the variables. -/
theorem apply_same_inTurn {p : Proposition} (hmade : p.isWellMade = true)
    (honce : (σ.map Prod.fst).Nodup) (hapart : σ.IsApart) :
    ∀ τ : Substitution, τ.Perm σ → (σ.apply p).same (τ.inTurn p) = true := by
  intro τ hperm
  rw [Proposition.same_iff_bare, Proposition.bare_apply, bare_inTurn]
  apply apply_eq_inTurn hmade (hapart.mono hperm.subset)
  intro v
  exact (find?_perm honce hperm v).symm

/-- For all `x` in `S(y)`, `x` is less than `y`, and also `x` is less than `y` outside. -/
def partlyBound : Proposition :=
  .junction .and [
    .quantified .all ⟨1, "x"⟩ (some (.app "S" [.var ⟨2, "y"⟩]))
      (.rel .less (.var ⟨1, "x"⟩) (.var ⟨2, "y"⟩)),
    .rel .less (.var ⟨1, "x"⟩) (.var ⟨2, "y"⟩)]

/-- The bound `x` stays, and the terms for `x` and `y` can come in either order. -/
theorem apply_same_inTurn_partlyBound :
    let x : Variable × Term := (⟨1, "x"⟩, .app "f" [.var ⟨3, "z"⟩])
    let y : Variable × Term := (⟨2, "y"⟩, .app "g" [.var ⟨3, "z"⟩])
    (apply [x, y] partlyBound).same (inTurn [x, y] partlyBound) = true ∧
      (apply [x, y] partlyBound).same (inTurn [y, x] partlyBound) = true := by
  intro x y
  have hmade : partlyBound.isWellMade = true := by decide
  have honce : (List.map Prod.fst [x, y]).Nodup := by decide
  have hapart : IsApart [x, y] := by decide
  exact ⟨apply_same_inTurn hmade honce hapart _ (.refl _),
    apply_same_inTurn hmade honce hapart _ (.swap _ _ _)⟩

end Substitution

end Entailment
