import Entailment.Proofs.Interpretation
import Entailment.Proofs.Run

/-!
# Soundness of matching

Matching a proposition with the body of a universal statement gives values to the quantified
variables. Read as an assignment, these values make the body say what the proposition says. This
needs two things that the matcher does not see to. A variable that received a value may not occur
free in what is being matched, since the matcher takes a variable met on both sides to stand for
itself, whatever value it has. And a variable inside a value may not be bound by a quantifier of the
proposition, since a value that was found outside of that quantifier is accepted inside.
-/
namespace Entailment

universe u

/-- The assignment under which a variable has the value of the term that is put in its place. -/
def Interpretation.instantiated {D : Type u} (I : Interpretation D) (ρ : Variable → D)
    (σ : Substitution) : Variable → D :=
  fun x => I.value ρ (σ.applyTerm (.var x))

namespace Substitution

mutual

/-- Applying a substitution puts no variable under a quantifier that binds it. -/
def admittedBy (σ : Substitution) : Proposition → Bool
  | .relation _ _ _ | .contradiction _ => true
  | .not p _ => admittedBy σ p
  | .junction _ ps _ => admittedByAll σ ps
  | .implies a b _ | .iff a b _ => admittedBy σ a && admittedBy σ b
  | .quantified _ w _ p _ =>
      (σ.without w).all (fun (v, t) => !p.contains (.var v) || !(Term.var w).occursIn t) &&
        admittedBy (σ.without w) p

def admittedByAll (σ : Substitution) : List Proposition → Bool
  | [] => true
  | p :: ps => admittedBy σ p && admittedByAll σ ps

end

@[simp] theorem admittedByAll_eq_all (σ : Substitution) (ps : List Proposition) :
    σ.admittedByAll ps = ps.all σ.admittedBy := by
  induction ps with
  | nil => rfl
  | cons p ps ih => simp [admittedByAll, ih]

theorem find?_cons (v w : Variable) (t : Term) (σ : Substitution) :
    find? ((w, t) :: σ) v = if v = w then some t else σ.find? v := by
  rw [find?, List.lookup_cons]
  by_cases h : v = w
  · simp [h]
  · rw [if_neg h, beq_false_of_ne h]
    rfl

theorem find?_append_self {σ : Substitution} {v : Variable} {t : Term} (h : σ.find? v = none) :
    find? (σ ++ [(v, t)]) v = some t := by
  rw [find?] at h ⊢
  rw [List.lookup_append, h]
  simp

theorem applyTerm_var_of_some {σ : Substitution} {v : Variable} {t : Term}
    (h : σ.find? v = some t) : σ.applyTerm (.var v) = t := by
  rw [applyTerm, h]
  rfl

theorem applyTerm_var_of_none {σ : Substitution} {v : Variable} (h : σ.find? v = none) :
    σ.applyTerm (.var v) = .var v := by
  rw [applyTerm, h]
  rfl

theorem mem_of_find? {σ : Substitution} {v : Variable} {t : Term} (h : σ.find? v = some t) :
    (v, t) ∈ σ := by
  obtain ⟨before, rest, rfl, -⟩ := List.lookup_eq_some_iff.mp h
  simp

theorem find?_without (σ : Substitution) (w v : Variable) :
    (σ.without w).find? v = if v = w then none else σ.find? v := by
  induction σ with
  | nil => simp [without, find?]
  | cons first σ ih =>
      obtain ⟨x, t⟩ := first
      by_cases hxw : x = w
      · have hskip : without ((x, t) :: σ) w = without σ w := by simp [without, hxw]
        rw [hskip, ih, find?_cons]
        by_cases hvw : v = w <;> simp [hvw, hxw]
      · have hkeep : without ((x, t) :: σ) w = (x, t) :: without σ w := by simp [without, hxw]
        rw [hkeep, find?_cons, find?_cons, ih]
        by_cases hvx : v = x
        · simp [hvx, hxw]
        · simp [hvx]

end Substitution

namespace Interpretation
variable {D : Type u} {I : Interpretation D}

theorem instantiated_of_none {ρ : Variable → D} {σ : Substitution} {x : Variable}
    (h : σ.find? x = none) : I.instantiated ρ σ x = ρ x := by
  rw [instantiated, Substitution.applyTerm_var_of_none h, value]

theorem instantiated_of_some {ρ : Variable → D} {σ : Substitution} {x : Variable} {t : Term}
    (h : σ.find? x = some t) : I.instantiated ρ σ x = I.value ρ t := by
  rw [instantiated, Substitution.applyTerm_var_of_some h]

theorem value_applyTerm (ρ : Variable → D) (σ : Substitution) (t : Term) :
    I.value ρ (σ.applyTerm t) = I.value (I.instantiated ρ σ) t := by
  induction t using Term.inductionOn with
  | var x => rfl
  | const name => rfl
  | num n => rfl
  | app head args ih =>
      rw [Substitution.applyTerm, value, value, values_eq_map, values_eq_map,
        Substitution.applyTerms_eq_map, List.map_map]
      congr 1
      exact List.map_congr_left ih

theorem within_applyTerm (ρ : Variable → D) (σ : Substitution) (domain : Option Term) (d : D) :
    I.Within ρ (domain.map σ.applyTerm) d ↔ I.Within (I.instantiated ρ σ) domain d := by
  cases domain with
  | none => exact Iff.rfl
  | some set => rw [Option.map_some, Within, Within, value_applyTerm]

/-- Applying a substitution without capture reads as changing the assignment. -/
theorem satisfies_apply {ρ : Variable → D} {σ : Substitution} {p : Proposition}
    (h : σ.admittedBy p = true) :
    I.Satisfies ρ (σ.apply p) ↔ I.Satisfies (I.instantiated ρ σ) p := by
  induction p using Proposition.inductionOn generalizing ρ σ with
  | relation name args m =>
      have hargs : (args.map σ.applyTerm).map (I.value ρ) =
          args.map (I.value (I.instantiated ρ σ)) := by
        rw [List.map_map]
        exact List.map_congr_left fun t _ => value_applyTerm ρ σ t
      rw [Substitution.apply, Substitution.applyTerms_eq_map]
      exact satisfies_relation_congr hargs
  | not p m ih => exact not_congr (ih h)
  | junction c ps m ih =>
      rw [Substitution.admittedBy, Substitution.admittedByAll_eq_all, List.all_eq_true] at h
      have hmembers : (ps.map σ.apply).map (I.Satisfies ρ) =
          ps.map (I.Satisfies (I.instantiated ρ σ)) := by
        rw [List.map_map]
        exact List.map_congr_left fun p hp => propext (ih p hp (h p hp))
      rw [Substitution.apply, Substitution.applyMembers_eq_map]
      exact satisfies_junction_congr hmembers
  | implies a b m iha ihb =>
      rw [Substitution.admittedBy, Bool.and_eq_true] at h
      exact imp_congr (iha h.1) (ihb h.2)
  | iff a b m iha ihb =>
      rw [Substitution.admittedBy, Bool.and_eq_true] at h
      exact iff_congr (iha h.1) (ihb h.2)
  | quantified q w domain p m ih =>
      rw [Substitution.admittedBy, Bool.and_eq_true, List.all_eq_true] at h
      rw [Substitution.apply]
      refine satisfies_quantified_congr (within_applyTerm ρ σ domain) fun d => ?_
      rw [ih h.2]
      refine satisfies_congr fun x hx => ?_
      by_cases hxw : x = w
      · have hnone : (σ.without w).find? x = none := by
          rw [Substitution.find?_without, if_pos hxw]
        rw [instantiated_of_none hnone, hxw, Function.update_self, Function.update_self]
      · rw [Function.update_of_ne hxw]
        have hsame : (σ.without w).find? x = σ.find? x := by
          rw [Substitution.find?_without, if_neg hxw]
        cases hfound : σ.find? x with
        | none =>
            rw [instantiated_of_none (hsame.trans hfound), instantiated_of_none hfound,
              Function.update_of_ne hxw]
        | some t =>
            have hclear := h.1 (x, t) (Substitution.mem_of_find? (hsame.trans hfound))
            rw [instantiated_of_some (hsame.trans hfound), instantiated_of_some hfound]
            refine value_congr fun y hy => Function.update_of_ne ?_ _ _
            rintro rfl
            simp [hx, hy] at hclear
  | contradiction m => exact Iff.rfl

end Interpretation

namespace Unify

theorem bind_cases {b : Binders} {σ τ : Substitution} {v : Variable} {t : Term}
    (h : Unify.bind b σ v t = some τ) :
    (τ = σ ∧ t = .var v) ∨ (τ = σ ∧ σ.find? v = some t) ∨
      (σ.find? v = none ∧ (∀ x, (Term.var x).occursIn t = true → x ∉ b.left ∧ x ∉ b.right) ∧
        τ = σ ++ [(v, t)]) := by
  unfold Unify.bind at h
  split at h
  next ht => exact .inl ⟨(Option.some.inj h).symm, ht⟩
  next =>
    split at h
    next existing hexisting =>
      split at h
      next heq => exact .inr (.inl ⟨(Option.some.inj h).symm, heq ▸ hexisting⟩)
      next => cases h
    next hnone =>
      split at h
      next => cases h
      next =>
        split at h
        next => cases h
        next hescapes =>
          refine .inr (.inr ⟨hnone, fun x hx => ?_, (Option.some.inj h).symm⟩)
          rw [List.any_eq_true, not_exists] at hescapes
          have hbound : x ∉ b.left ++ b.right := fun hmem => hescapes x ⟨hmem, hx⟩
          rwa [List.mem_append, not_or] at hbound

theorem bind_eq_some {b : Binders} {σ τ : Substitution} {v : Variable} {t : Term}
    (h : Unify.bind b σ v t = some τ) : σ <+: τ ∧ (t = .var v ∨ τ.find? v = some t) := by
  rcases bind_cases h with ⟨rfl, ht⟩ | ⟨rfl, hfound⟩ | ⟨hnone, -, rfl⟩
  · exact ⟨List.prefix_rfl, .inl ht⟩
  · exact ⟨List.prefix_rfl, .inr hfound⟩
  · exact ⟨List.prefix_append _ _, .inr (Substitution.find?_append_self hnone)⟩

/-- How two terms come to match, of which at least one is not an application. -/
inductive LeafMatch (b : Binders) (τ : Substitution) : Term → Term → Prop
  | bound {l r : Variable} {i : Nat} : Binders.depth? b.left (.var l) = some i →
      Binders.depth? b.right (.var r) = some i → LeafMatch b τ (.var l) (.var r)
  | same {x : Variable} : Binders.depth? b.left (.var x) = none →
      Binders.depth? b.right (.var x) = none → LeafMatch b τ (.var x) (.var x)
  | const {name : String} : LeafMatch b τ (.const name) (.const name)
  | num {n : Int} : LeafMatch b τ (.num n) (.num n)
  | right {s : Term} {r : Variable} : Binders.depth? b.right (.var r) = none →
      τ.find? r = some s → LeafMatch b τ s (.var r)
  | left {l : Variable} {t : Term} : Binders.depth? b.left (.var l) = none →
      τ.find? l = some t → LeafMatch b τ (.var l) t

theorem var_of_depth {vs : List Variable} {t : Term} {i : Nat}
    (h : Binders.depth? vs t = some i) : ∃ v, t = .var v := by
  cases t with
  | var v => exact ⟨v, rfl⟩
  | _ => cases h

/-- Two terms that are not taken apart match if they are bound at the same distance. Otherwise both
are free: they are equal, or one is a variable that may get the other one as its value. -/
theorem leaf_cases {allowed : Bindable} {b : Binders} {σ τ : Substitution} {s t : Term}
    (h : Unify.leaf allowed b σ s t = some τ) :
    (∃ l r i, s = .var l ∧ t = .var r ∧ Binders.depth? b.left (.var l) = some i ∧
      Binders.depth? b.right (.var r) = some i ∧ τ = σ) ∨
    (Binders.depth? b.left s = none ∧ Binders.depth? b.right t = none ∧
      ((s = t ∧ τ = σ) ∨
        (∃ r, t = .var r ∧ allowed.allows r = true ∧ Unify.bind b σ r s = some τ) ∨
        ∃ l, s = .var l ∧ allowed.allows l = true ∧ Unify.bind b σ l t = some τ)) := by
  unfold Unify.leaf at h
  split at h
  next hs ht =>
    refine .inr ⟨hs, ht, ?_⟩
    split at h
    next l r =>
      split at h
      next hallowed => exact .inr (.inl ⟨r, rfl, hallowed, h⟩)
      next =>
        split at h
        next hallowed => exact .inr (.inr ⟨l, rfl, hallowed, h⟩)
        next =>
          split at h
          next heq => exact .inl ⟨congrArg Term.var heq, (Option.some.inj h).symm⟩
          next => cases h
    next r _ =>
      split at h
      next hallowed => exact .inr (.inl ⟨r, rfl, hallowed, h⟩)
      next => cases h
    next l _ =>
      split at h
      next hallowed => exact .inr (.inr ⟨l, rfl, hallowed, h⟩)
      next => cases h
    next =>
      split at h
      next heq => exact .inl ⟨heq, (Option.some.inj h).symm⟩
      next => cases h
  next hdepth =>
    split at h
    next heq =>
      cases hs : Binders.depth? b.left s with
      | none => exact (hdepth hs (heq ▸ hs)).elim
      | some i =>
          have ht : Binders.depth? b.right t = some i := heq ▸ hs
          obtain ⟨l, rfl⟩ := var_of_depth hs
          obtain ⟨r, rfl⟩ := var_of_depth ht
          exact .inl ⟨l, r, i, rfl, rfl, hs, ht, (Option.some.inj h).symm⟩
    next => cases h

theorem leaf_eq_some {allowed : Bindable} {b : Binders} {σ τ : Substitution} {s t : Term}
    (h : Unify.leaf allowed b σ s t = some τ)
    (happ : ∀ f as g bs, ¬(s = .app f as ∧ t = .app g bs)) : σ <+: τ ∧ LeafMatch b τ s t := by
  rcases leaf_cases h with ⟨l, r, i, rfl, rfl, hl, hr, rfl⟩ |
    ⟨hs, ht, ⟨rfl, rfl⟩ | ⟨r, rfl, -, hbind⟩ | ⟨l, rfl, -, hbind⟩⟩
  · exact ⟨List.prefix_rfl, .bound hl hr⟩
  · refine ⟨List.prefix_rfl, ?_⟩
    cases s with
    | var x => exact .same hs ht
    | const name => exact .const
    | num n => exact .num
    | app f as => exact absurd ⟨rfl, rfl⟩ (happ f as f as)
  · obtain ⟨hgrows, rfl | hfound⟩ := bind_eq_some hbind
    · exact ⟨hgrows, .same hs ht⟩
    · exact ⟨hgrows, .right ht hfound⟩
  · obtain ⟨hgrows, rfl | hfound⟩ := bind_eq_some hbind
    · exact ⟨hgrows, .same hs ht⟩
    · exact ⟨hgrows, .left hs hfound⟩

theorem term_eq_leaf {allowed : Bindable} {b : Binders} {σ : Substitution} {s t : Term}
    (happ : ∀ f as g bs, ¬(s = .app f as ∧ t = .app g bs)) :
    Unify.term allowed b σ s t = Unify.leaf allowed b σ s t := by
  unfold Unify.term
  split
  next f as g bs => exact absurd ⟨rfl, rfl⟩ (happ f as g bs)
  next => rfl

end Unify

/-- The two sides of a match under quantifiers: `l` and `r` assign values under the quantifiers of
`b`, around which `ρ` and the values found so far apply. -/
structure Matched {D : Type u} (I : Interpretation D) (ρ : Variable → D) (θ : Substitution)
    (b : Binders) (l r : Variable → D) : Prop where
  bound : ∀ {x y i}, Binders.depth? b.left (.var x) = some i →
    Binders.depth? b.right (.var y) = some i → l x = r y
  left : ∀ {x}, Binders.depth? b.left (.var x) = none → l x = ρ x
  right : ∀ {y}, Binders.depth? b.right (.var y) = none → r y = I.instantiated ρ θ y
  apart : ∀ {v t x}, θ.find? v = some t → (Term.var x).occursIn t = true →
    Binders.depth? b.left (.var x) = none

section Matched
variable {D : Type u} {I : Interpretation D} {ρ l r : Variable → D} {θ : Substitution} {b : Binders}

theorem Binders.depth?_cons (v x : Variable) (vs : List Variable) :
    Binders.depth? (v :: vs) (.var x) =
      if v = x then some 0 else (Binders.depth? vs (.var x)).map (· + 1) := by
  simp [Binders.depth?, List.findIdx?_cons]

theorem matched_empty (I : Interpretation D) (ρ : Variable → D) (θ : Substitution) :
    Matched I ρ θ .empty ρ (I.instantiated ρ θ) where
  bound := by
    intro x y i hx _
    cases hx
  left := fun _ => rfl
  right := fun _ => rfl
  apart := fun _ _ => rfl

/-- Two quantifiers met in the same place range over the same values. -/
theorem Matched.push (h : Matched I ρ θ b l r) (v w : Variable) (d : D)
    (hv : ∀ {x t}, θ.find? x = some t → (Term.var v).occursIn t = false) :
    Matched I ρ θ (b.push v w) (Function.update l v d) (Function.update r w d) where
  bound := by
    intro x y i hx hy
    rw [Binders.push, Binders.depth?_cons] at hx hy
    split at hx
    next hvx =>
      cases hx
      split at hy
      next hwy => rw [← hvx, ← hwy, Function.update_self, Function.update_self]
      next => simp at hy
    next hvx =>
      split at hy
      next =>
        cases hy
        simp at hx
      next hwy =>
        obtain ⟨j, hj, rfl⟩ := Option.map_eq_some_iff.mp hx
        obtain ⟨k, hk, hjk⟩ := Option.map_eq_some_iff.mp hy
        rw [Function.update_of_ne (Ne.symm hvx), Function.update_of_ne (Ne.symm hwy)]
        exact h.bound hj (by rw [hk, Nat.succ.inj hjk])
  left := by
    intro x hx
    rw [Binders.push, Binders.depth?_cons] at hx
    split at hx
    next => cases hx
    next hvx =>
      rw [Function.update_of_ne (Ne.symm hvx)]
      exact h.left (Option.map_eq_none_iff.mp hx)
  right := by
    intro y hy
    rw [Binders.push, Binders.depth?_cons] at hy
    split at hy
    next => cases hy
    next hwy =>
      rw [Function.update_of_ne (Ne.symm hwy)]
      exact h.right (Option.map_eq_none_iff.mp hy)
  apart := by
    intro z t x hz hx
    rw [Binders.push, Binders.depth?_cons]
    split
    next hvx =>
      rw [← hvx, hv hz] at hx
      cases hx
    next => rw [h.apart hz hx, Option.map_none]

/-- Variables that have received a value do not occur free in a term, under the quantifiers around
it. -/
def ClearTerm (θ : Substitution) (b : Binders) (s : Term) : Prop :=
  ∀ x, (Term.var x).occursIn s = true → Binders.depth? b.left (.var x) = none → θ.find? x = none

theorem Unify.LeafMatch.value_eq {τ : Substitution} {s t : Term} (h : LeafMatch b τ s t)
    (hτ : τ <+: θ) (hmatched : Matched I ρ θ b l r) (hclear : ClearTerm θ b s) :
    I.value l s = I.value r t := by
  cases h with
  | bound hx hy => exact hmatched.bound hx hy
  | @same x hl hr =>
      have hnone : θ.find? x = none := hclear x (by simp [Term.occursIn]) hl
      rw [Interpretation.value, Interpretation.value, hmatched.left hl, hmatched.right hr,
        Interpretation.instantiated_of_none hnone]
  | const => rfl
  | num => rfl
  | @right _ y hr hfound =>
      have hfinal : θ.find? y = some s := hτ.lookup_eq_some hfound
      rw [Interpretation.value, hmatched.right hr, Interpretation.instantiated_of_some hfinal]
      exact Interpretation.value_congr fun x hx => hmatched.left (hmatched.apart hfinal hx)
  | @left x _ hl hfound =>
      have hfinal : θ.find? x = some t := hτ.lookup_eq_some hfound
      have hnone : θ.find? x = none := hclear x (by simp [Term.occursIn]) hl
      rw [hnone] at hfinal
      cases hfinal

mutual

/-- Matching only adds values, and two terms that match have the same value. -/
theorem value_of_unify {allowed : Bindable} {σ τ : Substitution} {s t : Term}
    (h : Unify.term allowed b σ s t = some τ) :
    σ <+: τ ∧ ∀ {θ : Substitution} {ρ l r : Variable → D}, τ <+: θ → Matched I ρ θ b l r →
      ClearTerm θ b s → I.value l s = I.value r t := by
  cases s with
  | app f as =>
      cases t with
      | app g bs =>
          rw [Unify.term] at h
          split at h
          next hfg =>
            obtain ⟨hgrows, hvalues⟩ := values_of_unify h
            refine ⟨hgrows, fun hτ hmatched hclear => ?_⟩
            have hargs := hvalues hτ hmatched fun s hs x hx hdepth => hclear x ?_ hdepth
            · rw [Interpretation.value, Interpretation.value, Interpretation.values_eq_map,
                Interpretation.values_eq_map, hargs, hfg]
            · rw [Term.occursIn, Term.occursInAny_eq_any, Bool.or_eq_true]
              exact .inr (List.any_eq_true.mpr ⟨s, hs, hx⟩)
          next => cases h
      | _ =>
          rw [Unify.term_eq_leaf (by simp)] at h
          obtain ⟨hgrows, hleaf⟩ := Unify.leaf_eq_some h (by simp)
          exact ⟨hgrows, fun hτ hmatched hclear => hleaf.value_eq hτ hmatched hclear⟩
  | _ =>
      rw [Unify.term_eq_leaf (by simp)] at h
      obtain ⟨hgrows, hleaf⟩ := Unify.leaf_eq_some h (by simp)
      exact ⟨hgrows, fun hτ hmatched hclear => hleaf.value_eq hτ hmatched hclear⟩

theorem values_of_unify {allowed : Bindable} {σ τ : Substitution} {ss ts : List Term}
    (h : Unify.terms allowed b σ ss ts = some τ) :
    σ <+: τ ∧ ∀ {θ : Substitution} {ρ l r : Variable → D}, τ <+: θ → Matched I ρ θ b l r →
      (∀ s ∈ ss, ClearTerm θ b s) → ss.map (I.value l) = ts.map (I.value r) := by
  cases ss with
  | nil =>
      cases ts with
      | nil =>
          cases h
          exact ⟨List.prefix_rfl, fun _ _ _ => rfl⟩
      | cons t ts => cases h
  | cons s ss =>
      cases ts with
      | nil => cases h
      | cons t ts =>
          rw [Unify.terms] at h
          split at h
          next ι hfirst =>
            obtain ⟨hgrows, hvalue⟩ := value_of_unify hfirst
            obtain ⟨hgrows', hvalues⟩ := values_of_unify h
            refine ⟨hgrows.trans hgrows', fun hτ hmatched hclear => ?_⟩
            rw [List.map_cons, List.map_cons,
              hvalue (hgrows'.trans hτ) hmatched (hclear s (by simp)),
              hvalues hτ hmatched fun s hs => hclear s (by simp [hs])]
          next => cases h

end

theorem within_of_unify {allowed : Bindable} {σ τ : Substitution} {s t : Option Term}
    (h : Unify.domain allowed b σ s t = some τ) :
    σ <+: τ ∧ ∀ {θ : Substitution} {ρ l r : Variable → D}, τ <+: θ → Matched I ρ θ b l r →
      (∀ set ∈ s, ClearTerm θ b set) → ∀ d, I.Within l s d ↔ I.Within r t d := by
  cases s with
  | none =>
      cases t with
      | none =>
          cases h
          exact ⟨List.prefix_rfl, fun _ _ _ _ => Iff.rfl⟩
      | some t => cases h
  | some s =>
      cases t with
      | none => cases h
      | some t =>
          obtain ⟨hgrows, hvalue⟩ := value_of_unify h
          refine ⟨hgrows, fun hτ hmatched hclear d => ?_⟩
          rw [Interpretation.Within, Interpretation.Within, hvalue hτ hmatched (hclear s rfl)]

/-- Variables that have received a value do not occur free in a proposition, under the quantifiers
around it. -/
def Clear (θ : Substitution) (b : Binders) (p : Proposition) : Prop :=
  ∀ x, p.contains (.var x) = true → Binders.depth? b.left (.var x) = none → θ.find? x = none

/-- No variable inside a value is bound by a quantifier of a proposition. -/
def Avoids (θ : Substitution) (p : Proposition) : Prop :=
  ∀ {v t x}, θ.find? v = some t → (Term.var x).occursIn t = true → p.binds x = false

/-- Being clear of a proposition and avoiding its quantifiers, for the sake of its parts. -/
def Fits (θ : Substitution) (b : Binders) (p : Proposition) : Prop := Clear θ b p ∧ Avoids θ p

theorem Fits.part {p part : Proposition} (h : Fits θ b p)
    (hcontains : ∀ x, part.contains (.var x) = true → p.contains (.var x) = true)
    (hbinds : ∀ x, part.binds x = true → p.binds x = true) : Fits θ b part := by
  refine ⟨fun x hx => h.1 x (hcontains x hx), ?_⟩
  intro v t x hv hx
  have hp := h.2 hv hx
  by_contra hpart
  rw [hbinds x (by simpa using hpart)] at hp
  cases hp

theorem Fits.body {q : Quantifier} {v w : Variable} {domain : Option Term} {p : Proposition}
    {m : Option FactId} (h : Fits θ b (.quantified q v domain p m)) : Fits θ (b.push v w) p := by
  refine ⟨fun x hx hdepth => ?_, ?_⟩
  · rw [Binders.push, Binders.depth?_cons] at hdepth
    split at hdepth
    next => cases hdepth
    next hvx =>
      refine h.1 x ?_ (Option.map_eq_none_iff.mp hdepth)
      simp [Proposition.contains, Term.occursIn, Ne.symm hvx, hx]
  · intro z t x hz hx
    have hp := h.2 hz hx
    rw [Proposition.binds, Bool.or_eq_false_iff] at hp
    exact hp.2

theorem Fits.member {c : Connective} {ps : List Proposition} {m : Option FactId} {p : Proposition}
    (h : Fits θ b (.junction c ps m)) (hp : p ∈ ps) : Fits θ b p := by
  refine h.part (fun x hx => ?_) fun x hx => ?_
  · rw [Proposition.contains, Proposition.containsAny_eq_any]
    exact List.any_eq_true.mpr ⟨p, hp, hx⟩
  · rw [Proposition.binds, Proposition.bindsAny_eq_any]
    exact List.any_eq_true.mpr ⟨p, hp, hx⟩

/-- Given the values found, two propositions say the same, each under its side's assignment. -/
def Agrees (I : Interpretation D) (b : Binders) (τ : Substitution) (p q : Proposition) : Prop :=
  ∀ {θ : Substitution} {ρ l r : Variable → D}, τ <+: θ → Matched I ρ θ b l r → Fits θ b p →
    (I.Satisfies l p ↔ I.Satisfies r q)

theorem relation_of_unify {allowed : Bindable} {σ τ : Substitution} {name : String}
    {as bs : List Term} {m m' : Option FactId} (h : Unify.terms allowed b σ as bs = some τ) :
    σ <+: τ ∧ Agrees I b τ (.relation name as m) (.relation name bs m') := by
  obtain ⟨hgrows, hvalues⟩ := values_of_unify h
  refine ⟨hgrows, fun hτ hmatched hfits => ?_⟩
  refine Interpretation.satisfies_relation_congr (hvalues hτ hmatched fun s hs x hx => ?_)
  apply hfits.1 x
  rw [Proposition.contains]
  exact List.any_eq_true.mpr ⟨s, hs, hx⟩

/-- The second part of a proposition is matched with the values that the first part has left. -/
theorem parts_of_unify {σ ι τ : Substitution} {p q a c a' c' : Proposition}
    (ha : σ <+: ι ∧ Agrees I b ι a a') (hc : ι <+: τ ∧ Agrees I b τ c c')
    (hcontains : ∀ t, p.contains t = (a.contains t || c.contains t))
    (hbinds : ∀ x, p.binds x = (a.binds x || c.binds x))
    (hparts : ∀ {l r : Variable → D}, (I.Satisfies l a ↔ I.Satisfies r a') →
      (I.Satisfies l c ↔ I.Satisfies r c') → (I.Satisfies l p ↔ I.Satisfies r q)) :
    σ <+: τ ∧ Agrees I b τ p q := by
  obtain ⟨hgrows, ha⟩ := ha
  obtain ⟨hgrows', hc⟩ := hc
  refine ⟨hgrows.trans hgrows', fun {θ _ _ _} hτ hmatched hfits => ?_⟩
  have hfitsa : Fits θ b a := hfits.part (fun x hx => by rw [hcontains, hx, Bool.true_or])
    fun x hx => by rw [hbinds, hx, Bool.true_or]
  have hfitsc : Fits θ b c := hfits.part (fun x hx => by rw [hcontains, hx, Bool.or_true])
    fun x hx => by rw [hbinds, hx, Bool.or_true]
  exact hparts (ha (hgrows'.trans hτ) hmatched hfitsa) (hc hτ hmatched hfitsc)

/-- Under two quantifiers over the same values the variables of both stand for the same. -/
theorem quantified_of_unify {allowed : Bindable} {σ ι τ : Substitution} {k : Quantifier}
    {v w : Variable} {s t : Option Term} {p q : Proposition} {m m' : Option FactId}
    (hdomain : Unify.domain allowed b σ s t = some ι)
    (hbody : ι <+: τ ∧ Agrees I (b.push v w) τ p q) :
    σ <+: τ ∧ Agrees I b τ (.quantified k v s p m) (.quantified k w t q m') := by
  obtain ⟨hgrows, hwithin⟩ := within_of_unify hdomain
  obtain ⟨hgrows', hbody⟩ := hbody
  refine ⟨hgrows.trans hgrows', fun hτ hmatched hfits => ?_⟩
  refine Interpretation.satisfies_quantified_congr
    (hwithin (hgrows'.trans hτ) hmatched fun set hset x hx => ?_) fun d => ?_
  · apply hfits.1 x
    rw [Option.mem_def] at hset
    simp [Proposition.contains, hset, hx]
  · refine hbody hτ (hmatched.push v w d fun {x t} hx => ?_) hfits.body
    by_contra hoccurs
    have hbinds := hfits.2 hx (by simpa using hoccurs)
    simp [Proposition.binds] at hbinds

mutual

/-- Two propositions that match say the same, each under its side's assignment. -/
theorem satisfies_of_unify {allowed : Bindable} {b : Binders} {σ τ : Substitution}
    {p q : Proposition} (h : Unify.proposition allowed b σ p q = some τ) :
    σ <+: τ ∧ Agrees I b τ p q := by
  cases p with
  | relation n as m =>
      cases q with
      | relation n' bs m' =>
          rw [Unify.proposition] at h
          split at h
          next hname =>
            subst hname
            exact relation_of_unify h
          next => cases h
      | _ => cases h
  | not p m =>
      cases q with
      | not q m' =>
          obtain ⟨hgrows, hsame⟩ := satisfies_of_unify (p := p) (q := q) h
          refine ⟨hgrows, fun hτ hmatched hfits => ?_⟩
          exact not_congr (hsame hτ hmatched (hfits.part (fun _ hx => hx) fun _ hx => hx))
      | _ => cases h
  | junction c ps m =>
      cases q with
      | junction c' qs m' =>
          rw [Unify.proposition] at h
          split at h
          next hc =>
            obtain ⟨hgrows, htruths⟩ := truths_of_unify h
            refine ⟨hgrows, fun hτ hmatched hfits => ?_⟩
            rw [hc]
            exact Interpretation.satisfies_junction_congr
              (htruths hτ hmatched fun p hp => hfits.member hp)
          next => cases h
      | _ => cases h
  | implies a c m =>
      cases q with
      | implies a' c' m' =>
          rw [Unify.proposition] at h
          split at h
          next ι hfirst =>
            exact parts_of_unify (satisfies_of_unify hfirst) (satisfies_of_unify h)
              (fun _ => rfl) (fun _ => rfl) fun ha hc => imp_congr ha hc
          next => cases h
      | _ => cases h
  | iff a c m =>
      cases q with
      | iff a' c' m' =>
          rw [Unify.proposition] at h
          split at h
          next ι hfirst =>
            exact parts_of_unify (satisfies_of_unify hfirst) (satisfies_of_unify h)
              (fun _ => rfl) (fun _ => rfl) fun ha hc => iff_congr ha hc
          next => cases h
      | _ => cases h
  | quantified k v s p m =>
      cases q with
      | quantified k' w t q m' =>
          rw [Unify.proposition] at h
          split at h
          next hk =>
            subst hk
            split at h
            next ι hdomain => exact quantified_of_unify hdomain (satisfies_of_unify h)
            next => cases h
          next => cases h
      | _ => cases h
  | contradiction m =>
      cases q with
      | contradiction m' =>
          cases h
          exact ⟨List.prefix_rfl, fun _ _ _ => Iff.rfl⟩
      | _ => cases h

theorem truths_of_unify {allowed : Bindable} {b : Binders} {σ τ : Substitution}
    {ps qs : List Proposition} (h : Unify.members allowed b σ ps qs = some τ) :
    σ <+: τ ∧ ∀ {θ : Substitution} {ρ l r : Variable → D}, τ <+: θ → Matched I ρ θ b l r →
      (∀ p ∈ ps, Fits θ b p) → ps.map (I.Satisfies l) = qs.map (I.Satisfies r) := by
  cases ps with
  | nil =>
      cases qs with
      | nil =>
          cases h
          exact ⟨List.prefix_rfl, fun _ _ _ => rfl⟩
      | cons q qs => cases h
  | cons p ps =>
      cases qs with
      | nil => cases h
      | cons q qs =>
          rw [Unify.members] at h
          split at h
          next ι hfirst =>
            obtain ⟨hgrows, hsame⟩ := satisfies_of_unify hfirst
            obtain ⟨hgrows', htruths⟩ := truths_of_unify h
            refine ⟨hgrows.trans hgrows', fun hτ hmatched hfits => ?_⟩
            rw [List.map_cons, List.map_cons,
              propext (hsame (hgrows'.trans hτ) hmatched (hfits p (by simp))),
              htruths hτ hmatched fun p hp => hfits p (by simp [hp])]
          next => cases h

end

end Matched

section Peel
variable {D : Type u} {I : Interpretation D}

/-- A universal statement holds of values inside its domains. -/
theorem satisfies_peel {q : Proposition} {ρ ρ' : Variable → D} (hq : I.Satisfies ρ q)
    (hagree : ∀ x, q.contains (.var x) = true → ρ x = ρ' x)
    (hdomains : ∀ v domain, (v, domain) ∈ (Session.peel q).1 → I.Within ρ' domain (ρ' v)) :
    I.Satisfies ρ' (Session.peel q).2 := by
  induction q using Proposition.inductionOn generalizing ρ with
  | quantified k v domain p m ih =>
      cases k with
      | exist => exact (Interpretation.satisfies_congr hagree).mp hq
      | all =>
          rw [Session.peel] at hdomains ⊢
          have hwithin : I.Within ρ domain (ρ' v) := by
            refine (Interpretation.within_congr (fun x hx => ?_) _).mpr
              (hdomains v domain (by simp))
            exact hagree x (by simp [Proposition.contains, hx])
          have hagree' : ∀ x, p.contains (.var x) = true →
              Function.update ρ v (ρ' v) x = ρ' x := by
            intro x hx
            by_cases hxv : x = v
            · rw [hxv, Function.update_self]
            · rw [Function.update_of_ne hxv]
              apply hagree x
              simp [Proposition.contains, Term.occursIn, hxv, hx]
          apply ih (hq (ρ' v) hwithin) hagree'
          intro w d hw
          exact hdomains w d (by simp [hw])
  | _ => exact (Interpretation.satisfies_congr hagree).mp hq

/-- The values of the quantified variables are in their domains where the memberships are true. -/
theorem within_of_memberships {σ : Substitution} {layers : List (Variable × Option Term)}
    {ms : List Proposition} {ρ : Variable → D} (h : Memberships σ layers ms)
    (hms : ∀ m ∈ ms, I.Satisfies ρ m) :
    ∀ v domain, (v, domain) ∈ layers →
      I.Within (I.instantiated ρ σ) domain (I.instantiated ρ σ v) := by
  induction h with
  | nil => simp
  | anywhere _ ih =>
      intro v domain hmem
      rcases List.mem_cons.mp hmem with heq | hrest
      · cases heq
        trivial
      · exact ih hms v domain hrest
  | @inside v set t layers ms m hfound _ ih =>
      intro w domain hmem
      rcases List.mem_cons.mp hmem with heq | hrest
      · cases heq
        have hmember : I.Satisfies ρ (.relation Relation.element.name [t, σ.applyTerm set] m) :=
          hms _ List.mem_cons_self
        rw [Interpretation.Satisfies, Interpretation.values_eq_map, List.map_cons, List.map_cons,
          Interpretation.value_applyTerm] at hmember
        rw [Interpretation.Within, Interpretation.instantiated_of_some hfound]
        exact hmember
      · exact ih (fun m hm => hms m (List.mem_cons_of_mem _ hm)) w domain hrest

end Peel

/-- The values found by matching `p` with a part of `u` belong to variables that occur free neither
in `p` nor in `u`, and no quantifier of `p` binds a variable of such a value. -/
structure Substitution.Apart (σ : Substitution) (p u : Proposition) : Prop where
  matched : ∀ {v t}, σ.find? v = some t → p.contains (.var v) = false
  universal : ∀ {v t}, σ.find? v = some t → u.contains (.var v) = false
  values : ∀ {v t x}, σ.find? v = some t → (Term.var x).occursIn t = true → p.binds x = false

section Apart
variable {D : Type u} {I : Interpretation D} {ρ : Variable → D} {σ : Substitution}
variable {p u : Proposition}

theorem Substitution.find?_eq_none {x : Variable} (h : ∀ t, σ.find? x ≠ some t) :
    σ.find? x = none := by
  cases hfound : σ.find? x with
  | none => rfl
  | some t => exact absurd hfound (h t)

theorem Substitution.Apart.fits (h : σ.Apart p u) : Fits σ .empty p := by
  refine ⟨fun x hx _ => Substitution.find?_eq_none fun t ht => ?_, h.values⟩
  rw [h.matched ht] at hx
  cases hx

/-- What matches a part of a universal statement says what that part says of the values found. -/
theorem satisfies_of_apart {part : Proposition} {vs : List Variable} (h : σ.Apart p u)
    (hσ : p.unify? part vs = some σ) :
    I.Satisfies ρ p ↔ I.Satisfies (I.instantiated ρ σ) part :=
  (satisfies_of_unify hσ).2 List.prefix_rfl (matched_empty I ρ σ) h.fits

/-- What a universal statement says of the values found is true where it and the memberships
are. -/
theorem satisfies_peel_of_apart {ms : List Proposition} (h : σ.Apart p u)
    (hms : Memberships σ (Session.peel u).1 ms) (hu : I.Satisfies ρ u)
    (htrue : ∀ m ∈ ms, I.Satisfies ρ m) :
    I.Satisfies (I.instantiated ρ σ) (Session.peel u).2 := by
  refine satisfies_peel hu (fun x hx => ?_) (within_of_memberships hms htrue)
  have hnone : σ.find? x = none := Substitution.find?_eq_none fun t ht => by
    rw [h.universal ht] at hx
    cases hx
  rw [Interpretation.instantiated_of_none hnone]

end Apart

namespace Session

/-- Whether the values found for `p` as an instance of `u` are kept apart from `p` and `u`. -/
def InstanceApart (u p : Proposition) : Prop :=
  ∀ σ, p.unify? (peel u).2 ((peel u).1.map (·.1)) = some σ → σ.Apart p u

/-- Whether the values found for `p` as an instance of what `u` presupposes are kept apart from `p`
and `u`, and can be put into what `u` concludes. -/
def PremiseApart (u p : Proposition) : Prop :=
  ∀ a b m σ, (peel u).2 = .implies a b m → p.unify? a ((peel u).1.map (·.1)) = some σ →
    σ.Apart p u ∧ σ.admittedBy b = true

section Specification
variable {s : Session} {u : Fact}

theorem isSpecialCaseOf_ensures (hu : s.Proves u) (p : Proposition) (facts : List Proposition) :
    Ensures (isSpecialCaseOf p (some u.proposition) facts) s
      (fun q s' => ∃ σ ms,
        p.unify? (peel u.statement).2 ((peel u.statement).1.map (·.1)) = some σ ∧
        Memberships σ (peel u.statement).1 ms ∧ u.statement ∈ s'.grounds q.id ∧
        ∀ m ∈ ms, m ∈ s'.grounds q.id)
      fun _ => True := by
  unfold isSpecialCaseOf
  apply (require_proposition_reads _ hu).ensures_bind trivial
  rintro f rfl
  split
  next => exact .refuse trivial
  next layers body _ hpeel =>
    rw [hpeel]
    split
    next => exact .throw trivial
    next σ hσ =>
      refine (memberships_reads s _ σ facts layers).ensures_bind trivial fun fs ⟨hfs, hms⟩ => ?_
      refine .derive ⟨σ, _, hσ, hms, ?_, ?_⟩
      · exact statement_mem_grounds hu.lists (by simp [Inference.premises]) _ _
      · intro m hm
        obtain ⟨f, hf, rfl⟩ := List.mem_map.mp hm
        refine statement_mem_grounds (hfs f hf).lists ?_ _ _
        rw [Inference.premises, filterMap_premise]
        exact List.mem_append_right _ (List.mem_map_of_mem hf)

theorem quantifiedModusPonens_ensures {p : Fact} (hu : s.Proves u) (hp : s.Proves p)
    (facts : List Proposition) :
    Ensures (quantifiedModusPonens (some u.proposition) (some p.proposition) facts) s
      (fun q s' => ∃ σ a b m ms, (peel u.statement).2 = .implies a b m ∧
        p.statement.unify? a ((peel u.statement).1.map (·.1)) = some σ ∧
        Memberships σ (peel u.statement).1 ms ∧ q.statement = (σ.apply b).strip ∧
        u.statement ∈ s'.grounds q.id ∧ p.statement ∈ s'.grounds q.id ∧
        ∀ m ∈ ms, m ∈ s'.grounds q.id)
      fun _ => True := by
  unfold quantifiedModusPonens
  apply (require_proposition_reads _ hu).ensures_bind trivial
  rintro f rfl
  apply (require_proposition_reads _ hp).ensures_bind trivial
  rintro g rfl
  split
  next layer layers a b m hpeel =>
    rw [hpeel]
    dsimp only
    split
    next => exact .refuse trivial
    next σ hσ =>
      split
      next => exact .refuse trivial
      next =>
        refine (memberships_reads s _ σ facts _).ensures_bind trivial fun fs ⟨hfs, hms⟩ => ?_
        refine .derive ⟨σ, a, b, m, _, rfl, hσ, hms, rfl, ?_, ?_, ?_⟩
        · exact statement_mem_grounds hu.lists (by simp [Inference.premises]) _ _
        · refine statement_mem_grounds hp.lists ?_ _ _
          simp [Inference.premises, Argument.premise?]
        · intro m hm
          obtain ⟨f, hf, rfl⟩ := List.mem_map.mp hm
          refine statement_mem_grounds (hfs f hf).lists ?_ _ _
          rw [Inference.premises, List.filterMap_cons, filterMap_premise]
          exact List.mem_append_right _ (List.mem_cons_of_mem _ (List.mem_map_of_mem hf))
  next => exact .refuse trivial

end Specification

/-- Where a universal statement, the premise and the memberships used are true, so is what the
matching tactics derive from them, provided that the values found are kept apart. -/
theorem matching_sound {D : Type u} (I : Interpretation D) (ρ : Variable → D) {s s' : Session}
    {u q : Fact} (hu : s.Proves u) (facts : List Proposition)
    (hgrounds : ∀ g ∈ s'.grounds q.id, I.Satisfies ρ g) :
    (∀ p, InstanceApart u.statement p →
      isSpecialCaseOf p (some u.proposition) facts s = .ok q s' → I.Satisfies ρ p) ∧
    ∀ p, s.Proves p → PremiseApart u.statement p.statement →
      quantifiedModusPonens (some u.proposition) (some p.proposition) facts s = .ok q s' →
        I.Satisfies ρ q.statement := by
  constructor
  · intro p hapart hrun
    obtain ⟨σ, ms, hσ, hms, huniversal, hmembers⟩ :=
      (isSpecialCaseOf_ensures hu p facts).answer hrun
    have hbody := satisfies_peel_of_apart (hapart σ hσ) hms (hgrounds _ huniversal)
      fun m hm => hgrounds m (hmembers m hm)
    exact (satisfies_of_apart (hapart σ hσ) hσ).mpr hbody
  · intro p hp hapart hrun
    obtain ⟨σ, a, b, m, ms, hpeel, hσ, hms, hq, huniversal, hpremise, hmembers⟩ :=
      (quantifiedModusPonens_ensures hu hp facts).answer hrun
    obtain ⟨hapart, hadmits⟩ := hapart a b m σ hpeel hσ
    have hbody := satisfies_peel_of_apart hapart hms (hgrounds _ huniversal)
      fun m hm => hgrounds m (hmembers m hm)
    rw [hpeel] at hbody
    have ha : I.Satisfies (I.instantiated ρ σ) a :=
      (satisfies_of_apart hapart hσ).mp (hgrounds _ hpremise)
    rw [hq, Interpretation.satisfies_strip, Interpretation.satisfies_apply hadmits]
    exact hbody ha

/-- Two objects, where a relation holds when its first and last argument are equal. -/
def equalObjects : Interpretation Bool where
  constant _ := false
  number _ := false
  function _ _ := false
  relation _ args := args.head? = args.getLast?

/-- If `c` equals `t` then `t` equals `c`. -/
def symmetric (t : Term) : Proposition :=
  .implies (.rel .equal (.const "c") t) (.rel .equal t (.const "c"))

def allSymmetric : Proposition := .quantified .all ⟨1, "x"⟩ none (symmetric (.var ⟨1, "x"⟩))

def symmetryFact : Fact := ⟨⟨0⟩, allSymmetric⟩

def equalityFact : Fact := ⟨⟨1⟩, .rel .equal (.const "c") (.const "d")⟩

def symmetrySession : Session := run {} [.postulate allSymmetric, .postulate equalityFact.statement]

theorem equalObjects_allSymmetric (ρ : Variable → Bool) :
    equalObjects.Satisfies ρ allSymmetric := by
  intro d _ hd
  exact hd.symm

theorem apart_allSymmetric {p : Proposition} (h : p.contains (.var ⟨1, "x"⟩) = false) :
    Substitution.Apart [(⟨1, "x"⟩, .const "d")] p allSymmetric := by
  have hfound : ∀ {v : Variable} {t : Term},
      Substitution.find? [(⟨1, "x"⟩, .const "d")] v = some t → v = ⟨1, "x"⟩ ∧ t = .const "d" := by
    intro v t hv
    simpa using Substitution.mem_of_find? hv
  refine ⟨fun hv => ?_, fun hv => ?_, fun hv hx => ?_⟩
  · rw [(hfound hv).1, h]
  · rw [(hfound hv).1]
    rfl
  · rw [(hfound hv).2] at hx
    simp [Term.occursIn] at hx

theorem matching_sound_symmetric :
    ∃ s₁ s₂,
      isSpecialCaseOf (symmetric (.const "d")) (some symmetryFact.proposition) [] symmetrySession =
        .ok ⟨⟨2⟩, symmetric (.const "d")⟩ s₁ ∧
      equalObjects.Satisfies (fun _ => true) (symmetric (.const "d")) ∧
      quantifiedModusPonens (some symmetryFact.proposition) (some equalityFact.proposition) []
        symmetrySession = .ok ⟨⟨2⟩, .rel .equal (.const "d") (.const "c")⟩ s₂ ∧
      equalObjects.Satisfies (fun _ => true) (.rel .equal (.const "d") (.const "c")) := by
  have hu : symmetrySession.Proves symmetryFact := ⟨_, rfl, rfl, rfl⟩
  have hp : symmetrySession.Proves equalityFact := ⟨_, rfl, rfl, rfl⟩
  have hinstance : InstanceApart allSymmetric (symmetric (.const "d")) := by
    intro σ hσ
    cases hσ
    exact apart_allSymmetric rfl
  have hpremise : PremiseApart allSymmetric equalityFact.statement := by
    intro a b m σ hpeel hσ
    cases hpeel
    cases hσ
    exact ⟨apart_allSymmetric rfl, rfl⟩
  refine ⟨_, _, rfl, ?_, rfl, ?_⟩
  · refine (matching_sound equalObjects _ hu [] ?_ (q := ⟨⟨2⟩, _⟩)).1 _ hinstance rfl
    intro g hg
    obtain rfl : g = allSymmetric := List.mem_singleton.mp hg
    exact equalObjects_allSymmetric _
  · refine (matching_sound equalObjects _ hu [] ?_ (q := ⟨⟨2⟩, _⟩)).2 _ hp hpremise rfl
    intro g hg
    have hpremises : g ∈ [allSymmetric, equalityFact.statement] := hg
    have hcases : g = allSymmetric ∨ g = equalityFact.statement := by simpa using hpremises
    rcases hcases with rfl | rfl
    · exact equalObjects_allSymmetric _
    · rfl

/-- Everything equals itself. -/
def allEqual : Proposition :=
  .quantified .all ⟨1, "x"⟩ none (.rel .equal (.var ⟨1, "x"⟩) (.var ⟨1, "x"⟩))

/-- From everything being equal to itself, `c = x` is derived for a variable `x` of any value. -/
theorem matching_forgets :
    ∃ s', isSpecialCaseOf (.rel .equal (.const "c") (.var ⟨1, "x"⟩))
        (some (Fact.proposition ⟨⟨0⟩, allEqual⟩)) [] (run {} [.postulate allEqual]) =
          .ok ⟨⟨1⟩, .rel .equal (.const "c") (.var ⟨1, "x"⟩)⟩ s' ∧
      (∀ g ∈ s'.grounds ⟨1⟩, equalObjects.Satisfies (fun _ => true) g) ∧
      ¬equalObjects.Satisfies (fun _ => true) (.rel .equal (.const "c") (.var ⟨1, "x"⟩)) := by
  refine ⟨_, rfl, ?_, ?_⟩
  · intro g hg
    obtain rfl : g = allEqual := List.mem_singleton.mp hg
    intro d _
    rfl
  · intro hequal
    cases hequal

end Session

end Entailment
