import Entailment.Proofs.Unifiers
import Mathlib.Data.List.Nodup

/-!
# One-sided matching

Without quantifiers, and with variables to bind that do not occur on the left, unification matches
the right-hand side as a pattern with the left-hand side. It then finds the values that turn the
pattern into the left-hand side whenever there are any, and these are the only ones.

Every equation has a variable of the pattern on the right, or the same variable on both sides. So
the values found so far always belong to any given solution, and the next equation can be solved
(`solve_of_solution`).
-/
namespace Entailment

theorem Bindable.allows_ofList {vs : List Variable} (hvs : vs ≠ []) (v : Variable) :
    (Bindable.ofList vs).allows v = true ↔ v ∈ vs := by
  cases vs with
  | nil => exact absurd rfl hvs
  | cons w vs => simp [ofList, allows]

theorem Proposition.binds_eq_false {p : Proposition} (h : p.isQuantifierFree = true)
    (x : Variable) : p.binds x = false := by
  induction p using Proposition.inductionOn with
  | relation name args m => rfl
  | not p m ih => exact ih h
  | junction c ps m ih =>
      rw [binds, bindsAny_eq_any, List.any_eq_false]
      intro p hp
      simp [ih p hp ((areQuantifierFree_iff ps).mp h p hp)]
  | implies a b m iha ihb =>
      obtain ⟨ha, hb⟩ := Bool.and_eq_true_iff.mp h
      rw [binds, iha ha, ihb hb, Bool.or_false]
  | iff a b m iha ihb =>
      obtain ⟨ha, hb⟩ := Bool.and_eq_true_iff.mp h
      rw [binds, iha ha, ihb hb, Bool.or_false]
  | quantified q v domain p m ih => cases h
  | contradiction m => rfl

namespace Substitution
variable {σ θ : Substitution}

/-- A variable without a value stays. -/
theorem occursIn_applyTerm {v : Variable} {t : Term} (hv : σ.find? v = none)
    (h : (Term.var v).occursIn t = true) : (Term.var v).occursIn (σ.applyTerm t) = true := by
  induction t using Term.inductionOn with
  | var w =>
      obtain rfl : w = v := by simpa [Term.occursIn] using h
      rwa [applyTerm_var_of_none hv]
  | const name => exact h
  | num n => exact h
  | app head args ih =>
      rw [Term.occursIn_app] at h
      obtain ⟨t, ht, hocc⟩ := List.any_eq_true.mp h
      rw [applyTerm, applyTerms_eq_map, Term.occursIn_app, List.any_map]
      exact List.any_eq_true.mpr ⟨t, ht, ih t ht hocc⟩

/-- Each of the variables `vs` that occurs has one value, and nothing else has a value. -/
structure BindsExactly (σ : Substitution) (vs : List Variable) (occurs : Variable → Bool) :
    Prop where
  once : (σ.map Prod.fst).Nodup
  bound : ∀ v, v ∈ σ.map Prod.fst ↔ v ∈ vs ∧ occurs v = true

end Substitution

/-- An answer is given whenever some values for the variables `vs` fit. It then binds exactly those
that occur, it fits, and up to the order of the bindings no other does both. -/
structure MatchesExactly (answer : Option Substitution) (vs : List Variable)
    (occurs : Variable → Bool) (fits : Substitution → Prop) : Prop where
  succeeds : answer.isSome = true ↔
    ∃ θ : Substitution, (∀ binding ∈ θ, binding.1 ∈ vs) ∧ fits θ
  sound : ∀ σ, answer = some σ → σ.BindsExactly vs occurs ∧ fits σ
  unique : ∀ σ θ, answer = some σ → θ.BindsExactly vs occurs → fits θ → θ.Perm σ

namespace Unify

/-- The equations of a match: no quantifier is around them, and the variables of the pattern do not
occur on the left. -/
structure OneSided (vs : List Variable) (es : List Equation) : Prop where
  flat : ∀ e ∈ es, e.binders = .empty
  clear : ∀ e ∈ es, ∀ v ∈ vs, (Term.var v).occursIn e.left = false

/-- A substitution turns all right sides into the left ones. -/
def Solution (θ : Substitution) (es : List Equation) : Prop :=
  ∀ e ∈ es, e.left = θ.applyTerm e.right

section OneSided
variable {vs : List Variable} {es : List Equation} {σ θ : Substitution}

theorem OneSided.tail {e : Equation} (h : OneSided vs (e :: es)) : OneSided vs es :=
  ⟨fun f hf => h.flat f (List.mem_cons_of_mem _ hf),
    fun f hf => h.clear f (List.mem_cons_of_mem _ hf)⟩

theorem holds_nil_left_iff {e : Equation} (h : e.binders = .empty) :
    e.Holds [] θ ↔ e.left = θ.applyTerm e.right := by
  rw [Equation.Holds, Substitution.readTerm_empty, h, Substitution.readTerm,
    show Binders.empty.right = [] from rfl, show Binders.empty.left = [] from rfl,
    Substitution.outside_nil, Term.indexed_nil_inj]

theorem yields_iff_solution {es? : Option (List Equation)}
    (h : ∀ es, es? = some es → OneSided vs es) :
    Yields (Equation.Holds [] θ) es? ↔ ∃ es, es? = some es ∧ Solution θ es := by
  refine exists_congr fun es => and_congr_right fun hes => ?_
  exact forall₂_congr fun e he => holds_nil_left_iff ((h es hes).flat e he)

/-- Only the variables of the pattern get values, and those do not occur on the left. -/
theorem Solves.not_occursIn_left (h : Solves (.ofList vs) es σ) (hvs : vs ≠ [])
    (hes : OneSided vs es) {v : Variable} {t : Term} (hv : σ.find? v = some t) {e : Equation}
    (he : e ∈ es) : (Term.var v).occursIn e.left = false := by
  obtain ⟨f, -, -, hallowed, -⟩ := h.origin v t (Substitution.mem_of_find? hv)
  exact hes.clear e he v ((Bindable.allows_ofList hvs v).mp hallowed)

theorem Solves.solution (h : Solves (.ofList vs) es σ) (hvs : vs ≠ []) (hes : OneSided vs es) :
    Solution σ es := by
  intro e he
  rcases h.settled e he with hsame | ⟨v, t, ⟨hl, hr, -⟩ | ⟨hl, hr, -⟩, hfound⟩
  · rcases Equation.holds_nil_iff.mp hsame with ⟨l, r, i, -, -, hleft, -⟩ | ⟨x, hl, hr, -, -⟩
    · rw [hes.flat e he] at hleft
      cases hleft
    · rw [hl, hr]
      cases hx : σ.find? x with
      | none => rw [Substitution.applyTerm_var_of_none hx]
      | some t =>
          have hnot := h.not_occursIn_left hvs hes hx he
          rw [hl, Term.occursIn_self] at hnot
          cases hnot
  · rw [hl, hr, Substitution.applyTerm_var_of_some hfound]
  · have hnot := h.not_occursIn_left hvs hes hfound he
    rw [hl, Term.occursIn_self] at hnot
    cases hnot

/-- The values found so far are those of a given solution. -/
def Follows (σ θ : Substitution) : Prop := ∀ v t, σ.find? v = some t → θ.find? v = some t

theorem leaf_of_allowed {allowed : Bindable} {s : Term} {r : Variable}
    (h : allowed.allows r = true) :
    leaf allowed .empty σ s (.var r) = bind .empty σ r s := by
  cases s <;> simp [leaf, Binders.depth?, Binders.empty, h]

theorem Follows.bind {r : Variable} {t : Term} (hfollows : Follows σ θ) (hr : θ.find? r = some t)
    (hclear : (Term.var r).occursIn t = false) :
    ∃ τ, Unify.bind .empty σ r t = some τ ∧ Follows τ θ := by
  have hne : t ≠ .var r := by
    rintro rfl
    simp at hclear
  cases hfound : σ.find? r with
  | some existing =>
      obtain rfl : t = existing := Option.some.inj (hr.symm.trans (hfollows r existing hfound))
      exact ⟨σ, by simp [Unify.bind, hne, hfound], hfollows⟩
  | none =>
      refine ⟨σ ++ [(r, t)], by simp [Unify.bind, hne, hfound, hclear, Binders.empty], ?_⟩
      intro v u hv
      rw [Substitution.find?, List.lookup_append, Option.or_eq_some_iff] at hv
      rcases hv with hv | ⟨-, hv⟩
      · exact hfollows v u hv
      · change Substitution.find? [(r, t)] v = some u at hv
        rw [Substitution.find?_cons] at hv
        split at hv
        next heq =>
          cases hv
          rwa [heq]
        next => cases hv

/-- An equation that a given solution solves can be solved, with a value of that solution. -/
theorem Follows.leaf {e : Equation} (hvs : vs ≠ []) (hθ : ∀ b ∈ θ, b.1 ∈ vs)
    (hflat : e.binders = .empty) (hclear : ∀ v ∈ vs, (Term.var v).occursIn e.left = false)
    (hsolution : e.left = θ.applyTerm e.right) (hfollows : Follows σ θ) :
    ∃ τ, Unify.leaf (.ofList vs) e.binders σ e.left e.right = some τ ∧ Follows τ θ := by
  obtain ⟨r, hr⟩ : ∃ r, e.right = .var r := by
    rcases e.hasVariable with ⟨l, hl⟩ | hright
    · rw [hl] at hsolution
      cases hright : e.right with
      | var r => exact ⟨r, rfl⟩
      | _ =>
          rw [hright] at hsolution
          cases hsolution
    · exact hright
  cases hfound : θ.find? r with
  | some t =>
      have hmem : r ∈ vs := hθ _ (Substitution.mem_of_find? hfound)
      have hl : e.left = t := by rw [hsolution, hr, Substitution.applyTerm_var_of_some hfound]
      rw [hflat, hr, leaf_of_allowed ((Bindable.allows_ofList hvs r).mpr hmem), hl]
      exact hfollows.bind hfound (hl ▸ hclear r hmem)
  | none =>
      have hl : e.left = .var r := by rw [hsolution, hr, Substitution.applyTerm_var_of_none hfound]
      have hsame : e.Holds [] [] := by
        refine Equation.holds_nil_iff.mpr (.inr ⟨r, hl, hr, ?_, ?_⟩) <;> simp [hflat, Binders.empty]
      exact ⟨σ, leaf_of_holds hsame, hfollows⟩

/-- If there is a solution, solving the equations succeeds. -/
theorem solve_of_solution (hvs : vs ≠ []) (hθ : ∀ b ∈ θ, b.1 ∈ vs) (hes : OneSided vs es)
    (hsolution : Solution θ es) (hfollows : Follows σ θ) :
    ∃ τ, solve (.ofList vs) σ es = some τ := by
  induction es generalizing σ with
  | nil => exact ⟨σ, rfl⟩
  | cons e es ih =>
      have he := List.mem_cons_self (a := e) (l := es)
      obtain ⟨ι, hι, hfollows⟩ :=
        hfollows.leaf hvs hθ (hes.flat e he) (hes.clear e he) (hsolution e he)
      rw [solve_cons, hι, Option.bind_some]
      exact ih hes.tail (fun f hf => hsolution f (List.mem_cons_of_mem _ hf)) hfollows

section Pattern
variable {occurs : Variable → Bool}

/-- A variable of the pattern without a value would have to occur on the left. -/
theorem Solves.bindsExactly (h : Solves (.ofList vs) es σ) (hvs : vs ≠ []) (hes : OneSided vs es)
    (hoccurs : ∀ x, (∃ e ∈ es, (Term.var x).occursIn e.right = true) ↔ occurs x = true) :
    σ.BindsExactly vs occurs := by
  refine ⟨h.once, fun v => ⟨fun hv => ?_, fun ⟨hmem, hv⟩ => ?_⟩⟩
  · obtain ⟨⟨w, t⟩, hwt, rfl⟩ := List.mem_map.mp hv
    obtain ⟨e, he, hposes, hallowed, -⟩ := h.origin w t hwt
    have hmem := (Bindable.allows_ofList hvs w).mp hallowed
    refine ⟨hmem, (hoccurs w).mp ⟨e, he, ?_⟩⟩
    rcases hposes with ⟨-, hr, -⟩ | ⟨hl, -, -⟩
    · rw [hr, Term.occursIn_self]
    · have hclear := hes.clear e he w hmem
      simp [hl] at hclear
  · obtain ⟨e, he, hocc⟩ := (hoccurs v).mpr hv
    by_contra hnone
    have hleft := Substitution.occursIn_applyTerm (Substitution.find?_eq_none_iff.mpr hnone) hocc
    rw [← h.solution hvs hes e he, hes.clear e he v hmem] at hleft
    cases hleft

theorem Solution.subset (hθ : Solution θ es) (hσ : Solution σ es)
    (hoccurs : ∀ x, (∃ e ∈ es, (Term.var x).occursIn e.right = true) ↔ occurs x = true)
    (hθexact : θ.BindsExactly vs occurs) (hσexact : σ.BindsExactly vs occurs) : θ ⊆ σ := by
  rintro ⟨v, t⟩ hvt
  obtain ⟨hmem, hv⟩ := (hθexact.bound v).mp (List.mem_map.mpr ⟨_, hvt, rfl⟩)
  obtain ⟨⟨w, u⟩, hwu, hw⟩ := List.mem_map.mp ((hσexact.bound v).mpr ⟨hmem, hv⟩)
  obtain rfl : w = v := hw
  obtain ⟨e, he, hocc⟩ := (hoccurs w).mpr hv
  have hequal := Substitution.applyTerm_eq_iff.mp ((hθ e he).symm.trans (hσ e he)) w hocc
  rw [Substitution.applyTerm_var_of_some (Substitution.find?_of_mem hθexact.once hvt),
    Substitution.applyTerm_var_of_some (Substitution.find?_of_mem hσexact.once hwu)] at hequal
  rwa [hequal]

/-- There is one way only to give exactly the variables of the pattern values. -/
theorem Solution.perm (hθ : Solution θ es) (hσ : Solution σ es)
    (hoccurs : ∀ x, (∃ e ∈ es, (Term.var x).occursIn e.right = true) ↔ occurs x = true)
    (hθexact : θ.BindsExactly vs occurs) (hσexact : σ.BindsExactly vs occurs) : θ.Perm σ := by
  have hθnodup : θ.Nodup := List.Nodup.of_map _ hθexact.once
  have hσnodup : σ.Nodup := List.Nodup.of_map _ hσexact.once
  refine (List.perm_ext_iff_of_nodup hθnodup hσnodup).mpr fun binding => ⟨fun h => ?_, fun h => ?_⟩
  · exact hθ.subset hσ hoccurs hθexact hσexact h
  · exact hσ.subset hθ hoccurs hσexact hθexact h

end Pattern

end OneSided

/-- Without quantifiers nothing is bound around an equation, and all variables are free. -/
theorem Spans.flat {side : Equation → List Variable × Term} {free binds : Variable → Bool}
    {es : List Equation} (h : Spans side [] free binds es) (hbinds : ∀ x, binds x = false) :
    (∀ e ∈ es, (side e).1 = []) ∧
      ∀ x, (∃ e ∈ es, (Term.var x).occursIn (side e).2 = true) ↔ free x = true := by
  have hflat : ∀ e ∈ es, (side e).1 = [] := by
    refine fun e he => List.eq_nil_iff_forall_not_mem.mpr fun x hx => ?_
    simpa [hbinds] using h.binders e he x hx
  refine ⟨hflat, fun x => ?_⟩
  calc (∃ e ∈ es, (Term.var x).occursIn (side e).2 = true)
      ↔ ∃ e ∈ es, (Term.var x).occursIn (side e).2 = true ∧ x ∉ (side e).1 := by
        refine exists_congr fun e => and_congr_right fun he => ?_
        simp [hflat e he]
    _ ↔ free x = true := by
        rw [h.occurs x]
        simp

end Unify

namespace Proposition
variable {vs : List Variable} {p q : Proposition} {es : List Unify.Equation}

theorem oneSided_of_equate (hp : p.isQuantifierFree = true) (hq : q.isQuantifierFree = true)
    (hclear : ∀ v ∈ vs, p.contains (.var v) = false)
    (hes : Unify.equate .empty p q = some es) : Unify.OneSided vs es := by
  have hcovers := Unify.covers_of_equate hes
  obtain ⟨hleft, hfree⟩ := hcovers.left.flat (binds_eq_false hp)
  obtain ⟨hright, -⟩ := hcovers.right.flat (binds_eq_false hq)
  refine ⟨fun e he => ?_, fun e he v hv => ?_⟩
  · calc e.binders = ⟨e.onLeft.1, e.onRight.1⟩ := rfl
      _ = .empty := by rw [hleft e he, hright e he, Binders.empty]
  · refine Bool.eq_false_iff.mpr fun hocc => ?_
    have hcontains := (hfree v).mp ⟨e, he, hocc⟩
    rw [hclear v hv] at hcontains
    cases hcontains

theorem occursIn_right_iff (hq : q.isQuantifierFree = true)
    (hes : Unify.equate .empty p q = some es) (x : Variable) :
    (∃ e ∈ es, (Term.var x).occursIn e.right = true) ↔ q.contains (.var x) = true :=
  ((Unify.covers_of_equate hes).right.flat (binds_eq_false hq)).2 x

/-- A substitution turns the pattern into a proposition without quantifiers if and only if it solves
their equations. -/
theorem apply_equal_iff (hp : p.isQuantifierFree = true) (hq : q.isQuantifierFree = true)
    (hclear : ∀ v ∈ vs, p.contains (.var v) = false) (θ : Substitution) :
    (θ.apply q).equal p = true ↔
      ∃ es, Unify.equate .empty p q = some es ∧ Unify.Solution θ es := by
  calc (θ.apply q).equal p = true
      ↔ p.equivalent (θ.apply q) = true := by
        rw [equivalent_iff_skeleton hp, equal_iff_skeleton, eq_comm]
    _ ↔ Substitution.read [] [] p = θ.read [] q := by
        rw [equivalent_iff, Substitution.read_empty, Substitution.read_nil, namelessForm]
    _ ↔ Unify.Yields (Unify.Equation.Holds [] θ) (Unify.equate .empty p q) :=
        Unify.read_eq_iff .empty p q
    _ ↔ ∃ es, Unify.equate .empty p q = some es ∧ Unify.Solution θ es :=
        Unify.yields_iff_solution fun _ hes => oneSided_of_equate hp hq hclear hes

theorem matchesExactly_unify? (hvs : vs ≠ []) (hp : p.isQuantifierFree = true)
    (hq : q.isQuantifierFree = true) (hclear : ∀ v ∈ vs, p.contains (.var v) = false) :
    MatchesExactly (p.unify? q vs) vs (fun v => q.contains (.var v))
      fun θ => (θ.apply q).equal p = true := by
  have hsound : ∀ σ, p.unify? q vs = some σ → ∃ es, Unify.equate .empty p q = some es ∧
      Unify.Solution σ es ∧ σ.BindsExactly vs fun v => q.contains (.var v) := by
    intro σ h
    obtain ⟨es, hes, hsolves⟩ := Unify.solves_of_proposition h
    have hside := oneSided_of_equate hp hq hclear hes
    exact ⟨es, hes, hsolves.solution hvs hside,
      hsolves.bindsExactly hvs hside (occursIn_right_iff hq hes)⟩
  refine ⟨⟨fun h => ?_, ?_⟩, fun σ h => ?_, fun σ θ h hθ hfits => ?_⟩
  · obtain ⟨σ, hσ⟩ := Option.isSome_iff_exists.mp h
    obtain ⟨es, hes, hsolution, hexact⟩ := hsound σ hσ
    have hfits := (apply_equal_iff hp hq hclear σ).mpr ⟨es, hes, hsolution⟩
    refine ⟨σ, fun binding hbinding => ?_, hfits⟩
    exact ((hexact.bound _).mp (List.mem_map_of_mem hbinding)).1
  · rintro ⟨θ, hθ, hfits⟩
    obtain ⟨es, hes, hsolution⟩ := (apply_equal_iff hp hq hclear θ).mp hfits
    have hside := oneSided_of_equate hp hq hclear hes
    have hfollows : Unify.Follows [] θ := fun v t h => nomatch h
    obtain ⟨σ, hσ⟩ := Unify.solve_of_solution hvs hθ hside hsolution hfollows
    rw [unify?, Unify.proposition_eq_solve, hes, Option.bind_some, hσ]
    rfl
  · obtain ⟨es, hes, hsolution, hexact⟩ := hsound σ h
    exact ⟨hexact, (apply_equal_iff hp hq hclear σ).mpr ⟨es, hes, hsolution⟩⟩
  · obtain ⟨es, hes, hsolution, hexact⟩ := hsound σ h
    obtain ⟨es', hes', hsolution'⟩ := (apply_equal_iff hp hq hclear θ).mp hfits
    cases hes.symm.trans hes'
    exact hsolution'.perm hsolution (occursIn_right_iff hq hes) hθ hexact

end Proposition

/-- Matching a pattern over some variables, none of which occurs on the other side, finds the values
that turn the pattern into the other side whenever there are any, and there are no others. This is
so for propositions without quantifiers and for terms. -/
theorem matching_exact {vs : List Variable} (hvs : vs ≠ []) :
    (∀ p q : Proposition, p.isQuantifierFree = true → q.isQuantifierFree = true →
      (∀ v ∈ vs, p.contains (.var v) = false) →
      MatchesExactly (p.unify? q vs) vs (fun v => q.contains (.var v))
        fun θ => (θ.apply q).equal p = true) ∧
    ∀ s t : Term, (∀ v ∈ vs, (Term.var v).occursIn s = false) →
      MatchesExactly (s.unify? t vs) vs (fun v => (Term.var v).occursIn t)
        fun θ => θ.applyTerm t = s := by
  refine ⟨fun p q hp hq hclear => Proposition.matchesExactly_unify? hvs hp hq hclear,
    fun s t hclear => ?_⟩
  have hcontains : ∀ (t : Term) v, t.alone.contains (.var v) = (Term.var v).occursIn t := by
    simp [Term.alone, Proposition.contains]
  have halone := Proposition.matchesExactly_unify? (p := s.alone) (q := t.alone) hvs rfl rfl
    fun v hv => (hcontains s v).trans (hclear v hv)
  simpa only [Term.unify?_alone, hcontains, Substitution.apply_alone, Term.alone_equal_iff]
    using halone

/-- `P(f(t, g(u)), t)`, where the first term comes up twice. -/
def firstTwice (t u : Term) : Proposition := .relation "P" [.app "f" [t, .app "g" [u]], t]

/-- `P(f(a, g(b)), a)` matches `P(f(x, g(y)), x)`, and `f(a, b)` does not match `f(x, x)`. -/
theorem matching_exact_repeated :
    (firstTwice (.const "a") (.const "b")).unify?
        (firstTwice (.var ⟨1, "x"⟩) (.var ⟨2, "y"⟩)) [⟨1, "x"⟩, ⟨2, "y"⟩] =
          some [(⟨1, "x"⟩, .const "a"), (⟨2, "y"⟩, .const "b")] ∧
      Substitution.BindsExactly [(⟨1, "x"⟩, .const "a"), (⟨2, "y"⟩, .const "b")]
        [⟨1, "x"⟩, ⟨2, "y"⟩]
        (fun v => (firstTwice (.var ⟨1, "x"⟩) (.var ⟨2, "y"⟩)).contains (.var v)) ∧
      Term.unify? (.app "f" [.const "a", .const "b"])
        (.app "f" [.var ⟨1, "x"⟩, .var ⟨1, "x"⟩]) [⟨1, "x"⟩, ⟨2, "y"⟩] = none ∧
      ¬∃ θ : Substitution, (∀ binding ∈ θ, binding.1 ∈ [⟨1, "x"⟩, ⟨2, "y"⟩]) ∧
        θ.applyTerm (.app "f" [.var ⟨1, "x"⟩, .var ⟨1, "x"⟩]) =
          .app "f" [.const "a", .const "b"] := by
  obtain ⟨hpropositions, hterms⟩ := @matching_exact [⟨1, "x"⟩, ⟨2, "y"⟩] (by decide)
  have hmatch := hpropositions (firstTwice (.const "a") (.const "b"))
    (firstTwice (.var ⟨1, "x"⟩) (.var ⟨2, "y"⟩)) rfl rfl (by decide)
  have hclash := hterms (.app "f" [.const "a", .const "b"])
    (.app "f" [.var ⟨1, "x"⟩, .var ⟨1, "x"⟩]) (by decide)
  refine ⟨by decide, (hmatch.sound _ (by decide)).1, by decide, fun hexists => ?_⟩
  cases hclash.succeeds.mpr hexists

end Entailment
