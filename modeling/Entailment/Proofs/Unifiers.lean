import Entailment.Proofs.AlphaEquivalence
import Entailment.Proofs.Equivalence

/-!
# When a successful unification unifies

Unification records the value of a variable as it stands opposite it, and applies it neither to the
values found before nor to those found later. All values are then put in at once. So the two sides
need not become the same. They do exactly when

* no value mentions a variable that has another value (`Substitution.IsSettled`), and
* wherever a variable with a value comes in, the variables of the value are bound alike on both
  sides (`Substitution.Aligns`). A value that was found outside of a quantifier is accepted inside,
  also if the quantifier binds its variables, and is put there in the same way.

Between terms, and where no quantifier binds a variable of a value, the first condition is enough.
-/
namespace Entailment

namespace Substitution
variable {σ τ : Substitution} {bound : List Variable}

theorem applyTerm_nil (t : Term) : applyTerm [] t = t := by
  have hread : readTerm [] [] t = t.indexed [] := readTerm_empty t
  exact Term.indexed_nil_inj.mp hread

/-- What a substitution makes of a term is decided by what it makes of its variables, and decides
that. -/
theorem applyTerm_eq_iff {t : Term} :
    σ.applyTerm t = τ.applyTerm t ↔
      ∀ x, (Term.var x).occursIn t = true → σ.applyTerm (.var x) = τ.applyTerm (.var x) := by
  induction t using Term.inductionOn with
  | var v => simp [Term.occursIn]
  | const name => simp [applyTerm, Term.occursIn]
  | num n => simp [applyTerm, Term.occursIn]
  | app head args ih =>
      have hargs : σ.applyTerm (.app head args) = τ.applyTerm (.app head args) ↔
          ∀ t ∈ args, σ.applyTerm t = τ.applyTerm t := by
        simp [applyTerm, List.map_inj_left]
      simp only [hargs, Term.occursIn_app, List.any_eq_true]
      constructor
      · rintro h x ⟨t, ht, hx⟩
        exact (ih t ht).mp (h t ht) x hx
      · intro h t ht
        exact (ih t ht).mpr fun x hx => h x ⟨t, ht, hx⟩

theorem applyTerm_outside_var (v : Variable) :
    (σ.outside bound).applyTerm (.var v) = if v ∈ bound then .var v else σ.applyTerm (.var v) := by
  rw [applyTerm, applyTerm, find?_outside]
  split <;> rfl

/-- What a substitution leaves alone is left alone under binders. -/
theorem readTerm_of_fixed {t : Term} (h : σ.applyTerm t = t) :
    σ.readTerm bound t = t.indexed bound := by
  have hfixed : (σ.outside bound).applyTerm t = applyTerm [] t := by
    have hvariables := applyTerm_eq_iff.mp (h.trans (applyTerm_nil t).symm)
    refine applyTerm_eq_iff.mpr fun x hx => ?_
    rw [applyTerm_outside_var]
    split
    next => rfl
    next => exact hvariables x hx
  rw [readTerm, hfixed, applyTerm_nil]

/-- Binders of other variables do not restrict a substitution. -/
theorem readTerm_of_clear {t : Term} (h : ∀ x, (Term.var x).occursIn t = true → x ∉ bound) :
    σ.readTerm bound t = (σ.applyTerm t).indexed bound := by
  have hclear : (σ.outside bound).applyTerm t = σ.applyTerm t := by
    refine applyTerm_eq_iff.mpr fun x hx => ?_
    rw [applyTerm_outside_var, if_neg (h x hx)]
  rw [readTerm, hclear]

theorem find?_eq_none_iff {v : Variable} : σ.find? v = none ↔ v ∉ σ.map Prod.fst := by
  rw [find?, List.lookup_eq_none_iff]
  simp only [List.mem_map, not_exists, not_and, bne_iff_ne]
  exact forall₂_congr fun p _ => ne_comm

theorem find?_of_mem {v : Variable} {t : Term} (honce : (σ.map Prod.fst).Nodup) (h : (v, t) ∈ σ) :
    σ.find? v = some t := by
  induction σ with
  | nil => cases h
  | cons first σ ih =>
      obtain ⟨w, u⟩ := first
      rw [List.map_cons, List.nodup_cons] at honce
      rw [find?_cons]
      rcases List.mem_cons.mp h with heq | hrest
      · cases heq
        rw [if_pos rfl]
      · have hne : v ≠ w := by
          rintro rfl
          exact honce.1 (List.mem_map.mpr ⟨_, hrest, rfl⟩)
        rw [if_neg hne, ih honce.2 hrest]

/-- No value is changed by the values themselves. -/
def IsSettled (σ : Substitution) : Prop := ∀ v t, (v, t) ∈ σ → σ.applyTerm t = t

end Substitution

namespace Unify

/-- A variable that is free in its place stands on one of the sides. -/
def Equation.Shows (e : Equation) (v : Variable) : Prop :=
  (e.left = .var v ∧ v ∉ e.binders.left) ∨ (e.right = .var v ∧ v ∉ e.binders.right)

/-- The value of a variable on one of the sides reads the same on both. -/
def Equation.Aligned (σ : Substitution) (e : Equation) : Prop :=
  ∀ v t, e.Shows v → σ.find? v = some t → t.indexed e.binders.left = t.indexed e.binders.right

/-- How the values found belong to the equations. -/
structure Solves (allowed : Bindable) (es : List Equation) (σ : Substitution) : Prop where
  once : (σ.map Prod.fst).Nodup
  settled : ∀ e ∈ es, e.Holds [] [] ∨ ∃ v t, e.Poses v t ∧ σ.find? v = some t
  origin : ∀ v t, (v, t) ∈ σ → ∃ e ∈ es, e.Poses v t ∧ allowed.allows v = true ∧
    ∀ x, (Term.var x).occursIn t = true → x ∉ e.binders.left ∧ x ∉ e.binders.right

section Solves
variable {allowed : Bindable} {σ τ : Substitution} {e : Equation} {es done : List Equation}

theorem Solves.nil : Solves allowed [] [] := by
  constructor <;> simp

/-- Values that are there already stay as they are. -/
theorem Solves.same (h : Solves allowed done σ)
    (hsettled : e.Holds [] [] ∨ ∃ v t, e.Poses v t ∧ σ.find? v = some t) :
    Solves allowed (done ++ [e]) σ where
  once := h.once
  settled := by
    simp only [List.mem_append, List.mem_singleton]
    rintro f (hf | rfl)
    · exact h.settled f hf
    · exact hsettled
  origin v t hvt := by
    obtain ⟨f, hf, hposes⟩ := h.origin v t hvt
    exact ⟨f, List.mem_append_left _ hf, hposes⟩

theorem Solves.step (h : Solves allowed done σ) (hstep : Settles allowed σ e τ) :
    Solves allowed (done ++ [e]) τ := by
  cases hstep with
  | same hholds => exact h.same (.inl hholds)
  | known hposes hfound => exact h.same (.inr ⟨_, _, hposes, hfound⟩)
  | @found v t hposes hallowed hnone hescapes =>
      refine ⟨?_, ?_, ?_⟩
      · rw [List.map_append, List.map_singleton]
        have hnew := Substitution.find?_eq_none_iff.mp hnone
        refine List.nodup_append.mpr ⟨h.once, by simp, fun w hw u hu => ?_⟩
        rw [List.mem_singleton.mp hu]
        rintro rfl
        exact hnew hw
      · simp only [List.mem_append, List.mem_singleton]
        rintro f (hf | rfl)
        · refine (h.settled f hf).imp_right ?_
          rintro ⟨w, u, hw, hu⟩
          exact ⟨w, u, hw, (List.prefix_append σ _).lookup_eq_some hu⟩
        · exact .inr ⟨v, t, hposes, Substitution.find?_append_self hnone⟩
      · intro w u hwu
        rcases List.mem_append.mp hwu with hwu | hwu
        · obtain ⟨f, hf, hposes⟩ := h.origin w u hwu
          exact ⟨f, List.mem_append_left _ hf, hposes⟩
        · cases List.mem_singleton.mp hwu
          exact ⟨e, by simp, hposes, hallowed, hescapes⟩

theorem Solves.run (h : Solves allowed done σ) (hrun : solve allowed σ es = some τ) :
    Solves allowed (done ++ es) τ := by
  induction es generalizing done σ with
  | nil =>
      cases hrun
      rwa [List.append_nil]
  | cons e es ih =>
      obtain ⟨ι, hfirst, hrest⟩ := solve_cons_eq_some hrun
      simpa using ih (h.step hfirst) hrest

theorem solves_of_solve (h : solve allowed [] es = some σ) : Solves allowed es σ :=
  Solves.nil.run h

/-- Between the same things, the value of a free variable is all that can make a difference. -/
theorem holds_iff_aligned_of_same (hsame : e.Holds [] []) : e.Holds σ σ ↔ e.Aligned σ := by
  rcases Equation.holds_nil_iff.mp hsame with
    ⟨l, r, i, hl, hr, hleft, hright⟩ | ⟨x, hl, hr, hleft, hright⟩
  · have hlmem := List.isSome_idxOf?.mp (Option.isSome_of_mem hleft)
    have hrmem := List.isSome_idxOf?.mp (Option.isSome_of_mem hright)
    have hshows : ∀ v, ¬e.Shows v := by
      rintro v (⟨hv, hnot⟩ | ⟨hv, hnot⟩)
      · cases hl.symm.trans hv
        exact hnot hlmem
      · cases hr.symm.trans hv
        exact hnot hrmem
    have hholds : e.Holds σ σ := by
      rw [Equation.Holds, hl, hr, Substitution.readTerm_var_of_mem hlmem,
        Substitution.readTerm_var_of_mem hrmem, Term.indexed_var_of_some hleft,
        Term.indexed_var_of_some hright]
    exact iff_of_true hholds fun v t hv => absurd hv (hshows v)
  · have hshows : ∀ v, e.Shows v ↔ v = x := by
      intro v
      simp only [Equation.Shows, hl, hr, Term.var.injEq]
      constructor
      · rintro (⟨rfl, -⟩ | ⟨rfl, -⟩) <;> rfl
      · rintro rfl
        exact .inl ⟨rfl, hleft⟩
    have haligned : e.Aligned σ ↔ ∀ t, σ.find? x = some t →
        t.indexed e.binders.left = t.indexed e.binders.right := by
      refine ⟨fun h t => h x t ((hshows x).mpr rfl), fun h v t hv => ?_⟩
      rw [(hshows v).mp hv]
      exact h t
    rw [haligned, Equation.Holds, hl, hr]
    cases hx : σ.find? x with
    | none =>
        rw [Substitution.readTerm_var_of_none hx, Substitution.readTerm_var_of_none hx,
          Term.indexed_var_of_notMem hleft, Term.indexed_var_of_notMem hright]
        simp
    | some t =>
        rw [Substitution.readTerm_var_of_some hleft hx, Substitution.readTerm_var_of_some hright hx]
        simp

/-- Where a variable has the value opposite it, and no value changes that one, the equation says
that the value reads the same on both sides. -/
theorem holds_iff_aligned_of_poses {v : Variable} {t : Term} (hposes : e.Poses v t)
    (hfound : σ.find? v = some t) (hfixed : σ.applyTerm t = t) :
    e.Holds σ σ ↔ e.Aligned σ := by
  have hholds : e.Holds σ σ ↔ t.indexed e.binders.left = t.indexed e.binders.right := by
    rw [Equation.Holds]
    rcases hposes with ⟨hl, hr, hright⟩ | ⟨hl, hr, hleft⟩
    · rw [hl, hr, Substitution.readTerm_of_fixed hfixed,
        Substitution.readTerm_var_of_some hright hfound]
    · rw [hl, hr, Substitution.readTerm_of_fixed hfixed,
        Substitution.readTerm_var_of_some hleft hfound]
  have hshows : e.Shows v := by
    rcases hposes with ⟨-, hr, hright⟩ | ⟨hl, -, hleft⟩
    · exact .inr ⟨hr, hright⟩
    · exact .inl ⟨hl, hleft⟩
  -- A variable opposite `v` is the value of `v`, so it has no other value itself.
  have hvalue : ∀ w u, e.Shows w → σ.find? w = some u → u = t := by
    intro w u hw hu
    have hcases : w = v ∨ t = .var w := by
      rcases hposes with ⟨hl, hr, -⟩ | ⟨hl, hr, -⟩ <;> rcases hw with ⟨hw, -⟩ | ⟨hw, -⟩
      · exact .inr (hl.symm.trans hw)
      · exact .inl (Term.var.inj (hw.symm.trans hr))
      · exact .inl (Term.var.inj (hw.symm.trans hl))
      · exact .inr (hr.symm.trans hw)
    rcases hcases with rfl | rfl
    · exact Option.some.inj (hu.symm.trans hfound)
    · exact (Substitution.applyTerm_var_of_some hu).symm.trans hfixed
  rw [hholds]
  constructor
  · intro h w u hw hu
    rw [hvalue w u hw hu]
    exact h
  · exact fun h => h v t hshows hfound

/-- If the equation that gave a variable its value comes true, no other value changes that one. -/
theorem Solves.isSettled (h : Solves allowed es σ) (hholds : ∀ e ∈ es, e.Holds σ σ) :
    σ.IsSettled := by
  intro v t hvt
  have hfound := Substitution.find?_of_mem h.once hvt
  obtain ⟨e, he, hposes, -, hescapes⟩ := h.origin v t hvt
  have heq := hholds e he
  rw [Equation.Holds] at heq
  rcases hposes with ⟨hl, hr, hright⟩ | ⟨hl, hr, hleft⟩
  · rw [hl, hr, Substitution.readTerm_of_clear fun x hx => (hescapes x hx).1,
      Substitution.readTerm_var_of_some hright hfound,
      Term.indexed_eq_of_notMem fun x hx => (hescapes x hx).2] at heq
    exact Term.eq_of_indexed_eq heq
  · rw [hl, hr, Substitution.readTerm_of_clear fun x hx => (hescapes x hx).2,
      Substitution.readTerm_var_of_some hleft hfound,
      Term.indexed_eq_of_notMem fun x hx => (hescapes x hx).1] at heq
    exact Term.eq_of_indexed_eq heq.symm

theorem Solves.holds_iff (h : Solves allowed es σ) :
    (∀ e ∈ es, e.Holds σ σ) ↔ σ.IsSettled ∧ ∀ e ∈ es, e.Aligned σ := by
  have hequation : σ.IsSettled → ∀ e ∈ es, (e.Holds σ σ ↔ e.Aligned σ) := by
    intro hsettled e he
    rcases h.settled e he with hsame | ⟨v, t, hposes, hfound⟩
    · exact holds_iff_aligned_of_same hsame
    · exact holds_iff_aligned_of_poses hposes hfound
        (hsettled v t (Substitution.mem_of_find? hfound))
  constructor
  · intro hholds
    have hsettled := h.isSettled hholds
    exact ⟨hsettled, fun e he => (hequation hsettled e he).mp (hholds e he)⟩
  · rintro ⟨hsettled, haligned⟩ e he
    exact (hequation hsettled e he).mpr (haligned e he)

end Solves

/-- Unification succeeds by solving the equations of the two sides. -/
theorem solves_of_proposition {allowed : Bindable} {p q : Proposition} {σ : Substitution}
    (h : Unify.proposition allowed .empty [] p q = some σ) :
    ∃ es, equate .empty p q = some es ∧ Solves allowed es σ := by
  rw [proposition_eq_solve] at h
  obtain ⟨es, hes, hsolved⟩ := Option.bind_eq_some_iff.mp h
  exact ⟨es, hes, solves_of_solve hsolved⟩

end Unify

namespace Substitution

/-- Wherever a variable with a value meets something in the two propositions, the value reads the
same on both sides: each of its variables is free on both, or bound at the same distance. -/
def Aligns (σ : Substitution) (p q : Proposition) : Prop :=
  ∀ es, Unify.equate .empty p q = some es → ∀ e ∈ es, e.Aligned σ

/-- Values read the same everywhere if no quantifier binds one of their variables. -/
theorem aligns_of_not_binds {σ : Substitution} {p q : Proposition}
    (h : ∀ v t x, (v, t) ∈ σ → (Term.var x).occursIn t = true →
      p.binds x = false ∧ q.binds x = false) : σ.Aligns p q := by
  intro es hes e he v t _ hfound
  have hcovers := Unify.covers_of_equate hes
  refine Term.indexed_congr fun x hx => ?_
  obtain ⟨hp, hq⟩ := h v t x (mem_of_find? hfound) hx
  have hleft : x ∉ e.binders.left := by
    intro hmem
    simpa [Binders.empty, hp] using hcovers.left.binders e he x hmem
  have hright : x ∉ e.binders.right := by
    intro hmem
    simpa [Binders.empty, hq] using hcovers.right.binders e he x hmem
  rw [List.idxOf?_eq_none_iff.mpr hleft, List.idxOf?_eq_none_iff.mpr hright]

end Substitution

namespace Proposition

theorem apply_equivalent_iff {vs : List Variable} {p q : Proposition} {σ : Substitution}
    (h : p.unify? q vs = some σ) :
    (σ.apply p).equivalent (σ.apply q) = true ↔ σ.IsSettled ∧ σ.Aligns p q := by
  obtain ⟨es, hes, hsolves⟩ := Unify.solves_of_proposition h
  calc (σ.apply p).equivalent (σ.apply q) = true
      ↔ σ.read [] p = σ.read [] q := by
        rw [equivalent_iff, Substitution.read_nil, Substitution.read_nil]
    _ ↔ ∀ e ∈ es, e.Holds σ σ := by
        rw [← Unify.yields_some, ← hes]
        exact Unify.read_eq_iff .empty p q
    _ ↔ σ.IsSettled ∧ σ.Aligns p q := by
        simp only [hsolves.holds_iff, Substitution.Aligns, hes, Option.some.injEq, forall_eq']

end Proposition

/-- A term as the only argument of a relation. -/
def Term.alone (t : Term) : Proposition := .relation "" [t]

/-- Terms unify like relations between them. -/
theorem Term.unify?_alone (s t : Term) (vs : List Variable) :
    s.alone.unify? t.alone vs = s.unify? t vs := by
  rw [Proposition.unify?, Term.unify?, alone, alone, Unify.proposition, if_pos rfl, Unify.terms]
  cases Unify.term (.ofList vs) .empty [] s t <;> rfl

theorem Substitution.apply_alone (σ : Substitution) (t : Term) :
    σ.apply t.alone = (σ.applyTerm t).alone := rfl

@[simp] theorem Term.alone_equal_iff (s t : Term) : s.alone.equal t.alone = true ↔ s = t := by
  simp [alone, Proposition.equal]

/-- When unification succeeds, the values found make two terms the same if and only if no value
mentions a variable that has another value. Two propositions become equivalent if and only if,
besides, the values read the same on both sides wherever they come in, which they do if no
quantifier binds one of their variables. -/
theorem unification_unifies_iff (vs : List Variable) :
    (∀ (s t : Term) (σ : Substitution), s.unify? t vs = some σ →
      (σ.applyTerm s = σ.applyTerm t ↔ σ.IsSettled)) ∧
    ∀ (p q : Proposition) (σ : Substitution), p.unify? q vs = some σ →
      ((σ.apply p).equivalent (σ.apply q) = true ↔ σ.IsSettled ∧ σ.Aligns p q) ∧
      ((∀ v t x, (v, t) ∈ σ → (Term.var x).occursIn t = true →
          p.binds x = false ∧ q.binds x = false) →
        ((σ.apply p).equivalent (σ.apply q) = true ↔ σ.IsSettled)) := by
  have hpropositions : ∀ (p q : Proposition) (σ : Substitution), p.unify? q vs = some σ →
      (∀ v t x, (v, t) ∈ σ → (Term.var x).occursIn t = true →
        p.binds x = false ∧ q.binds x = false) →
      ((σ.apply p).equivalent (σ.apply q) = true ↔ σ.IsSettled) := by
    intro p q σ h hclear
    rw [Proposition.apply_equivalent_iff h]
    exact and_iff_left (Substitution.aligns_of_not_binds hclear)
  refine ⟨fun s t σ h => ?_, fun p q σ h => ⟨Proposition.apply_equivalent_iff h,
    hpropositions p q σ h⟩⟩
  rw [← Term.unify?_alone] at h
  rw [← hpropositions s.alone t.alone σ h fun _ _ _ _ _ => ⟨rfl, rfl⟩, Substitution.apply_alone,
    Substitution.apply_alone, Proposition.equivalent_eq_equal rfl, Term.alone_equal_iff]

/-- The first term has the property `P`, and whatever `v` is, the second one has the property
`Q`. -/
def hereAndBelow (t : Term) (v : Variable) (u : Term) : Proposition :=
  .junction .and [.relation "P" [t], .quantified .all v none (.relation "Q" [u])]

/-- A quantifier elsewhere binds the variable that is the value, and still unification unifies. -/
theorem unification_unifies_iff_boundElsewhere :
    ∃ σ, (hereAndBelow (.var ⟨2, "y"⟩) ⟨2, "y"⟩ (.var ⟨2, "y"⟩)).unify?
        (hereAndBelow (.var ⟨1, "x"⟩) ⟨3, "z"⟩ (.var ⟨3, "z"⟩)) [⟨1, "x"⟩] = some σ ∧
      σ = [(⟨1, "x"⟩, .var ⟨2, "y"⟩)] ∧
      (σ.apply (hereAndBelow (.var ⟨2, "y"⟩) ⟨2, "y"⟩ (.var ⟨2, "y"⟩))).equivalent
        (σ.apply (hereAndBelow (.var ⟨1, "x"⟩) ⟨3, "z"⟩ (.var ⟨3, "z"⟩))) = true := by
  refine ⟨_, rfl, rfl, ((unification_unifies_iff [⟨1, "x"⟩]).2 _ _ _ rfl).1.mpr ⟨?_, ?_⟩⟩
  · intro v t h
    cases List.mem_singleton.mp h
    rfl
  · intro es hes e he v t hshows hfound
    cases hes
    -- The first equation has no quantifier around it, the second one no variable with a value.
    rcases List.mem_cons.mp he with rfl | he
    · rfl
    · cases List.mem_singleton.mp he
      rcases hshows with ⟨hv, hnot⟩ | ⟨hv, hnot⟩ <;> cases hv <;>
        exact absurd List.mem_cons_self hnot

/-- A successful unification need not unify. A value may mention a variable that gets a value
later: `f(x, x)` and `f(y, a)`. A value found outside of a quantifier is accepted inside, where it
says something else: `P(f(y)) ∧ ∀y. Q(f(y))` and `P(x) ∧ ∀z. Q(x)`. And a value may be put under a
quantifier that binds its variables: `P(f(y)) ∧ ∀z. Q(f(y))` and `P(x) ∧ ∀y. Q(x)`. -/
theorem unification_leaves_apart :
    (∃ σ, Term.unify? (.app "f" [.var ⟨1, "x"⟩, .var ⟨1, "x"⟩])
        (.app "f" [.var ⟨2, "y"⟩, .const "a"]) [] = some σ ∧
      σ.applyTerm (.app "f" [.var ⟨1, "x"⟩, .var ⟨1, "x"⟩]) ≠
        σ.applyTerm (.app "f" [.var ⟨2, "y"⟩, .const "a"])) ∧
    (∃ σ, (hereAndBelow (.app "f" [.var ⟨2, "y"⟩]) ⟨2, "y"⟩ (.app "f" [.var ⟨2, "y"⟩])).unify?
        (hereAndBelow (.var ⟨1, "x"⟩) ⟨3, "z"⟩ (.var ⟨1, "x"⟩)) [⟨1, "x"⟩] = some σ ∧
      (σ.apply (hereAndBelow (.app "f" [.var ⟨2, "y"⟩]) ⟨2, "y"⟩
        (.app "f" [.var ⟨2, "y"⟩]))).equivalent
          (σ.apply (hereAndBelow (.var ⟨1, "x"⟩) ⟨3, "z"⟩ (.var ⟨1, "x"⟩))) = false) ∧
    ∃ σ, (hereAndBelow (.app "f" [.var ⟨2, "y"⟩]) ⟨3, "z"⟩ (.app "f" [.var ⟨2, "y"⟩])).unify?
        (hereAndBelow (.var ⟨1, "x"⟩) ⟨2, "y"⟩ (.var ⟨1, "x"⟩)) [⟨1, "x"⟩] = some σ ∧
      (σ.apply (hereAndBelow (.app "f" [.var ⟨2, "y"⟩]) ⟨3, "z"⟩
        (.app "f" [.var ⟨2, "y"⟩]))).equivalent
          (σ.apply (hereAndBelow (.var ⟨1, "x"⟩) ⟨2, "y"⟩ (.var ⟨1, "x"⟩))) = false := by
  exact ⟨⟨_, rfl, by decide⟩, ⟨_, rfl, by decide⟩, ⟨_, rfl, by decide⟩⟩

end Entailment
