import Entailment.Proofs.Equivalence

/-!
# Equality and the variables that quantifiers bind

Structural equality does not look at the variables that quantifiers bind, so it takes `∃x. P(x)` and
`∃y. P(x)` for the same, although they are not true together. What it takes for the same is true
together if quantifiers in the same place bind different variables only where neither of them is
free in what they quantify. That is a condition on the two propositions alone (`bindsAlike`), and
among equal propositions it holds of those that are also equivalent, and of no others.
-/
namespace Entailment

universe u

namespace Proposition

mutual

/-- Where quantifiers in the same place bind different variables, neither is free below. -/
def bindsAlike : Proposition → Proposition → Bool
  | .not p _, .not q _ => bindsAlike p q
  | .junction _ ps _, .junction _ qs _ => bindAlike ps qs
  | .implies a b _, .implies c d _ | .iff a b _, .iff c d _ => bindsAlike a c && bindsAlike b d
  | .quantified _ v _ p _, .quantified _ w _ q _ =>
    (v == w || (!p.contains (.var v) && !q.contains (.var w))) && bindsAlike p q
  | _, _ => true

def bindAlike : List Proposition → List Proposition → Bool
  | p :: ps, q :: qs => bindsAlike p q && bindAlike ps qs
  | _, _ => true

end

theorem forall₂_of_equalList {R : Proposition → Proposition → Prop} {ps qs : List Proposition}
    (hequal : equalList ps qs = true) (h : ∀ p ∈ ps, ∀ q, p.equal q = true → R p q) :
    List.Forall₂ R ps qs := by
  induction ps generalizing qs with
  | nil =>
      cases qs with
      | nil => exact .nil
      | cons q qs => simp [equalList] at hequal
  | cons p ps ih =>
      cases qs with
      | nil => simp [equalList] at hequal
      | cons q qs =>
          rw [equalList, Bool.and_eq_true] at hequal
          exact .cons (h p List.mem_cons_self q hequal.1)
            (ih hequal.2 fun r hr => h r (List.mem_cons_of_mem _ hr))

/-- Induction over two equal propositions, which differ in marks and bound variables only. -/
theorem equal_induction {R : Proposition → Proposition → Prop}
    (relation : ∀ name args m m', R (.relation name args m) (.relation name args m'))
    (not : ∀ p q m m', R p q → R (.not p m) (.not q m'))
    (junction : ∀ c ps qs m m', List.Forall₂ R ps qs → R (.junction c ps m) (.junction c qs m'))
    (implies : ∀ a b c d m m', R a c → R b d → R (.implies a b m) (.implies c d m'))
    (iff : ∀ a b c d m m', R a c → R b d → R (.iff a b m) (.iff c d m'))
    (quantified : ∀ k v w domain p q m m', p.equal q = true → R p q →
      R (.quantified k v domain p m) (.quantified k w domain q m'))
    (contradiction : ∀ m m', R (.contradiction m) (.contradiction m'))
    {p q : Proposition} (hequal : p.equal q = true) : R p q := by
  induction p using Proposition.inductionOn generalizing q with
  | relation name args m =>
      cases q with
      | relation name' args' m' =>
          obtain ⟨rfl, rfl⟩ : name = name' ∧ args = args' := by simpa [equal] using hequal
          exact relation name args m m'
      | _ => simp [equal] at hequal
  | not p m ih =>
      cases q with
      | not q m' => exact not p q m m' (ih hequal)
      | _ => simp [equal] at hequal
  | junction c ps m ih =>
      cases q with
      | junction c' qs m' =>
          obtain ⟨rfl, hmembers⟩ : c = c' ∧ equalList ps qs = true := by simpa [equal] using hequal
          exact junction c ps qs m m' (forall₂_of_equalList hmembers fun p hp q hpq => ih p hp hpq)
      | _ => simp [equal] at hequal
  | implies a b m iha ihb =>
      cases q with
      | implies c d m' =>
          obtain ⟨hac, hbd⟩ := Bool.and_eq_true_iff.mp hequal
          exact implies a b c d m m' (iha hac) (ihb hbd)
      | _ => simp [equal] at hequal
  | iff a b m iha ihb =>
      cases q with
      | iff c d m' =>
          obtain ⟨hac, hbd⟩ := Bool.and_eq_true_iff.mp hequal
          exact iff a b c d m m' (iha hac) (ihb hbd)
      | _ => simp [equal] at hequal
  | quantified k v domain p m ih =>
      cases q with
      | quantified k' w domain' q m' =>
          obtain ⟨⟨rfl, rfl⟩, hbody⟩ : (k = k' ∧ domain = domain') ∧ p.equal q = true := by
            simpa [equal] using hequal
          exact quantified k v w domain p q m m' hbody (ih hbody)
      | _ => simp [equal] at hequal
  | contradiction m =>
      cases q with
      | contradiction m' => exact contradiction m m'
      | _ => simp [equal] at hequal

theorem forall₂_of_bindAlike {R : Proposition → Proposition → Prop} {ps qs : List Proposition}
    (h : List.Forall₂ (fun p q => p.bindsAlike q = true → R p q) ps qs)
    (halike : bindAlike ps qs = true) : List.Forall₂ R ps qs := by
  induction h with
  | nil => exact .nil
  | cons hfirst _ ih =>
      obtain ⟨hpq, hrest⟩ := Bool.and_eq_true_iff.mp halike
      exact .cons (hfirst hpq) (ih hrest)

/-- Induction over two propositions that are equal and bind alike. -/
theorem alike_induction {R : Proposition → Proposition → Prop}
    (relation : ∀ name args m m', R (.relation name args m) (.relation name args m'))
    (not : ∀ p q m m', R p q → R (.not p m) (.not q m'))
    (junction : ∀ c ps qs m m', List.Forall₂ R ps qs → R (.junction c ps m) (.junction c qs m'))
    (implies : ∀ a b c d m m', R a c → R b d → R (.implies a b m) (.implies c d m'))
    (iff : ∀ a b c d m m', R a c → R b d → R (.iff a b m) (.iff c d m'))
    (quantified : ∀ k v w domain p q m m',
      v = w ∨ (p.contains (.var v) = false ∧ q.contains (.var w) = false) → R p q →
      R (.quantified k v domain p m) (.quantified k w domain q m'))
    (contradiction : ∀ m m', R (.contradiction m) (.contradiction m'))
    {p q : Proposition} (hequal : p.equal q = true) (halike : p.bindsAlike q = true) : R p q := by
  refine equal_induction (R := fun p q => p.bindsAlike q = true → R p q)
    (fun name args m m' _ => relation name args m m')
    (fun p q m m' ih halike => not p q m m' (ih halike))
    (fun c ps qs m m' hmembers halike =>
      junction c ps qs m m' (forall₂_of_bindAlike hmembers halike))
    ?implies ?iff ?quantified (fun m m' _ => contradiction m m') hequal halike
  case implies =>
    intro a b c d m m' iha ihb halike
    obtain ⟨hac, hbd⟩ := Bool.and_eq_true_iff.mp halike
    exact implies a b c d m m' (iha hac) (ihb hbd)
  case iff =>
    intro a b c d m m' iha ihb halike
    obtain ⟨hac, hbd⟩ := Bool.and_eq_true_iff.mp halike
    exact iff a b c d m m' (iha hac) (ihb hbd)
  case quantified =>
    intro k v w domain p q m m' _ ih halike
    obtain ⟨hbound, hbody⟩ := Bool.and_eq_true_iff.mp halike
    exact quantified k v w domain p q m m' (by simpa using hbound) (ih hbody)

/-- Equal propositions that bind alike have the same free variables. -/
theorem contains_eq_of_alike {p q : Proposition} (hequal : p.equal q = true)
    (halike : p.bindsAlike q = true) (x : Variable) :
    p.contains (.var x) = q.contains (.var x) := by
  refine alike_induction (R := fun p q => p.contains (.var x) = q.contains (.var x))
    ?relation ?not ?junction ?implies ?iff ?quantified ?contradiction hequal halike
  case relation => exact fun name args m m' => rfl
  case not => exact fun p q m m' ih => ih
  case junction =>
    intro c ps qs m m' hmembers
    rw [contains, contains, containsAny_eq_any, containsAny_eq_any]
    induction hmembers with
    | nil => rfl
    | cons hfirst _ ih => rw [List.any_cons, List.any_cons, hfirst, ih]
  case implies => exact fun a b c d m m' iha ihb => by rw [contains, contains, iha, ihb]
  case iff => exact fun a b c d m m' iha ihb => by rw [contains, contains, iha, ihb]
  case quantified =>
    intro k v w domain p q m m' hbound ih
    rw [contains, contains, ih]
    rcases hbound with rfl | ⟨hv, hw⟩
    · rfl
    · -- Neither bound variable is free in either body, so leaving it out changes nothing.
      by_cases hxv : x = v
      · subst hxv
        simp [ih.symm.trans hv]
      · by_cases hxw : x = w
        · subst hxw
          simp [hw]
        · simp [Term.occursIn, hxv, hxw]
  case contradiction => exact fun m m' => rfl

end Proposition

section Unification
variable {b : Binders}

/-- A variable is bound at the same depth on both sides, or on neither. -/
def Binders.Pairs (b : Binders) (x : Variable) : Prop :=
  Binders.depth? b.left (.var x) = Binders.depth? b.right (.var x)

theorem Binders.pairs_push (b : Binders) (v w x : Variable) :
    (b.push v w).Pairs x ↔ (v = x ↔ w = x) ∧ (v ≠ x → b.Pairs x) := by
  have hsucc : Function.Injective (Option.map (· + 1 : Nat → Nat)) :=
    Option.map_injective fun _ _ => Nat.succ.inj
  unfold Pairs
  simp only [push, depth?, List.findIdx?_cons, beq_iff_eq]
  by_cases hv : v = x <;> by_cases hw : w = x
  · simp [hv, hw]
  · cases h : List.findIdx? (fun y => y == x) b.right <;> simp [hv, hw]
  · cases h : List.findIdx? (fun y => y == x) b.left <;> simp [hv, hw]
  · simp [hv, hw, hsucc.eq_iff]

theorem Unify.terms_same_iff {ts : List Term}
    (h : ∀ t ∈ ts, ∀ σ τ, Unify.term .nothing b σ t t = some τ ↔
      τ = σ ∧ ∀ x, (Term.var x).occursIn t = true → b.Pairs x) (σ τ : Substitution) :
    Unify.terms .nothing b σ ts ts = some τ ↔
      τ = σ ∧ ∀ x, ts.any (Term.var x).occursIn = true → b.Pairs x := by
  induction ts generalizing σ with
  | nil => simp [Unify.terms, eq_comm]
  | cons t ts ih =>
      obtain ⟨hfirst, hrest⟩ := List.forall_mem_cons.mp h
      have hsplit : Unify.terms .nothing b σ (t :: ts) (t :: ts) = some τ ↔
          ∃ ν, Unify.term .nothing b σ t t = some ν ∧ Unify.terms .nothing b ν ts ts = some τ := by
        rw [Unify.terms]
        cases Unify.term .nothing b σ t t <;> simp
      simp only [hsplit, hfirst, ih hrest, List.any_cons, Bool.or_eq_true]
      grind

/-- With nothing to bind, a term unifies with itself if its variables are paired. -/
theorem Unify.term_same_iff (t : Term) (σ τ : Substitution) :
    Unify.term .nothing b σ t t = some τ ↔
      τ = σ ∧ ∀ x, (Term.var x).occursIn t = true → b.Pairs x := by
  induction t using Term.inductionOn generalizing σ τ with
  | var v =>
      have hoccurs : ∀ x, (Term.var x).occursIn (.var v) = true ↔ x = v := by
        simp [Term.occursIn, eq_comm]
      have hleaf : Unify.term .nothing b σ (.var v) (.var v) = some τ ↔ b.Pairs v ∧ τ = σ := by
        rw [Unify.term, Unify.leaf, Binders.Pairs]
        · cases Binders.depth? b.left (.var v) <;> cases Binders.depth? b.right (.var v) <;>
            simp [Bindable.allows, eq_comm (a := τ)]
        · simp
      rw [hleaf, and_comm]
      simp only [hoccurs, forall_eq]
  | const name => simp [Unify.term, Unify.leaf, Binders.depth?, Term.occursIn, eq_comm]
  | num n => simp [Unify.term, Unify.leaf, Binders.depth?, Term.occursIn, eq_comm]
  | app head args ih =>
      rw [Unify.term, if_pos rfl, Unify.terms_same_iff ih]
      simp [Term.occursIn]

theorem Unify.domain_same_iff (domain : Option Term) (σ τ : Substitution) :
    Unify.domain .nothing b σ domain domain = some τ ↔
      τ = σ ∧ ∀ x, domain.any (Term.var x).occursIn = true → b.Pairs x := by
  cases domain with
  | none => simp [Unify.domain, eq_comm]
  | some t => exact Unify.term_same_iff t σ τ

/-- With nothing to bind, two propositions unify if they bind alike, under binders that pair what is
free in them, and unification then gives no variable a value. -/
def Unify.Compares (p q : Proposition) : Prop :=
  ∀ (b : Binders) (σ τ : Substitution), Unify.proposition .nothing b σ p q = some τ ↔
    τ = σ ∧ p.bindsAlike q = true ∧ ∀ x, p.contains (.var x) = true → b.Pairs x

theorem Unify.members_same_iff {ps qs : List Proposition}
    (h : List.Forall₂ Unify.Compares ps qs) (σ τ : Substitution) :
    Unify.members .nothing b σ ps qs = some τ ↔ τ = σ ∧ Proposition.bindAlike ps qs = true ∧
      ∀ x, Proposition.containsAny (.var x) ps = true → b.Pairs x := by
  induction h generalizing σ with
  | nil => simp [Unify.members, Proposition.bindAlike, Proposition.containsAny, eq_comm]
  | @cons p q ps qs hfirst _ ih =>
      have hsplit : Unify.members .nothing b σ (p :: ps) (q :: qs) = some τ ↔
          ∃ ν, Unify.proposition .nothing b σ p q = some ν ∧
            Unify.members .nothing b ν ps qs = some τ := by
        rw [Unify.members]
        cases Unify.proposition .nothing b σ p q <;> simp
      simp only [hsplit, hfirst b, ih, Proposition.bindAlike, Proposition.containsAny,
        Bool.or_eq_true, Bool.and_eq_true]
      grind

theorem Unify.sides_same_iff {p q o r : Proposition}
    (hleft : Unify.Compares p o) (hright : Unify.Compares q r) (σ τ : Substitution) :
    (match Unify.proposition .nothing b σ p o with
      | some ν => Unify.proposition .nothing b ν q r
      | none => none) = some τ ↔
      τ = σ ∧ (p.bindsAlike o && q.bindsAlike r) = true ∧
        ∀ x, (p.contains (.var x) || q.contains (.var x)) = true → b.Pairs x := by
  have hsplit : (match Unify.proposition .nothing b σ p o with
      | some ν => Unify.proposition .nothing b ν q r
      | none => none) = some τ ↔
      ∃ ν, Unify.proposition .nothing b σ p o = some ν ∧
        Unify.proposition .nothing b ν q r = some τ := by
    cases Unify.proposition .nothing b σ p o <;> simp
  simp only [hsplit, hleft b, hright b, Bool.or_eq_true, Bool.and_eq_true]
  grind

theorem Unify.compares_of_equal {p q : Proposition} (hequal : p.equal q = true) :
    Unify.Compares p q := by
  refine Proposition.equal_induction ?relation ?not ?junction ?implies ?iff ?quantified
    ?contradiction hequal
  case relation =>
    intro name args m m' b σ τ
    have hargs : ∀ t ∈ args, ∀ σ τ, Unify.term .nothing b σ t t = some τ ↔
        τ = σ ∧ ∀ x, (Term.var x).occursIn t = true → b.Pairs x :=
      fun t _ => Unify.term_same_iff t
    rw [Unify.proposition, if_pos rfl, Unify.terms_same_iff hargs]
    simp [Proposition.bindsAlike, Proposition.contains]
  case not =>
    intro p q m m' ih b σ τ
    exact ih b σ τ
  case junction =>
    intro c ps qs m m' hmembers b σ τ
    rw [Unify.proposition, if_pos rfl, Unify.members_same_iff hmembers]
    rfl
  case implies =>
    intro a b c d m m' iha ihb binders σ τ
    exact Unify.sides_same_iff iha ihb σ τ
  case iff =>
    intro a b c d m m' iha ihb binders σ τ
    exact Unify.sides_same_iff iha ihb σ τ
  case quantified =>
    intro k v w domain p q m m' hequal ih b σ τ
    have hsplit : Unify.proposition .nothing b σ (.quantified k v domain p m)
        (.quantified k w domain q m') = some τ ↔
        ∃ ν, Unify.domain .nothing b σ domain domain = some ν ∧
          Unify.proposition .nothing (b.push v w) ν p q = some τ := by
      rw [Unify.proposition, if_pos rfl]
      cases Unify.domain .nothing b σ domain domain <;> simp
    have hfree : p.bindsAlike q = true → p.contains (.var w) = q.contains (.var w) :=
      fun halike => Proposition.contains_eq_of_alike hequal halike w
    have hoccurs : ∀ x, (Term.var v).occursIn (.var x) = false ↔ v ≠ x := by
      simp [Term.occursIn, eq_comm]
    simp only [hsplit, ih (b.push v w), Unify.domain_same_iff, Binders.pairs_push,
      Proposition.bindsAlike, Proposition.contains, Bool.or_eq_true, Bool.and_eq_true,
      Bool.not_eq_true', beq_iff_eq, hoccurs]
    grind
  case contradiction =>
    intro m m' b σ τ
    simp [Unify.proposition, Proposition.bindsAlike, Proposition.contains, eq_comm]

/-- Of equal propositions, those that bind alike are the equivalent ones. -/
theorem Proposition.equivalent_iff_bindsAlike {p q : Proposition} (hequal : p.equal q = true) :
    p.equivalent q = true ↔ p.bindsAlike q = true := by
  have hpairs : ∀ x, Binders.Pairs .empty x := fun x => rfl
  simp only [equivalent, Option.isSome_iff_exists, Unify.compares_of_equal hequal _ _ _, hpairs]
  simp

end Unification

namespace Interpretation
variable {D : Type u}

/-- Equality respects truth where the two sides bind alike. -/
theorem satisfies_iff_of_equal (I : Interpretation D) (ρ : Variable → D) {p q : Proposition}
    (hequal : p.equal q = true) (halike : p.bindsAlike q = true) :
    I.Satisfies ρ p ↔ I.Satisfies ρ q := by
  refine Proposition.alike_induction (R := fun p q => ∀ ρ, I.Satisfies ρ p ↔ I.Satisfies ρ q)
    ?relation ?not ?junction ?implies ?iff ?quantified ?contradiction hequal halike ρ
  case relation => exact fun name args m m' ρ => Iff.rfl
  case not => exact fun p q m m' ih ρ => not_congr (ih ρ)
  case junction =>
    intro c ps qs m m' hmembers ρ
    refine satisfies_junction_congr ?_
    induction hmembers with
    | nil => rfl
    | cons hfirst _ ih => rw [List.map_cons, List.map_cons, propext (hfirst ρ), ih]
  case implies => exact fun a b c d m m' iha ihb ρ => imp_congr (iha ρ) (ihb ρ)
  case iff => exact fun a b c d m m' iha ihb ρ => iff_congr (iha ρ) (ihb ρ)
  case quantified =>
    intro k v w domain p q m m' hbound ih ρ
    refine satisfies_quantified_congr (fun _ => Iff.rfl) fun d => ?_
    rcases hbound with rfl | ⟨hv, hw⟩
    · exact ih _
    · calc I.Satisfies (Function.update ρ v d) p
          ↔ I.Satisfies ρ p := satisfies_update_of_not_contains hv d
        _ ↔ I.Satisfies ρ q := ih ρ
        _ ↔ I.Satisfies (Function.update ρ w d) q := (satisfies_update_of_not_contains hw d).symm
  case contradiction => exact fun m m' ρ => Iff.rfl

/-- Two objects, where relations hold of the first one, and of nothing else. -/
def onlyFirst : Interpretation Bool where
  constant _ := true
  number _ := true
  function _ _ := true
  relation _ args := args = [true]

/-- There is something, named by one variable, such that the other has a property. -/
def somethingFor (bound free : Variable) : Proposition :=
  .quantified .exist bound none (.relation "P" [.var free])

/-- Where the variables bound are different and not free below, equality respects truth. -/
theorem satisfies_iff_of_equal_vacuous :
    onlyFirst.Satisfies (fun _ => false) (somethingFor ⟨1, "x"⟩ ⟨3, "z"⟩) ↔
      onlyFirst.Satisfies (fun _ => false) (somethingFor ⟨2, "y"⟩ ⟨3, "z"⟩) :=
  satisfies_iff_of_equal onlyFirst _ (by decide) (by decide)

/-- Equality takes `∃x. P(x)` and `∃y. P(x)` for the same, and only the first is true where `x`
does not have the property and something else does. -/
theorem equal_forgets_bound :
    (somethingFor ⟨1, "x"⟩ ⟨1, "x"⟩).equal (somethingFor ⟨2, "y"⟩ ⟨1, "x"⟩) = true ∧
      onlyFirst.Satisfies (fun _ => false) (somethingFor ⟨1, "x"⟩ ⟨1, "x"⟩) ∧
      ¬onlyFirst.Satisfies (fun _ => false) (somethingFor ⟨2, "y"⟩ ⟨1, "x"⟩) := by
  refine ⟨by decide, ⟨true, trivial, rfl⟩, ?_⟩
  rintro ⟨d, -, hfree⟩
  cases hfree

end Interpretation

end Entailment
