import Entailment.Proofs.FirstOrderSoundness
import Entailment.Proofs.Instantiation

/-!
# Soundness of existential elimination

From "something has the property" and "whatever has the property makes `Q` true" follows `Q`, if `Q`
does not speak about that something. The two properties are about different variables. They are
compared by renaming one variable to the other, and this comparison is misled in three ways: the
renaming may bring the variable under a quantifier that binds it, the variable may be free in the
antecedent already, and equality does not look at which variables quantifiers bind.
`Proposition.corresponds` excludes all three, and the last theorem has a run for each of them.
-/
namespace Entailment

universe u

namespace Proposition

/-- The antecedent `a`, which is about `w`, can be compared with the property `p`, which is about
`v`, by renaming. -/
def comparable (v w : Variable) (a p : Proposition) : Bool :=
  (v == w || !a.contains (.var v)) && a.admits w (.var v) &&
    discerned [a.replaceAll (.var w) (.var v), p]

/-- An existential statement can be compared with the antecedent of a universal implication. -/
def corresponds : Proposition → Proposition → Bool
  | .quantified .exist v _ p _, .quantified .all w _ (.implies a _ _) _ => comparable v w a p
  | _, _ => true

end Proposition

namespace Interpretation
variable {D : Type u} {I : Interpretation D} {ρ : Variable → D} {v w : Variable}
  {a b p : Proposition}

/-- What has the property `p` is what the antecedent `a` is about. -/
theorem satisfies_comparable (h : Proposition.comparable v w a p = true)
    (hequal : (a.replaceAll (.var w) (.var v)).equal p = true) (d : D) :
    I.Satisfies (Function.update ρ v d) p ↔ I.Satisfies (Function.update ρ w d) a := by
  simp only [Proposition.comparable, Bool.and_eq_true] at h
  have hsame : (a.replaceAll (.var w) (.var v)).same p = true :=
    Proposition.same_of_discerned h.2 (by simp) (by simp) hequal
  have hvalue : I.value (Function.update ρ v d) (.var v) = d := by
    rw [value, Function.update_self]
  have hrenamed : I.Satisfies (Function.update ρ v d) (a.replaceAll (.var w) (.var v)) ↔
      I.Satisfies (Function.update (Function.update ρ v d) w d) a := by
    rw [satisfies_replaceAll h.1.2, hvalue]
  have hfree : I.Satisfies (Function.update (Function.update ρ v d) w d) a ↔
      I.Satisfies (Function.update ρ w d) a := by
    apply satisfies_congr
    intro x hx
    by_cases hxw : x = w
    · rw [hxw, Function.update_self, Function.update_self]
    · have hxv : x ≠ v := by
        intro heq
        have hcases := h.1.1
        rw [Bool.or_eq_true, beq_iff_eq, ← heq] at hcases
        simp [hxw, hx] at hcases
      rw [Function.update_of_ne hxw, Function.update_of_ne hxw, Function.update_of_ne hxv]
  exact (satisfies_same hsame).symm.trans (hrenamed.trans hfree)

/-- Whatever follows from a property that something has is true, unless it is about the variable
that stands for it. -/
theorem satisfies_eliminated {domain : Option Term} {m m' m'' : Option FactId}
    (h : Proposition.comparable v w a p = true)
    (hequal : (a.replaceAll (.var w) (.var v)).equal p = true)
    (hb : b.contains (.var w) = false)
    (hexist : I.Satisfies ρ (.quantified .exist v domain p m))
    (hall : I.Satisfies ρ (.quantified .all w domain (.implies a b m') m'')) :
    I.Satisfies ρ b := by
  obtain ⟨d, hdomain, hproperty⟩ := hexist
  have hantecedent : I.Satisfies (Function.update ρ w d) a :=
    (satisfies_comparable h hequal d).mp hproperty
  have himplies : I.Satisfies (Function.update ρ w d) (.implies a b m') := hall d hdomain
  exact (satisfies_update_of_not_contains hb d).mp (himplies hantecedent)

end Interpretation

namespace Session

theorem existentialElimination_ensures {s : Session} {e u : Fact} (he : s.Proves e)
    (hu : s.Proves u) :
    Ensures (existentialElimination (some e.proposition) (some u.proposition)) s
      (fun q _ => ∃ v w domain p a b m m' m'',
        e.statement = .quantified .exist v domain p m ∧
        u.statement = .quantified .all w domain (.implies a b m') m'' ∧
        (a.replaceAll (.var w) (.var v)).equal p = true ∧ b.contains (.var w) = false ∧
        q.statement = b.strip)
      fun _ => True := by
  unfold existentialElimination
  apply (require_proposition_reads _ he).ensures_bind trivial
  rintro f rfl
  apply (require_proposition_reads _ hu).ensures_bind trivial
  rintro g rfl
  split
  next v domain p m w domain' body m'' hexist hall =>
    apply Ensures.guard trivial
    intro hdomain
    have hsame : domain = domain' := by simpa using hdomain
    subst hsame
    split
    next a b m' =>
      apply Ensures.guard trivial
      intro hequal
      apply Ensures.guard trivial
      intro hfree
      apply Ensures.derive
      exact ⟨v, w, domain, p, a, b, m, m', m'', hexist, hall, by simpa using hequal,
        by simpa using hfree, rfl⟩
    next => exact .refuse trivial
  next => exact .refuse trivial

/-- Where an existential statement and a universal implication are true, so is what is derived from
them, over a domain or without one, provided that the two can be compared by renaming. -/
theorem existentialElimination_sound {D : Type u} (I : Interpretation D) (ρ : Variable → D)
    {s s' : Session} {e u q : Fact} (he : s.Proves e) (hu : s.Proves u)
    (hcorresponds : e.statement.corresponds u.statement = true)
    (hrun : existentialElimination (some e.proposition) (some u.proposition) s = .ok q s')
    (hexist : I.Satisfies ρ e.statement) (hall : I.Satisfies ρ u.statement) :
    I.Satisfies ρ q.statement := by
  obtain ⟨v, w, domain, p, a, b, m, m', m'', hestatement, hustatement, hequal, hfree, hq⟩ :=
    (existentialElimination_ensures he hu).answer hrun
  rw [hestatement] at hexist hcorresponds
  rw [hustatement] at hall hcorresponds
  rw [hq, Interpretation.satisfies_strip]
  exact Interpretation.satisfies_eliminated hcorresponds hequal hfree hexist hall

/-- Two objects, where a relation holds of one of them and itself only, and of nothing else. -/
def onlyTrue : Interpretation Bool where
  constant _ := true
  number _ := true
  function _ _ := true
  relation _ args := args = [true, true]

def varV : Variable := ⟨1, "v"⟩
def varW : Variable := ⟨2, "w"⟩
def varY : Variable := ⟨3, "y"⟩

/-- The values of two variables are related. -/
def relates (x y : Variable) : Proposition := .relation "R" [.var x, .var y]

/-- Some member of `A`, or anything at all, has a property. -/
def something (domain : Option Term) (p : Proposition) : Proposition :=
  .quantified .exist varV domain p

/-- Whatever has a property makes `Q` true, as far as the domain goes. -/
def whatever (domain : Option Term) (a q : Proposition) : Proposition :=
  .quantified .all varW domain (.implies a q)

/-- What elimination makes of two postulates. -/
def eliminating (e u : Proposition) : EStateM.Result Failure Session Fact :=
  existentialElimination (some (Fact.proposition ⟨⟨0⟩, e⟩)) (some (Fact.proposition ⟨⟨1⟩, u⟩))
    (run {} [.newVariable "v", .newVariable "w", .newVariable "y", .postulate e, .postulate u])

/-- Something is related to some `y`. -/
def relatedFact (domain : Option Term) : Fact :=
  ⟨⟨0⟩, something domain (.quantified .exist varY none (relates varV varY))⟩

/-- If anything is related to some `y`, then `y` is related to itself. -/
def relatingFact (domain : Option Term) : Fact :=
  ⟨⟨1⟩, whatever domain (.quantified .exist varY none (relates varW varY)) (relates varY varY)⟩

/-- Without a domain and over one, with a quantifier inside that the two sides share. -/
theorem existentialElimination_sound_onlyTrue :
    ((∃ s', eliminating (relatedFact none).statement (relatingFact none).statement =
        .ok ⟨⟨2⟩, relates varY varY⟩ s') ∧
      onlyTrue.Satisfies (fun _ => true) (relates varY varY)) ∧
    (∃ s', eliminating (relatedFact (some (.const "A"))).statement
        (relatingFact (some (.const "A"))).statement = .ok ⟨⟨2⟩, relates varY varY⟩ s') ∧
      onlyTrue.Satisfies (fun _ => true) (relates varY varY) := by
  have hexist : ∀ domain, onlyTrue.Within (fun _ => true) domain true →
      onlyTrue.Satisfies (fun _ => true) (relatedFact domain).statement :=
    fun domain hdomain => ⟨true, hdomain, true, trivial, rfl⟩
  have hall : ∀ domain, onlyTrue.Satisfies (fun _ => true) (relatingFact domain).statement :=
    fun domain _ _ _ => rfl
  constructor
  · have hrun : ∃ s', eliminating (relatedFact none).statement (relatingFact none).statement =
        .ok ⟨⟨2⟩, relates varY varY⟩ s' := ⟨_, rfl⟩
    refine ⟨hrun, ?_⟩
    obtain ⟨s', hrun⟩ := hrun
    exact existentialElimination_sound onlyTrue _ ⟨_, rfl, rfl, rfl⟩ ⟨_, rfl, rfl, rfl⟩ rfl hrun
      (hexist none trivial) (hall none)
  · have hrun : ∃ s', eliminating (relatedFact (some (.const "A"))).statement
        (relatingFact (some (.const "A"))).statement = .ok ⟨⟨2⟩, relates varY varY⟩ s' := ⟨_, rfl⟩
    refine ⟨hrun, ?_⟩
    obtain ⟨s', hrun⟩ := hrun
    exact existentialElimination_sound onlyTrue _ ⟨_, rfl, rfl, rfl⟩ ⟨_, rfl, rfl, rfl⟩ rfl hrun
      (hexist _ rfl) (hall _)

/-- Elimination answers `Q` from two postulates that are true where `Q` is false. -/
def Misled (ρ : Variable → Bool) (e u : Proposition) : Prop :=
  (∃ s', eliminating e u = .ok ⟨⟨2⟩, .relation "Q" []⟩ s') ∧ onlyTrue.Satisfies ρ e ∧
    onlyTrue.Satisfies ρ u ∧ ¬onlyTrue.Satisfies ρ (.relation "Q" [])

/-- Renaming `w` in `∀v. R(v, w)` makes it `∀v. R(v, v)`, which is taken for `∀y. R(v, v)`. Renaming
it in `R(w, v)` makes that `R(v, v)`. And `∀y. R(v, y)` is taken for `∀w. R(v, y)`. -/
theorem elimination_misled :
    Misled (fun _ => true) (something none (.quantified .all varY none (relates varV varV)))
        (whatever none (.quantified .all varV none (relates varV varW)) (.relation "Q" [])) ∧
      Misled (fun _ => false) (something none (relates varV varV))
        (whatever none (relates varW varV) (.relation "Q" [])) ∧
      Misled (fun _ => true) (something none (.quantified .all varW none (relates varV varY)))
        (whatever none (.quantified .all varY none (relates varW varY)) (.relation "Q" [])) := by
  have hfalse : ∀ ρ, ¬onlyTrue.Satisfies ρ (.relation "Q" []) := fun ρ h => by cases h
  refine ⟨⟨⟨_, rfl⟩, ?_, ?_, hfalse _⟩, ⟨⟨_, rfl⟩, ?_, ?_, hfalse _⟩, ⟨⟨_, rfl⟩, ?_, ?_, hfalse _⟩⟩
  · exact ⟨true, trivial, fun d _ => rfl⟩
  · intro d _ hall
    cases hall false trivial
  · exact ⟨true, trivial, rfl⟩
  · intro d _ h
    cases h
  · exact ⟨true, trivial, fun d _ => rfl⟩
  · intro d _ hall
    cases hall false trivial

end Session

end Entailment
