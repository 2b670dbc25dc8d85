import Entailment.Proofs.Interpretation
import Entailment.Session.Scope

/-!
# What closing a scope states

The suppositions of a scope have a meaning of their own: read from the first to the last, a variable
stands for any value, and an assumption restricts what follows to where it holds. The statement that
a closed scope puts around a conclusion says exactly this, whether a membership became the domain of
a quantifier, assumptions were collected, a variable was left out or a contradiction was negated.
-/
namespace Entailment

universe u

namespace Interpretation
variable {D : Type u} (I : Interpretation D)

/-- What is claimed of a property under the suppositions of a log, read from first to last. -/
def Supposing : List Supposition → ((Variable → D) → Prop) → (Variable → D) → Prop
  | [], P, ρ => P ρ
  | .introduced v :: rest, P, ρ => ∀ d, Supposing rest P (Function.update ρ v d)
  | .assumed f :: rest, P, ρ => I.Satisfies ρ f.statement → Supposing rest P ρ

/-- The same for one layer. The domain is read as the assumption that it was made from. -/
def Around : Layer → ((Variable → D) → Prop) → (Variable → D) → Prop
  | .each v, P, ρ => ∀ d, P (Function.update ρ v d)
  | .eachIn v set, P, ρ =>
      ∀ d, I.Satisfies (Function.update ρ v d) (.rel .element (.var v) set) →
        P (Function.update ρ v d)
  | .given first rest, P, ρ => (∀ p ∈ first :: rest, I.Satisfies ρ p) → P ρ

variable {I} {ρ : Variable → D}

theorem satisfies_domainFor? {v : Variable} {p : Proposition} {set : Term}
    (h : p.domainFor? v = some set) :
    I.Satisfies ρ p ↔ I.Satisfies ρ (.rel .element (.var v) set) := by
  unfold Proposition.domainFor? at h
  split at h
  next name w set' m =>
    split at h
    next hname =>
      obtain ⟨rfl, rfl⟩ := hname
      obtain rfl := Option.some.inj h
      exact Iff.rfl
    next => simp at h
  next => simp at h

/-- Grouping suppositions into layers keeps what they say. -/
theorem supposing_iff_around (log : List Supposition) (P : (Variable → D) → Prop) :
    I.Supposing log P ρ ↔ (Layer.ofLog log).foldr I.Around P ρ := by
  fun_induction Layer.ofLog log generalizing ρ with
  | case1 => exact Iff.rfl
  | case2 v => exact Iff.rfl
  | case3 v w rest ih => exact forall_congr' fun d => ih
  | case4 v f rest set hset ih =>
      exact forall_congr' fun d => imp_congr (satisfies_domainFor? hset) ih
  | case5 v f rest hset ih => exact forall_congr' fun d => ih
  | case6 f rest p ps layers hlayers ih =>
      rw [hlayers] at ih
      rw [Supposing, ih]
      simp only [List.foldr_cons, Around, List.forall_mem_cons, and_imp]
  | case7 f rest hlayers ih =>
      rw [Supposing, ih]
      simp [Around]

theorem satisfies_conjunction (first : Proposition) (rest : List Proposition) :
    I.Satisfies ρ (.conjunction first rest) ↔ ∀ p ∈ first :: rest, I.Satisfies ρ p := by
  cases rest with
  | nil => simp [Proposition.conjunction]
  | cons second rest =>
      simp only [Proposition.conjunction, Satisfies, truths_eq_map, Connective.Holds,
        List.forall_mem_map]

/-- A layer put around a proposition says what the layer stands for. -/
theorem satisfies_wrap {layer : Layer} {p q : Proposition} (h : layer.wrap p = .ok q) :
    I.Satisfies ρ q ↔ I.Around layer (fun ρ => I.Satisfies ρ p) ρ := by
  cases layer with
  | each v =>
      rw [Layer.wrap] at h
      split_ifs at h with hbinds hcontains
      · obtain rfl := Except.ok.inj h
        exact forall_congr' fun d => ⟨fun hbody => hbody trivial, fun hbody _ => hbody⟩
      · obtain rfl := Except.ok.inj h
        have hsame : ∀ d, I.Satisfies (Function.update ρ v d) p ↔ I.Satisfies ρ p :=
          satisfies_update_of_not_contains (by simpa using hcontains)
        -- The domain has an element, so a value for the variable can be found.
        exact ⟨fun hp d => (hsame d).mpr hp, fun hall => (hsame (I.number 0)).mp (hall _)⟩
  | eachIn v set =>
      rw [Layer.wrap] at h
      split_ifs at h with hunfit
      obtain rfl := Except.ok.inj h
      have hset : ∀ d, I.value (Function.update ρ v d) set = I.value ρ set := by
        intro d
        apply value_update_of_not_occursIn
        simp_all
      refine forall_congr' fun d => imp_congr ?_ Iff.rfl
      simp [Within, Proposition.rel, Satisfies, value, hset]
  | given first rest =>
      have hhypothesis := satisfies_conjunction (I := I) (ρ := ρ) first rest
      cases p with
      | contradiction m =>
          obtain rfl := Except.ok.inj h
          exact not_congr hhypothesis
      | _ =>
          obtain rfl := Except.ok.inj h
          exact imp_congr hhypothesis Iff.rfl

theorem satisfies_foldrM_wrap {layers : List Layer} {p q : Proposition}
    (h : layers.foldrM Layer.wrap p = .ok q) :
    I.Satisfies ρ q ↔ layers.foldr I.Around (fun ρ => I.Satisfies ρ p) ρ := by
  induction layers generalizing q ρ with
  | nil =>
      obtain rfl := Except.ok.inj h
      exact Iff.rfl
  | cons layer layers ih =>
      rw [List.foldrM_cons] at h
      cases hinner : layers.foldrM Layer.wrap p with
      | error b => simp [hinner, bind, Except.bind] at h
      | ok r =>
          rw [hinner] at h
          have hreading : (fun ρ => I.Satisfies ρ r) =
              layers.foldr I.Around fun ρ => I.Satisfies ρ p :=
            funext fun ρ => propext (ih hinner)
          rw [satisfies_wrap h, hreading, List.foldr_cons]

/-- Layers made from a log say what the log says. -/
theorem satisfies_layers {log : List Supposition} {p q : Proposition}
    (h : (Layer.ofLog log).foldrM Layer.wrap p = .ok q) :
    I.Satisfies ρ q ↔ I.Supposing log (fun ρ => I.Satisfies ρ p) ρ := by
  rw [satisfies_foldrM_wrap h, supposing_iff_around]

end Interpretation

namespace Scope

/-- The generalised statement is true exactly where the target is true under all suppositions of
the scope. -/
theorem generalise_exact {D : Type u} (I : Interpretation D) (ρ : Variable → D) {c : Scope}
    {target p : Proposition} (h : c.generalise target = .ok p) :
    I.Satisfies ρ p ↔ I.Supposing c.log (fun ρ => I.Satisfies ρ target) ρ := by
  rw [Interpretation.satisfies_layers h]
  simp only [Interpretation.satisfies_strip]

/-- A scope with a variable in `A`, another one, and two assumptions about the first. -/
def overlap : Scope where
  name := "overlap"
  log :=
    let x : Term := .var ⟨1, "x"⟩
    [.introduced ⟨1, "x"⟩, .assumed ⟨⟨0⟩, .rel .element x (.const "A")⟩, .introduced ⟨2, "y"⟩,
      .assumed ⟨⟨1⟩, .rel .element x (.const "B")⟩, .assumed ⟨⟨2⟩, .relation "P" [x]⟩]

/-- Nothing in `A` is in `B` and has property `P`. -/
def noOverlap : Proposition :=
  let x : Term := .var ⟨1, "x"⟩
  .quantified .all ⟨1, "x"⟩ (some (.const "A"))
    (.not (.junction .and [.rel .element x (.const "B"), .relation "P" [x]]))

/-- Numbers, where relations say that their arguments are in increasing order. -/
def increasing : Interpretation Nat where
  constant _ := 0
  number n := n.toNat
  function _ args := args.length
  relation _ args := args.Pairwise (· < ·)

theorem generalise_exact_overlap :
    overlap.generalise .contradiction = .ok noOverlap ∧
      (increasing.Satisfies (fun _ => 0) noOverlap ↔
        increasing.Supposing overlap.log (fun _ => False) fun _ => 0) := by
  have hgeneralised : overlap.generalise .contradiction = .ok noOverlap := rfl
  exact ⟨hgeneralised, generalise_exact increasing _ hgeneralised⟩

end Scope

end Entailment
