import Entailment.Proofs.Valuation
import Entailment.Proposition.Substitution
import Mathlib.Logic.Function.Basic

/-!
# First-order truth

An interpretation gives a meaning to constants, numbers, function symbols and relations over some
domain. Constants have a value, so the domain is never empty. Under an assignment of values to the
variables, terms have values and propositions are true or false. The set that a quantifier ranges
over is read outside of the quantifier.
-/
namespace Entailment

universe u

/-- Induction over terms, with a hypothesis for each argument of an application. -/
@[elab_as_elim]
theorem Term.inductionOn {motive : Term → Prop} (t : Term) (var : ∀ v, motive (.var v))
    (const : ∀ name, motive (.const name)) (num : ∀ n, motive (.num n))
    (app : ∀ head args, (∀ t ∈ args, motive t) → motive (.app head args)) : motive t :=
  match t with
  | .var v => var v
  | .const name => const name
  | .num n => num n
  | .app head args => app head args fun t _ => t.inductionOn var const num app

/-- Induction over propositions, with a hypothesis for each member of a connective. -/
@[elab_as_elim]
theorem Proposition.inductionOn {motive : Proposition → Prop} (p : Proposition)
    (relation : ∀ name args m, motive (.relation name args m))
    (not : ∀ p m, motive p → motive (.not p m))
    (junction : ∀ c ps m, (∀ p ∈ ps, motive p) → motive (.junction c ps m))
    (implies : ∀ a b m, motive a → motive b → motive (.implies a b m))
    (iff : ∀ a b m, motive a → motive b → motive (.iff a b m))
    (quantified : ∀ q v domain p m, motive p → motive (.quantified q v domain p m))
    (contradiction : ∀ m, motive (.contradiction m)) : motive p :=
  match p with
  | .relation name args m => relation name args m
  | .not p m =>
      not p m (p.inductionOn relation not junction implies iff quantified contradiction)
  | .junction c ps m =>
      junction c ps m fun p _ =>
        p.inductionOn relation not junction implies iff quantified contradiction
  | .implies a b m =>
      implies a b m (a.inductionOn relation not junction implies iff quantified contradiction)
        (b.inductionOn relation not junction implies iff quantified contradiction)
  | .iff a b m =>
      iff a b m (a.inductionOn relation not junction implies iff quantified contradiction)
        (b.inductionOn relation not junction implies iff quantified contradiction)
  | .quantified q v domain p m =>
      quantified q v domain p m
        (p.inductionOn relation not junction implies iff quantified contradiction)
  | .contradiction m => contradiction m

/-- What a quantifier says of a property of the members of its domain. -/
def Quantifier.Holds {D : Type u} : Quantifier → (D → Prop) → (D → Prop) → Prop
  | .all, domain, body => ∀ d, domain d → body d
  | .exist, domain, body => ∃ d, domain d ∧ body d

theorem Quantifier.holds_congr {D : Type u} (q : Quantifier) {domain domain' body body' : D → Prop}
    (hdomain : ∀ d, domain d ↔ domain' d) (hbody : ∀ d, body d ↔ body' d) :
    q.Holds domain body ↔ q.Holds domain' body' := by
  obtain rfl : domain = domain' := funext fun d => propext (hdomain d)
  obtain rfl : body = body' := funext fun d => propext (hbody d)
  exact Iff.rfl

namespace Proposition

mutual

/-- Whether two propositions differ in marks only. Other than for `equal`, quantifiers have to bind
the same variables. -/
def same : Proposition → Proposition → Bool
  | .relation n as _, .relation m bs _ => n == m && as == bs
  | .not p _, .not q _ => same p q
  | .junction c ps _, .junction d qs _ => c == d && sameList ps qs
  | .implies a b _, .implies c d _ => same a c && same b d
  | .iff a b _, .iff c d _ => same a c && same b d
  | .quantified q v s p _, .quantified r w t o _ => q == r && v == w && s == t && same p o
  | .contradiction _, .contradiction _ => true
  | _, _ => false

def sameList : List Proposition → List Proposition → Bool
  | [], [] => true
  | p :: ps, q :: qs => same p q && sameList ps qs
  | _, _ => false

end

end Proposition

structure Interpretation (D : Type u) where
  constant : String → D
  number : Int → D
  function : String → List D → D
  relation : String → List D → Prop

namespace Interpretation
variable {D : Type u} (I : Interpretation D)

mutual

def value (ρ : Variable → D) : Term → D
  | .var v => ρ v
  | .const name => I.constant name
  | .num n => I.number n
  | .app head args => I.function head (values ρ args)

def values (ρ : Variable → D) : List Term → List D
  | [] => []
  | t :: ts => value ρ t :: values ρ ts

end

@[simp] theorem values_eq_map (ρ : Variable → D) (ts : List Term) :
    I.values ρ ts = ts.map (I.value ρ) := by
  induction ts with
  | nil => rfl
  | cons t ts ih => simp [values, ih]

/-- Membership in the domain of a quantifier, which holds of everything if there is none. -/
def Within (ρ : Variable → D) : Option Term → D → Prop
  | none, _ => True
  | some set, d => I.relation Relation.element.name [d, I.value ρ set]

mutual

def Satisfies (ρ : Variable → D) : Proposition → Prop
  | .relation name args _ => I.relation name (I.values ρ args)
  | .not p _ => ¬Satisfies ρ p
  | .junction c ps _ => c.Holds (truths ρ ps)
  | .implies a b _ => Satisfies ρ a → Satisfies ρ b
  | .iff a b _ => Satisfies ρ a ↔ Satisfies ρ b
  | .quantified q v domain p _ =>
      q.Holds (I.Within ρ domain) fun d => Satisfies (Function.update ρ v d) p
  | .contradiction _ => False

def truths (ρ : Variable → D) : List Proposition → List Prop
  | [] => []
  | p :: ps => Satisfies ρ p :: truths ρ ps

end

@[simp] theorem truths_eq_map (ρ : Variable → D) (ps : List Proposition) :
    I.truths ρ ps = ps.map (I.Satisfies ρ) := by
  induction ps with
  | nil => rfl
  | cons p ps ih => simp [truths, ih]

section Congruence
variable {I} {ρ ρ' : Variable → D}

theorem value_congr {t : Term} (h : ∀ v, (Term.var v).occursIn t = true → ρ v = ρ' v) :
    I.value ρ t = I.value ρ' t := by
  induction t using Term.inductionOn with
  | var v => exact h v (by simp [Term.occursIn])
  | const name => rfl
  | num n => rfl
  | app head args ih =>
      rw [value, value, values_eq_map, values_eq_map]
      congr 1
      refine List.map_congr_left fun t ht => ih t ht fun v hv => h v ?_
      rw [Term.occursIn, Bool.or_eq_true, Term.occursInAny_eq_any]
      exact .inr (List.any_eq_true.mpr ⟨t, ht, hv⟩)

theorem within_congr {domain : Option Term}
    (h : ∀ v, domain.any (Term.var v).occursIn = true → ρ v = ρ' v) (d : D) :
    I.Within ρ domain d ↔ I.Within ρ' domain d := by
  cases domain with
  | none => exact Iff.rfl
  | some set => rw [Within, Within, value_congr h]

theorem map_value_congr {ts : List Term}
    (h : ∀ v, ts.any (Term.var v).occursIn = true → ρ v = ρ' v) :
    ts.map (I.value ρ) = ts.map (I.value ρ') := by
  refine List.map_congr_left fun t ht => value_congr fun v hv => h v ?_
  exact List.any_eq_true.mpr ⟨t, ht, hv⟩

section Parts
variable {m m' : Option FactId}

theorem satisfies_relation_congr {name : String} {args args' : List Term}
    (h : args.map (I.value ρ) = args'.map (I.value ρ')) :
    I.Satisfies ρ (.relation name args m) ↔ I.Satisfies ρ' (.relation name args' m') := by
  rw [Satisfies, Satisfies, values_eq_map, values_eq_map, h]

theorem satisfies_junction_congr {c : Connective} {ps qs : List Proposition}
    (h : ps.map (I.Satisfies ρ) = qs.map (I.Satisfies ρ')) :
    I.Satisfies ρ (.junction c ps m) ↔ I.Satisfies ρ' (.junction c qs m') := by
  rw [Satisfies, Satisfies, truths_eq_map, truths_eq_map, h]

theorem satisfies_quantified_congr {q : Quantifier} {v w : Variable} {domain domain' : Option Term}
    {p p' : Proposition} (hdomain : ∀ d, I.Within ρ domain d ↔ I.Within ρ' domain' d)
    (hbody : ∀ d, I.Satisfies (Function.update ρ v d) p ↔ I.Satisfies (Function.update ρ' w d) p') :
    I.Satisfies ρ (.quantified q v domain p m) ↔
      I.Satisfies ρ' (.quantified q w domain' p' m') := by
  rw [Satisfies, Satisfies]
  exact q.holds_congr hdomain hbody

end Parts

/-- The truth of a proposition depends on the values of its free variables only. -/
theorem satisfies_congr {p : Proposition} (h : ∀ v, p.contains (.var v) = true → ρ v = ρ' v) :
    I.Satisfies ρ p ↔ I.Satisfies ρ' p := by
  induction p using Proposition.inductionOn generalizing ρ ρ' with
  | relation name args m => exact satisfies_relation_congr (map_value_congr h)
  | not p m ih => exact not_congr (ih h)
  | junction c ps m ih =>
      have hmembers : ps.map (I.Satisfies ρ) = ps.map (I.Satisfies ρ') := by
        refine List.map_congr_left fun p hp => propext (ih p hp fun v hv => h v ?_)
        rw [Proposition.contains, Proposition.containsAny_eq_any]
        exact List.any_eq_true.mpr ⟨p, hp, hv⟩
      exact satisfies_junction_congr hmembers
  | implies a b m iha ihb =>
      have ha := iha fun v hv => h v (by simp [Proposition.contains, hv])
      have hb := ihb fun v hv => h v (by simp [Proposition.contains, hv])
      exact imp_congr ha hb
  | iff a b m iha ihb =>
      have ha := iha fun v hv => h v (by simp [Proposition.contains, hv])
      have hb := ihb fun v hv => h v (by simp [Proposition.contains, hv])
      exact iff_congr ha hb
  | quantified q v domain p m ih =>
      refine satisfies_quantified_congr (within_congr fun w hw => h w ?_) fun d =>
        ih fun w hw => ?_
      · rw [Proposition.contains, hw, Bool.true_or]
      · by_cases hwv : w = v
        · rw [hwv, Function.update_self, Function.update_self]
        · rw [Function.update_of_ne hwv, Function.update_of_ne hwv]
          apply h w
          simp [Proposition.contains, Term.occursIn, hwv, hw]
  | contradiction m => exact Iff.rfl

/-- The value of a variable that does not occur does not matter. -/
theorem value_update_of_not_occursIn {v : Variable} {t : Term}
    (h : (Term.var v).occursIn t = false) (d : D) :
    I.value (Function.update ρ v d) t = I.value ρ t := by
  refine value_congr fun w hw => Function.update_of_ne ?_ _ _
  rintro rfl
  exact absurd hw (by simp [h])

theorem satisfies_update_of_not_contains {v : Variable} {p : Proposition}
    (h : p.contains (.var v) = false) (d : D) :
    I.Satisfies (Function.update ρ v d) p ↔ I.Satisfies ρ p := by
  refine satisfies_congr fun w hw => Function.update_of_ne ?_ _ _
  rintro rfl
  exact absurd hw (by simp [h])

@[simp] theorem satisfies_strip (p : Proposition) : I.Satisfies ρ p.strip ↔ I.Satisfies ρ p := by
  cases p <;> exact Iff.rfl

theorem map_satisfies_same {ps qs : List Proposition} (h : Proposition.sameList ps qs = true)
    (ih : ∀ p ∈ ps, ∀ q, p.same q = true → (I.Satisfies ρ p ↔ I.Satisfies ρ q)) :
    ps.map (I.Satisfies ρ) = qs.map (I.Satisfies ρ) := by
  induction ps generalizing qs with
  | nil =>
      cases qs with
      | nil => rfl
      | cons q qs => simp [Proposition.sameList] at h
  | cons p ps ihs =>
      cases qs with
      | nil => simp [Proposition.sameList] at h
      | cons q qs =>
          simp only [Proposition.sameList, Bool.and_eq_true] at h
          have hrest := ihs h.2 fun p hp => ih p (by simp [hp])
          rw [List.map_cons, List.map_cons, propext (ih p (by simp) q h.1), hrest]

/-- Marks do not affect truth. -/
theorem satisfies_same {p q : Proposition} (h : p.same q = true) :
    I.Satisfies ρ p ↔ I.Satisfies ρ q := by
  induction p using Proposition.inductionOn generalizing q ρ with
  | relation name args m =>
      cases q with
      | relation name' args' m' =>
          simp only [Proposition.same, Bool.and_eq_true, beq_iff_eq] at h
          rw [Satisfies, Satisfies, h.1, h.2]
      | _ => simp [Proposition.same] at h
  | not p m ih =>
      cases q with
      | not q m' => exact not_congr (ih h)
      | _ => simp [Proposition.same] at h
  | junction c ps m ih =>
      cases q with
      | junction d qs m' =>
          simp only [Proposition.same, Bool.and_eq_true, beq_iff_eq] at h
          obtain ⟨rfl, hmembers⟩ := h
          exact satisfies_junction_congr (map_satisfies_same hmembers fun p hp q hq => ih p hp hq)
      | _ => simp [Proposition.same] at h
  | implies a b m iha ihb =>
      cases q with
      | implies a' b' m' =>
          simp only [Proposition.same, Bool.and_eq_true] at h
          exact imp_congr (iha h.1) (ihb h.2)
      | _ => simp [Proposition.same] at h
  | iff a b m iha ihb =>
      cases q with
      | iff a' b' m' =>
          simp only [Proposition.same, Bool.and_eq_true] at h
          exact iff_congr (iha h.1) (ihb h.2)
      | _ => simp [Proposition.same] at h
  | quantified k v domain p m ih =>
      cases q with
      | quantified k' w domain' q m' =>
          simp only [Proposition.same, Bool.and_eq_true, beq_iff_eq] at h
          obtain ⟨⟨⟨rfl, rfl⟩, rfl⟩, hbody⟩ := h
          exact satisfies_quantified_congr (fun _ => Iff.rfl) fun d => ih hbody
      | _ => simp [Proposition.same] at h
  | contradiction m =>
      cases q with
      | contradiction m' => exact Iff.rfl
      | _ => simp [Proposition.same] at h

end Congruence

end Interpretation

end Entailment
