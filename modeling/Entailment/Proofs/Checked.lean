import Entailment.Proofs.Equivalence
import Entailment.Proposition.Checked
import Mathlib.Data.List.Basic

/-!
# Checks that never fail

For the operations that deductions use to compare, unify and rewrite propositions, checking what
they touch makes no difference: they agree with the plain operations on all propositions and paths.
The constructors do break down, and are here with what they need in order not to.
-/
namespace Entailment

namespace Checked

section Lists
variable {α : Type}

theorem item_of_getElem? {xs : List α} {i : Nat} {x : α} (h : xs[i]? = some x) :
    item xs i = pure x := by
  rw [item, h]

@[simp] theorem item_zero (x : α) (xs : List α) : item (x :: xs) 0 = pure x := rfl

theorem item_drop {xs ys : List α} {i : Nat} {y : α} (h : xs.drop i = y :: ys) :
    item xs i = pure y ∧ xs.drop (i + 1) = ys := by
  constructor
  · apply item_of_getElem?
    rw [← List.head?_drop, h, List.head?_cons]
  · rw [← List.drop_drop, h]
    rfl

theorem without_of_lt {xs : List α} {i : Nat} (h : i < xs.length) :
    without xs i = pure (xs.eraseIdx i) := by
  rw [without, item_of_getElem? (List.getElem?_eq_getElem h), pure_bind]

@[simp] theorem position_pure (test : α → Bool) (xs : List α) :
    position (fun x => pure (test x)) xs = pure (xs.findIdx? test) := by
  induction xs with
  | nil => rfl
  | cons x xs ih =>
      rw [position, ih, List.findIdx?_cons, pure_bind, pure_bind]
      cases test x <;> rfl

end Lists

section Parts

section Forms
variable (a b : Proposition) (m : Option FactId)

@[simp] theorem kind_relation (name : String) (args : List Term) :
    (Proposition.relation name args m).kind = .relation := rfl
@[simp] theorem kind_not : (Proposition.not a m).kind = .not := rfl
@[simp] theorem kind_junction (c : Connective) (ps : List Proposition) :
    (Proposition.junction c ps m).kind = c.kind := rfl
@[simp] theorem kind_implies : (Proposition.implies a b m).kind = .implies := rfl
@[simp] theorem kind_iff : (Proposition.iff a b m).kind = .iff := rfl
@[simp] theorem kind_quantified (q : Quantifier) (v : Variable) (domain : Option Term) :
    (Proposition.quantified q v domain a m).kind = q.kind domain := rfl
@[simp] theorem kind_contradiction : (Proposition.contradiction m).kind = .contradiction := rfl
@[simp] theorem part_not : part (.not a m) 0 = pure a := rfl
@[simp] theorem part_implies_zero : part (.implies a b m) 0 = pure a := rfl
@[simp] theorem part_implies_one : part (.implies a b m) 1 = pure b := rfl
@[simp] theorem part_iff_zero : part (.iff a b m) 0 = pure a := rfl
@[simp] theorem part_iff_one : part (.iff a b m) 1 = pure b := rfl
@[simp] theorem part_quantified (q : Quantifier) (v : Variable) (domain : Option Term) :
    part (.quantified q v domain a m) 0 = pure a := rfl
@[simp] theorem lhs_relation (name : String) (l r : Term) :
    lhs (.relation name [l, r] m) = pure l := rfl
@[simp] theorem rhs_relation (name : String) (l r : Term) :
    rhs (.relation name [l, r] m) = pure r := rfl

end Forms

theorem junction?_map_some (c : Connective) {ps : List Proposition} (h : 2 ≤ ps.length) :
    Proposition.junction? c (ps.map some) = .ok (.junction c ps) := by
  have hany : (ps.map some).any Option.isNone = false := by simp
  simp only [Proposition.junction?, List.length_map, Nat.not_lt.mpr h, hany, List.filterMap_map,
    if_false, Bool.false_eq_true]
  rw [Function.id_comp, List.filterMap_some]

theorem junction_map_some (c : Connective) {ps : List Proposition} (h : 2 ≤ ps.length) :
    junction c (ps.map some) = pure (.junction c ps) := by
  rw [junction, junction?_map_some c h]
  rfl

theorem join_and (first : Proposition) (rest : List Proposition) :
    join .and (first :: rest) = pure (.conjunction first rest) := by
  cases rest with
  | nil => rfl
  | cons p ps => exact junction_map_some .and (by simp)

theorem join_or (first : Proposition) (rest : List Proposition) :
    join .or (first :: rest) = pure (.disjunction first rest) := by
  cases rest with
  | nil => rfl
  | cons p ps => exact junction_map_some .or (by simp)

theorem quantified_of_unbound (q : Quantifier) {v : Variable} {body : Proposition}
    (h : body.binds v = false) :
    quantified q (some v) none body = pure (.quantified q v none body) := by
  simp only [quantified, Proposition.quantified?, h, Bool.false_eq_true, if_false]
  rfl

theorem quantified_of_unbound_in (q : Quantifier) {v : Variable} {set : Term} {body : Proposition}
    (h : body.binds v = false) (hset : (Term.var v).occursIn set = false) :
    quantified q (some v) (some set) body = pure (.quantified q v (some set) body) := by
  simp only [quantified, Proposition.quantified?, h, hset, Bool.false_eq_true, if_false]
  rfl

end Parts

section Equality

theorem equalList_of_length_ne {ps qs : List Proposition} (h : ps.length ≠ qs.length) :
    Proposition.equalList ps qs = false := by
  induction ps generalizing qs with
  | nil =>
      cases qs with
      | nil => exact absurd rfl h
      | cons q qs => rfl
  | cons p ps ih =>
      cases qs with
      | nil => rfl
      | cons q qs =>
          have hrest : ps.length ≠ qs.length := fun heq => h (congrArg (· + 1) heq)
          rw [Proposition.equalList, ih hrest, Bool.and_false]

/-- What a proposition of a given kind looks like. -/
def HasForm : Kind → Proposition → Prop
  | .relation, p => ∃ name args m, p = .relation name args m
  | .not, p => ∃ a m, p = .not a m
  | .and, p => ∃ ps m, p = .junction .and ps m
  | .or, p => ∃ ps m, p = .junction .or ps m
  | .exor, p => ∃ ps m, p = .junction .exor ps m
  | .implies, p => ∃ a b m, p = .implies a b m
  | .iff, p => ∃ a b m, p = .iff a b m
  | .all, p => ∃ v a m, p = .quantified .all v none a m
  | .allIn, p => ∃ v set a m, p = .quantified .all v (some set) a m
  | .exist, p => ∃ v a m, p = .quantified .exist v none a m
  | .existIn, p => ∃ v set a m, p = .quantified .exist v (some set) a m
  | .contradiction, p => ∃ m, p = .contradiction m

theorem hasForm {k : Kind} {p : Proposition} (h : p.kind = k) : HasForm k p := by
  subst h
  cases p with
  | junction c ps m => cases c <;> exact ⟨ps, m, rfl⟩
  | quantified q v domain a m =>
      cases q <;> cases domain
      · exact ⟨v, a, m, rfl⟩
      · exact ⟨v, _, a, m, rfl⟩
      · exact ⟨v, a, m, rfl⟩
      · exact ⟨v, _, a, m, rfl⟩
  | relation name args m => exact ⟨name, args, m, rfl⟩
  | not a m => exact ⟨a, m, rfl⟩
  | implies a b m => exact ⟨a, b, m, rfl⟩
  | iff a b m => exact ⟨a, b, m, rfl⟩
  | contradiction m => exact ⟨m, rfl⟩

theorem kind_ne (k : Kind) {p : Proposition} (h : ¬HasForm k p) : p.kind ≠ k := mt hasForm h

theorem sameForm_iff {p q : Proposition} :
    sameForm p q = true ↔ q.kind = p.kind ∧ p.children.length = q.children.length := by
  rw [sameForm, Bool.and_eq_true, beq_iff_eq, beq_iff_eq, eq_comm (a := p.kind)]

theorem sameForm_junction {c : Connective} {ps : List Proposition} {m : Option FactId}
    {q : Proposition} (h : sameForm (.junction c ps m) q = true) :
    ∃ qs m', q = .junction c qs m' ∧ ps.length = qs.length := by
  obtain ⟨hkind, hlength⟩ := sameForm_iff.mp h
  have hform := hasForm hkind
  cases c <;> obtain ⟨qs, m', rfl⟩ := hform <;> exact ⟨qs, m', rfl, hlength⟩

theorem sameForm_quantified {k : Quantifier} {v : Variable} {domain : Option Term}
    {p : Proposition} {m : Option FactId} {q : Proposition}
    (h : sameForm (.quantified k v domain p m) q = true) :
    ∃ w set o m', q = .quantified k w set o m' := by
  have hform := hasForm (sameForm_iff.mp h).1
  cases k <;> cases domain
  · obtain ⟨w, o, m', rfl⟩ := hform
    exact ⟨w, _, o, m', rfl⟩
  · obtain ⟨w, set, o, m', rfl⟩ := hform
    exact ⟨w, _, o, m', rfl⟩
  · obtain ⟨w, o, m', rfl⟩ := hform
    exact ⟨w, _, o, m', rfl⟩
  · obtain ⟨w, set, o, m', rfl⟩ := hform
    exact ⟨w, _, o, m', rfl⟩

theorem sameForm_of_equal {p q : Proposition} (h : p.equal q = true) : sameForm p q = true := by
  cases p with
  | junction c ps m =>
      cases q with
      | junction d qs m' =>
          rw [Proposition.equal, Bool.and_eq_true, beq_iff_eq] at h
          have hlength : ps.length = qs.length := by
            by_contra hne
            rw [equalList_of_length_ne hne] at h
            exact Bool.false_ne_true h.2
          exact sameForm_iff.mpr ⟨by rw [h.1]; rfl, hlength⟩
      | _ => simp [Proposition.equal] at h
  | quantified k v domain p m =>
      cases q with
      | quantified k' w domain' q m' =>
          simp only [Proposition.equal, Bool.and_eq_true, beq_iff_eq] at h
          exact sameForm_iff.mpr ⟨by rw [h.1.1, h.1.2]; rfl, rfl⟩
      | _ => simp [Proposition.equal] at h
  | _ => cases q <;> first | rfl | simp [Proposition.equal] at h

theorem equal_of_sameForm_eq_false {p q : Proposition} (h : sameForm p q = false) :
    p.equal q = false := by
  cases hequal : p.equal q with
  | false => rfl
  | true => exact absurd (sameForm_of_equal hequal) (by simp [h])

mutual

/-- Comparing propositions never looks for a part that is not there. -/
theorem equal_eq_pure : ∀ p q : Proposition, equal p q = pure (p.equal q)
  | .relation n as m, q => by
      cases q with
      | junction c qs m' => cases c <;> rfl
      | quantified k v domain q m' => cases k <;> cases domain <;> rfl
      | _ => rfl
  | .not p m, q => by
      cases h : sameForm (.not p m) q with
      | false => simp [equal, h, equal_of_sameForm_eq_false h]
      | true =>
          obtain ⟨o, m', rfl⟩ := hasForm (sameForm_iff.mp h).1
          simp [equal, h, equal_eq_pure p, Proposition.equal]
  | .junction c ps m, q => by
      cases h : sameForm (.junction c ps m) q with
      | false => simp [equal, h, equal_of_sameForm_eq_false h]
      | true =>
          obtain ⟨qs, m', rfl, hlength⟩ := sameForm_junction h
          have hmembers := equalFrom_eq_pure ps qs 0 (by simpa using hlength)
          simp [equal, h, Proposition.children, hmembers, Proposition.equal]
  | .implies a b m, q => by
      cases h : sameForm (.implies a b m) q with
      | false => simp [equal, h, equal_of_sameForm_eq_false h]
      | true =>
          obtain ⟨c, d, m', rfl⟩ := hasForm (sameForm_iff.mp h).1
          simp only [equal, h, Proposition.equal, if_true, part_implies_zero, part_implies_one,
            pure_bind, equal_eq_pure a, equal_eq_pure b]
          cases a.equal c <;> rfl
  | .iff a b m, q => by
      cases h : sameForm (.iff a b m) q with
      | false => simp [equal, h, equal_of_sameForm_eq_false h]
      | true =>
          obtain ⟨c, d, m', rfl⟩ := hasForm (sameForm_iff.mp h).1
          simp only [equal, h, Proposition.equal, if_true, part_iff_zero, part_iff_one, pure_bind,
            equal_eq_pure a, equal_eq_pure b]
          cases a.equal c <;> rfl
  | .quantified k v domain p m, q => by
      cases h : sameForm (.quantified k v domain p m) q with
      | false => simp [equal, h, equal_of_sameForm_eq_false h]
      | true =>
          obtain ⟨w, set, o, m', rfl⟩ := sameForm_quantified h
          simp only [equal, h, Proposition.equal, if_true, part_quantified, pure_bind,
            equal_eq_pure p, domainOf, beq_self_eq_true, Bool.true_and]
          cases domain == set <;> rfl
  | .contradiction m, q => by
      cases q with
      | junction c qs m' => cases c <;> rfl
      | quantified k v domain q m' => cases k <;> cases domain <;> rfl
      | _ => rfl

theorem equalFrom_eq_pure : ∀ (ps qs : List Proposition) (i : Nat),
    ps.length = (qs.drop i).length →
    equalFrom qs i ps = pure (Proposition.equalList ps (qs.drop i))
  | [], qs, i, h => by
      rw [List.eq_nil_of_length_eq_zero h.symm]
      rfl
  | p :: ps, qs, i, h => by
      cases hdrop : qs.drop i with
      | nil => simp [hdrop] at h
      | cons q rest =>
          obtain ⟨hitem, hrest⟩ := item_drop hdrop
          have hlength : ps.length = (qs.drop (i + 1)).length := by
            rw [hrest]
            simpa [hdrop] using h
          simp only [equalFrom, hitem, pure_bind, equal_eq_pure p,
            equalFrom_eq_pure ps qs (i + 1) hlength, hrest, Proposition.equalList]
          cases p.equal q <;> rfl

end

end Equality

section Unification

theorem terms_of_length_ne (allowed : Bindable) (binders : Binders) (σ : Substitution)
    {as bs : List Term} (h : as.length ≠ bs.length) :
    Unify.terms allowed binders σ as bs = none := by
  induction as generalizing σ bs with
  | nil =>
      cases bs with
      | nil => exact absurd rfl h
      | cons b bs => rfl
  | cons a as ih =>
      cases bs with
      | nil => rfl
      | cons b bs =>
          have hrest : as.length ≠ bs.length := fun heq => h (congrArg (· + 1) heq)
          rw [Unify.terms]
          split
          next τ _ => exact ih τ hrest
          next => rfl

theorem members_of_length_ne (allowed : Bindable) (binders : Binders) (σ : Substitution)
    {ps qs : List Proposition} (h : ps.length ≠ qs.length) :
    Unify.members allowed binders σ ps qs = none := by
  induction ps generalizing σ qs with
  | nil =>
      cases qs with
      | nil => exact absurd rfl h
      | cons q qs => rfl
  | cons p ps ih =>
      cases qs with
      | nil => rfl
      | cons q qs =>
          have hrest : ps.length ≠ qs.length := fun heq => h (congrArg (· + 1) heq)
          rw [Unify.members]
          split
          next τ _ => exact ih τ hrest
          next => rfl

theorem proposition_of_sameForm_eq_false (allowed : Bindable) (binders : Binders)
    (σ : Substitution) {p q : Proposition} (h : sameForm p q = false) :
    Unify.proposition allowed binders σ p q = none := by
  cases p with
  | junction c ps m =>
      cases q with
      | junction d qs m' =>
          rw [Unify.proposition]
          split
          next heq =>
            subst heq
            have hlength : ps.length ≠ qs.length := by
              simpa [sameForm, Proposition.kind, Proposition.children] using h
            exact members_of_length_ne allowed binders σ hlength
          next => rfl
      | _ => rfl
  | quantified k v domain p m =>
      cases q with
      | quantified k' w domain' q m' =>
          rw [Unify.proposition]
          split
          next heq =>
            subst heq
            cases k <;> cases domain <;> cases domain' <;> first | rfl | cases h
          next => rfl
      | _ => rfl
  | _ => cases q <;> first | rfl | cases h

mutual

theorem unifyTerm_eq_pure (allowed : Bindable) (binders : Binders) :
    ∀ (σ : Substitution) (a b : Term),
      unifyTerm allowed binders σ a b = pure (Unify.term allowed binders σ a b)
  | σ, .app f as, b => by
      cases b with
      | app g bs =>
          rw [unifyTerm, Unify.term]
          by_cases hhead : f = g
          · by_cases hlength : as.length = bs.length
            · simp [hhead, hlength, unifyTerms_eq_pure allowed binders bs 0 σ as (by simpa)]
            · simp [hhead, hlength, terms_of_length_ne allowed binders σ hlength]
          · simp [hhead]
      | _ => rfl
  | σ, .var v, b => rfl
  | σ, .const name, b => rfl
  | σ, .num n, b => rfl

theorem unifyTerms_eq_pure (allowed : Bindable) (binders : Binders) (bs : List Term) :
    ∀ (i : Nat) (σ : Substitution) (as : List Term), as.length = (bs.drop i).length →
      unifyTerms allowed binders bs i σ as = pure (Unify.terms allowed binders σ as (bs.drop i))
  | i, σ, [], h => by
      rw [List.eq_nil_of_length_eq_zero h.symm]
      rfl
  | i, σ, a :: as, h => by
      cases hdrop : bs.drop i with
      | nil => simp [hdrop] at h
      | cons b rest =>
          obtain ⟨hitem, hrest⟩ := item_drop hdrop
          have hlength : as.length = (bs.drop (i + 1)).length := by
            rw [hrest]
            simpa [hdrop] using h
          simp only [unifyTerms, hitem, pure_bind, unifyTerm_eq_pure allowed binders σ a b,
            Unify.terms]
          cases Unify.term allowed binders σ a b with
          | none => rfl
          | some τ =>
              simp only [unifyTerms_eq_pure allowed binders bs (i + 1) τ as hlength, hrest]

end

theorem unifyDomain_eq_pure (allowed : Bindable) (binders : Binders) (σ : Substitution)
    (s t : Option Term) :
    unifyDomain allowed binders σ s t = pure (Unify.domain allowed binders σ s t) := by
  cases s <;> cases t <;> first | rfl | exact unifyTerm_eq_pure allowed binders σ _ _

mutual

/-- Unifying propositions never looks for a part or an argument that is not there. -/
theorem unify_eq_pure (allowed : Bindable) :
    ∀ (binders : Binders) (σ : Substitution) (p q : Proposition),
      unify allowed binders σ p q = pure (Unify.proposition allowed binders σ p q)
  | binders, σ, .relation n as m, q => by
      cases q with
      | relation n' bs m' =>
          rw [unify, Unify.proposition]
          by_cases hname : n = n'
          · by_cases hlength : as.length = bs.length
            · simp [hname, hlength, unifyTerms_eq_pure allowed binders bs 0 σ as (by simpa)]
            · simp [hname, hlength, terms_of_length_ne allowed binders σ hlength]
          · simp [hname]
      | junction c qs m' => cases c <;> rfl
      | quantified k v domain q m' => cases k <;> cases domain <;> rfl
      | _ => rfl
  | binders, σ, .not p m, q => by
      cases h : sameForm (.not p m) q with
      | false => simp [unify, h, proposition_of_sameForm_eq_false allowed binders σ h]
      | true =>
          obtain ⟨o, m', rfl⟩ := hasForm (sameForm_iff.mp h).1
          simp [unify, h, unify_eq_pure allowed binders σ p, Unify.proposition]
  | binders, σ, .junction c ps m, q => by
      cases h : sameForm (.junction c ps m) q with
      | false => simp [unify, h, proposition_of_sameForm_eq_false allowed binders σ h]
      | true =>
          obtain ⟨qs, m', rfl, hlength⟩ := sameForm_junction h
          have hmembers := unifyFrom_eq_pure allowed binders qs 0 σ ps (by simpa using hlength)
          simp [unify, h, Proposition.children, hmembers, Unify.proposition]
  | binders, σ, .implies a b m, q => by
      cases h : sameForm (.implies a b m) q with
      | false => simp [unify, h, proposition_of_sameForm_eq_false allowed binders σ h]
      | true =>
          obtain ⟨c, d, m', rfl⟩ := hasForm (sameForm_iff.mp h).1
          simp only [unify, h, Unify.proposition, if_true, part_implies_zero, part_implies_one,
            pure_bind, unify_eq_pure allowed binders σ a]
          cases Unify.proposition allowed binders σ a c with
          | none => rfl
          | some τ => exact unify_eq_pure allowed binders τ b d
  | binders, σ, .iff a b m, q => by
      cases h : sameForm (.iff a b m) q with
      | false => simp [unify, h, proposition_of_sameForm_eq_false allowed binders σ h]
      | true =>
          obtain ⟨c, d, m', rfl⟩ := hasForm (sameForm_iff.mp h).1
          simp only [unify, h, Unify.proposition, if_true, part_iff_zero, part_iff_one, pure_bind,
            unify_eq_pure allowed binders σ a]
          cases Unify.proposition allowed binders σ a c with
          | none => rfl
          | some τ => exact unify_eq_pure allowed binders τ b d
  | binders, σ, .quantified k v domain p m, q => by
      cases q with
      | quantified k' w domain' q m' =>
          rw [unify, Unify.proposition]
          split
          next =>
            rw [unifyDomain_eq_pure, pure_bind]
            cases Unify.domain allowed binders σ domain domain' with
            | none => rfl
            | some τ => exact unify_eq_pure allowed (binders.push v w) τ p q
          next => rfl
      | junction c qs m' => cases k <;> cases domain <;> cases c <;> rfl
      | _ => cases k <;> cases domain <;> rfl
  | binders, σ, .contradiction m, q => by
      cases q with
      | junction c qs m' => cases c <;> rfl
      | quantified k v domain q m' => cases k <;> cases domain <;> rfl
      | _ => rfl

theorem unifyFrom_eq_pure (allowed : Bindable) (binders : Binders) (qs : List Proposition) :
    ∀ (i : Nat) (σ : Substitution) (ps : List Proposition), ps.length = (qs.drop i).length →
      unifyFrom allowed binders qs i σ ps =
        pure (Unify.members allowed binders σ ps (qs.drop i))
  | i, σ, [], h => by
      rw [List.eq_nil_of_length_eq_zero h.symm]
      rfl
  | i, σ, p :: ps, h => by
      cases hdrop : qs.drop i with
      | nil => simp [hdrop] at h
      | cons q rest =>
          obtain ⟨hitem, hrest⟩ := item_drop hdrop
          have hlength : ps.length = (qs.drop (i + 1)).length := by
            rw [hrest]
            simpa [hdrop] using h
          simp only [unifyFrom, hitem, pure_bind, unify_eq_pure allowed binders σ p q,
            Unify.members]
          cases Unify.proposition allowed binders σ p q with
          | none => rfl
          | some τ =>
              simp only [unifyFrom_eq_pure allowed binders qs (i + 1) τ ps hlength, hrest]

end

end Unification

section Replacement

theorem below_eq_pure (i : Nat) {paths : List Path} (h : ∀ path ∈ paths, path ≠ []) :
    below i paths = pure (Path.below i paths) := by
  unfold below Path.below
  induction paths with
  | nil => rfl
  | cons path paths ih =>
      obtain ⟨hpath, hpaths⟩ := List.forall_mem_cons.mp h
      cases path with
      | nil => exact absurd rfl hpath
      | cons j rest =>
          rw [List.filterMapM_cons, ih hpaths, List.filterMap_cons, item_zero, pure_bind]
          split <;> simp_all [tail]

theorem ne_nil_of_not_everywhere {paths : List Path} (h : ¬Path.everywhere paths = true) :
    ∀ path ∈ paths, path ≠ [] := by
  rintro path hpath rfl
  exact h (by simp [Path.everywhere, hpath])

theorem into_eq_pure (i : Nat) (paths : List Path) : into i paths = pure (Path.into i paths) := by
  unfold into Path.into
  split
  next => rfl
  next heverywhere =>
    rw [below_eq_pure i (ne_nil_of_not_everywhere heverywhere)]
    cases Path.below i paths <;> rfl

theorem modifyArg_eq_pure (i : Int) {f : Term → Checked Term} {g : Term → Term}
    (h : ∀ t, f t = pure (g t)) (args : List Term) :
    modifyArg i f args = pure (Term.modifyArg i g args) := by
  unfold modifyArg Term.modifyArg
  by_cases hrange : 0 ≤ i ∧ i < args.length
  · have hbound : i.toNat < args.length := by omega
    rw [if_pos hrange, if_neg (Int.not_lt.mpr hrange.1), List.modify_eq_set_getElem?,
      item_of_getElem? (List.getElem?_eq_getElem hbound), List.getElem?_eq_getElem hbound,
      pure_bind, h, pure_bind]
    rfl
  · rw [if_neg hrange]
    split
    next => rfl
    next hnonneg =>
      have hbound : args.length ≤ i.toNat := by omega
      rw [List.modify_eq_set_getElem?, List.getElem?_eq_none hbound]
      rfl

theorem replaceAt_eq_pure (old new : Term) (path : Path) (t : Term) :
    replaceAt old new path t = pure (Term.replaceAt old new path t) := by
  induction path generalizing t with
  | nil => rfl
  | cons i path ih =>
      cases t with
      | app head args => rw [replaceAt, Term.replaceAt, modifyArg_eq_pure i ih, pure_bind]
      | _ => rfl

theorem replaceArgs_eq_pure (old new : Term) (paths : List Path) (args : List Term) :
    replaceArgs old new paths args = pure (Proposition.replaceArgs old new paths args) := by
  unfold replaceArgs Proposition.replaceArgs
  split
  next => rfl
  next heverywhere =>
    have hne := ne_nil_of_not_everywhere heverywhere
    clear heverywhere
    induction paths generalizing args with
    | nil => rfl
    | cons path paths ih =>
        obtain ⟨hpath, hpaths⟩ := List.forall_mem_cons.mp hne
        cases path with
        | nil => exact absurd rfl hpath
        | cons j rest =>
            have hstep := modifyArg_eq_pure j (replaceAt_eq_pure old new rest) args
            rw [List.foldlM_cons, List.foldl_cons, item_zero, pure_bind, tail, pure_bind, hstep,
              pure_bind, ih _ hpaths]

theorem follow_eq_pure (paths : List Path) (i : Nat) (p : Proposition)
    {f : List Path → Checked Proposition} {g : List Path → Proposition}
    (h : ∀ inner, f inner = pure (g inner)) :
    follow paths i p f = pure (match Path.into i paths with
      | some inner => g inner
      | none => p) := by
  rw [follow, into_eq_pure, pure_bind]
  cases Path.into i paths with
  | none => rfl
  | some inner => exact h inner

mutual

/-- Replacing never follows a path further than it goes, nor to where nothing is. -/
theorem replace_eq_pure (old new : Term) : ∀ (paths : List Path) (p : Proposition),
    replace old new paths p = pure (p.replace old new paths)
  | paths, .relation name args m => by
      rw [replace, replaceArgs_eq_pure, pure_bind, Proposition.replace]
  | paths, .not p m => by
      rw [replace, follow_eq_pure paths 0 p fun inner => replace_eq_pure old new inner p, pure_bind]
      rfl
  | paths, .junction c ps m => by
      rw [replace, replaceFrom_eq_pure old new paths 0 ps, pure_bind, Proposition.replace]
  | paths, .implies a b m => by
      rw [replace, follow_eq_pure paths 0 a fun inner => replace_eq_pure old new inner a,
        follow_eq_pure paths 1 b fun inner => replace_eq_pure old new inner b, pure_bind, pure_bind]
      rfl
  | paths, .iff a b m => by
      rw [replace, follow_eq_pure paths 0 a fun inner => replace_eq_pure old new inner a,
        follow_eq_pure paths 1 b fun inner => replace_eq_pure old new inner b, pure_bind, pure_bind]
      rfl
  | paths, .quantified q v domain p m => by
      rw [replace, Proposition.replace, replace_eq_pure old new paths p]
      split <;> rfl
  | paths, .contradiction m => rfl

theorem replaceFrom_eq_pure (old new : Term) (paths : List Path) :
    ∀ (i : Nat) (ps : List Proposition),
      replaceFrom old new paths i ps = pure (Proposition.replaceMembers old new paths i ps)
  | i, [] => rfl
  | i, p :: ps => by
      rw [replaceFrom, follow_eq_pure paths i p fun inner => replace_eq_pure old new inner p,
        replaceFrom_eq_pure old new paths (i + 1) ps, pure_bind, pure_bind]
      rfl

end

end Replacement

section Clauses

theorem discard_eq_pure (n : Proposition) (ps : List Proposition) :
    discard n ps = pure (ps.filter fun d => !d.equal n) := by
  unfold discard
  induction ps with
  | nil => rfl
  | cons p ps ih =>
      rw [List.filterMapM_cons, ih, equal_eq_pure, pure_bind, List.filter_cons]
      cases p.equal n <;> rfl

theorem negates_eq_pure (p q : Proposition) :
    negates p q = pure (match p with
      | .not p' _ => p'.equal q
      | _ => false) := by
  cases p with
  | not a m => exact equal_eq_pure a q
  | junction c ps m => cases c <;> rfl
  | quantified k v domain a m => cases k <;> cases domain <;> rfl
  | _ => rfl

theorem complementary_eq_pure (p q : Proposition) :
    complementary p q = pure (Session.complementary p q) := by
  have hor : ∀ a b : Bool,
      (if a = true then pure true else pure b : Checked Bool) = pure (a || b) := by
    intro a b
    cases a <;> rfl
  rw [complementary, negates_eq_pure, negates_eq_pure, pure_bind]
  exact hor _ _

theorem clash_eq_pure (ls rs : List Proposition) :
    clash ls rs = pure (Session.clash? ls rs) := by
  unfold clash
  simp only [funext (complementary_eq_pure _), position_pure, pure_bind]
  exact List.findSomeM?_pure

theorem distinct_eq_pure (ps : List Proposition) : distinct ps = pure (Session.distinct ps) := by
  unfold distinct
  simp only [funext (equal_eq_pure _), List.anyM_pure, pure_bind, ← apply_ite pure]
  exact List.foldlM_pure

end Clauses

end Checked

end Entailment
