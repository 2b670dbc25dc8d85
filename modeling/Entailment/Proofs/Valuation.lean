import Entailment.Proofs.Justification

/-!
# Truth values of propositions

A valuation assigns truth values to relations and quantified propositions, and is extended to the
connectives. It need not know what a quantifier means; all that is asked of it is that propositions
which the deductions identify get the same value. The propositional rules preserve truth under
every valuation.
-/
namespace Entailment

namespace Proposition

mutual

@[simp] theorem equal_refl (p : Proposition) : p.equal p = true := by
  cases p with
  | relation name args m => simp [equal]
  | not p m => simp [equal, equal_refl p]
  | junction c ps m => simp [equal, equalList_refl ps]
  | implies a b m => simp [equal, equal_refl a, equal_refl b]
  | iff a b m => simp [equal, equal_refl a, equal_refl b]
  | quantified q v domain p m => simp [equal, equal_refl p]
  | contradiction m => rfl

theorem equalList_refl (ps : List Proposition) : equalList ps ps = true := by
  cases ps with
  | nil => rfl
  | cons p ps => simp [equalList, equal_refl p, equalList_refl ps]

end

theorem strip_equal (p : Proposition) : p.strip.equal p = true := by
  have hmark : p.strip.equal p = p.equal p := by
    cases p <;> simp [strip, withMark, equal]
  rw [hmark, equal_refl]

end Proposition

/-- The rules that deal with connectives alone. -/
def Rule.isPropositional : Rule → Bool
  | .modusPonens | .modusTollens | .hypotheticalSyllogism | .followedFrom | .conjunctionIntro
  | .conjunctionElim | .disjunctionIntro | .resolve | .unitResolve | .resolveClauses | .exorElim
  | .doubleNegation | .contrapositive | .iffIntro | .iffElim | .contradicts
  | .assumptionsCannotAllHold => true
  | _ => false

/-- What a connective says of the truth values of its members. -/
def Connective.Holds : Connective → List Prop → Prop
  | .and, ps => ∀ p ∈ ps, p
  | .or, ps => ∃ p ∈ ps, p
  | .exor, ps => ∃! i : Nat, ∃ p, ps[i]? = some p ∧ p

/-- Truth values for the propositions that are not put together by connectives. -/
structure Valuation where
  atom : Proposition → Prop
  respects : ∀ {p q : Proposition}, p.equal q = true → (atom p ↔ atom q)

namespace Valuation

mutual

def Satisfies (V : Valuation) : Proposition → Prop
  | .relation name args m => V.atom (.relation name args m)
  | .not p _ => ¬Satisfies V p
  | .junction c ps _ => c.Holds (values V ps)
  | .implies a b _ => Satisfies V a → Satisfies V b
  | .iff a b _ => Satisfies V a ↔ Satisfies V b
  | .quantified q v domain p m => V.atom (.quantified q v domain p m)
  | .contradiction _ => False

def values (V : Valuation) : List Proposition → List Prop
  | [] => []
  | p :: ps => Satisfies V p :: values V ps

end

@[simp] theorem values_eq_map (V : Valuation) (ps : List Proposition) :
    V.values ps = ps.map V.Satisfies := by
  induction ps with
  | nil => rfl
  | cons p ps ih => simp [values, ih]

mutual

theorem satisfies_congr (V : Valuation) {p q : Proposition} (h : p.equal q = true) :
    V.Satisfies p ↔ V.Satisfies q := by
  cases p with
  | relation name args m =>
      cases q with
      | relation name' args' m' => exact V.respects h
      | _ => simp [Proposition.equal] at h
  | not p m =>
      cases q with
      | not q m' => exact not_congr (satisfies_congr V h)
      | _ => simp [Proposition.equal] at h
  | junction c ps m =>
      cases q with
      | junction d qs m' =>
          simp only [Proposition.equal, Bool.and_eq_true, beq_iff_eq] at h
          rw [Satisfies, Satisfies, h.1, values_congr V h.2]
      | _ => simp [Proposition.equal] at h
  | implies a b m =>
      cases q with
      | implies a' b' m' =>
          simp only [Proposition.equal, Bool.and_eq_true] at h
          exact imp_congr (satisfies_congr V h.1) (satisfies_congr V h.2)
      | _ => simp [Proposition.equal] at h
  | iff a b m =>
      cases q with
      | iff a' b' m' =>
          simp only [Proposition.equal, Bool.and_eq_true] at h
          exact iff_congr (satisfies_congr V h.1) (satisfies_congr V h.2)
      | _ => simp [Proposition.equal] at h
  | quantified k v domain p m =>
      cases q with
      | quantified k' v' domain' p' m' => exact V.respects h
      | _ => simp [Proposition.equal] at h
  | contradiction m =>
      cases q with
      | contradiction m' => exact Iff.rfl
      | _ => simp [Proposition.equal] at h

theorem values_congr (V : Valuation) {ps qs : List Proposition}
    (h : Proposition.equalList ps qs = true) : V.values ps = V.values qs := by
  cases ps with
  | nil =>
      cases qs with
      | nil => rfl
      | cons q qs => simp [Proposition.equalList] at h
  | cons p ps =>
      cases qs with
      | nil => simp [Proposition.equalList] at h
      | cons q qs =>
          simp only [Proposition.equalList, Bool.and_eq_true] at h
          rw [values, values, propext (satisfies_congr V h.1), values_congr V h.2]

end

@[simp] theorem satisfies_strip (V : Valuation) (p : Proposition) :
    V.Satisfies p.strip ↔ V.Satisfies p :=
  V.satisfies_congr p.strip_equal

section Connectives
variable (V : Valuation)

@[simp] theorem satisfies_not (p : Proposition) (m : Option FactId) :
    V.Satisfies (.not p m) ↔ ¬V.Satisfies p := by rw [Satisfies]

@[simp] theorem satisfies_implies (a b : Proposition) (m : Option FactId) :
    V.Satisfies (.implies a b m) ↔ (V.Satisfies a → V.Satisfies b) := by rw [Satisfies]

@[simp] theorem satisfies_iff (a b : Proposition) (m : Option FactId) :
    V.Satisfies (.iff a b m) ↔ (V.Satisfies a ↔ V.Satisfies b) := by rw [Satisfies]

@[simp] theorem satisfies_contradiction (m : Option FactId) :
    ¬V.Satisfies (.contradiction m) := by simp [Satisfies]

@[simp] theorem satisfies_and (ps : List Proposition) (m : Option FactId) :
    V.Satisfies (.junction .and ps m) ↔ ∀ p ∈ ps, V.Satisfies p := by
  rw [Satisfies, values_eq_map]
  exact List.forall_mem_map

@[simp] theorem satisfies_or (ps : List Proposition) (m : Option FactId) :
    V.Satisfies (.junction .or ps m) ↔ ∃ p ∈ ps, V.Satisfies p := by
  rw [Satisfies, values_eq_map]
  constructor
  · rintro ⟨_, hmem, hsat⟩
    obtain ⟨p, hp, rfl⟩ := List.mem_map.mp hmem
    exact ⟨p, hp, hsat⟩
  · rintro ⟨p, hp, hsat⟩
    exact ⟨_, List.mem_map_of_mem hp, hsat⟩

theorem satisfies_exor (ps : List Proposition) (m : Option FactId) :
    V.Satisfies (.junction .exor ps m) ↔ ∃! i : Nat, ∃ p, ps[i]? = some p ∧ V.Satisfies p := by
  rw [Satisfies, values_eq_map]
  refine existsUnique_congr fun i => ?_
  rw [List.getElem?_map]
  cases ps[i]? with
  | none => simp
  | some p =>
      constructor
      · rintro ⟨_, heq, hsat⟩
        cases heq
        exact ⟨p, rfl, hsat⟩
      · rintro ⟨_, heq, hsat⟩
        cases heq
        exact ⟨_, rfl, hsat⟩

/-- Where one alternative of an exclusive disjunction holds, no other one does. -/
theorem not_satisfies_of_exor {ps : List Proposition} {m : Option FactId} {p q : Proposition}
    {i : Nat} (h : V.Satisfies (.junction .exor ps m)) (hq : ps[i]? = some q)
    (hsat : V.Satisfies q) (hp : p ∈ ps.eraseIdx i) : ¬V.Satisfies p := by
  intro hother
  obtain ⟨j, hne, hj⟩ := List.mem_eraseIdx_iff_getElem?.mp hp
  obtain ⟨k, -, hunique⟩ := (V.satisfies_exor ps m).mp h
  have hik : i = k := hunique i ⟨q, hq, hsat⟩
  have hjk : j = k := hunique j ⟨p, hj, hother⟩
  omega

@[simp] theorem satisfies_conjunction (p : Proposition) (ps : List Proposition) :
    V.Satisfies (.conjunction p ps) ↔ ∀ q ∈ p :: ps, V.Satisfies q := by
  cases ps with
  | nil => simp [Proposition.conjunction]
  | cons q ps => simp [Proposition.conjunction]

@[simp] theorem satisfies_clause (ps : List Proposition) :
    V.Satisfies (.clause ps) ↔ ∃ p ∈ ps, V.Satisfies p := by
  cases ps with
  | nil => simp [Proposition.clause]
  | cons p ps =>
      cases ps with
      | nil => simp [Proposition.clause, Proposition.disjunction]
      | cons q ps => simp [Proposition.clause, Proposition.disjunction]

end Connectives

section Rules
variable {V : Valuation}

theorem not_satisfies_of_refutes {r : Proposition} {ns : List Proposition} (h : Refutes r ns)
    (hr : V.Satisfies r) : ∀ n ∈ ns, ¬V.Satisfies n := by
  cases h with
  | negation p m => simpa using hr
  | negations ps ns m hforall =>
      intro n hn
      rw [satisfies_and] at hr
      induction hforall with
      | nil => cases hn
      | cons hp _ ih =>
          obtain ⟨k, rfl⟩ := hp
          rcases List.mem_cons.mp hn with rfl | hn
          · exact (V.satisfies_not _ k).mp (hr _ (by simp))
          · exact ih (fun q hq => hr q (by simp [hq])) hn

theorem not_satisfies_of_refutes_all {rs : List Proposition} {ns : List (List Proposition)}
    (h : List.Forall₂ Refutes rs ns) (hrs : ∀ r ∈ rs, V.Satisfies r) :
    ∀ n ∈ ns.flatten, ¬V.Satisfies n := by
  induction h with
  | nil => simp
  | cons hr _ ih =>
      intro n hn
      rw [List.flatten_cons, List.mem_append] at hn
      rcases hn with hn | hn
      · exact not_satisfies_of_refutes hr (hrs _ (by simp)) n hn
      · exact ih (fun r hr => hrs r (by simp [hr])) n hn

theorem not_both_of_complementary {p q : Proposition} (h : Session.complementary p q = true)
    (hp : V.Satisfies p) : ¬V.Satisfies q := by
  intro hq
  unfold Session.complementary at h
  rw [Bool.or_eq_true] at h
  rcases h with h | h
  · cases p with
    | not p m => exact (V.satisfies_not p m).mp hp ((V.satisfies_congr h).mpr hq)
    | _ => simp at h
  · cases q with
    | not q m => exact (V.satisfies_not q m).mp hq ((V.satisfies_congr h).mpr hp)
    | _ => simp at h

theorem clash_complementary {ls rs : List Proposition} {i j : Nat}
    (h : Session.clash? ls rs = some (i, j)) :
    ∃ l r, ls[i]? = some l ∧ rs[j]? = some r ∧ Session.complementary l r = true := by
  unfold Session.clash? at h
  obtain ⟨⟨l, k⟩, hmem, hfound⟩ := List.exists_of_findSome?_eq_some h
  obtain ⟨j', hj, heq⟩ := Option.map_eq_some_iff.mp hfound
  obtain ⟨rfl, rfl⟩ := Prod.mk.inj heq
  have hl : ls[k]? = some l := List.mem_zipIdx_iff_getElem?.mp hmem
  obtain ⟨hlt, hcomplementary, -⟩ := List.findIdx?_eq_some_iff_getElem.mp hj
  exact ⟨l, rs[j'], hl, List.getElem?_eq_getElem hlt, hcomplementary⟩

theorem satisfies_literals (p : Proposition) :
    (∃ l ∈ Session.literals p, V.Satisfies l) ↔ V.Satisfies p := by
  unfold Session.literals
  split
  next members m => rw [satisfies_or]
  next => simp

/-- Leaving out repetitions changes nothing about what can be satisfied. -/
theorem satisfies_distinct {ps : List Proposition} {p : Proposition} (hp : p ∈ ps)
    (hsat : V.Satisfies p) : ∃ q ∈ Session.distinct ps, V.Satisfies q := by
  have hfold : ∀ acc : List Proposition, (∃ q ∈ acc ++ ps, V.Satisfies q) →
      ∃ q ∈ ps.foldl (fun acc p => if acc.any p.equal then acc else acc ++ [p]) acc,
        V.Satisfies q := by
    clear hp
    induction ps with
    | nil =>
        intro acc hacc
        simpa using hacc
    | cons first ps ih =>
        rintro acc ⟨q, hq, hqsat⟩
        rw [List.foldl_cons]
        apply ih _
        split
        next hany =>
          obtain ⟨r, hr, hequal⟩ := List.any_eq_true.mp hany
          rcases List.mem_append.mp hq with hq | hq
          · exact ⟨q, List.mem_append_left _ hq, hqsat⟩
          · rcases List.mem_cons.mp hq with rfl | hq
            · exact ⟨r, List.mem_append_left _ hr, (V.satisfies_congr hequal).mp hqsat⟩
            · exact ⟨q, List.mem_append_right _ hq, hqsat⟩
        next => exact ⟨q, by simpa using hq, hqsat⟩
  exact hfold [] ⟨p, by simpa using hp, hsat⟩

theorem satisfies_of_resolve {ps rs remaining : List Proposition} {ns : List (List Proposition)}
    {m : Option FactId} (hns : List.Forall₂ Refutes rs ns)
    (hremaining : remaining = ps.filter fun d => ns.flatten.all fun n => !d.equal n)
    (hps : V.Satisfies (.junction .or ps m)) (hrs : ∀ r ∈ rs, V.Satisfies r) :
    V.Satisfies (.clause remaining) := by
  have hrefuted := not_satisfies_of_refutes_all hns hrs
  obtain ⟨p, hp, hsat⟩ := (V.satisfies_or ps m).mp hps
  have hkept : p ∈ remaining := by
    rw [hremaining, List.mem_filter]
    refine ⟨hp, List.all_eq_true.mpr fun n hn => ?_⟩
    rw [Bool.not_eq_true', Bool.eq_false_iff]
    intro hequal
    exact hrefuted n hn ((V.satisfies_congr hequal).mp hsat)
  exact (V.satisfies_clause remaining).mpr ⟨p, hkept, hsat⟩

theorem satisfies_of_resolveClauses {p q : Proposition} {i j : Nat}
    (hclash : Session.clash? (Session.literals p) (Session.literals q) = some (i, j))
    (hp : V.Satisfies p) (hq : V.Satisfies q) :
    V.Satisfies (.clause (Session.distinct
      ((Session.literals p).eraseIdx i ++ (Session.literals q).eraseIdx j))) := by
  obtain ⟨l, r, hl, hr, hcomplementary⟩ := clash_complementary hclash
  obtain ⟨x, hx, hxsat⟩ := (satisfies_literals p).mpr hp
  obtain ⟨y, hy, hysat⟩ := (satisfies_literals q).mpr hq
  have hother : ∀ {z w : Proposition} {k : Nat} {zs : List Proposition}, z ∈ zs → zs[k]? = some w →
      V.Satisfies z → ¬V.Satisfies w → z ∈ zs.eraseIdx k := by
    intro z w k zs hz hw hzsat hwsat
    obtain ⟨n, hn⟩ := List.mem_iff_getElem?.mp hz
    refine List.mem_eraseIdx_iff_getElem?.mpr ⟨n, ?_, hn⟩
    rintro rfl
    rw [hn] at hw
    cases hw
    exact hwsat hzsat
  rw [satisfies_clause]
  by_cases hlsat : V.Satisfies l
  · have hrsat : ¬V.Satisfies r := not_both_of_complementary hcomplementary hlsat
    exact satisfies_distinct (List.mem_append_right _ (hother hy hr hysat hrsat)) hysat
  · exact satisfies_distinct (List.mem_append_left _ (hother hx hl hxsat hlsat)) hxsat

/-- The propositional rules preserve truth. -/
theorem satisfies_of_concludes {r : Rule} {ps : List Proposition} {p : Proposition}
    (h : Concludes r ps p) (hr : r.isPropositional = true) (hps : ∀ q ∈ ps, V.Satisfies q) :
    V.Satisfies p := by
  cases h with
  | modusPonens hequal =>
      simp only [List.forall_mem_cons, satisfies_implies] at hps
      exact hps.2.1 ((V.satisfies_congr hequal).mpr hps.1)
  | modusTollens hequal =>
      simp only [List.forall_mem_cons, satisfies_implies, satisfies_not] at hps ⊢
      intro ha
      exact hps.1 ((V.satisfies_congr hequal).mpr (hps.2.1 ha))
  | hypotheticalSyllogism hequal =>
      simp only [List.forall_mem_cons, satisfies_implies] at hps ⊢
      intro ha
      exact hps.2.1 ((V.satisfies_congr hequal).mp (hps.1 ha))
  | conjunctionIntro => exact (V.satisfies_and _ _).mpr hps
  | conjunctionElim hmem =>
      simp only [List.forall_mem_cons, satisfies_and] at hps
      exact hps.1 p hmem
  | disjunctionIntro =>
      simp only [List.forall_mem_cons] at hps
      exact (V.satisfies_or _ _).mpr ⟨_, by simp, hps.1⟩
  | resolve _ hns hremaining =>
      simp only [List.forall_mem_cons] at hps
      exact satisfies_of_resolve hns hremaining hps.1 hps.2
  | resolveClauses hclash hremaining =>
      simp only [List.forall_mem_cons] at hps
      rw [hremaining]
      exact satisfies_of_resolveClauses hclash hps.1 hps.2.1
  | exorElim hindex hnegated =>
      simp only [List.forall_mem_cons] at hps
      obtain ⟨hlt, hequal, -⟩ := List.findIdx?_eq_some_iff_getElem.mp hindex
      have hsat := (V.satisfies_congr hequal).mp hps.2.1
      rw [satisfies_conjunction, ← hnegated]
      intro q hq
      obtain ⟨c, hc, rfl⟩ := List.mem_map.mp hq
      exact V.not_satisfies_of_exor hps.1 (List.getElem?_eq_getElem hlt) hsat hc
  | doubleNegation =>
      simp only [List.forall_mem_cons, satisfies_not, not_not] at hps
      exact hps.1
  | contrapositive =>
      simp only [List.forall_mem_cons, satisfies_implies, satisfies_not] at hps ⊢
      exact mt hps.1
  | iffIntro ha hb =>
      simp only [List.forall_mem_cons, satisfies_implies, satisfies_iff] at hps ⊢
      refine ⟨hps.1, fun hbsat => ?_⟩
      exact (V.satisfies_congr ha).mpr (hps.2.1 ((V.satisfies_congr hb).mp hbsat))
  | iffForward =>
      simp only [List.forall_mem_cons, satisfies_iff, satisfies_implies] at hps ⊢
      exact hps.1.mp
  | iffBackward =>
      simp only [List.forall_mem_cons, satisfies_iff, satisfies_implies] at hps ⊢
      exact hps.1.mpr
  | contradicts hcomplementary =>
      simp only [List.forall_mem_cons] at hps
      exact absurd hps.2.1 (not_both_of_complementary hcomplementary hps.1)
  | _ => cases hr

end Rules

end Valuation

end Entailment
