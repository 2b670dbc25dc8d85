import Entailment.Audit
import Entailment.Proofs.Dependencies
import Mathlib.Data.List.Induction

/-!
# Auditing what still holds

An audit walks down from a statement that holds, and asks of every statement on the way that it
holds too, except below the closing of a scope. So it succeeds if nothing that holds was derived
from something that does not (`Upheld`). Retracting a scope is what endangers this. An entry that
takes over all the assumptions of its premises goes when they go. One that discharges assumptions
may stay when they go: it straddles the scope (`Straddles`). Nothing else can go wrong.
-/
namespace Entailment

/-- The rules whose conclusions are free of assumptions that their premises depend on. Closing a
scope, which audits know about, is not among them. -/
def Rule.discharges : Rule → Bool
  | .followedFrom | .assumptionsCannotAllHold => true
  | _ => false

theorem Rule.isPlain_iff {r : Rule} :
    r.isPlain = true ↔ r ≠ .assumption ∧ r ≠ .closeScope ∧ r.discharges = false := by
  cases r <;> simp [isPlain, discharges]

/-- All rules start from premises, except for postulates and what is true of terms alone. -/
theorem Concludes.ne_nil {r : Rule} {ps : List Proposition} {p : Proposition}
    (h : Concludes r ps p) (hpostulate : r ≠ .postulate) (hreflexivity : r ≠ .reflexivity)
    (hsimplification : r ≠ .bySimplification) : ps ≠ [] := by
  cases h with
  | postulate => exact absurd rfl hpostulate
  | reflexivity => exact absurd rfl hreflexivity
  | bySimplification _ => exact absurd rfl hsimplification
  | bySimplificationNot _ => exact absurd rfl hsimplification
  | conjunctionIntro hlength =>
      rintro rfl
      simp at hlength
  | transitive hhead _ =>
      rintro rfl
      simp at hhead
  | _ => simp

/-- A statement comes from somewhere: it is a leaf, or there is a premise or a term. -/
def Inference.HasBasis (i : Inference FactId) : Prop :=
  i.rule = .assumption ∨ i.rule = .postulate ∨ i.premises ≠ [] ∨ i.terms ≠ []

namespace Session

/-- A fact that holds without a scope, although it was derived, by discharging assumptions, from one
that does not. -/
def Straddles (s : Session) (scope : Scope) (id : FactId) : Prop :=
  ∃ e, s.entry? id = some e ∧ e.holds = true ∧ e.inference.rule.discharges = true ∧
    s.restsOn scope id = false ∧ ∃ j ∈ e.inference.premises, s.restsOn scope j = true

instance (s : Session) (scope : Scope) (id : FactId) : Decidable (s.Straddles scope id) :=
  match h : s.entry? id with
  | none => .isFalse fun ⟨_, he, _⟩ => by simp [h] at he
  | some e =>
    decidable_of_iff (e.holds = true ∧ e.inference.rule.discharges = true ∧
      s.restsOn scope id = false ∧ ∃ j ∈ e.inference.premises, s.restsOn scope j = true)
      ⟨fun hstraddles => ⟨e, h, hstraddles⟩,
        fun ⟨_, he, hstraddles⟩ => Option.some.inj (h.symm.trans he) ▸ hstraddles⟩

/-- Only what the ledger lists can straddle a scope. -/
theorem not_straddles_of_forall_lt {s : Session} {scope : Scope}
    (h : ∀ i < s.ledger.size, ¬s.Straddles scope ⟨i⟩) (id : FactId) : ¬s.Straddles scope id := by
  intro hstraddles
  have hentry : ∃ e, s.entry? id = some e := hstraddles.imp fun _ he => he.1
  obtain ⟨e, he⟩ := hentry
  exact h id.index (entry?_lt he) hstraddles

/-- What holds was derived from what holds, and a speculation lists, newest first, all that was
derived from what it has derived. -/
structure Upheld (s : Session) : Prop where
  assumed : ∀ id e, s.entry? id = some e → e.assumed = true → e.inference.rule = .assumption
  premises : ∀ id e, s.entry? id = some e → e.holds = true → e.inference.rule ≠ .closeScope →
    ∀ j ∈ e.inference.premises, s.holds j = true
  grounded : ∀ id e, s.entry? id = some e → e.inference.HasBasis
  newestFirst : ∀ derived, s.speculation = some derived →
    (⟨s.ledger.size⟩ :: derived).Pairwise fun newer older => older.index < newer.index
  derived : ∀ derived, s.speculation = some derived → ∀ id e, s.entry? id = some e →
    ∀ j ∈ e.inference.premises, j ∈ derived → id ∈ derived

theorem flaw?_eq_none {discharged : Bool} {e : Entry}
    (hholds : discharged = false → e.holds = true) (hbasis : e.inference.HasBasis) :
    flaw? discharged e = none := by
  have hlive : (!discharged && !e.holds) = false := by
    cases discharged with
    | true => rfl
    | false => rw [hholds rfl]; rfl
  unfold flaw?
  rw [hlive]
  rcases hbasis with hrule | hrule | hpremises | hterms
  · simp [hrule]
  · simp [hrule]
  · simp only [Bool.false_eq_true, ↓reduceIte, List.isEmpty_eq_false_iff.mpr hpremises,
      Bool.false_and]
    split <;> rfl
  · simp only [Bool.false_eq_true, ↓reduceIte, List.isEmpty_eq_false_iff.mpr hterms,
      Bool.and_false]
    split <;> rfl

section Operations
variable {s t : Session}

theorem SameContents.size_le (h : SameContents s t) : s.ledger.size ≤ t.ledger.size := by
  by_contra hlt
  rw [Nat.not_le] at hlt
  have hentry : ∃ e, s.entry? ⟨t.ledger.size⟩ = some e := entry?_of_lt hlt
  obtain ⟨e, he⟩ := hentry
  obtain ⟨e', he', -⟩ := h.entry he
  exact Nat.lt_irrefl _ (entry?_lt he')

theorem SameContents.size_eq (h : SameContents s t) : t.ledger.size = s.ledger.size :=
  Nat.le_antisymm h.symm.size_le h.size_le

theorem Upheld.congr (h : s.Upheld) (hledger : t.ledger = s.ledger)
    (hspeculation : t.speculation = s.speculation) : t.Upheld := by
  have hentry : ∀ id, t.entry? id = s.entry? id := by
    intro id
    rw [Session.entry?, hledger, Session.entry?]
  constructor
  · simpa only [hentry] using h.assumed
  · simpa only [hentry, Session.holds] using h.premises
  · simpa only [hentry] using h.grounded
  · simpa only [hspeculation, hledger] using h.newestFirst
  · simpa only [hentry, hspeculation] using h.derived

theorem holds_of_push {e : Entry} (h : t.ledger = s.ledger.push e) {j : FactId}
    (hj : s.holds j = true) : t.holds j = true := by
  rw [Session.holds, Option.any_eq_true] at hj ⊢
  obtain ⟨entry, hentry, hholds⟩ := hj
  exact ⟨entry, entry?_of_push_of_some h hentry, hholds⟩

theorem index_lt_of_holds {j : FactId} (h : s.holds j = true) : j.index < s.ledger.size := by
  rw [Session.holds, Option.any_eq_true] at h
  obtain ⟨e, he, -⟩ := h
  exact entry?_lt he

/-- A statement may be entered if it was derived from what holds. -/
theorem Upheld.certified {p : Proposition} {i : Inference FactId} {d : List FactId}
    (h : s.Upheld) (htraced : s.Traced)
    (hpremises : i.rule ≠ .closeScope → ∀ j ∈ i.premises, s.holds j = true)
    (hbasis : i.HasBasis) : (s.certified p i d).Upheld := by
  have hledger := certified_ledger s p i d
  have hold : ∀ id e, Session.entry? (s.certified p i d) id = some e →
      s.entry? id = some e ∨ (id.index = s.ledger.size ∧ e = ⟨p.strip, i, true, false, d⟩) := by
    intro id e he
    rw [entry?_certified] at he
    split at he
    next hid => exact .inr ⟨hid, (Option.some.inj he).symm⟩
    next => exact .inl he
  constructor
  · intro id e he hassumed
    rcases hold id e he with he | ⟨-, rfl⟩
    · exact h.assumed id e he hassumed
    · cases hassumed
  · intro id e he hholds hrule j hj
    apply holds_of_push hledger
    rcases hold id e he with he | ⟨-, rfl⟩
    · exact h.premises id e he hholds hrule j hj
    · exact hpremises hrule j hj
  · intro id e he
    rcases hold id e he with he | ⟨-, rfl⟩
    · exact h.grounded id e he
    · exact hbasis
  · intro derived' hderived'
    rw [certified_speculation] at hderived'
    obtain ⟨derived, hderived, rfl⟩ := Option.map_eq_some_iff.mp hderived'
    have hnewest := h.newestFirst derived hderived
    rw [hledger, Array.size_push]
    refine List.pairwise_cons.mpr ⟨fun id hid => ?_, hnewest⟩
    rcases List.mem_cons.mp hid with rfl | hid
    · exact Nat.lt_succ_self _
    · exact Nat.lt_succ_of_lt ((List.pairwise_cons.mp hnewest).1 id hid)
  · intro derived' hderived' id e he j hj hmem
    rw [certified_speculation] at hderived'
    obtain ⟨derived, hderived, rfl⟩ := Option.map_eq_some_iff.mp hderived'
    rcases hold id e he with he | ⟨hid, -⟩
    · have hlt : j.index < s.ledger.size :=
        Nat.lt_trans ((htraced.recorded id e he).older j hj) (entry?_lt he)
      rcases List.mem_cons.mp hmem with rfl | hmem
      · exact absurd hlt (Nat.lt_irrefl _)
      · exact List.mem_cons_of_mem _ (h.derived derived hderived id e he j hj hmem)
    · have hnew : id = ⟨s.ledger.size⟩ := by rw [← hid]
      exact hnew ▸ List.mem_cons_self

/-- Whatever a tactic may enter was derived from what holds. -/
theorem Derives.holds {p : Proposition} {i : Inference FactId} {d : List FactId}
    (hd : s.Derives p i d) : ∀ j ∈ i.premises, s.holds j = true := by
  intro j hj
  cases hd with
  | plain _ hproves hpremises =>
      obtain ⟨f, hf, rfl⟩ := List.mem_map.mp ((hpremises j).mp hj)
      exact (hproves f hf).holds
  | @followedFrom f first rest hf hassumes =>
      rw [Inference.premises, filterMap_premise] at hj
      rcases List.mem_cons.mp hj with rfl | hj
      · exact hf.holds
      · obtain ⟨g, hg, rfl⟩ := List.mem_map.mp hj
        obtain ⟨e, he, -, hassumed⟩ := hassumes g hg
        simp [Session.holds, he, Entry.holds, hassumed]
  | @assumptionsCannotAllHold f _ hf _ _ =>
      have hj : j = f.id := by simpa [Inference.premises] using hj
      rw [hj]
      exact hf.holds

theorem Derives.hasBasis {p : Proposition} {i : Inference FactId} {d : List FactId}
    (hd : s.Derives p i d) (hreflexivity : i.rule ≠ .reflexivity)
    (hsimplification : i.rule ≠ .bySimplification) : i.HasBasis := by
  by_cases hpostulate : i.rule = .postulate
  · exact .inr (.inl hpostulate)
  · apply Or.inr ∘ Or.inr ∘ Or.inl
    cases hd with
    | @plain premises _ _ hconcludes _ hpremises =>
        have hne := hconcludes.ne_nil hpostulate hreflexivity hsimplification
        cases premises with
        | nil => exact absurd rfl hne
        | cons f rest => exact List.ne_nil_of_mem ((hpremises f.id).mpr (by simp))
    | followedFrom _ _ => simp [Inference.premises]
    | assumptionsCannotAllHold _ _ _ => simp [Inference.premises]

/-- What all invariants say together. -/
structure Auditable (s : Session) : Prop where
  traced : s.Traced
  accounted : s.Accounted
  upheld : s.Upheld

theorem Auditable.aside (h : s.Auditable) (ht : s.Aside t) : t.Auditable := by
  refine ⟨h.traced.aside ht, h.accounted.aside ht, ?_⟩
  obtain ⟨_, _, _, rfl⟩ := ht
  exact h.upheld.congr rfl rfl

theorem Auditable.derived {p : Proposition} {i : Inference FactId} {d : List FactId}
    (h : s.Auditable) (hd : s.Derives p i d) (hbasis : i.HasBasis) :
    (s.certified p i d).Auditable :=
  ⟨h.traced.certified hd.recorded, h.accounted.certified p i (h.accounted.derives hd),
    h.upheld.certified h.traced (fun _ => hd.holds) hbasis⟩

theorem Auditable.extended {R : Rule → Prop} (h : s.Auditable) (ht : Extends R s t)
    (hR : ∀ r, R r → r ≠ .reflexivity ∧ r ≠ .bySimplification) : t.Auditable := by
  induction ht with
  | refl => exact h
  | aside fresh warnings order _ ih => exact ih.aside ⟨fresh, warnings, order, rfl⟩
  | certify _ hd hr ih => exact ih.derived hd (hd.hasBasis (hR _ hr).1 (hR _ hr).2)

theorem Upheld.supposed (h : s.Upheld) (p : Proposition) :
    (s.supposed p).Upheld := by
  have hledger := supposed_ledger s p
  have hold : ∀ id e, Session.entry? (s.supposed p) id = some e → s.entry? id = some e ∨
      e = ⟨p.strip, { rule := .assumption }, false, true, [⟨s.ledger.size⟩]⟩ := by
    intro id e he
    rw [entry?_supposed] at he
    split at he
    next => exact .inr (Option.some.inj he).symm
    next => exact .inl he
  constructor
  · intro id e he hassumed
    rcases hold id e he with he | rfl
    · exact h.assumed id e he hassumed
    · rfl
  · intro id e he hholds hrule j hj
    rcases hold id e he with he | rfl
    · exact holds_of_push hledger (h.premises id e he hholds hrule j hj)
    · cases hj
  · intro id e he
    rcases hold id e he with he | rfl
    · exact h.grounded id e he
    · exact .inl rfl
  · rw [supposed_speculation, hledger, Array.size_push]
    intro derived hderived
    have hnewest := List.pairwise_cons.mp (h.newestFirst derived hderived)
    exact List.pairwise_cons.mpr ⟨fun id hid => Nat.lt_succ_of_lt (hnewest.1 id hid), hnewest.2⟩
  · rw [supposed_speculation]
    intro derived hderived id e he j hj hmem
    rcases hold id e he with he | rfl
    · exact h.derived derived hderived id e he j hj hmem
    · cases hj

end Operations

section Retraction
variable {s : Session} {c : ScopeId} {scope : Scope}

/-- What holds and does not rest on a scope still holds once the scope is retracted. -/
theorem Accounted.holds_retract {j : FactId} (h : s.Accounted) (hscope : s.scope? c = some scope)
    (hj : s.holds j = true) (hrests : s.restsOn scope j = false) :
    (s.retract c).holds j = true := by
  rw [Session.holds, Option.any_eq_true] at hj ⊢
  obtain ⟨e, he, hholds⟩ := hj
  refine ⟨s.retracted scope j e, by rw [entry?_retract hscope, he, Option.map_some], ?_⟩
  rw [Entry.holds, Bool.or_eq_true] at hholds ⊢
  rcases hholds with hproven | hassumed
  · left
    rw [retracted, hproven, hrests]
    simp
  · right
    rw [retracted, hassumed, Bool.true_and]
    apply decide_eq_true
    intro hmem
    have hdepends : j ∈ e.dependencies := by
      rw [h.self he hassumed]
      exact List.mem_singleton_self j
    rw [(restsOn_eq_true he).mpr ⟨j, hdepends, hmem⟩] at hrests
    cases hrests

/-- What an inference takes over all assumptions from does not rest on a scope that its conclusion
does not rest on. -/
theorem Traced.restsOn_premise {id j : FactId} {e : Entry} (h : s.Traced)
    (he : s.entry? id = some e) (hplain : e.inference.rule.isPlain = true)
    (hj : j ∈ e.inference.premises) (hrests : s.restsOn scope id = false) :
    s.restsOn scope j = false := by
  by_contra hpremise
  rw [Bool.not_eq_false, restsOn, List.any_eq_true] at hpremise
  obtain ⟨a, ha, hmem⟩ := hpremise
  have hrecorded := h.recorded id e he
  have hdepends : a ∈ e.dependencies := by
    rw [hrecorded.exact, discharged_of_isPlain s hplain,
      Inference.carriers_of_isPlain hplain fun hrule => hrecorded.leaf (.inl hrule)]
    exact .inr ⟨List.not_mem_nil, j, hj, ha⟩
  rw [(restsOn_eq_true he).mpr ⟨a, hdepends, of_decide_eq_true hmem⟩] at hrests
  cases hrests

/-- Retracting a scope leaves what holds derived from what holds, if nothing straddles the scope. -/
theorem Upheld.retract (h : s.Upheld) (htraced : s.Traced) (haccounted : s.Accounted)
    (hscope : s.scope? c = some scope) (hopen : scope.closed = false)
    (hseverable : s.Severable c scope) (hstraddles : ∀ id, ¬s.Straddles scope id) :
    (s.retract c).Upheld := by
  have hbefore : ∀ id e, Session.entry? (s.retract c) id = some e →
      ∃ before, s.entry? id = some before ∧ e = s.retracted scope id before := by
    intro id e he
    rw [entry?_retract hscope] at he
    obtain ⟨before, hentry, rfl⟩ := Option.map_eq_some_iff.mp he
    exact ⟨before, hentry, rfl⟩
  constructor
  · intro id e he hassumed
    obtain ⟨before, hentry, rfl⟩ := hbefore id e he
    rw [retracted, Bool.and_eq_true] at hassumed
    exact h.assumed id before hentry hassumed.1
  · intro id e he hholds hrule j hj
    obtain ⟨before, hentry, rfl⟩ := hbefore id e he
    have hj : j ∈ before.inference.premises := hj
    have hrule : before.inference.rule ≠ .closeScope := hrule
    rw [Entry.holds, Bool.or_eq_true] at hholds
    rcases hholds with hproven | hassumed
    · have hwas : before.proven = true := by
        rw [retracted, Bool.and_eq_true] at hproven
        exact hproven.1
      have hheld : before.holds = true := by rw [Entry.holds, hwas, Bool.true_or]
      have hrests : s.restsOn scope id = false :=
        haccounted.restsOn_eq_false hscope hopen hseverable hentry hproven
      have hpremise : s.holds j = true := h.premises id before hentry hheld hrule j hj
      apply haccounted.holds_retract hscope hpremise
      by_cases hdischarges : before.inference.rule.discharges = true
      · by_contra hnot
        rw [Bool.not_eq_false] at hnot
        exact hstraddles id ⟨before, hentry, hheld, hdischarges, hrests, j, hj, hnot⟩
      · by_cases hassumption : before.inference.rule = .assumption
        · rw [(htraced.recorded id before hentry).leaf (.inr hassumption)] at hj
          cases hj
        · have hplain : before.inference.rule.isPlain = true :=
            Rule.isPlain_iff.mpr ⟨hassumption, hrule, by simpa using hdischarges⟩
          exact htraced.restsOn_premise hentry hplain hj hrests
    · rw [retracted, Bool.and_eq_true] at hassumed
      have hleaf := h.assumed id before hentry hassumed.1
      rw [(htraced.recorded id before hentry).leaf (.inr hleaf)] at hj
      cases hj
  · intro id e he
    obtain ⟨before, hentry, rfl⟩ := hbefore id e he
    exact h.grounded id before hentry
  · rw [retract_speculation hscope, (retract_sameContents s c).size_eq]
    exact h.newestFirst
  · rw [retract_speculation hscope]
    intro derived hderived id e he j hj hmem
    obtain ⟨before, hentry, rfl⟩ := hbefore id e he
    exact h.derived derived hderived id before hentry j hj hmem

theorem Auditable.retract (h : s.Auditable) (hscope : s.scope? c = some scope)
    (hopen : scope.closed = false) (hseverable : s.Severable c scope)
    (hstraddles : ∀ id, ¬s.Straddles scope id) : (s.retract c).Auditable :=
  ⟨h.traced.retract hscope, h.accounted.retract hscope hopen hseverable,
    h.upheld.retract h.traced h.accounted hscope hopen hseverable hstraddles⟩

end Retraction

section Speculation
variable {s : Session}

theorem mem_supporting {wanted derived : List FactId} {id : FactId} (hid : id ∈ derived)
    (hwanted : id ∈ wanted) : id ∈ s.supporting wanted derived := by
  induction derived generalizing wanted with
  | nil => cases hid
  | cons first derived ih =>
      rw [supporting]
      rcases List.mem_cons.mp hid with rfl | hid
      · rw [if_pos hwanted]
        exact List.mem_cons_self
      · split
        next => exact List.mem_cons_of_mem _ (ih hid (List.mem_append_right _ hwanted))
        next => exact ih hid hwanted

theorem mem_of_mem_supporting {wanted derived : List FactId} {id : FactId}
    (h : id ∈ s.supporting wanted derived) : id ∈ derived := by
  induction derived generalizing wanted with
  | nil => cases h
  | cons first derived ih =>
      rw [supporting] at h
      split at h
      next =>
        rcases List.mem_cons.mp h with rfl | h
        · exact List.mem_cons_self
        · exact List.mem_cons_of_mem _ (ih h)
      next => exact List.mem_cons_of_mem _ (ih h)

/-- Of what was derived, whatever a needed entry was derived from is needed. -/
theorem mem_supporting_of_premise {wanted derived : List FactId} {id j : FactId} {e : Entry}
    (hnewest : derived.Pairwise fun newer older => older.index < newer.index)
    (hid : id ∈ s.supporting wanted derived) (he : s.entry? id = some e)
    (hj : j ∈ e.inference.premises) (hlt : j.index < id.index) (hmem : j ∈ derived) :
    j ∈ s.supporting wanted derived := by
  -- The sweep goes from new to old, so it meets the entry before its premise.
  induction derived generalizing wanted with
  | nil => cases hmem
  | cons first derived ih =>
      obtain ⟨hfirst, hrest⟩ := List.pairwise_cons.mp hnewest
      have hle : id.index ≤ first.index := by
        rcases List.mem_cons.mp (mem_of_mem_supporting hid) with rfl | hid
        · exact Nat.le_refl _
        · exact Nat.le_of_lt (hfirst id hid)
      have htail : j ∈ derived := by
        rcases List.mem_cons.mp hmem with rfl | htail
        · omega
        · exact htail
      rw [supporting] at hid ⊢
      split at hid
      next hwanted =>
        rw [if_pos hwanted]
        apply List.mem_cons_of_mem
        rcases List.mem_cons.mp hid with rfl | hid
        · apply mem_supporting htail
          simp [he, hj]
        · exact ih hrest hid htail
      next hwanted =>
        rw [if_neg hwanted]
        exact ih hrest hid htail

theorem holds_settled {keep derived : List FactId} {j : FactId}
    (hspeculation : s.speculation = some derived) (hj : s.holds j = true)
    (hneeded : j ∈ derived → j ∈ s.supporting keep derived) : (s.settled keep).holds j = true := by
  have hkept : ¬(j ∈ derived ∧ j ∉ s.supporting keep derived) := fun h => h.2 (hneeded h.1)
  rw [Session.holds, Option.any_eq_true] at hj ⊢
  obtain ⟨e, he, hholds⟩ := hj
  refine ⟨e, ?_, hholds⟩
  rw [entry?_settled keep hspeculation, he, Option.map_some, if_neg hkept]

theorem Upheld.settled (h : s.Upheld) (htraced : s.Traced) (keep : List FactId) :
    (s.settled keep).Upheld := by
  cases hspeculation : s.speculation with
  | none =>
      rw [settled_of_none keep hspeculation]
      exact h
  | some derived =>
      have hbefore : ∀ id e, Session.entry? (s.settled keep) id = some e →
          ∃ before, s.entry? id = some before ∧ e.inference = before.inference ∧
            e.assumed = before.assumed ∧ (e.proven = true → before.proven = true ∧
              (id ∈ derived → id ∈ s.supporting keep derived)) := by
        intro id e he
        obtain ⟨before, hentry, -, hassumed, hproven⟩ := entry_of_settled hspeculation he
        refine ⟨before, hentry, ?_, hassumed, hproven⟩
        obtain ⟨_, hsame, hcontent⟩ := (settled_sameContents s keep).entry hentry
        obtain rfl := Option.some.inj (he.symm.trans hsame)
        exact congrArg (·.2.1) hcontent
      constructor
      · intro id e he hassumed
        obtain ⟨before, hentry, hinference, hsame, -⟩ := hbefore id e he
        rw [hinference]
        exact h.assumed id before hentry (hsame ▸ hassumed)
      · intro id e he hholds hrule j hj
        obtain ⟨before, hentry, hinference, hsame, hproven⟩ := hbefore id e he
        rw [hinference] at hrule hj
        rw [Entry.holds, Bool.or_eq_true] at hholds
        rcases hholds with hproof | hassumed
        · obtain ⟨hwas, hneeded⟩ := hproven hproof
          have hheld : before.holds = true := by rw [Entry.holds, hwas, Bool.true_or]
          apply holds_settled hspeculation (h.premises id before hentry hheld hrule j hj)
          intro hmem
          have hid := h.derived derived hspeculation id before hentry j hj hmem
          exact mem_supporting_of_premise (h.newestFirst derived hspeculation).of_cons (hneeded hid)
            hentry hj ((htraced.recorded id before hentry).older j hj) hmem
        · have hleaf := h.assumed id before hentry (hsame ▸ hassumed)
          rw [(htraced.recorded id before hentry).leaf (.inr hleaf)] at hj
          cases hj
      · intro id e he
        obtain ⟨before, hentry, hinference, -⟩ := hbefore id e he
        rw [hinference]
        exact h.grounded id before hentry
      · intro derived' hderived'
        rw [settled_speculation] at hderived'
        cases hderived'
      · intro derived' hderived'
        rw [settled_speculation] at hderived'
        cases hderived'

end Speculation

section Closing
variable {s : Session} {c : ScopeId} {scope : Scope}

theorem exported_append (s : Session) (c : ScopeId) (scope : Scope)
    (xs ys : List (Fact × Proposition)) :
    exported c scope s (xs ++ ys) = exported c scope (exported c scope s xs) ys := by
  induction xs generalizing s with
  | nil => rfl
  | cons x xs ih =>
      obtain ⟨f, p⟩ := x
      exact ih _

/-- Audits do not ask what is restated outside a scope to be derived from what holds. -/
theorem Upheld.exported_retract {statements : List (Fact × Proposition)}
    (h : (s.retract c).Upheld) (htraced : s.Traced) (hscope : s.scope? c = some scope)
    (hlists : ∀ x ∈ statements, s.Lists x.1) :
    (Session.exported c scope (s.retract c) statements).Upheld := by
  induction statements using List.reverseRecOn with
  | nil => exact h
  | append_singleton statements x ih =>
      have hinit : ∀ y ∈ statements, s.Lists y.1 := fun y hy =>
        hlists y (List.mem_append_left _ hy)
      obtain ⟨f, p⟩ := x
      rw [exported_append, Session.exported, Session.exported]
      apply (ih hinit).certified (htraced.exported_retract hscope hinit)
      · exact fun hrule => absurd rfl hrule
      · exact .inr (.inr (.inl (by simp [Inference.premises])))

theorem Auditable.closed {statements : List (Fact × Proposition)} {results : List Fact}
    (h : s.Auditable) (hc : s.Innermost c scope) (hseverable : s.Severable c scope)
    (hstraddles : ∀ id, ¬s.Straddles scope id)
    (hstatements : List.Forall₂ (Restates scope) (s.targets scope) statements) :
    ((Session.exported c scope (s.retract c) statements).modifyScope c
      ({ · with results })).Auditable := by
  have hretracted := (h.retract hc.1 hc.2.1 hseverable hstraddles).upheld
  have hexported := hretracted.exported_retract h.traced hc.1
    (h.traced.lists_of_restates hc.1 hstatements)
  exact ⟨h.traced.closed hc.1 hstatements, h.accounted.closed hc hseverable hstatements,
    hexported.congr rfl rfl⟩

end Closing

section Runs
variable {s : Session}

/-- Whatever a call retracts can be severed from the rest, and nothing straddles it. -/
def Call.Careful (s : Session) (call : Call) : Prop :=
  call.Orderly s ∧ ∀ c scope, call.Retracts s c → s.scope? c = some scope →
    scope.closed = false → ∀ id, ¬s.Straddles scope id

/-- Every call of a run is careful when it is made. -/
def CarefulRun (s : Session) : List Call → Prop
  | [] => True
  | call :: calls => call.Careful s ∧ CarefulRun (call.apply s) calls

/-- What is true of terms alone is entered with a term for its basis, or not at all. -/
def EntersTerms (a : Action Fact) (s : Session) : Prop :=
  Ensures a s (fun _ t => ∃ p i, s.Derives p i [] ∧ i.HasBasis ∧ t = s.certified p i []) (· = s)

theorem entersTerms_certify {p : Proposition} {i : Inference FactId} {s : Session}
    (hconcludes : Concludes i.rule [] p) (hpremises : i.premises = []) (hterms : i.terms ≠ []) :
    EntersTerms (certify p i []) s := by
  have hd : s.Derives p i (s.union (([] : List Fact).map Fact.id)) :=
    .plain hconcludes (by simp) (by simp [hpremises])
  exact Ensures.certify ⟨p, i, hd, .inr (.inr (.inr hterms)), rfl⟩

theorem bySimplification_entersTerms (p : Proposition) (s : Session) :
    EntersTerms (bySimplification p) s := by
  unfold bySimplification
  split
  next target negated hp =>
    split
    next name lhs rhs m =>
      split
      next => exact Ensures.throw rfl
      next decided hdecided =>
        refine Ensures.guard rfl fun hne => entersTerms_certify ?_ rfl
          (by simp [Inference.terms, Argument.term?])
        split at hp
        next q m' =>
          obtain ⟨rfl, rfl⟩ := Prod.mk.inj hp
          exact .bySimplificationNot (by simpa [hdecided] using hne)
        next =>
          obtain ⟨rfl, rfl⟩ := Prod.mk.inj hp
          exact .bySimplification (by simpa [hdecided] using hne)
    next => exact Ensures.throw rfl

theorem Auditable.entersTerms {a : Action Fact} (h : s.Auditable) (ha : EntersTerms a s) :
    (after a s).Auditable := by
  have hboth : Ensures a s (fun _ t => t.Auditable) Auditable := by
    refine Ensures.mono ha ?_ ?_
    · rintro f t ⟨p, i, hd, hbasis, rfl⟩
      exact h.derived hd hbasis
    · rintro t rfl
      exact h
  exact hboth.left

theorem Auditable.tactic (h : s.Auditable) (t : Tactic) : (t.apply s).Auditable := by
  by_cases hbaseless : t.rule = .reflexivity ∨ t.rule = .bySimplification
  · cases t with
    | reflexivity t =>
        exact h.entersTerms (entersTerms_certify .reflexivity rfl
          (by simp [Inference.terms, Argument.term?]))
    | bySimplification p => exact h.entersTerms (bySimplification_entersTerms p s)
    | _ => rcases hbaseless with h | h <;> cases h
  · refine h.extended (t.apply_extends s) ?_
    rintro r rfl
    exact ⟨fun heq => hbaseless (.inl heq), fun heq => hbaseless (.inr heq)⟩

/-- Every careful call keeps a session auditable. -/
theorem Auditable.call {call : Call} (h : s.Auditable) (hcareful : call.Careful s) :
    (call.apply s).Auditable := by
  refine ⟨h.traced.call call, h.accounted.call hcareful.1, ?_⟩
  have htactic : ∀ t, call = .tactic t → (call.apply s).Upheld := by
    rintro t rfl
    exact (h.tactic t).upheld
  have hchange := call.change s
  generalize call.apply s = t at hchange htactic
  cases hchange with
  | aside ht => exact (h.aside ht).upheld
  | tactic _ => exact htactic _ rfl
  | @postulate p =>
      have hd : s.Derives p { rule := .postulate } [] :=
        @Derives.plain s [] _ _ .postulate (by simp) (by simp [Inference.premises])
      exact (h.derived hd (.inr (.inl rfl))).upheld
  | suppose _ => exact h.upheld.supposed _
  | assumeIn _ _ => exact (h.upheld.supposed _).congr rfl rfl
  | openScope => exact h.upheld.congr rfl rfl
  | introduce _ ht _ => exact (h.aside ht).upheld.congr rfl rfl
  | conclude _ _ => exact h.upheld.congr rfl rfl
  | close hc hstatements =>
      have hretracts : Call.Retracts s (.close _) _ := .inl ⟨rfl, hc.2.2⟩
      exact (h.closed hc (hcareful.1 _ _ hretracts hc.1 hc.2.1)
        (hcareful.2 _ _ hretracts hc.1 hc.2.1) hstatements).upheld
  | discard hscope hopen =>
      exact (h.retract hscope hopen (hcareful.1 _ _ (.inr rfl) hscope hopen)
        (hcareful.2 _ _ (.inr rfl) hscope hopen)).upheld
  | speculateFrom _ =>
      refine ⟨h.upheld.assumed, h.upheld.premises, h.upheld.grounded, ?_, ?_⟩
      · intro derived hderived
        cases hderived
        exact List.pairwise_singleton _ _
      · intro derived hderived id e _ j _ hj
        cases hderived
        cases hj
  | settle => exact h.upheld.settled h.traced _

theorem Auditable.initial : Auditable {} :=
  ⟨.initial, .initial, by constructor <;> simp [Session.entry?]⟩

theorem Auditable.run (h : s.Auditable) (calls : List Call) (hcalls : CarefulRun s calls) :
    (run s calls).Auditable := by
  induction calls generalizing s with
  | nil => exact h
  | cons call calls ih => exact ih (h.call hcalls.1) hcalls.2

end Runs

section Audits
variable {s : Session}

/-- A loop succeeds if each of its rounds does. -/
theorem foldlM_eq_ok {ε α β : Type} {f : β → α → Except ε β} {xs : List α}
    (hf : ∀ b, ∀ x ∈ xs, ∃ b', f b x = .ok b') (b : β) : ∃ b', xs.foldlM f b = .ok b' := by
  induction xs generalizing b with
  | nil => exact ⟨b, rfl⟩
  | cons x xs ih =>
      obtain ⟨b', hb'⟩ := hf b x List.mem_cons_self
      rw [List.foldlM_cons, hb']
      exact ih (fun b y hy => hf b y (List.mem_cons_of_mem _ hy)) b'

theorem mem_premises_of_mem_auditPremises {e : Entry} {j : FactId} (h : j ∈ auditPremises e) :
    j ∈ e.inference.premises := by
  unfold auditPremises at h
  split at h
  next => cases h
  next => cases h
  next => exact h

/-- An audit finds nothing wrong with entries that hold, or that need not hold, nor below them. -/
theorem Auditable.auditFrom_eq_ok (h : s.Auditable) (depth : Nat) (discharged : Bool)
    (ids : List FactId) (visited : Visited) (hlisted : ∀ id ∈ ids, id.index < s.ledger.size)
    (hlive : discharged = false → ∀ id ∈ ids, s.holds id = true) :
    ∃ found, s.auditFrom depth discharged ids visited = .ok found := by
  induction depth generalizing discharged ids visited with
  | zero => exact ⟨visited, rfl⟩
  | succ depth ih =>
      apply foldlM_eq_ok
      intro visited id hid
      obtain ⟨e, he⟩ := entry?_of_lt (hlisted id hid)
      have hholds : discharged = false → e.holds = true := by
        intro hfalse
        simpa [Session.holds, he] using hlive hfalse id hid
      have hbelow : ∃ found, s.auditFrom depth (discharged || e.inference.rule == .closeScope)
          (auditPremises e) ((id, !discharged) :: visited) = .ok found := by
        apply ih
        · intro j hj
          have hlt := (h.traced.recorded id e he).older j (mem_premises_of_mem_auditPremises hj)
          exact Nat.lt_trans hlt (entry?_lt he)
        · intro hfalse j hj
          rw [Bool.or_eq_false_iff, beq_eq_false_iff_ne] at hfalse
          exact h.upheld.premises id e he (hholds hfalse.1) hfalse.2 j
            (mem_premises_of_mem_auditPremises hj)
      split
      next => exact ⟨visited, rfl⟩
      next =>
        split
        next => exact ⟨visited, rfl⟩
        next =>
          rw [he]
          dsimp only
          rw [flaw?_eq_none hholds (h.upheld.grounded id e he)]
          exact hbelow

/-- A proposition that holds passes its audit. -/
theorem Auditable.audit_eq_ok (h : s.Auditable) {p : Proposition} (hp : s.isProven p = true) :
    s.audit p = .ok () := by
  have hfact : ∃ f, s.provenFact? p = some f ∧ s.holds f.id = true := by
    obtain ⟨id, hmark, hid⟩ := (Option.any_eq_true _ _).mp hp
    obtain ⟨e, he, hholds⟩ := (Option.any_eq_true _ _).mp hid
    refine ⟨⟨id, e.statement⟩, ?_, hid⟩
    simp [provenFact?, fact?, hmark, he, Session.holds, hholds]
  obtain ⟨f, hf, hholds⟩ := hfact
  obtain ⟨found, hfound⟩ := h.auditFrom_eq_ok (s.ledger.size + 1) false [f.id] []
    (by simpa using index_lt_of_holds hholds) (by simpa using hholds)
  rw [audit, hf]
  dsimp only
  rw [hfound]
  rfl

end Audits

end Session

end Entailment
