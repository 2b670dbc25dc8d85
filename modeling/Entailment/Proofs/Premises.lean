import Entailment.Proofs.Run

/-!
# Premises and what cites them

A tactic that is given proven premises never complains that one of them is not proven, and what it
then enters cites these premises. Beside them it may cite memberships only: those handed over, and
those that the session knows of. `Blameless` follows a tactic on both ways out, so the two facts
are proved together, one tactic after another.
-/
namespace Entailment

/-- Whether a failure is about a premise that is not proven. -/
def Failure.blamesPremise : Failure → Bool
  | .tactic _ .notProven _ => true
  | _ => false

namespace Session

/-- The proven fact that a premise is. -/
def premise? (s : Session) (p : Option Proposition) : Option Fact := p.bind s.provenFact?

/-- A premise that is there is proven. -/
def Backs (s : Session) (p : Option Proposition) : Prop := p.isSome → (s.premise? p).isSome

/-- The entry is a membership that is known. -/
def KnowsMember (s : Session) (id : FactId) : Prop :=
  ∃ v, id ∈ s.known v ∧ ∃ e, s.entry? id = some e ∧
    ∃ element set m, e.statement = .relation Relation.element.name [element, set] m

/-- The entry is a membership that is handed over or known. -/
def Admits (s : Session) (handed : List Proposition) (id : FactId) : Prop :=
  (∃ p ∈ handed, (s.provenFact? p).map Fact.id = some id) ∨ s.KnowsMember id

/-- The inference cites all premises, and no others but memberships. -/
structure Cites (s : Session) (ps : List (Option Proposition)) (handed : List Proposition)
    (i : Inference FactId) : Prop where
  all : ∀ p ∈ ps, ∀ f, s.premise? p = some f → f.id ∈ i.premises
  only : ∀ j ∈ i.premises, (∃ p ∈ ps, (s.premise? p).map Fact.id = some j) ∨ s.Admits handed j

/-- The statement was entered by the rule, with an inference that cites the premises. -/
def Entered (s : Session) (r : Rule) (ps : List (Option Proposition)) (handed : List Proposition)
    (f : Fact) (t : Session) : Prop :=
  ∃ (u : Session) (p : Proposition) (i : Inference FactId) (d : List FactId),
    s.Aside u ∧ i.rule = r ∧ s.Cites ps handed i ∧ f = u.nextFact p ∧ t = u.certified p i d

/-- The fact is new and proven in `t` by the rule, with an inference that cites the premises. -/
def Records (s t : Session) (r : Rule) (ps : List (Option Proposition))
    (handed : List Proposition) (f : Fact) : Prop :=
  s.ledger.size ≤ f.id.index ∧ ∃ e, t.entry? f.id = some e ∧ e.statement = f.statement ∧
    e.holds = true ∧ e.inference.rule = r ∧ s.Cites ps handed e.inference

/-- The deduction answers as required, or fails for another reason than a premise that is not
proven. -/
def Blameless {α : Type} (a : Action α) (s : Session) (ok : α → Session → Prop) : Prop :=
  match a s with
  | .ok x t => ok x t
  | .error e _ => e.blamesPremise = false

section Rules
variable {α β : Type} {s : Session} {ok : α → Session → Prop}

theorem Blameless.pure {x : α} (h : ok x s) : Blameless (Pure.pure x) s ok := h

theorem Blameless.throw {e : Failure} (h : e.blamesPremise = false) :
    Blameless (MonadExcept.throw e : Action α) s ok := h

theorem Blameless.mono {a : Action α} {ok' : α → Session → Prop} (h : Blameless a s ok)
    (hok : ∀ x t, ok x t → ok' x t) : Blameless a s ok' := by
  unfold Blameless at h ⊢
  split at h
  · exact hok _ _ h
  · exact h

theorem Blameless.ensures {a : Action α} (h : Blameless a s ok) :
    Ensures a s ok fun _ => True := by
  unfold Blameless at h
  unfold Ensures
  cases hrun : a s with
  | ok x t =>
      rw [hrun] at h
      exact h
  | error e t => trivial

theorem Blameless.bind {a : Action β} {k : β → Action α} {mid : β → Session → Prop}
    (ha : Blameless a s mid) (hk : ∀ x t, mid x t → Blameless (k x) t ok) :
    Blameless (a >>= k) s ok := by
  change Blameless (EStateM.bind a k) s ok
  unfold Blameless EStateM.bind
  unfold Blameless at ha
  cases hrun : a s with
  | ok x t =>
      simp only [hrun] at ha
      exact hk x t ha
  | error e t => simpa only [hrun] using ha

theorem Blameless.get_bind {k : Session → Action α} (h : Blameless (k s) s ok) :
    Blameless (MonadState.get >>= k) s ok := h

theorem Blameless.modify_bind {g : Session → Session} {k : PUnit → Action α}
    (h : Blameless (k ⟨⟩) (g s) ok) : Blameless ((modify g : Action PUnit) >>= k) s ok := h

theorem Blameless.guard {c : Prop} [Decidable c] {e : Failure} {k : PUnit → Action α}
    (he : e.blamesPremise = false) (h : ¬c → Blameless (k ⟨⟩) s ok) :
    Blameless (if c then MonadExcept.throw e >>= k else k ⟨⟩) s ok := by
  split
  next => exact he
  next hc => exact h hc

theorem Blameless.certify {p : Proposition} {i : Inference FactId} {d : List FactId}
    {ok : Fact → Session → Prop} (h : ok (s.nextFact p) (s.certified p i d)) :
    Blameless (certify p i d) s ok := by
  simpa only [Blameless, certify_run] using h

/-- A loop that leaves the session alone does so blamelessly if each of its rounds does. -/
theorem Blameless.mapM {f : β → Action α} {R : β → α → Prop} {xs : List β}
    (h : ∀ x ∈ xs, Blameless (f x) s fun y t => t = s ∧ R x y) :
    Blameless (xs.mapM f) s fun ys t => t = s ∧ List.Forall₂ R xs ys := by
  induction xs with
  | nil => exact ⟨rfl, .nil⟩
  | cons x xs ih =>
      rw [List.mapM_cons]
      apply (h x List.mem_cons_self).bind
      intro y t hy
      rw [hy.1]
      apply (ih fun z hz => h z (List.mem_cons_of_mem _ hz)).bind
      intro ys u hys
      exact .pure ⟨hys.1, .cons hy.2 hys.2⟩

theorem require_blameless (rule : Rule) {p : Option Proposition} (h : s.Backs p) :
    Blameless (require rule p) s fun f t => t = s ∧ s.premise? p = some f := by
  cases p with
  | none => exact .throw rfl
  | some p =>
      unfold require
      apply Blameless.get_bind
      cases hp : s.provenFact? p with
      | some f => exact .pure ⟨rfl, hp⟩
      | none =>
          have hnone := h rfl
          rw [premise?, Option.bind_some, hp] at hnone
          cases hnone

/-- After a premise that is backed, the deduction goes on with the fact it is. -/
theorem Blameless.require_bind {rule : Rule} {p : Option Proposition} {k : Fact → Action α}
    (h : s.Backs p) (hk : ∀ f, s.premise? p = some f → Blameless (k f) s ok) :
    Blameless (require rule p >>= k) s ok := by
  apply (require_blameless rule h).bind
  intro f t hf
  rw [hf.1]
  exact hk f hf.2

theorem Blameless.requireAll_bind {rule : Rule} {ps : List (Option Proposition)}
    {k : List Fact → Action α} (h : ∀ p ∈ ps, s.Backs p)
    (hk : ∀ fs, ps.map s.premise? = fs.map some → Blameless (k fs) s ok) :
    Blameless (requireAll rule ps >>= k) s ok := by
  have hall : Blameless (requireAll rule ps) s fun fs t =>
      t = s ∧ List.Forall₂ (fun p f => s.premise? p = some f) ps fs :=
    .mapM fun p hp => require_blameless rule (h p hp)
  apply hall.bind
  intro fs t hfs
  rw [hfs.1]
  apply hk
  rw [← List.forall₂_eq_eq_eq, List.forall₂_map_left_iff, List.forall₂_map_right_iff]
  exact hfs.2

end Rules

theorem backs_proposition {s : Session} {f : Fact} (h : s.Proves f) :
    s.Backs (some f.proposition) := by
  intro _
  rw [premise?, Option.bind_some, provenFact?_proposition h]
  rfl

section Inferences
variable {s t : Session} {r : Rule} {ps : List (Option Proposition)} {handed : List Proposition}

/-- An inference that cites the facts which the premises are, and memberships. -/
theorem Cites.of_facts (fs ms : List Fact) {i : Inference FactId}
    (hfs : ps.map s.premise? = fs.map some) (hms : ∀ m ∈ ms, s.Admits handed m.id)
    (hi : ∀ j, j ∈ i.premises ↔ j ∈ fs.map Fact.id ∨ j ∈ ms.map Fact.id) :
    s.Cites ps handed i where
  all := by
    intro p hp f hf
    have hmem : some f ∈ fs.map some := by
      rw [← hfs, ← hf]
      exact List.mem_map_of_mem hp
    rw [hi]
    left
    apply List.mem_map_of_mem
    simpa using hmem
  only := by
    intro j hj
    cases (hi j).mp hj with
    | inl hfact =>
        left
        obtain ⟨f, hf, rfl⟩ := List.mem_map.mp hfact
        have hmem : some f ∈ ps.map s.premise? := by
          rw [hfs]
          exact List.mem_map_of_mem hf
        obtain ⟨p, hp, hpremise⟩ := List.mem_map.mp hmem
        exact ⟨p, hp, by rw [hpremise, Option.map_some]⟩
    | inr hmember =>
        obtain ⟨m, hm, rfl⟩ := List.mem_map.mp hmember
        exact .inr (hms m hm)

theorem Entered.records {f : Fact} (h : s.Entered r ps handed f t) :
    s.Records t r ps handed f := by
  obtain ⟨u, p, i, d, haside, hrule, hcites, rfl, rfl⟩ := h
  obtain ⟨_, _, _, rfl⟩ := haside
  exact ⟨Nat.le_refl _, _, (entry?_certified _ p i d _).trans (if_pos rfl), rfl, rfl, hrule, hcites⟩

theorem Cites.single {p : Option Proposition} {f : Fact} {i : Inference FactId}
    (hf : s.premise? p = some f) (hi : i.premises = [f.id]) : s.Cites [p] [] i :=
  .of_facts [f] [] (by simp [hf]) nofun (by simp [hi])

theorem Cites.pair {p q : Option Proposition} {f g : Fact} {i : Inference FactId}
    (hf : s.premise? p = some f) (hg : s.premise? q = some g) (hi : i.premises = [f.id, g.id]) :
    s.Cites [p, q] [] i :=
  .of_facts [f, g] [] (by simp [hf, hg]) nofun (by simp [hi])

/-- Several premises, of which the first one stands apart. -/
theorem Cites.first {p : Option Proposition} {f : Fact} {fs : List Fact} {i : Inference FactId}
    (hf : s.premise? p = some f) (hfs : ps.map s.premise? = fs.map some)
    (hi : i.premises = f.id :: fs.map Fact.id) : s.Cites (p :: ps) [] i :=
  .of_facts (f :: fs) [] (by simp [hf, hfs]) nofun (by simp [hi])

theorem filterMap_premise? (fs : List Fact) :
    (fs.map fun f => Argument.premise f.id).filterMap Argument.premise? = fs.map Fact.id := by
  induction fs with
  | nil => rfl
  | cons f fs ih => rw [List.map_cons, List.filterMap_cons, ih]; rfl

/-- An inference from one fact and further ones cites all of them. -/
theorem premises_of_facts (r : Rule) (f : Fact) (fs : List Fact) :
    Inference.premises { rule := r, first := some f.id, others := fs.map (.premise ·.id) } =
      f.id :: fs.map Fact.id := by
  rw [Inference.premises, filterMap_premise?]
  rfl

/-- An inference from a list of facts cites them all. -/
theorem Cites.whole {fs : List Fact} (hfs : ps.map s.premise? = fs.map some) :
    s.Cites ps []
      { rule := r, first := fs.head?.map Fact.id, others := fs.tail.map (.premise ·.id) } := by
  refine .of_facts fs [] hfs nofun fun j => ?_
  cases fs with
  | nil => simp [Inference.premises]
  | cons f fs =>
      have hpremises := premises_of_facts r f fs
      simp only [List.head?_cons, Option.map_some, List.tail_cons, hpremises]
      simp

/-- What is entered at the end of a tactic. -/
theorem Blameless.certify_cites {p : Proposition} {i : Inference FactId} {d : List FactId}
    (ht : s.Aside t) (hrule : i.rule = r) (hcites : s.Cites ps handed i) :
    Blameless (Session.certify p i d) t (s.Entered r ps handed) :=
  .certify ⟨t, p, i, d, ht, hrule, hcites, rfl, rfl⟩

theorem Blameless.derive_cites {p : Proposition} {i : Inference FactId} {premises : List Fact}
    (ht : s.Aside t) (hrule : i.rule = r) (hcites : s.Cites ps handed i) :
    Blameless (derive p i premises) t (s.Entered r ps handed) :=
  .get_bind (.certify_cites ht hrule hcites)

end Inferences

section Propositional
variable {s : Session} {p q : Option Proposition} {ps : List (Option Proposition)}

theorem modusPonens_blameless (hp : s.Backs p) (hq : s.Backs q) :
    Blameless (modusPonens p q) s (s.Entered .modusPonens [p, q] []) := by
  refine .require_bind hp fun f hf => .require_bind hq fun g hg => ?_
  split
  next =>
    split_ifs
    · exact .derive_cites (.refl s) rfl (.pair hf hg rfl)
    · exact .throw rfl
  next => exact .throw rfl

theorem modusTollens_blameless (hp : s.Backs p) (hq : s.Backs q) :
    Blameless (modusTollens p q) s (s.Entered .modusTollens [p, q] []) := by
  refine .require_bind hp fun f hf => .require_bind hq fun g hg => ?_
  split
  next =>
    split
    next =>
      split_ifs
      · exact .derive_cites (.refl s) rfl (.pair hf hg rfl)
      · exact .throw rfl
    next => exact .throw rfl
  next => exact .throw rfl

theorem hypotheticalSyllogism_blameless (hp : s.Backs p) (hq : s.Backs q) :
    Blameless (hypotheticalSyllogism p q) s (s.Entered .hypotheticalSyllogism [p, q] []) := by
  refine .require_bind hp fun f hf => .require_bind hq fun g hg => ?_
  split
  next =>
    split_ifs
    · exact .derive_cites (.refl s) rfl (.pair hf hg rfl)
    · exact .throw rfl
  next => exact .throw rfl

/-- What is assumed is proven, so an assumption is a premise like any other. -/
theorem requireAssumption_blameless (p : Option Proposition) :
    Blameless (requireAssumption p) s fun f t => t = s ∧ s.premise? p = some f := by
  apply Blameless.get_bind
  split
  next f hf =>
    split_ifs with hassumed
    · refine .pure ⟨rfl, ?_⟩
      obtain ⟨q, rfl, hq⟩ := Option.bind_eq_some_iff.mp hf
      have hholds : s.holds f.id = true := by
        cases he : s.entry? f.id with
        | none => simp [he] at hassumed
        | some e => simp_all [Session.holds, Entry.holds]
      rw [premise?, Option.bind_some, provenFact?, hq, Option.filter_some, if_pos hholds]
    · exact .throw rfl
  next => exact .throw rfl

theorem followedFrom_blameless (hp : s.Backs p) :
    Blameless (followedFrom p ps) s (s.Entered .followedFrom (p :: ps) []) := by
  refine .require_bind hp fun f hf => .guard rfl fun _ => ?_
  apply (Blameless.mapM fun q _ => requireAssumption_blameless q).bind
  intro fs t hfs
  have hpremises : ps.map s.premise? = fs.map some := by
    rw [← List.forall₂_eq_eq_eq, List.forall₂_map_left_iff, List.forall₂_map_right_iff]
    exact hfs.2
  rw [hfs.1]
  split
  next => exact .throw rfl
  next a rest =>
    apply Blameless.get_bind
    exact .certify_cites (.refl s) rfl (.first hf hpremises (premises_of_facts _ f (a :: rest)))

theorem conjoin_blameless (h : ∀ p ∈ ps, s.Backs p) :
    Blameless (conjoin ps) s (s.Entered .conjunctionIntro ps []) := by
  unfold conjoin
  refine .guard rfl fun _ => .requireAll_bind h fun fs hfs => ?_
  exact .derive_cites (.refl s) rfl (.whole hfs)

theorem requireConjuncts_blameless (hp : s.Backs p) :
    Blameless (requireConjuncts p) s fun x t => t = s ∧ s.premise? p = some x.1 := by
  refine .require_bind hp fun f hf => ?_
  split
  next => exact .pure ⟨rfl, hf⟩
  next => exact .throw rfl

theorem extract_blameless (i : Int) (hp : s.Backs p) :
    Blameless (extract p i) s (s.Entered .conjunctionElim [p] []) := by
  apply (requireConjuncts_blameless hp).bind
  intro x t hx
  rw [hx.1]
  dsimp only
  split
  next => exact .derive_cites (.refl s) rfl (.single hx.2 rfl)
  next => exact .throw rfl

/-- All conjuncts are entered by the same inference. -/
theorem split_blameless (hp : s.Backs p) :
    Blameless (split p) s fun fs t => ∀ f ∈ fs, s.Records t .conjunctionElim [p] [] f := by
  apply (requireConjuncts_blameless hp).bind
  intro x t hx
  rw [hx.1]
  have hcites : s.Cites [p] [] { rule := .conjunctionElim, first := some x.1.id } :=
    .single hx.2 rfl
  have hloop : ∀ (members : List Proposition) (u : Session), s.ledger.size ≤ u.ledger.size →
      Blameless (members.mapM (conjunct x.1)) u fun fs v =>
        (∀ id e, u.entry? id = some e → v.entry? id = some e) ∧
          ∀ f ∈ fs, s.Records v .conjunctionElim [p] [] f := by
    intro members
    induction members with
    | nil => exact fun u _ => .pure ⟨fun _ _ he => he, nofun⟩
    | cons member members ih =>
        intro u hsize
        rw [List.mapM_cons]
        have hfirst : Blameless (conjunct x.1 member) u fun f v =>
            s.ledger.size ≤ v.ledger.size ∧ (∀ id e, u.entry? id = some e → v.entry? id = some e) ∧
              s.Records v .conjunctionElim [p] [] f := by
          refine .get_bind (.certify ⟨?_, ?_, ?_⟩)
          · rw [certified_ledger, Array.size_push]
            omega
          · exact fun id e he => entry?_of_push_of_some (certified_ledger _ _ _ _) he
          · exact ⟨hsize, _, (entry?_certified _ _ _ _ _).trans (if_pos rfl), rfl, rfl, rfl, hcites⟩
        apply hfirst.bind
        intro f v hf
        apply (ih v hf.1).bind
        intro fs w hfs
        refine .pure ⟨fun id e he => hfs.1 id e (hf.2.1 id e he), ?_⟩
        obtain ⟨hnew, e, he, hrest⟩ := hf.2.2
        exact List.forall_mem_cons.mpr ⟨⟨hnew, e, hfs.1 _ e he, hrest⟩, hfs.2⟩
  exact (hloop x.2 s (Nat.le_refl _)).mono fun _ _ h => h.2

theorem disjoin_blameless (alternatives : List (Option Proposition)) (hp : s.Backs p) :
    Blameless (disjoin p alternatives) s (s.Entered .disjunctionIntro [p] []) := by
  refine .require_bind hp fun f hf => .guard rfl fun _ => ?_
  split
  next => exact .derive_cites (.refl s) rfl (.single hf rfl)
  next => exact .throw rfl

theorem contradiction_blameless {rule : Rule} {i : Inference FactId} (premises : List Fact)
    (hrule : i.rule = rule) (hcites : s.Cites ps [] i) :
    Blameless (contradiction rule i premises) s (s.Entered rule ps []) :=
  .get_bind (.guard rfl fun _ => .certify_cites (.refl s) hrule hcites)

theorem refuted_blameless (rule : Rule) (alone : Bool) (f : Fact) :
    Blameless (refuted rule alone f) s fun _ t => t = s := by
  unfold refuted
  split
  next => exact .pure rfl
  next members _ _ =>
    refine Blameless.mono (.mapM (R := fun _ _ => True) fun member _ => ?_) fun _ _ hns => hns.1
    split
    next => exact .pure ⟨rfl, trivial⟩
    next => exact .throw rfl
  next => exact .throw rfl

theorem removeRefuted_blameless (rule : Rule) (disjunction : Fact)
    (ns remaining : List Proposition) :
    Blameless (removeRefuted rule disjunction ns remaining) s fun _ t => t = s := by
  induction ns generalizing remaining with
  | nil => exact .pure rfl
  | cons n ns ih =>
      unfold removeRefuted
      split_ifs
      · exact ih _
      · exact .throw rfl

theorem resolveBy_blameless (rule : Rule) (hp : s.Backs p) (h : ∀ p ∈ ps, s.Backs p) :
    Blameless (resolveBy rule p ps) s (s.Entered rule (p :: ps) []) := by
  refine .require_bind hp fun f hf => ?_
  split
  next members _ _ =>
    refine .guard rfl fun _ => .requireAll_bind h fun fs hfs => ?_
    have hrefuted : Blameless (fs.mapM (refuted rule (fs.length == 1))) s fun ns t =>
        t = s ∧ List.Forall₂ (fun _ _ => True) fs ns :=
      .mapM fun g _ => (refuted_blameless rule _ g).mono fun _ _ ht => ⟨ht, trivial⟩
    apply hrefuted.bind
    intro ns t hns
    rw [hns.1]
    apply (removeRefuted_blameless rule f ns.flatten members).bind
    intro remaining u hu
    rw [hu]
    have hcites : s.Cites (p :: ps) []
        { rule, first := some f.id, others := fs.map (.premise ·.id) } :=
      .first hf hfs (premises_of_facts rule f fs)
    dsimp only
    split
    next => exact contradiction_blameless (f :: fs) rfl hcites
    next => exact .derive_cites (.refl s) rfl hcites
  next => exact .throw rfl

theorem unitResolve_blameless (hp : s.Backs p) (hq : s.Backs q) :
    Blameless (unitResolve p q) s (s.Entered .unitResolve [p, q] []) := by
  have hresolve := resolveBy_blameless .unitResolve hp (List.forall_mem_singleton.mpr hq)
  unfold unitResolve
  split
  next => exact hresolve
  next => exact hresolve
  next => exact .throw rfl

theorem resolveClauses_blameless (hp : s.Backs p) (hq : s.Backs q) :
    Blameless (resolveClauses p q) s (s.Entered .resolveClauses [p, q] []) := by
  refine .require_bind hp fun f hf => .require_bind hq fun g hg => ?_
  dsimp only
  split
  next => exact .throw rfl
  next =>
    split
    next => exact contradiction_blameless [f, g] rfl (.pair hf hg rfl)
    next => exact .derive_cites (.refl s) rfl (.pair hf hg rfl)

theorem exorEliminate_blameless (hp : s.Backs p) (hq : s.Backs q) :
    Blameless (exorEliminate p q) s (s.Entered .exorElim [p, q] []) := by
  refine .require_bind hp fun f hf => .require_bind hq fun g hg => ?_
  split
  next =>
    split
    next => exact .throw rfl
    next =>
      split
      next => exact .throw rfl
      next => exact .derive_cites (.refl s) rfl (.pair hf hg rfl)
  next => exact .throw rfl

theorem doubleNegation_blameless (hp : s.Backs p) :
    Blameless (doubleNegation p) s (s.Entered .doubleNegation [p] []) := by
  refine .require_bind hp fun f hf => ?_
  split
  next => exact .derive_cites (.refl s) rfl (.single hf rfl)
  next => exact .throw rfl

theorem contrapositive_blameless (hp : s.Backs p) :
    Blameless (contrapositive p) s (s.Entered .contrapositive [p] []) := by
  refine .require_bind hp fun f hf => ?_
  split
  next => exact .derive_cites (.refl s) rfl (.single hf rfl)
  next => exact .throw rfl

theorem iffIntro_blameless (hp : s.Backs p) (hq : s.Backs q) :
    Blameless (iffIntro p q) s (s.Entered .iffIntro [p, q] []) := by
  refine .require_bind hp fun f hf => .require_bind hq fun g hg => ?_
  split
  next =>
    split_ifs
    · exact .derive_cites (.refl s) rfl (.pair hf hg rfl)
    · exact .throw rfl
  next => exact .throw rfl

theorem requireBiconditional_blameless (hp : s.Backs p) :
    Blameless (requireBiconditional p) s fun x t => t = s ∧ s.premise? p = some x.1 := by
  refine .require_bind hp fun f hf => ?_
  split
  next => exact .pure ⟨rfl, hf⟩
  next => exact .throw rfl

theorem iffForward_blameless (hp : s.Backs p) :
    Blameless (iffForward p) s (s.Entered .iffElim [p] []) := by
  apply (requireBiconditional_blameless hp).bind
  intro x t hx
  rw [hx.1]
  exact .derive_cites (.refl s) rfl (.single hx.2 rfl)

theorem iffBackward_blameless (hp : s.Backs p) :
    Blameless (iffBackward p) s (s.Entered .iffElim [p] []) := by
  apply (requireBiconditional_blameless hp).bind
  intro x t hx
  rw [hx.1]
  exact .derive_cites (.refl s) rfl (.single hx.2 rfl)

theorem contradicts_blameless (hp : s.Backs p) (hq : s.Backs q) :
    Blameless (contradicts p q) s (s.Entered .contradicts [p, q] []) := by
  refine .require_bind hp fun f hf => .require_bind hq fun g hg => ?_
  split_ifs
  · exact contradiction_blameless [f, g] rfl (.pair hf hg rfl)
  · exact .throw rfl

theorem thusAssumptionsCannotAllHold_blameless (hp : s.Backs p) :
    Blameless (thusAssumptionsCannotAllHold p) s
      (s.Entered .assumptionsCannotAllHold [p] []) := by
  refine .require_bind hp fun f hf => ?_
  split
  next =>
    refine .get_bind (.guard rfl fun _ => ?_)
    exact .certify_cites (.refl s) rfl (.single hf rfl)
  next => exact .throw rfl

end Propositional

section Quantifiers
variable {s : Session} {p q : Option Proposition} {facts : List Proposition}

theorem lookup_admits {want : Proposition} {f : Fact} {element set : Term} {m : Option FactId}
    (hwant : want = .relation Relation.element.name [element, set] m)
    (h : s.lookup want facts = some f) : s.Admits facts f.id := by
  unfold lookup at h
  cases Option.or_eq_some_iff.mp h with
  | inl hgiven =>
      left
      obtain ⟨p, hp, hf⟩ := List.mem_filterMap.mp (List.mem_of_find?_eq_some hgiven)
      exact ⟨p, hp, by rw [hf, Option.map_some]⟩
  | inr hknown =>
      right
      obtain ⟨v, -, hv⟩ := List.exists_of_findSome?_eq_some hknown.2
      obtain ⟨id, hid, hfound⟩ := List.exists_of_findSome?_eq_some hv
      split_ifs at hfound
      obtain ⟨hentry, hequal⟩ := Option.filter_eq_some_iff.mp hfound
      obtain ⟨e, he, rfl⟩ := Option.map_eq_some_iff.mp hentry
      rw [hwant] at hequal
      obtain ⟨m', hstatement⟩ := eq_relation_of_equal hequal
      exact ⟨v, hid, e, he, element, set, m', hstatement⟩

theorem isProven_of_backs {f : Proposition} (h : s.Backs (some f)) : s.isProven f = true := by
  obtain ⟨g, hg⟩ := Option.isSome_iff_exists.mp (h rfl)
  rw [premise?, Option.bind_some, provenFact?] at hg
  obtain ⟨hfact, hholds⟩ := Option.filter_eq_some_iff.mp hg
  obtain ⟨id, hmark, hentry⟩ := Option.bind_eq_some_iff.mp hfact
  obtain ⟨e, -, rfl⟩ := Option.map_eq_some_iff.mp hentry
  rw [isProven, hmark]
  exact hholds

/-- Memberships that are proven are never rejected for not being so. -/
theorem rejectFacts_blameless (rule : Rule) (element : Term) (want : Proposition)
    (h : ∀ f ∈ facts, s.Backs (some f)) :
    Blameless (rejectFacts rule element want facts) s fun _ t => t = s := by
  induction facts with
  | nil => exact .pure rfl
  | cons f facts ih =>
      have hproven := isProven_of_backs (h f List.mem_cons_self)
      have hrest := ih fun g hg => h g (List.mem_cons_of_mem _ hg)
      unfold rejectFacts
      apply Blameless.get_bind
      simp only [hproven, Bool.not_true, Bool.false_eq_true, ↓reduceIte]
      split
      next => exact .guard rfl fun _ => hrest
      next => exact hrest

theorem membership_blameless (rule : Rule) (element set : Term)
    (h : ∀ f ∈ facts, s.Backs (some f)) :
    Blameless (membership rule element set facts) s fun m t => t = s ∧ s.Admits facts m.id := by
  apply Blameless.get_bind
  split
  next f hf => exact .pure ⟨rfl, lookup_admits rfl hf⟩
  next => exact (rejectFacts_blameless rule element _ h).bind fun _ _ _ => .throw rfl

theorem memberships_blameless (rule : Rule) (σ : Substitution)
    (layers : List (Variable × Option Term)) (h : ∀ f ∈ facts, s.Backs (some f)) :
    Blameless (memberships rule σ facts layers) s fun ms t =>
      t = s ∧ ∀ m ∈ ms, s.Admits facts m.id := by
  induction layers with
  | nil => exact .pure ⟨rfl, nofun⟩
  | cons layer layers ih =>
      obtain ⟨v, domain⟩ := layer
      cases domain with
      | none => exact ih
      | some set =>
          unfold memberships
          split
          next => exact .throw rfl
          next t _ =>
            apply (membership_blameless rule t _ h).bind
            intro m u hm
            rw [hm.1]
            apply ih.bind
            intro ms w hms
            exact .pure ⟨hms.1, List.forall_mem_cons.mpr ⟨hm.2, hms.2⟩⟩

theorem thusForall_blameless (v : Option Variable) (hp : s.Backs p) :
    Blameless (thusForall p v) s (s.Entered .thusForall [p] []) := by
  refine .require_bind hp fun f hf => ?_
  split
  next => exact .throw rfl
  next v =>
    refine .guard rfl fun _ => .get_bind (.modify_bind ?_)
    exact .derive_cites ⟨_, _, _, rfl⟩ rfl (.single hf rfl)

theorem abstractWitness_blameless (f : Fact) (name : String) (witness : Term) (paths : List Path) :
    Blameless (abstractWitness f name witness paths) s fun _ t => s.Aside t := by
  have hnew : Blameless (newVariable name) s fun _ t => s.Aside t := ⟨_, _, _, rfl⟩
  apply hnew.bind
  intro v t ht
  exact .guard rfl fun _ => .pure ht

theorem thusThereExists_blameless (name : String) (witness : Term) (paths : List Path)
    (hp : s.Backs p) :
    Blameless (thusThereExists p name witness paths) s (s.Entered .thusThereExists [p] []) := by
  refine .require_bind hp fun f hf => ?_
  apply (abstractWitness_blameless f name witness paths).bind
  intro x t ht
  exact .derive_cites ht rfl (.single hf rfl)

theorem thusThereExistsIn_blameless (name : String) (witness set : Term) (paths : List Path)
    (hp : s.Backs p) (hq : s.Backs q) :
    Blameless (thusThereExistsIn p name witness set q paths) s
      (s.Entered .thusThereExists [p] q.toList) := by
  refine .require_bind hp fun f hf => ?_
  have hgiven : ∀ g ∈ q.toList, s.Backs (some g) := by
    intro g hg
    rw [Option.mem_toList] at hg
    rw [← hg]
    exact hq
  apply (membership_blameless .thusThereExists witness set hgiven).bind
  intro m t hm
  rw [hm.1]
  apply (abstractWitness_blameless f name witness paths).bind
  intro x u hu
  refine .derive_cites hu rfl ?_
  exact .of_facts [f] [m] (by simp [hf]) (List.forall_mem_singleton.mpr hm.2)
    (by simp [Inference.premises, Argument.premise?, eq_comm])

theorem inParticular_blameless (t : Term) (hp : s.Backs p)
    (h : ∀ f ∈ facts, s.Backs (some f)) :
    Blameless (inParticular p t facts) s (s.Entered .inParticular [p] facts) := by
  refine .require_bind hp fun f hf => ?_
  split
  next =>
    refine .derive_cites (.refl s) rfl ?_
    exact .of_facts [f] [] (by simp [hf]) nofun
      (by simp [Inference.premises, Argument.premise?])
  next v set inner _ _ =>
    apply (membership_blameless .inParticular t set h).bind
    intro m u hm
    rw [hm.1]
    refine .derive_cites (.refl s) rfl ?_
    exact .of_facts [f] [m] (by simp [hf]) (List.forall_mem_singleton.mpr hm.2)
      (by simp [Inference.premises, Argument.premise?, eq_comm])
  next => exact .throw rfl

theorem isSpecialCaseOf_blameless (target : Proposition) (hp : s.Backs p)
    (h : ∀ f ∈ facts, s.Backs (some f)) :
    Blameless (isSpecialCaseOf target p facts) s (s.Entered .isSpecialCaseOf [p] facts) := by
  refine .require_bind hp fun f hf => ?_
  split
  next => exact .throw rfl
  next layers body _ _ =>
    split
    next => exact .throw rfl
    next σ _ =>
      apply (memberships_blameless .isSpecialCaseOf σ layers h).bind
      intro ms t hms
      rw [hms.1]
      refine .derive_cites (.refl s) rfl ?_
      exact .of_facts [f] ms (by simp [hf]) hms.2
        (by simp [premises_of_facts])

theorem quantifiedModusPonens_blameless (hp : s.Backs p) (hq : s.Backs q)
    (h : ∀ f ∈ facts, s.Backs (some f)) :
    Blameless (quantifiedModusPonens p q facts) s
      (s.Entered .quantifiedModusPonens [p, q] facts) := by
  refine .require_bind hp fun f hf => .require_bind hq fun g hg => ?_
  split
  next layer layers a b _ _ =>
    dsimp only
    split
    next => exact .throw rfl
    next σ _ =>
      split
      next => exact .throw rfl
      next =>
        apply (memberships_blameless .quantifiedModusPonens σ (layer :: layers) h).bind
        intro ms t hms
        rw [hms.1]
        refine .derive_cites (.refl s) rfl ?_
        have hpremises := premises_of_facts .quantifiedModusPonens f (g :: ms)
        rw [List.map_cons] at hpremises
        exact .of_facts [f, g] ms (by simp [hf, hg]) hms.2
          (by simp [hpremises, or_assoc])
  next => exact .throw rfl

theorem existentialElimination_blameless (hp : s.Backs p) (hq : s.Backs q) :
    Blameless (existentialElimination p q) s (s.Entered .existentialElim [p, q] []) := by
  refine .require_bind hp fun f hf => .require_bind hq fun g hg => ?_
  split
  next =>
    refine .guard rfl fun _ => ?_
    split
    next =>
      refine .guard rfl fun _ => .guard rfl fun _ => ?_
      exact .derive_cites (.refl s) rfl (.pair hf hg rfl)
    next => exact .throw rfl
  next => exact .throw rfl

end Quantifiers

section Relations
variable {s : Session} {p q : Option Proposition} {links : List (Option Proposition)}

theorem reflexivity_blameless (t : Term) :
    Blameless (reflexivity t) s (s.Entered .reflexivity [] []) :=
  .certify_cites (.refl s) rfl ⟨nofun, nofun⟩

theorem symmetry_blameless (hp : s.Backs p) :
    Blameless (symmetry p) s (s.Entered .symmetry [p] []) := by
  refine .require_bind hp fun f hf => ?_
  split
  next =>
    apply Blameless.get_bind
    dsimp only
    split
    next => exact .derive_cites (.refl s) rfl (.single hf rfl)
    next => exact .throw rfl
  next => exact .throw rfl

theorem substitute_blameless (paths : List Path) (hp : s.Backs p) (hq : s.Backs q) :
    Blameless (substitute p q paths) s (s.Entered .substitute [p, q] []) := by
  refine .require_bind hp fun f hf => .require_bind hq fun g hg => ?_
  split
  next =>
    refine .guard rfl fun _ => ?_
    refine .guard rfl fun _ => ?_
    exact .derive_cites (.refl s) rfl (.pair hf hg rfl)
  next => exact .throw rfl

theorem bySimplification_blameless (target : Proposition) :
    Blameless (bySimplification target) s (s.Entered .bySimplification [] []) := by
  unfold bySimplification
  dsimp only
  split
  next =>
    split
    next => exact .throw rfl
    next =>
      refine .guard rfl fun _ => ?_
      exact .certify_cites (.refl s) rfl ⟨nofun, nofun⟩
  next => exact .throw rfl

theorem followChain_blameless (order : Order) (chain : List Fact) (previous : Option Fact)
    (acc : Chain) (rest : List Fact) :
    Blameless (followChain order chain previous acc rest) s fun _ t => t = s := by
  induction rest generalizing previous acc with
  | nil => exact .pure rfl
  | cons f rest ih =>
      unfold followChain
      split
      next => exact .throw rfl
      next =>
        cases previous
        on_goal 2 => refine .guard rfl fun _ => ?_
        all_goals
          split
          next => exact .throw rfl
          next =>
            split
            next => exact .throw rfl
            next => exact ih _ _

theorem transitiveIn_blameless (order : Order) (want : String) (h : ∀ p ∈ links, s.Backs p) :
    Blameless (transitiveIn order want links) s (s.Entered .transitive links []) := by
  unfold transitiveIn
  split
  next => exact .throw rfl
  next goal _ =>
    refine .guard rfl fun _ => .requireAll_bind h fun chain hchain => ?_
    apply (followChain_blameless order chain none ⟨.level, false⟩ chain).bind
    intro found t ht
    rw [ht]
    refine .guard rfl fun _ => .guard rfl fun _ => .guard rfl fun _ => ?_
    split
    next =>
      exact .derive_cites (.refl s) rfl (.whole hchain)
    next => exact .throw rfl

theorem transitive_blameless (want : String) (h : ∀ p ∈ links, s.Backs p) :
    Blameless (transitive want links) s (s.Entered .transitive links []) :=
  .get_bind (transitiveIn_blameless _ want h)

end Relations

end Session

end Entailment
