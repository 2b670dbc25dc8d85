import Entailment.Proofs.Equivalence
import Entailment.Proofs.Premises
import Entailment.Proofs.Searching

/-!
# Traces and the ledger

A trace tells how a search arrived at a fact, and the ledger tells how the fact was inferred. They
agree: the fact of every node is proven, the ledger has it by the rule of the node, and what the
inference cites are the facts of the premises, and otherwise only memberships that were known before
the search. This is shown for every step that applies the tactic of its rule. It holds of all traces
that a search works with while it speculates, and the traces below one that is kept are kept, too.
-/
namespace Entailment

open Session

namespace Session

namespace Tactic

/-- The premises that a tactic is applied to. -/
def premises : Tactic → List (Option Proposition)
  | modusPonens p q | modusTollens p q | hypotheticalSyllogism p q | unitResolve p q
  | resolveClauses p q | exorEliminate p q | iffIntro p q | contradicts p q
  | quantifiedModusPonens p q _ | existentialElimination p q | substitute p q _ => [p, q]
  | followedFrom p ps | resolve p ps => p :: ps
  | extract p _ | split p | disjoin p _ | doubleNegation p | contrapositive p | iffForward p
  | iffBackward p | thusAssumptionsCannotAllHold p | thusForall p _ | thusThereExists p _ _ _
  | thusThereExistsIn p _ _ _ _ _ | inParticular p _ _ | isSpecialCaseOf _ p _ | symmetry p => [p]
  | conjoin ps | transitiveIn _ _ ps | transitive _ ps => ps
  | reflexivity _ | bySimplification _ => []

/-- The memberships that a tactic is handed. -/
def handed : Tactic → List Proposition
  | thusThereExistsIn _ _ _ _ given _ => given.toList
  | inParticular _ _ facts | isSpecialCaseOf _ _ facts | quantifiedModusPonens _ _ facts => facts
  | _ => []

/-- A deduction with one result. -/
def alone (a : Action Fact) : Action (List Fact) := return [← a]

/-- The deduction that a tactic is, with all its results. -/
def perform : Tactic → Action (List Fact)
  | modusPonens p imp => alone (Session.modusPonens p imp)
  | modusTollens notQ imp => alone (Session.modusTollens notQ imp)
  | hypotheticalSyllogism ab bc => alone (Session.hypotheticalSyllogism ab bc)
  | followedFrom p assumptions => alone (Session.followedFrom p assumptions)
  | conjoin ps => alone (Session.conjoin ps)
  | extract p i => alone (Session.extract p i)
  | split p => Session.split p
  | disjoin p alternatives => alone (Session.disjoin p alternatives)
  | resolve p refutations => alone (Session.resolve p refutations)
  | unitResolve p refutation => alone (Session.unitResolve p refutation)
  | resolveClauses lhs rhs => alone (Session.resolveClauses lhs rhs)
  | exorEliminate exor p => alone (Session.exorEliminate exor p)
  | doubleNegation p => alone (Session.doubleNegation p)
  | contrapositive imp => alone (Session.contrapositive imp)
  | iffIntro ab ba => alone (Session.iffIntro ab ba)
  | iffForward p => alone (Session.iffForward p)
  | iffBackward p => alone (Session.iffBackward p)
  | contradicts p q => alone (Session.contradicts p q)
  | thusAssumptionsCannotAllHold c => alone (Session.thusAssumptionsCannotAllHold c)
  | thusForall p v => alone (Session.thusForall p v)
  | thusThereExists p name witness paths => alone (Session.thusThereExists p name witness paths)
  | thusThereExistsIn p name witness set given paths =>
      alone (Session.thusThereExistsIn p name witness set given paths)
  | inParticular p t facts => alone (Session.inParticular p t facts)
  | isSpecialCaseOf p universal facts => alone (Session.isSpecialCaseOf p universal facts)
  | quantifiedModusPonens universal p facts =>
      alone (Session.quantifiedModusPonens universal p facts)
  | existentialElimination existential universal =>
      alone (Session.existentialElimination existential universal)
  | reflexivity t => alone (Session.reflexivity t)
  | symmetry p => alone (Session.symmetry p)
  | substitute equality p paths => alone (Session.substitute equality p paths)
  | bySimplification p => alone (Session.bySimplification p)
  | transitiveIn order want links => alone (Session.transitiveIn order want links)
  | transitive want links => alone (Session.transitive want links)

theorem after_alone (a : Action Fact) (s : Session) : after (alone a) s = after a s := by
  have hrun : alone a s = EStateM.bind a (fun f => Pure.pure [f]) s := rfl
  rw [after, after, hrun, EStateM.bind]
  cases a s with
  | ok f t => rfl
  | error e t => rfl

theorem after_perform (t : Tactic) (s : Session) : after t.perform s = t.apply s := by
  cases t with
  | split p => rfl
  | _ => exact after_alone _ s

theorem perform_ensures (t : Tactic) (s : Session) :
    Ensures t.perform s (fun _ u => Deduces (fun _ => True) s u) (Deduces (fun _ => True) s) := by
  apply Ensures.of_after
  rw [after_perform]
  exact .tactic t .refl trivial

theorem alone_blameless {a : Action Fact} {s : Session} {r : Rule} {ps : List (Option Proposition)}
    {handed : List Proposition} (h : Blameless a s (s.Entered r ps handed)) :
    Blameless (alone a) s fun fs u => ∀ f ∈ fs, s.Records u r ps handed f := by
  apply h.bind
  intro f u hf
  exact .pure (List.forall_mem_singleton.mpr hf.records)

/-- What a tactic enters cites its premises, and nothing else but memberships. -/
theorem perform_blameless (t : Tactic) {s : Session} (hpremises : ∀ p ∈ t.premises, s.Backs p)
    (hhanded : ∀ p ∈ t.handed, s.Backs (some p)) :
    Blameless t.perform s fun fs u =>
      ∀ f ∈ fs, s.Records u t.rule t.premises t.handed f := by
  have hone : ∀ {p}, t.premises = [p] → s.Backs p := fun h => hpremises _ (by simp [h])
  have htwo : ∀ {p q}, t.premises = [p, q] → s.Backs p ∧ s.Backs q := fun h =>
    ⟨hpremises _ (by simp [h]), hpremises _ (by simp [h])⟩
  cases t with
  | modusPonens p imp => exact alone_blameless (modusPonens_blameless (htwo rfl).1 (htwo rfl).2)
  | modusTollens notQ imp =>
      exact alone_blameless (modusTollens_blameless (htwo rfl).1 (htwo rfl).2)
  | hypotheticalSyllogism ab bc =>
      exact alone_blameless (hypotheticalSyllogism_blameless (htwo rfl).1 (htwo rfl).2)
  | followedFrom p assumptions =>
      exact alone_blameless (followedFrom_blameless (hpremises p List.mem_cons_self))
  | conjoin ps => exact alone_blameless (conjoin_blameless hpremises)
  | extract p i => exact alone_blameless (extract_blameless i (hone rfl))
  | split p => exact split_blameless (hone rfl)
  | disjoin p alternatives => exact alone_blameless (disjoin_blameless alternatives (hone rfl))
  | resolve p refutations =>
      have hall := List.forall_mem_cons.mp hpremises
      exact alone_blameless (resolveBy_blameless .resolve hall.1 hall.2)
  | unitResolve p refutation =>
      exact alone_blameless (unitResolve_blameless (htwo rfl).1 (htwo rfl).2)
  | resolveClauses lhs rhs =>
      exact alone_blameless (resolveClauses_blameless (htwo rfl).1 (htwo rfl).2)
  | exorEliminate exor p =>
      exact alone_blameless (exorEliminate_blameless (htwo rfl).1 (htwo rfl).2)
  | doubleNegation p => exact alone_blameless (doubleNegation_blameless (hone rfl))
  | contrapositive imp => exact alone_blameless (contrapositive_blameless (hone rfl))
  | iffIntro ab ba => exact alone_blameless (iffIntro_blameless (htwo rfl).1 (htwo rfl).2)
  | iffForward p => exact alone_blameless (iffForward_blameless (hone rfl))
  | iffBackward p => exact alone_blameless (iffBackward_blameless (hone rfl))
  | contradicts p q => exact alone_blameless (contradicts_blameless (htwo rfl).1 (htwo rfl).2)
  | thusAssumptionsCannotAllHold c =>
      exact alone_blameless (thusAssumptionsCannotAllHold_blameless (hone rfl))
  | thusForall p v => exact alone_blameless (thusForall_blameless v (hone rfl))
  | thusThereExists p name witness paths =>
      exact alone_blameless (thusThereExists_blameless name witness paths (hone rfl))
  | thusThereExistsIn p name witness set given paths =>
      have hgiven : s.Backs given := by
        cases given with
        | none => exact nofun
        | some q => exact hhanded q (by simp [handed])
      exact alone_blameless (thusThereExistsIn_blameless name witness set paths (hone rfl) hgiven)
  | inParticular p t facts => exact alone_blameless (inParticular_blameless t (hone rfl) hhanded)
  | isSpecialCaseOf p universal facts =>
      exact alone_blameless (isSpecialCaseOf_blameless p (hone rfl) hhanded)
  | quantifiedModusPonens universal p facts =>
      exact alone_blameless
        (quantifiedModusPonens_blameless (htwo rfl).1 (htwo rfl).2 hhanded)
  | existentialElimination existential universal =>
      exact alone_blameless (existentialElimination_blameless (htwo rfl).1 (htwo rfl).2)
  | reflexivity t => exact alone_blameless (reflexivity_blameless t)
  | symmetry p => exact alone_blameless (symmetry_blameless (hone rfl))
  | substitute equality p paths =>
      exact alone_blameless (substitute_blameless paths (htwo rfl).1 (htwo rfl).2)
  | bySimplification p => exact alone_blameless (bySimplification_blameless p)
  | transitiveIn order want links =>
      exact alone_blameless (transitiveIn_blameless order want hpremises)
  | transitive want links => exact alone_blameless (transitive_blameless want hpremises)

end Tactic

end Session

/-- The step is the tactic of its rule, applied to the premises it is given. -/
def Search.Step.Wraps (step : Search.Step) : Prop :=
  ∀ (s : Session) (ps : List Proposition), ps.length = step.arity →
    ∃ t : Tactic, t.rule = step.rule ∧ (∀ p, p ∈ t.premises ↔ ∃ q ∈ ps, p = some q) ∧
      (∀ p ∈ t.handed, p ∈ ps) ∧ step.apply ps s = t.perform s

/-- The entry is a membership in `u`, and was known in `s`. -/
def Session.Knew (s u : Session) (id : FactId) : Prop :=
  (∃ v, id ∈ s.known v) ∧ ∃ e, u.entry? id = some e ∧
    ∃ element set m, e.statement = .relation Relation.element.name [element, set] m

/-- All that a trace tells of a derivation from `base` is borne out by the ledger of `u`. Here `s`
is the session before the search. -/
inductive Trace.Faithful (s : Session) (base : List Proposition) (u : Session) : Trace → Prop
  | given {f : Fact} {p : Proposition} : p ∈ base → s.provenFact? p = some f → u.Proves f →
      Faithful s base u (.given f)
  | derived {rule : Rule} {premises : List Trace} {f : Fact} {e : Entry} :
      u.entry? f.id = some e → e.statement = f.statement → e.holds = true →
      e.inference.rule = rule →
      (∀ x ∈ premises, x.result.id ∈ e.inference.premises) →
      (∀ j ∈ e.inference.premises, j.index < f.id.index ∧
        ((∃ x ∈ premises, x.result.id = j) ∨ s.Knew u j)) →
      (∀ x ∈ premises, Faithful s base u x) → Faithful s base u (.derived rule premises f)

section Faithful
variable {s u v : Session} {base : List Proposition} {x : Trace}

theorem Trace.Faithful.proves (h : x.Faithful s base u) : u.Proves x.result := by
  cases h with
  | given _ _ hproves => exact hproves
  | derived he hstatement hholds _ _ _ _ => exact ⟨_, he, hstatement, hholds⟩

theorem Trace.Faithful.mono (h : x.Faithful s base u)
    (huv : ∀ id e, u.entry? id = some e → v.entry? id = some e) : x.Faithful s base v := by
  induction h with
  | given hp hf hproves =>
      obtain ⟨e, he, hrest⟩ := hproves
      exact .given hp hf ⟨e, huv _ e he, hrest⟩
  | derived he hstatement hholds hrule hall honly _ ih =>
      refine .derived (huv _ _ he) hstatement hholds hrule hall (fun j hj => ?_) ih
      obtain ⟨hlt, hcited⟩ := honly j hj
      refine ⟨hlt, hcited.imp_right fun hknew => ?_⟩
      obtain ⟨hknown, e, he, hmember⟩ := hknew
      exact ⟨hknown, e, huv j e he, hmember⟩

theorem Trace.Faithful.deduces {R : Rule → Prop} (h : x.Faithful s base u) (hv : Deduces R u v) :
    x.Faithful s base v := h.mono fun _ _ he => hv.extends.entry_eq he

/-- What a tactic records about premises that traces end in continues these traces. -/
theorem Trace.Faithful.of_records {rule : Rule} {xs : List Trace} {f : Fact}
    {ps : List (Option Proposition)} {handed : List Proposition} (hu : Speculates s u)
    (hxs : ∀ x ∈ xs, x.Faithful s base v ∧ u.Proves x.result)
    (hps : ∀ p, p ∈ ps ↔ ∃ x ∈ xs, p = some x.result.proposition)
    (hhanded : ∀ p ∈ handed, some p ∈ ps)
    (huv : ∀ id e, u.entry? id = some e → v.entry? id = some e)
    (hf : u.Records v rule ps handed f) :
    (Trace.derived rule xs f).Faithful s base v := by
  obtain ⟨hnew, e, he, hstatement, hholds, hrule, hcites⟩ := hf
  have hpremise : ∀ {p j}, p ∈ ps → (u.premise? p).map Fact.id = some j →
      j.index < f.id.index ∧ ∃ x ∈ xs, x.result.id = j := by
    intro p j hp hj
    obtain ⟨x, hx, rfl⟩ := (hps p).mp hp
    rw [premise?, Option.bind_some, provenFact?_proposition (hxs x hx).2] at hj
    have hid : x.result.id = j := Option.some.inj hj
    have hlt : x.result.id.index < u.ledger.size := (hxs x hx).2.lists.index_lt
    exact ⟨by rw [← hid]; omega, x, hx, hid⟩
  refine .derived he hstatement hholds hrule (fun x hx => ?_) (fun j hj => ?_)
    fun x hx => (hxs x hx).1
  · have hp := (hps _).mpr ⟨x, hx, rfl⟩
    apply hcites.all _ hp
    rw [premise?, Option.bind_some, provenFact?_proposition (hxs x hx).2]
  · cases hcites.only j hj with
    | inl hcited =>
        obtain ⟨p, hp, hid⟩ := hcited
        have hfound := hpremise hp hid
        exact ⟨hfound.1, .inl hfound.2⟩
    | inr hadmitted =>
        cases hadmitted with
        | inl hgiven =>
            obtain ⟨p, hp, hid⟩ := hgiven
            have hfound := hpremise (hhanded p hp) hid
            exact ⟨hfound.1, .inl hfound.2⟩
        | inr hknown =>
            obtain ⟨v, hv, e', he', hmember⟩ := hknown
            have hlt := entry?_lt he'
            have hbefore : j ∈ s.known v := by
              rw [known, hu.frame.2.2.1] at hv
              exact hv
            exact ⟨by omega, .inr ⟨⟨v, hbefore⟩, e', huv j e' he', hmember⟩⟩

end Faithful

namespace Search
open Trace

section Rounds
variable {s u v : Session} {base : List Proposition} {target : Proposition} {k : Nat} {x : Trace}

/-- The trace is borne out by the ledger of `u`, and no deeper than given. -/
structure Reached (s : Session) (base : List Proposition) (u : Session) (k : Nat) (x : Trace) :
    Prop where
  faithful : x.Faithful s base u
  depth_le : x.depth ≤ k

/-- What a round has come up with is borne out, and what it has found is the target. -/
structure Fruitful (s : Session) (base : List Proposition) (target : Proposition) (u : Session)
    (k : Nat) (r : Round) : Prop where
  derived : ∀ x ∈ r.derived, Reached s base u k x
  found : ∀ x ∈ r.found, Reached s base u k x ∧ x.result.statement.equivalent target = true

/-- A trace of the target such as a search with `n` rounds finds. -/
structure Attained (s : Session) (base : List Proposition) (target : Proposition) (u : Session)
    (n : Nat) (x : Trace) : Prop where
  faithful : x.Faithful s base u
  equivalent : x.result.statement.equivalent target = true
  depth_le : x.depth ≤ n + 1
  rule : n < x.depth → x.rule? = some .isSpecialCaseOf

theorem depth_derived_le {rule : Rule} {xs : List Trace} {f : Fact} (h : ∀ x ∈ xs, x.depth ≤ k) :
    (Trace.derived rule xs f).depth ≤ k + 1 := by
  rw [Trace.depth]
  induction xs with
  | nil => exact Nat.zero_le _
  | cons x xs ih =>
      have hall := List.forall_mem_cons.mp h
      rw [Trace.depthOver]
      exact Nat.max_le.mpr ⟨Nat.succ_le_succ hall.1, ih hall.2⟩

theorem Reached.deduces {R : Rule → Prop} (h : Reached s base u k x) (hv : Deduces R u v) :
    Reached s base v k x := ⟨h.faithful.deduces hv, h.depth_le⟩

theorem Reached.later {j : Nat} (h : Reached s base u k x) (hj : k ≤ j) : Reached s base u j x :=
  ⟨h.faithful, Nat.le_trans h.depth_le hj⟩

theorem Fruitful.deduces {R : Rule → Prop} {r : Round} (h : Fruitful s base target u k r)
    (hv : Deduces R u v) : Fruitful s base target v k r :=
  ⟨fun x hx => (h.derived x hx).deduces hv,
    fun x hx => ⟨(h.found x hx).1.deduces hv, (h.found x hx).2⟩⟩

theorem Fruitful.absorb {working premises : List Trace} {rule : Rule} {r : Round} {fs : List Fact}
    (h : Fruitful s base target u k r)
    (hfs : ∀ f ∈ fs, Reached s base u k (.derived rule premises f)) :
    Fruitful s base target u k (r.absorb working target rule premises fs) := by
  induction fs generalizing r with
  | nil => exact h
  | cons f fs ih =>
      have hall := List.forall_mem_cons.mp hfs
      rw [Round.absorb]
      split
      next htarget =>
        refine ⟨h.derived, fun x hx => ?_⟩
        cases hx
        exact ⟨hall.1, htarget⟩
      next =>
        split
        next => exact ih h hall.2
        next =>
          refine ih ⟨fun x hx => ?_, h.found⟩ hall.2
          cases List.mem_append.mp hx with
          | inl hold => exact h.derived x hold
          | inr hnew =>
              rw [List.mem_singleton.mp hnew]
              exact hall.1

/-- What a deduction records about facts that traces end in continues the traces. -/
theorem explores_of_records {α : Type} {a : Action α} {results : α → List Fact} {rule : Rule}
    {xs : List Trace} {ps : List (Option Proposition)} {handed : List Proposition}
    (hu : Speculates s u)
    (hafter : Ensures a u (fun _ v => Deduces (fun _ => True) u v) (Deduces (fun _ => True) u))
    (hrecords : Blameless a u fun y v => ∀ f ∈ results y, u.Records v rule ps handed f)
    (hps : ∀ p, p ∈ ps ↔ ∃ x ∈ xs, p = some x.result.proposition)
    (hhanded : ∀ p ∈ handed, some p ∈ ps) (hxs : ∀ x ∈ xs, Reached s base u k x) :
    Explores a u fun y v => ∀ f ∈ results y, Reached s base v (k + 1) (.derived rule xs f) := by
  refine (hafter.and hrecords.ensures).mono (fun y v hv => ⟨hv.1, fun f hf => ?_⟩) fun _ hv => hv.1
  have hentry : ∀ id e, u.entry? id = some e → v.entry? id = some e := fun _ _ he =>
    hv.1.extends.entry_eq he
  have htraces : ∀ x ∈ xs, x.Faithful s base v ∧ u.Proves x.result := fun x hx =>
    ⟨(hxs x hx).faithful.deduces hv.1, (hxs x hx).faithful.proves⟩
  exact ⟨.of_records hu htraces hps hhanded hentry (hv.2 f hf),
    depth_derived_le fun x hx => (hxs x hx).depth_le⟩

theorem backs_of_reached {xs : List Trace} (hxs : ∀ x ∈ xs, Reached s base u k x)
    {p : Option Proposition} (hp : ∃ x ∈ xs, p = some x.result.proposition) : u.Backs p := by
  obtain ⟨x, hx, rfl⟩ := hp
  exact backs_proposition (hxs x hx).faithful.proves

theorem Step.Wraps.explores {step : Search.Step} {xs : List Trace} (hstep : step.Wraps)
    (hu : Speculates s u) (hlength : xs.length = step.arity)
    (hxs : ∀ x ∈ xs, Reached s base u k x) :
    Explores (step.apply (xs.map (·.result.proposition))) u fun fs v =>
      ∀ f ∈ fs, Reached s base v (k + 1) (.derived step.rule xs f) := by
  obtain ⟨t, hrule, hpremises, hhanded, happly⟩ :=
    hstep u (xs.map (·.result.proposition)) (by rw [List.length_map, hlength])
  have hps : ∀ p, p ∈ t.premises ↔ ∃ x ∈ xs, p = some x.result.proposition := by
    intro p
    rw [hpremises]
    simp
  have hbacked : ∀ p ∈ t.handed, some p ∈ t.premises := fun p hp =>
    (hpremises _).mpr ⟨p, hhanded p hp, rfl⟩
  have hrecords := t.perform_blameless (fun p hp => backs_of_reached hxs ((hps p).mp hp))
    fun p hp => backs_of_reached hxs ((hps _).mp (hbacked p hp))
  rw [hrule] at hrecords
  have hperform := explores_of_records hu (t.perform_ensures u) hrecords hps hbacked hxs
  unfold Explores Ensures at hperform ⊢
  rw [happly]
  exact hperform

theorem mem_selections {α : Type} {xs ys : List α} {n : Nat} {candidates : List (List α)}
    (h : selections xs n = some candidates) (hys : ys ∈ candidates) :
    ys.length = n ∧ ∀ y ∈ ys, y ∈ xs := by
  unfold selections at h
  split at h
  next =>
    cases h
    obtain ⟨x, hx, rfl⟩ := List.mem_map.mp hys
    exact ⟨rfl, List.forall_mem_singleton.mpr hx⟩
  next =>
    cases h
    obtain ⟨⟨x, i⟩, hx, hpairs⟩ := List.mem_flatMap.mp hys
    obtain ⟨⟨y, j⟩, hy, hpair⟩ := List.mem_filterMap.mp hpairs
    dsimp only at hpair
    split_ifs at hpair
    cases hpair
    have hmem : ∀ z l, (z, l) ∈ xs.zipIdx → z ∈ xs := fun z l hz => by
      simpa using List.mem_map_of_mem (f := Prod.fst) hz
    exact ⟨rfl, List.forall_mem_cons.mpr ⟨hmem x i hx, List.forall_mem_singleton.mpr (hmem y j hy)⟩⟩
  next => cases h

theorem tryStep_explores {working : List Trace} {step : Search.Step} (hstep : step.Wraps)
    {r : Round} {candidates : List (List Trace)} (hu : Speculates s u)
    (hcandidates : ∀ xs ∈ candidates, xs.length = step.arity ∧ ∀ x ∈ xs, Reached s base u k x)
    (hr : Fruitful s base target u (k + 1) r) :
    Explores (tryStep working target step r candidates) u fun r v =>
      Fruitful s base target v (k + 1) r := by
  induction candidates generalizing u r with
  | nil => exact .pure hr
  | cons xs candidates ih =>
      have hall := List.forall_mem_cons.mp hcandidates
      rw [tryStep]
      have htry : Explores (MonadExcept.tryCatch
          (step.apply (xs.map (·.result.proposition))) fun _ => Pure.pure []) u
          fun fs v => ∀ f ∈ fs, Reached s base v (k + 1) (.derived step.rule xs f) :=
        (hstep.explores hu hall.1.1 hall.1.2).tryCatch fun _ _ => nofun
      apply htry.bind
      intro fs v hv hfs
      have hround : Fruitful s base target v (k + 1) (r.absorb working target step.rule xs fs) :=
        (hr.deduces hv).absorb hfs
      generalize r.absorb working target step.rule xs fs = r' at hround ⊢
      dsimp only
      split_ifs
      · exact .pure hround
      · refine ih (hu.trans hv) (fun ys hys => ?_) hround
        exact ⟨(hall.2 ys hys).1, fun x hx => ((hall.2 ys hys).2 x hx).deduces hv⟩

theorem trySteps_explores {working : List Trace} {steps : List Search.Step}
    (hsteps : ∀ step ∈ steps, step.Wraps) {r : Round} (hu : Speculates s u)
    (hworking : ∀ x ∈ working, Reached s base u k x) (hr : Fruitful s base target u (k + 1) r) :
    Explores (trySteps working target r steps) u fun r v =>
      Fruitful s base target v (k + 1) r := by
  induction steps generalizing u r with
  | nil => exact .pure hr
  | cons step steps ih =>
      have hall := List.forall_mem_cons.mp hsteps
      rw [trySteps]
      split
      next => exact .throw
      next candidates hcandidates =>
        have htried : ∀ xs ∈ candidates, xs.length = step.arity ∧
            ∀ x ∈ xs, Reached s base u k x := by
          intro xs hxs
          have hmem := mem_selections hcandidates hxs
          exact ⟨hmem.1, fun x hx => hworking x (hmem.2 x hx)⟩
        apply (tryStep_explores hall.1 hu htried hr).bind
        intro r v hv hr
        split_ifs
        · exact .pure hr
        · exact ih hall.2 (hu.trans hv) (fun x hx => (hworking x hx).deduces hv) hr

/-- What is derived as a special case is the statement that was asked for. -/
theorem isSpecialCaseOf_statement (target : Proposition) (p : Option Proposition)
    (facts : List Proposition) :
    Ensures (isSpecialCaseOf target p facts) u (fun f _ => f.statement = target.strip)
      fun _ => True := by
  refine (require_reads .isSpecialCaseOf p u).ensures_bind trivial fun q _ => ?_
  split
  next => exact .refuse trivial
  next =>
    split
    next => exact .throw trivial
    next σ _ =>
      refine (memberships_reads u _ σ facts _).ensures_bind trivial fun ms _ => ?_
      exact .derive rfl

theorem instance?_explores {traces : List Trace} (hu : Speculates s u)
    (htraces : ∀ x ∈ traces, Reached s base u k x) :
    Explores (instance? target traces) u fun found v => ∀ x ∈ found,
      Reached s base v (k + 1) x ∧ x.rule? = some .isSpecialCaseOf ∧
        x.result.statement.equivalent target = true := by
  induction traces generalizing u with
  | nil => exact .pure nofun
  | cons x traces ih =>
      have hall := List.forall_mem_cons.mp htraces
      rw [instance?]
      split
      next =>
        have hone : ∀ y ∈ [x], Reached s base u k y := List.forall_mem_singleton.mpr hall.1
        have hafter : Ensures (isSpecialCaseOf target (some x.result.proposition) []) u
            (fun _ v => Deduces (fun _ => True) u v) (Deduces (fun _ => True) u) :=
          .of_after (.tactic (.isSpecialCaseOf target _ []) .refl trivial)
        have hrecords : Blameless (isSpecialCaseOf target (some x.result.proposition) []) u
            fun f v => ∀ g ∈ [f], u.Records v .isSpecialCaseOf [some x.result.proposition] [] g :=
          (isSpecialCaseOf_blameless target (backs_proposition hall.1.faithful.proves)
            (by simp)).mono fun f v hf => List.forall_mem_singleton.mpr hf.records
        have hcase : Explores (isSpecialCaseOf target (some x.result.proposition) []) u
            fun f v => Reached s base v (k + 1) (.derived .isSpecialCaseOf [x] f) ∧
              f.statement = target.strip := by
          have hreached := explores_of_records hu hafter hrecords (by simp) nofun hone
          refine (Ensures.and hreached (isSpecialCaseOf_statement target _ [])).mono
            (fun f v hf => ?_) fun _ hv => hv.1
          exact ⟨hf.1.1, hf.1.2 f List.mem_cons_self, hf.2⟩
        have hsome : Explores (some <$> isSpecialCaseOf target (some x.result.proposition) []) u
            fun found v => ∀ f ∈ found, Reached s base v (k + 1) (.derived .isSpecialCaseOf [x] f) ∧
              f.statement = target.strip := by
          rw [map_eq_pure_bind]
          apply hcase.bind
          intro f v _ hf
          exact .pure (by simpa using hf)
        apply (hsome.tryCatch fun _ _ => by simp).bind
        intro found v hv hfound
        split
        next f =>
          obtain ⟨hreached, hstatement⟩ := hfound f rfl
          refine .pure fun y hy => ?_
          cases hy
          refine ⟨hreached, rfl, ?_⟩
          rw [Trace.result, hstatement]
          exact target.strip_equivalent
        next => exact ih (hu.trans hv) fun y hy => (hall.2 y hy).deduces hv
      next => exact ih hu hall.2

/-- Every round adds one level to the traces. Only the last check for an instance goes beyond the
number of rounds. -/
theorem rounds_explores {steps : List Search.Step} (hsteps : ∀ step ∈ steps, step.Wraps) (n : Nat)
    {working : List Trace} (hu : Speculates s u) (hworking : ∀ x ∈ working, Reached s base u k x) :
    Explores (rounds steps target n working) u fun found v =>
      ∀ x ∈ found, Attained s base target v (k + n) x := by
  induction n generalizing u k working with
  | zero =>
      refine (instance?_explores hu hworking).mono (fun found v hv => ?_) fun _ hv => hv
      refine ⟨hv.1, fun x hx => ?_⟩
      obtain ⟨hreached, hrule, htarget⟩ := hv.2 x hx
      exact ⟨hreached.faithful, htarget, hreached.depth_le, fun _ => hrule⟩
  | succ n ih =>
      rw [rounds]
      apply (instance?_explores hu hworking).bind
      intro found v hv hfound
      have hinstance : ∀ {w : Session} {found : Option Trace}, (∀ x ∈ found,
          Reached s base w (k + 1) x ∧ x.rule? = some .isSpecialCaseOf ∧
            x.result.statement.equivalent target = true) →
          ∀ x ∈ found, Attained s base target w (k + (n + 1)) x := by
        intro w found hfound x hx
        obtain ⟨hreached, hrule, htarget⟩ := hfound x hx
        have hdepth := hreached.depth_le
        exact ⟨hreached.faithful, htarget, by omega, fun _ => hrule⟩
      have hempty : Fruitful s base target v (k + 1) {} := ⟨nofun, nofun⟩
      have hworking' : ∀ x ∈ working, Reached s base v k x := fun x hx => (hworking x hx).deduces hv
      split
      next x => exact .pure (hinstance hfound)
      next =>
        apply (trySteps_explores hsteps (hu.trans hv) hworking' hempty).bind
        intro r w hw hr
        have hspeculates := (hu.trans hv).trans hw
        split
        next x hx =>
          refine .pure fun y hy => ?_
          cases hy
          obtain ⟨hreached, htarget⟩ := hr.found x hx
          have hdepth := hreached.depth_le
          exact ⟨hreached.faithful, htarget, by omega, fun hlt => by omega⟩
        next =>
          refine (instance?_explores hspeculates fun x hx => (hworking' x hx).deduces hw).mono
            (fun found v hv => ?_) fun _ hv => hv
          exact ⟨hv.1, hinstance hv.2⟩
        next =>
          have hnext : ∀ x ∈ working ++ r.derived, Reached s base w (k + 1) x := by
            intro x hx
            cases List.mem_append.mp hx with
            | inl hold => exact ((hworking' x hold).deduces hw).later (Nat.le_succ k)
            | inr hnew => exact hr.derived x hnew
          have hrest := ih hspeculates hnext
          rw [Nat.add_assoc, Nat.add_comm 1 n] at hrest
          exact hrest

/-- A search starts from what is proven. -/
theorem start_reached {rest : List Proposition} {working : List Trace}
    (hu : ∀ p f, u.provenFact? p = some f → s.provenFact? p = some f)
    (hrest : ∀ p ∈ rest, p ∈ base) (hworking : ∀ x ∈ working, Reached s base u 0 x) :
    (∀ x, start u target working rest = .inl x →
      Reached s base u 0 x ∧ x.result.statement.equivalent target = true) ∧
      ∀ xs, start u target working rest = .inr xs → ∀ x ∈ xs, Reached s base u 0 x := by
  induction rest generalizing working with
  | nil => exact ⟨nofun, fun _ h => Sum.inr.inj h ▸ hworking⟩
  | cons p rest ih =>
      have hall := List.forall_mem_cons.mp hrest
      rw [start]
      split
      next => exact ih hall.2 hworking
      next f hf =>
        have hgiven : Reached s base u 0 (.given f) :=
          ⟨.given hall.1 (hu p f hf) (proves_of_provenFact? hf), Nat.le_refl 0⟩
        split_ifs with htarget
        · refine ⟨fun x hx => ?_, nofun⟩
          cases hx
          exact ⟨hgiven, htarget⟩
        · exact ih hall.2 hworking
        · apply ih hall.2
          intro x hx
          cases List.mem_append.mp hx with
          | inl hold => exact hworking x hold
          | inr hnew =>
              rw [List.mem_singleton.mp hnew]
              exact hgiven

end Rounds

end Search

section Settling
variable {s u : Session} {base : List Proposition} {derived : List FactId}

/-- An entry that a speculation needs stays as it is. -/
theorem Session.entry?_settled_of_needed {keep : List FactId} {id : FactId} {e : Entry}
    (hderived : u.speculation = some derived) (he : u.entry? id = some e)
    (hneeded : id ∈ derived → id ∈ u.supporting keep derived) :
    Session.entry? (u.settled keep) id = some e := by
  have hkept : ¬(id ∈ derived ∧ id ∉ u.supporting keep derived) := fun h => h.2 (hneeded h.1)
  rw [entry?_settled keep hderived, he, Option.map_some, if_neg hkept]

/-- With a trace, everything below it is kept: its premises are among what it was derived from. -/
theorem Trace.Faithful.settled {x : Trace} {keep : List FactId} (hu : Speculates s u)
    (hderived : u.speculation = some derived) (h : x.Faithful s base u)
    (hneeded : x.result.id ∈ derived → x.result.id ∈ u.supporting keep derived) :
    x.Faithful s base (u.settled keep) := by
  obtain ⟨derived', hsame, hids, hnewest⟩ := hu.derived
  obtain rfl : derived = derived' := Option.some.inj (hderived.symm.trans hsame)
  induction h with
  | given hp hf hproves =>
      obtain ⟨e, he, hrest⟩ := hproves
      exact .given hp hf ⟨e, entry?_settled_of_needed hderived he hneeded, hrest⟩
  | @derived rule premises f e he hstatement hholds hrule hall honly _ ih =>
      refine .derived (entry?_settled_of_needed hderived he hneeded) hstatement hholds hrule hall
        (fun j hj => ?_) fun x hx => ih x hx fun hmem => ?_
      · obtain ⟨hlt, hcited⟩ := honly j hj
        refine ⟨hlt, hcited.imp_right fun hknew => ?_⟩
        obtain ⟨hknown, e', he', element, set, m, hmember⟩ := hknew
        obtain ⟨e'', he'', hcontent⟩ := (settled_sameContents u keep).entry he'
        have hsame : e''.statement = e'.statement := congrArg (·.1) hcontent
        exact ⟨hknown, e'', he'', element, set, m, hsame.trans hmember⟩
      · have hcited := hall x hx
        have hlt := (honly _ hcited).1
        have hnew := (hids _).mp hmem
        have hid : f.id ∈ derived := (hids f.id).mpr ⟨by omega, entry?_lt he⟩
        exact mem_supporting_of_premise hnewest (hneeded hid) he hcited hlt hmem

theorem Session.supporting_nil (s : Session) (derived : List FactId) :
    s.supporting [] derived = [] := by
  induction derived with
  | nil => rfl
  | cons id derived ih => simpa [supporting] using ih

/-- A speculation that keeps nothing leaves everything as it was. -/
theorem Session.Speculates.settled_nil (h : Speculates s u) :
    (u.settled []).stack = s.stack ∧ (u.settled []).scopes = s.scopes ∧
      (u.settled []).knowledge = s.knowledge ∧
      ∀ id, id.index < s.ledger.size → Session.entry? (u.settled []) id = s.entry? id := by
  obtain ⟨derived, hderived, hids, -⟩ := h.derived
  obtain ⟨hscopes, hstack, hknowledge, -⟩ := h.frame
  have hframe : ∀ (ids : List FactId) (v : Session),
      (ids.foldl (settleEntry []) v).scopes = v.scopes ∧
        (ids.foldl (settleEntry []) v).knowledge = v.knowledge := by
    intro ids
    induction ids with
    | nil => exact fun v => ⟨rfl, rfl⟩
    | cons id ids ih =>
        intro v
        have hone : (settleEntry [] v id).scopes = v.scopes ∧
            (settleEntry [] v id).knowledge = v.knowledge := by
          unfold settleEntry
          split
          next => exact ⟨rfl, rfl⟩
          next => exact ⟨rfl, rfl⟩
        rw [List.foldl_cons, (ih _).1, (ih _).2]
        exact hone
  have hsettled := settled_of_some [] hderived
  rw [supporting_nil] at hsettled
  refine ⟨(settled_stack u []).trans hstack, ?_, ?_, fun id hid => ?_⟩
  · rw [hsettled, (hframe _ _).1, ← hscopes]
  · rw [hsettled, (hframe _ _).2, ← hknowledge]
  · have hnew : id ∉ derived := fun hmem => absurd ((hids id).mp hmem).1 (Nat.not_le.mpr hid)
    obtain ⟨e, he⟩ := entry?_of_lt hid
    rw [he]
    have hu : u.entry? id = some e := h.extends.entry_eq he
    exact entry?_settled_of_needed hderived hu fun hmem => absurd hmem hnew

end Settling

namespace Search

section Runs
variable {s : Session} {steps : List Search.Step}

/-- A search is a speculation, and what it finds is borne out by the ledger it leaves. -/
theorem run_attains (hsteps : ∀ step ∈ steps, step.Wraps) (hquiet : s.speculation = none) (n : Nat)
    (base : List Proposition) (target : Proposition) :
    Ensures (Search.run ⟨steps, n⟩ base target) s
      (fun found t => (∃ u, Speculates s u ∧ t = u.settled (found.toList.map (·.result.id))) ∧
        ∀ x ∈ found, Attained s base target t n x) fun _ => True := by
  have hstart := @start_reached s { s with speculation := some [] } base target base []
    (fun _ _ h => h) (fun _ h => h) nofun
  unfold Search.run
  refine (speculate_settles (P := fun x u => x.2 = x.1.toList.map (·.result.id) ∧
    ∀ y ∈ x.1, Attained s base target u n y) hquiet ?_).mono (fun found t ht => ?_) fun _ ht => ht
  · refine Ensures.get_bind ?_
    dsimp only
    split
    next y hy =>
      obtain ⟨hreached, htarget⟩ := hstart.1 y hy
      have hdepth := hreached.depth_le
      refine ⟨.refl, rfl, fun z hz => ?_⟩
      cases hz
      exact ⟨hreached.faithful, htarget, by omega, fun hlt => by omega⟩
    next working hworking =>
      have hrounds := @rounds_explores s _ base target 0 steps hsteps n working .refl
        (hstart.2 working hworking)
      apply hrounds.bind
      intro found u _ hfound
      rw [Nat.zero_add] at hfound
      exact .pure ⟨rfl, hfound⟩
  · obtain ⟨u, keep, hu, ⟨hkeep, hfound⟩, rfl⟩ := ht
    dsimp only at hkeep
    refine ⟨⟨u, hu, by rw [hkeep]⟩, fun x hx => ?_⟩
    have hattained := hfound x hx
    obtain ⟨derived, hderived, -⟩ := hu.derived
    refine ⟨hattained.faithful.settled hu hderived fun hmem => ?_, hattained.equivalent,
      hattained.depth_le, hattained.rule⟩
    apply mem_supporting hmem
    rw [hkeep]
    exact List.mem_map_of_mem (Option.mem_toList.mpr hx)

end Runs

section Steps

theorem Step.unary_wraps {rule : Rule} {tactic : Option Proposition → Action Fact}
    (wrap : Option Proposition → Tactic)
    (h : ∀ p, (wrap p).rule = rule ∧ (wrap p).premises = [p] ∧ (wrap p).handed = [] ∧
      (wrap p).perform = Tactic.alone (tactic p)) : (Step.unary rule tactic).Wraps := by
  intro s ps hps
  obtain ⟨p, rfl⟩ := List.length_eq_one_iff.mp hps
  obtain ⟨hrule, hpremises, hhanded, hperform⟩ := h (some p)
  refine ⟨wrap (some p), hrule, by simp [hpremises], by simp [hhanded], ?_⟩
  rw [hperform]
  rfl

theorem Step.binary_wraps {rule : Rule}
    {tactic : Option Proposition → Option Proposition → Action Fact}
    (wrap : Option Proposition → Option Proposition → Tactic)
    (h : ∀ p q, (wrap p q).rule = rule ∧ (wrap p q).premises = [p, q] ∧ (wrap p q).handed = [] ∧
      (wrap p q).perform = Tactic.alone (tactic p q)) : (Step.binary rule tactic).Wraps := by
  intro s ps hps
  obtain ⟨p, q, rfl⟩ := List.length_eq_two.mp hps
  obtain ⟨hrule, hpremises, hhanded, hperform⟩ := h (some p) (some q)
  refine ⟨wrap (some p) (some q), hrule, by simp [hpremises], by simp [hhanded], ?_⟩
  rw [hperform]
  rfl

/-- All steps that a search is offered apply the tactic of their rule. -/
theorem Step.wraps_of_mem {step : Search.Step} (h : step ∈ Step.defaults ++ Step.extras) :
    step.Wraps := by
  have hsplit : Step.Wraps
      { rule := .conjunctionElim, arity := 1, apply := fun ps => split ps[0]? } := by
    intro s ps hps
    obtain ⟨p, rfl⟩ := List.length_eq_one_iff.mp hps
    exact ⟨.split (some p), rfl, by simp [Tactic.premises], nofun, rfl⟩
  simp only [Step.defaults, Step.extras, List.cons_append, List.nil_append, List.mem_cons,
    List.not_mem_nil, or_false] at h
  rcases h with rfl | rfl | rfl | rfl | rfl | rfl | rfl | rfl | rfl | rfl | rfl | rfl | rfl
  · exact binary_wraps .modusPonens fun _ _ => ⟨rfl, rfl, rfl, rfl⟩
  · exact binary_wraps .hypotheticalSyllogism fun _ _ => ⟨rfl, rfl, rfl, rfl⟩
  · exact binary_wraps (.quantifiedModusPonens · · []) fun _ _ => ⟨rfl, rfl, rfl, rfl⟩
  · exact binary_wraps .existentialElimination fun _ _ => ⟨rfl, rfl, rfl, rfl⟩
  · exact binary_wraps .unitResolve fun _ _ => ⟨rfl, rfl, rfl, rfl⟩
  · exact hsplit
  · exact unary_wraps .doubleNegation fun _ => ⟨rfl, rfl, rfl, rfl⟩
  · exact unary_wraps .contrapositive fun _ => ⟨rfl, rfl, rfl, rfl⟩
  · exact unary_wraps .symmetry fun _ => ⟨rfl, rfl, rfl, rfl⟩
  · exact binary_wraps .modusTollens fun _ _ => ⟨rfl, rfl, rfl, rfl⟩
  · exact binary_wraps .resolveClauses fun _ _ => ⟨rfl, rfl, rfl, rfl⟩
  · exact binary_wraps .exorEliminate fun _ _ => ⟨rfl, rfl, rfl, rfl⟩
  · exact binary_wraps .iffIntro fun _ _ => ⟨rfl, rfl, rfl, rfl⟩

theorem Step.wraps_of_mem_defaults {step : Search.Step} (h : step ∈ Step.defaults) : step.Wraps :=
  wraps_of_mem (List.mem_append_left _ h)

/-- What a search with the usual steps finds counts as proven, and the rest stays as it was. -/
theorem run_settles {s : Session} (hquiet : s.speculation = none) (depth : Nat)
    (base : List Proposition) (target : Proposition) :
    Ensures (Search.run ⟨Step.defaults, depth⟩ base target) s
      (fun found t => Settles s t ∧ ∀ trace ∈ found, t.Proves trace.result) fun _ => True := by
  refine (run_attains (fun _ => Step.wraps_of_mem_defaults) hquiet depth base target).mono
    (fun found t ht => ?_) fun _ ht => ht
  obtain ⟨⟨u, hu, ht⟩, hfound⟩ := ht
  exact ⟨⟨u, _, hu, ht⟩, fun x hx => (hfound x hx).faithful.proves⟩

end Steps

section Answers
variable {α β : Type}

/-- The deduction does not fail. -/
def Answers (a : Action α) : Prop := ∀ s, ∃ x t, a s = .ok x t

theorem Answers.pure (x : α) : Answers (Pure.pure x) := fun s => ⟨x, s, rfl⟩

theorem Answers.bind {a : Action β} {k : β → Action α} (ha : Answers a)
    (hk : ∀ x, Answers (k x)) : Answers (a >>= k) := by
  intro s
  obtain ⟨x, t, hrun⟩ := ha s
  obtain ⟨y, u, hrest⟩ := hk x t
  refine ⟨y, u, ?_⟩
  change EStateM.bind a k s = _
  rw [EStateM.bind, hrun]
  exact hrest

theorem Answers.tryCatch (a : Action α) (x : α) :
    Answers (MonadExcept.tryCatch a fun _ => Pure.pure x) := by
  intro s
  change ∃ y t, EStateM.tryCatch a (fun _ => Pure.pure x) s = .ok y t
  unfold EStateM.tryCatch
  cases a s with
  | ok y t => exact ⟨y, t, rfl⟩
  | error e t => exact ⟨x, _, rfl⟩

theorem tryStep_answers (working : List Trace) (target : Proposition) (step : Search.Step)
    (r : Round) (candidates : List (List Trace)) :
    Answers (tryStep working target step r candidates) := by
  induction candidates generalizing r with
  | nil => exact .pure r
  | cons xs candidates ih =>
      rw [tryStep]
      apply (Answers.tryCatch _ []).bind
      intro fs
      dsimp only
      split_ifs
      · exact .pure _
      · exact ih _

theorem trySteps_answers (working : List Trace) (target : Proposition) {steps : List Search.Step}
    (hsteps : ∀ step ∈ steps, step.arity = 1 ∨ step.arity = 2) (r : Round) :
    Answers (trySteps working target r steps) := by
  induction steps generalizing r with
  | nil => exact .pure r
  | cons step steps ih =>
      have hall := List.forall_mem_cons.mp hsteps
      rw [trySteps]
      split
      next hnone => cases hall.1 with
        | inl hone => simp [hone, selections] at hnone
        | inr htwo => simp [htwo, selections] at hnone
      next candidates _ =>
        apply (tryStep_answers working target step r candidates).bind
        intro r'
        split_ifs
        · exact .pure r'
        · exact ih hall.2 r'

theorem instance?_answers (target : Proposition) (traces : List Trace) :
    Answers (instance? target traces) := by
  induction traces with
  | nil => exact .pure none
  | cons x traces ih =>
      rw [instance?]
      split
      next =>
        apply (Answers.tryCatch _ none).bind
        intro found
        split
        next => exact .pure _
        next => exact ih
      next => exact ih

theorem rounds_answers (target : Proposition) {steps : List Search.Step}
    (hsteps : ∀ step ∈ steps, step.arity = 1 ∨ step.arity = 2) (n : Nat) (working : List Trace) :
    Answers (rounds steps target n working) := by
  induction n generalizing working with
  | zero => exact instance?_answers target working
  | succ n ih =>
      rw [rounds]
      apply (instance?_answers target working).bind
      intro found
      split
      next => exact .pure _
      next =>
        apply (trySteps_answers working target hsteps {}).bind
        intro r
        split
        next => exact .pure _
        next => exact instance?_answers target working
        next => exact ih _

/-- A search whose steps take one premise or two always comes to an answer. -/
theorem run_answers {steps : List Search.Step}
    (hsteps : ∀ step ∈ steps, step.arity = 1 ∨ step.arity = 2) (n : Nat)
    (base : List Proposition) (target : Proposition) :
    Answers (Search.run ⟨steps, n⟩ base target) := by
  have hget : Answers (MonadState.get : Action Session) := fun s => ⟨s, s, rfl⟩
  have hbegin : Answers speculateFrom := fun s => ⟨_, _, rfl⟩
  have hsettle : ∀ keep, Answers (settle keep) := fun keep s => ⟨_, _, rfl⟩
  unfold Search.run speculate
  apply hbegin.bind
  intro outermost
  apply Answers.bind
  · apply hget.bind
    intro s
    split
    next => exact .pure _
    next working _ => exact (rounds_answers target hsteps n working).bind fun _ => .pure _
  · intro x
    dsimp only
    split_ifs
    · exact (hsettle x.2).bind fun _ => .pure _
    · exact .pure _

end Answers

/-- A search whose steps apply the tactics of their rules, one premise or two at a time, comes to an
answer. A trace it answers with is a derivation of the target that the ledger bears out, no deeper
than the number of rounds but for a last instantiation; without one, nothing has changed. -/
theorem run_faithful {steps : List Search.Step} {s : Session} (n : Nat) (base : List Proposition)
    (target : Proposition) (hsteps : ∀ step ∈ steps, step.Wraps) (hquiet : s.speculation = none) :
    ((∀ step ∈ steps, step.arity = 1 ∨ step.arity = 2) →
      ∃ found t, Search.run ⟨steps, n⟩ base target s = .ok found t) ∧
    ∀ found t, Search.run ⟨steps, n⟩ base target s = .ok found t →
      (∀ x, found = some x →
        x.result.statement.equivalent target = true ∧ x.Faithful s base t ∧ x.depth ≤ n + 1 ∧
          (n < x.depth → x.rule? = some .isSpecialCaseOf)) ∧
      (found = none → t.stack = s.stack ∧ t.scopes = s.scopes ∧ t.knowledge = s.knowledge ∧
        ∀ id, id.index < s.ledger.size → t.entry? id = s.entry? id) := by
  constructor
  · intro harity
    exact run_answers harity n base target s
  · intro found t hrun
    have hattains := run_attains hsteps hquiet n base target
    unfold Ensures at hattains
    rw [hrun] at hattains
    obtain ⟨⟨u, hu, ht⟩, hfound⟩ := hattains
    constructor
    · intro x hx
      have hattained := hfound x hx
      exact ⟨hattained.equivalent, hattained.faithful, hattained.depth_le, hattained.rule⟩
    · intro hnone
      rw [ht, hnone]
      exact hu.settled_nil

section Example

/-- The statement that everything in `A` is `R`, as the first entry of a ledger. -/
def allInA : Proposition :=
  .quantified .all ⟨1, "y"⟩ (some (.const "A")) (.relation "R" [.var ⟨1, "y"⟩]) (some ⟨0⟩)

/-- A session that also knows `x` to be in `A`. -/
def knowingSession : Session :=
  Session.run {} [.postulate allInA, .postulate (.rel .element (.var ⟨2, "x"⟩) (.const "A"))]

/-- The trace for `R(x)` is one level deeper than there are rounds, and the ledger cites the known
membership beside the universal statement. -/
theorem run_faithful_instance :
    ∃ x t, Search.run ⟨Step.defaults ++ Step.extras, 0⟩ [allInA] (.relation "R" [.var ⟨2, "x"⟩])
        knowingSession = .ok (some x) t ∧
      x.result.statement.equivalent (.relation "R" [.var ⟨2, "x"⟩]) = true ∧
      x.Faithful knowingSession [allInA] t ∧ x.depth = 1 ∧ x.rule? = some .isSpecialCaseOf := by
  have hfaithful := @run_faithful (Step.defaults ++ Step.extras) knowingSession 0 [allInA]
    (.relation "R" [.var ⟨2, "x"⟩]) (fun _ => Step.wraps_of_mem) rfl
  obtain ⟨found, t, hrun⟩ := hfaithful.1 (by decide)
  have hfound : ((Search.run ⟨Step.defaults ++ Step.extras, 0⟩ [allInA]
      (.relation "R" [.var ⟨2, "x"⟩])).run' knowingSession).map (·.map Trace.depth) =
      some (some 1) := by decide +kernel
  delta EStateM.run' EStateM.run at hfound
  rw [hrun] at hfound
  cases found with
  | none => cases hfound
  | some x =>
      have hdepth : x.depth = 1 := Option.some.inj (Option.some.inj hfound)
      obtain ⟨htarget, htrace, -, hrule⟩ := (hfaithful.2 (some x) t hrun).1 x rfl
      exact ⟨x, t, hrun, htarget, htrace, hdepth, hrule (by rw [hdepth]; exact Nat.one_pos)⟩

end Example

end Search

theorem Session.search_ensures {s : Session} (h : s.Auditable) (hquiet : s.speculation = none)
    (depth : Nat) (base : List Proposition) (target : Proposition) :
    Ensures (Search.run ⟨Search.Step.defaults, depth⟩ base target) s
      (fun found t => Advances s t ∧ ∀ trace ∈ found, t.Proves trace.result) fun _ => True :=
  (Search.run_settles hquiet depth base target).mono
    (fun _ _ hfound => ⟨hfound.1.advances h hquiet, hfound.2⟩) fun _ h => h

end Entailment
