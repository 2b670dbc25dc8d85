import Entailment.Proofs.Marks
import Entailment.Proofs.Traces
import Mathlib.Data.Set.Basic
import Mathlib.Logic.Function.Iterate

/-!
# The rounds of a search

A search works on facts that are not equivalent to each other, tries the steps on different ones
only, leaves out what it knows already, and stops as soon as it sees the target or learns nothing
new. Suppose that what the steps conclude depends on what the facts say and on nothing else, and
that facts which are taken for each other say the same (`Tractable`). Then none of this makes a
difference: the search finds its target in `n` rounds exactly if the target can be had from what
follows in `n` steps (`Tractable.finds_iff`).
-/
namespace Entailment

open Session

namespace Search

/-- What the facts of some traces say. -/
def contents (xs : List Trace) : List Proposition := xs.map (·.result.content)

section
variable (follows : Rule → List Proposition → List Proposition)

/-- The propositions at hand, and what follows by a usual step from different ones of them. -/
def onward (S : Set Proposition) : Set Proposition :=
  S ∪ {q | ∃ step ∈ Step.defaults, ∃ ps : List Proposition, ps.length = step.arity ∧ ps.Nodup ∧
    (∀ p ∈ ps, p ∈ S) ∧ q ∈ follows step.rule ps}

/-- What the steps conclude from selections of the facts at hand. -/
def tried (working : List Trace) (steps : List Step) : List Proposition :=
  steps.flatMap fun step => ((selections working step.arity).getD []).flatMap fun xs =>
    follows step.rule (contents xs)

end

/-- How a search for the target deals with the facts it may be working on while there are so many
rounds to go. -/
structure Tractable (follows : Rule → List Proposition → List Proposition)
    (settles : Proposition → Prop) (target : Proposition) (Good : Nat → Session → Fact → Prop) :
    Prop where
  proves : ∀ {k u f}, Good k u f → u.Proves f
  deduces : ∀ {k u v f}, Good k u f → Deduces (fun _ => True) u v → Good k v f
  later : ∀ {k u f}, Good (k + 1) u f → Good k u f
  /-- Facts that are taken for each other say the same. -/
  discerned : ∀ {k u f g}, Good k u f → Good k u g →
    f.statement.equivalent g.statement = true → f.content = g.content
  step : ∀ {k u} {fs : List Fact} {step : Step}, step ∈ Step.defaults → fs.length = step.arity →
    (fs.map Fact.content).Nodup → (∀ f ∈ fs, Good (k + 1) u f) →
    Ensures (MonadExcept.tryCatch (step.apply (fs.map Fact.proposition)) fun _ => Pure.pure []) u
      (fun gs v => Deduces (fun _ => True) u v ∧
        gs.map Fact.content = follows step.rule (fs.map Fact.content) ∧ ∀ g ∈ gs, Good k v g)
      fun _ => False
  instance? : ∀ {k u} {working : List Trace}, (∀ x ∈ working, Good k u x.result) →
    Ensures (Search.instance? target working) u
      (fun found v => Deduces (fun _ => True) u v ∧
        (found.isSome = true ↔ ∃ q ∈ contents working, settles q)) fun _ => False

/-- What a round has come up with, once the given conclusions have been looked at. -/
structure Gathered (Good : Session → Fact → Prop) (u : Session) (working : List Trace)
    (target : Proposition) (seen : List Proposition) (r : Round) : Prop where
  good : ∀ x ∈ r.derived, Good u x.result
  sound : ∀ q ∈ contents r.derived, q ∈ seen
  distinct : (contents (working ++ r.derived)).Nodup
  found : r.found.isSome = true ↔ ∃ q ∈ seen, q.equivalent target = true
  complete : r.found = none → ∀ q ∈ seen, q ∈ contents (working ++ r.derived)

/-- What a search starts from, if it is not given the target. -/
structure Stocked (Good : Session → Fact → Prop) (u : Session) (target : Proposition)
    (given : List Proposition) (working : List Trace) : Prop where
  good : ∀ x ∈ working, Good u x.result
  distinct : (contents working).Nodup
  mem_iff : ∀ q, q ∈ contents working ↔ q ∈ given
  missed : ∀ q ∈ given, ¬q.equivalent target = true

/-- With the usual steps and so many rounds, the search answers with a trace. -/
def Finds (n : Nat) (kb : List Fact) (target : Proposition) (s : Session) : Prop :=
  ∃ x t, Search.run ⟨Step.defaults, n⟩ (kb.map Fact.proposition) target s = .ok (some x) t

/-- Whether a search finds its target can be evaluated. -/
theorem finds_iff_isSome {n : Nat} {kb : List Fact} {target : Proposition} {s : Session} :
    Finds n kb target s ↔
      ((Search.run ⟨Step.defaults, n⟩ (kb.map Fact.proposition) target).run' s).join.isSome =
        true := by
  unfold Finds
  delta EStateM.run' EStateM.run
  split
  next found t hrun =>
    rw [hrun]
    cases found <;> simp
  next hrun =>
    rw [hrun]
    simp

section Selecting
variable {α β : Type} {f : α → β} {xs : List α} {n : Nat}

/-- Different members of a list are selected, in either order. -/
theorem exists_selection {ys : List β} (hn : n = 1 ∨ n = 2) (hlength : ys.length = n)
    (hys : ∀ y ∈ ys, ∃ x ∈ xs, f x = y) (hne : ∀ y, ys ≠ [y, y]) :
    ∃ candidates, selections xs n = some candidates ∧ ∃ zs ∈ candidates, zs.map f = ys := by
  cases hn with
  | inl hone =>
      subst hone
      obtain ⟨y, rfl⟩ := List.length_eq_one_iff.mp hlength
      obtain ⟨x, hx, rfl⟩ := hys y (by simp)
      exact ⟨_, rfl, [x], List.mem_map_of_mem hx, rfl⟩
  | inr htwo =>
      subst htwo
      obtain ⟨y, y', rfl⟩ := List.length_eq_two.mp hlength
      obtain ⟨x, hx, rfl⟩ := hys y (by simp)
      obtain ⟨x', hx', rfl⟩ := hys y' (by simp)
      obtain ⟨i, hi⟩ := List.mem_iff_getElem?.mp hx
      obtain ⟨j, hj⟩ := List.mem_iff_getElem?.mp hx'
      have hij : i ≠ j := by
        rintro rfl
        rw [Option.some.inj (hi.symm.trans hj)] at hne
        exact hne _ rfl
      refine ⟨_, rfl, [x, x'], ?_, rfl⟩
      refine List.mem_flatMap.mpr ⟨(x, i), List.mem_zipIdx_iff_getElem?.mpr hi, ?_⟩
      refine List.mem_filterMap.mpr ⟨(x', j), List.mem_zipIdx_iff_getElem?.mpr hj, ?_⟩
      exact if_neg hij

theorem nodup_of_mem_selections {candidates : List (List α)} {zs : List α}
    (h : selections xs n = some candidates) (hzs : zs ∈ candidates) (hnodup : (xs.map f).Nodup) :
    (zs.map f).Nodup := by
  unfold selections at h
  split at h
  next =>
    cases h
    obtain ⟨x, _, rfl⟩ := List.mem_map.mp hzs
    exact List.pairwise_singleton _ _
  next =>
    cases h
    obtain ⟨⟨x, i⟩, hx, hpairs⟩ := List.mem_flatMap.mp hzs
    obtain ⟨⟨y, j⟩, hy, hpair⟩ := List.mem_filterMap.mp hpairs
    dsimp only at hpair
    split_ifs at hpair with hij
    cases hpair
    have hi : (xs.map f)[i]? = some (f x) := by
      rw [List.getElem?_map, List.mem_zipIdx_iff_getElem?.mp hx, Option.map_some]
    have hj : (xs.map f)[j]? = some (f y) := by
      rw [List.getElem?_map, List.mem_zipIdx_iff_getElem?.mp hy, Option.map_some]
    have hne : f x ≠ f y := by
      intro heq
      have hlt : i < (xs.map f).length := (List.getElem?_eq_some_iff.mp hi).1
      exact hij ((List.getElem?_inj hlt hnodup).mp (by rw [hi, hj, heq]))
    simpa using hne
  next => cases h

theorem Step.arity_of_mem_defaults : ∀ step ∈ Step.defaults, step.arity = 1 ∨ step.arity = 2 := by
  decide

end Selecting

section Rounds
variable {follows : Rule → List Proposition → List Proposition} {settles : Proposition → Prop}
  {target : Proposition} {Good : Nat → Session → Fact → Prop} {k : Nat} {u v : Session}
  {working : List Trace} {seen : List Proposition} {r : Round} {step : Step}

theorem mem_contents {xs : List Trace} {q : Proposition} :
    q ∈ contents xs ↔ ∃ x ∈ xs, x.result.content = q := List.mem_map

theorem contents_append (xs ys : List Trace) :
    contents (xs ++ ys) = contents xs ++ contents ys := List.map_append

theorem contents_snoc (xs : List Trace) (x : Trace) :
    contents (xs ++ [x]) = contents xs ++ [x.result.content] := contents_append xs [x]

theorem nodup_contents_snoc {xs : List Trace} {x : Trace} (hnodup : (contents xs).Nodup)
    (hnew : x.result.content ∉ contents xs) : (contents (xs ++ [x])).Nodup := by
  rw [contents_snoc, List.nodup_append]
  refine ⟨hnodup, List.pairwise_singleton _ _, fun p hp q hq heq => hnew ?_⟩
  rw [← List.mem_singleton.mp hq, ← heq]
  exact hp

theorem subset_iterate_onward (n : Nat) (S : Set Proposition) : S ⊆ (onward follows)^[n] S := by
  induction n with
  | zero => exact subset_rfl
  | succ n ih =>
      rw [Function.iterate_succ_apply']
      exact ih.trans Set.subset_union_left

theorem iterate_onward_mono {S T : Set Proposition} (h : S ⊆ T) (n : Nat) :
    (onward follows)^[n] S ⊆ (onward follows)^[n] T := by
  induction n with
  | zero => exact h
  | succ n ih =>
      rw [Function.iterate_succ_apply', Function.iterate_succ_apply']
      intro q hq
      cases hq with
      | inl hold => exact .inl (ih hold)
      | inr hnew =>
          obtain ⟨step, hstep, ps, hlength, hnodup, hps, hq⟩ := hnew
          exact .inr ⟨step, hstep, ps, hlength, hnodup, fun p hp => ih (hps p hp), hq⟩

/-- Trying the steps on facts that all say something different amounts to one step onward. -/
theorem mem_onward_contents (hnodup : (contents working).Nodup) {q : Proposition} :
    q ∈ onward follows {p | p ∈ contents working} ↔
      q ∈ contents working ∨ q ∈ tried follows working Step.defaults := by
  unfold tried
  simp only [onward, Set.mem_union, Set.mem_ofPred_eq, List.mem_flatMap]
  refine or_congr_right ⟨?_, ?_⟩
  · rintro ⟨step, hstep, ps, hlength, hps, hmem, hq⟩
    obtain ⟨candidates, hcandidates, xs, hxs, hcontents⟩ := exists_selection
      (Step.arity_of_mem_defaults step hstep) hlength (fun p hp => mem_contents.mp (hmem p hp))
      fun p hp => by simp [hp] at hps
    refine ⟨step, hstep, xs, ?_, ?_⟩
    · rw [hcandidates]
      exact hxs
    · rw [contents, hcontents]
      exact hq
  · rintro ⟨step, hstep, xs, hxs, hq⟩
    cases hcandidates : selections working step.arity with
    | none =>
        rw [hcandidates] at hxs
        cases hxs
    | some candidates =>
        rw [hcandidates] at hxs
        have hmem := mem_selections hcandidates hxs
        refine ⟨step, hstep, contents xs, ?_, nodup_of_mem_selections hcandidates hxs hnodup, ?_, hq⟩
        · rw [contents, List.length_map, hmem.1]
        · intro p hp
          obtain ⟨x, hx, rfl⟩ := mem_contents.mp hp
          exact mem_contents.mpr ⟨x, hmem.2 x hx, rfl⟩

theorem equivalent_content (f : Fact) (p : Proposition) :
    f.content.equivalent p = f.statement.equivalent p := by
  rw [Fact.content, ← Proposition.equivalent_bare, Proposition.bare_bare,
    Proposition.equivalent_bare]

theorem equivalent_of_content_eq {f g : Fact} (h : f.content = g.content) :
    f.statement.equivalent g.statement = true := by
  rw [← Proposition.equivalent_bare, Proposition.equivalent]
  change f.statement.bare = g.statement.bare at h
  rw [h, Binders.empty, Unify.proposition_self]
  rfl

section Gathering
variable {Good : Session → Fact → Prop}

theorem Gathered.transfer (hr : Gathered Good u working target seen r)
    (hgood : ∀ f, Good u f → Good v f) : Gathered Good v working target seen r :=
  { hr with good := fun x hx => hgood _ (hr.good x hx) }

/-- Once the target has turned up, it does not matter what else there is. -/
theorem Gathered.of_found (hr : Gathered Good u working target seen r)
    (hfound : r.found.isSome = true) (more : List Proposition) :
    Gathered Good u working target (seen ++ more) r where
  good := hr.good
  sound q hq := List.mem_append_left more (hr.sound q hq)
  distinct := hr.distinct
  found := by
    obtain ⟨q, hq, hequivalent⟩ := hr.found.mp hfound
    exact iff_of_true hfound ⟨q, List.mem_append_left more hq, hequivalent⟩
  complete hnone := by
    rw [hnone] at hfound
    cases hfound

theorem Gathered.hit {q : Proposition} (hr : Gathered Good u working target seen r) (x : Trace)
    (hq : q.equivalent target = true) :
    Gathered Good u working target (seen ++ [q]) { r with found := some x } where
  good := hr.good
  sound p hp := List.mem_append_left [q] (hr.sound p hp)
  distinct := hr.distinct
  found := iff_of_true rfl ⟨q, by simp, hq⟩
  complete := nofun

/-- A conclusion other than the target changes nothing about whether the target was found. -/
theorem Gathered.found_snoc {q : Proposition} (hr : Gathered Good u working target seen r)
    (hq : ¬q.equivalent target = true) :
    r.found.isSome = true ↔ ∃ p ∈ seen ++ [q], p.equivalent target = true := by
  rw [hr.found]
  simp only [List.mem_append, List.mem_singleton, or_and_right, exists_or, exists_eq_left, hq,
    Bool.false_eq_true, or_false]

/-- A conclusion that is known already is left out. -/
theorem Gathered.skip {q : Proposition} (hr : Gathered Good u working target seen r)
    (hq : ¬q.equivalent target = true) (hknown : q ∈ contents (working ++ r.derived)) :
    Gathered Good u working target (seen ++ [q]) r where
  good := hr.good
  sound p hp := List.mem_append_left [q] (hr.sound p hp)
  distinct := hr.distinct
  found := hr.found_snoc hq
  complete hnone := by
    rw [List.forall_mem_append]
    exact ⟨hr.complete hnone, List.forall_mem_singleton.mpr hknown⟩

/-- Any other conclusion is added. -/
theorem Gathered.add (hr : Gathered Good u working target seen r) (x : Trace)
    (hx : Good u x.result) (hne : ¬x.result.content.equivalent target = true)
    (hnew : x.result.content ∉ contents (working ++ r.derived)) :
    Gathered Good u working target (seen ++ [x.result.content])
      { r with derived := r.derived ++ [x] } := by
  constructor
  · exact List.forall_mem_append.mpr ⟨hr.good, List.forall_mem_singleton.mpr hx⟩
  · intro q hq
    rw [contents_snoc] at hq
    exact (List.mem_append.mp hq).elim (fun hold => List.mem_append_left _ (hr.sound q hold))
      (List.mem_append_right seen)
  · rw [← List.append_assoc]
    exact nodup_contents_snoc hr.distinct hnew
  · exact hr.found_snoc hne
  · intro hnone q hq
    rw [← List.append_assoc, contents_snoc]
    exact (List.mem_append.mp hq).elim
      (fun hold => List.mem_append_left _ (hr.complete hnone q hold))
      (List.mem_append_right (contents (working ++ r.derived)))

theorem Stocked.skip {given : List Proposition} {q : Proposition}
    (hs : Stocked Good u target given working) (hq : q ∈ contents working) :
    Stocked Good u target (given ++ [q]) working := by
  have hgiven := (hs.mem_iff q).mp hq
  refine ⟨hs.good, hs.distinct, fun p => ?_, ?_⟩
  · rw [hs.mem_iff, List.mem_append, List.mem_singleton]
    exact ⟨.inl, fun hp => hp.elim id fun heq => heq ▸ hgiven⟩
  · rw [List.forall_mem_append]
    exact ⟨hs.missed, List.forall_mem_singleton.mpr (hs.missed q hgiven)⟩

theorem Stocked.add {given : List Proposition} {f : Fact}
    (hs : Stocked Good u target given working) (hf : Good u f)
    (hne : ¬f.content.equivalent target = true) (hnew : f.content ∉ contents working) :
    Stocked Good u target (given ++ [f.content]) (working ++ [.given f]) := by
  constructor
  · exact List.forall_mem_append.mpr ⟨hs.good, List.forall_mem_singleton.mpr hf⟩
  · exact nodup_contents_snoc hs.distinct hnew
  · intro q
    rw [contents_snoc, List.mem_append, List.mem_append, hs.mem_iff]
    rfl
  · rw [List.forall_mem_append]
    exact ⟨hs.missed, List.forall_mem_singleton.mpr hne⟩

end Gathering

section Searching
variable (h : Tractable follows settles target Good)
include h

/-- A fact is taken for known exactly if one that says the same is there. -/
theorem Tractable.isKnown_iff {xs : List Trace} {f : Fact} (hxs : ∀ x ∈ xs, Good k u x.result)
    (hf : Good k u f) : isKnown xs f.statement = true ↔ f.content ∈ contents xs := by
  rw [isKnown, List.any_eq_true, mem_contents]
  constructor
  · intro hknown
    obtain ⟨x, hx, hequivalent⟩ := hknown
    exact ⟨x, hx, h.discerned (hxs x hx) hf hequivalent⟩
  · intro hsaid
    obtain ⟨x, hx, hcontent⟩ := hsaid
    exact ⟨x, hx, equivalent_of_content_eq hcontent⟩

theorem Tractable.absorb {fs : List Fact} (rule : Rule) (premises : List Trace)
    (hworking : ∀ x ∈ working, Good k u x.result) (hfs : ∀ f ∈ fs, Good k u f)
    (hr : Gathered (Good k) u working target seen r) :
    Gathered (Good k) u working target (seen ++ fs.map Fact.content)
      (r.absorb working target rule premises fs) := by
  induction fs generalizing r seen with
  | nil =>
      rw [Round.absorb, List.map_nil, List.append_nil]
      exact hr
  | cons f fs ih =>
      have hall := List.forall_mem_cons.mp hfs
      have hknown : (isKnown working f.statement || isKnown r.derived f.statement) = true ↔
          f.content ∈ contents (working ++ r.derived) := by
        rw [Bool.or_eq_true, h.isKnown_iff hworking hall.1, h.isKnown_iff hr.good hall.1,
          contents_append, List.mem_append]
      rw [Round.absorb, List.map_cons, List.append_cons, ← equivalent_content]
      split_ifs with htarget hold
      · exact (hr.hit _ htarget).of_found rfl _
      · exact ih hall.2 (hr.skip htarget (hknown.mp hold))
      · exact ih hall.2 (hr.add (.derived rule premises f) hall.1 htarget (mt hknown.mpr hold))

theorem Tractable.tryStep {candidates : List (List Trace)} (hstep : step ∈ Step.defaults)
    (hworking : ∀ x ∈ working, Good (k + 1) u x.result)
    (hcandidates : ∀ xs ∈ candidates, (xs.length = step.arity ∧ ∀ x ∈ xs, x ∈ working) ∧
      (contents xs).Nodup)
    (hr : Gathered (Good k) u working target seen r) :
    Ensures (Search.tryStep working target step r candidates) u
      (fun r v => Deduces (fun _ => True) u v ∧ Gathered (Good k) v working target
        (seen ++ candidates.flatMap fun xs => follows step.rule (contents xs)) r)
      fun _ => False := by
  induction candidates generalizing u r seen with
  | nil => exact .pure ⟨.refl, by simpa using hr⟩
  | cons xs candidates ih =>
      have hall := List.forall_mem_cons.mp hcandidates
      have hgood : ∀ f ∈ xs.map Trace.result, Good (k + 1) u f := by
        rw [List.forall_mem_map]
        exact fun x hx => hworking x (hall.1.1.2 x hx)
      have hcontents : (xs.map Trace.result).map Fact.content = contents xs := List.map_map
      have htry := h.step hstep (by rw [List.length_map, hall.1.1.1]) (hcontents ▸ hall.1.2) hgood
      rw [hcontents, List.map_map] at htry
      rw [Search.tryStep, List.flatMap_cons, ← List.append_assoc]
      apply htry.bind
      intro fs v hfs
      have hworking' : ∀ x ∈ working, Good (k + 1) v x.result := fun x hx =>
        h.deduces (hworking x hx) hfs.1
      have hround := h.absorb step.rule xs (fun x hx => h.later (hworking' x hx)) hfs.2.2
        (hr.transfer fun f hf => h.deduces hf hfs.1)
      rw [hfs.2.1] at hround
      generalize r.absorb working target step.rule xs fs = r' at hround ⊢
      dsimp only
      split_ifs with hfound
      · exact .pure ⟨hfs.1, hround.of_found hfound _⟩
      · have hrest := ih hworking' hall.2 hround
        exact hrest.mono (fun _ _ h => ⟨hfs.1.trans h.1, h.2⟩) fun _ h => h

theorem Tractable.trySteps {steps : List Step} (hsteps : ∀ step ∈ steps, step ∈ Step.defaults)
    (hworking : ∀ x ∈ working, Good (k + 1) u x.result)
    (hr : Gathered (Good k) u working target seen r) :
    Ensures (Search.trySteps working target r steps) u
      (fun r v => Deduces (fun _ => True) u v ∧
        Gathered (Good k) v working target (seen ++ tried follows working steps) r)
      fun _ => False := by
  induction steps generalizing u r seen with
  | nil => exact .pure ⟨.refl, by simpa [tried] using hr⟩
  | cons step steps ih =>
      have hall := List.forall_mem_cons.mp hsteps
      rw [Search.trySteps, tried, List.flatMap_cons, ← List.append_assoc]
      split
      next hselections =>
        cases Step.arity_of_mem_defaults step hall.1 with
        | inl hone => simp [hone, selections] at hselections
        | inr htwo => simp [htwo, selections] at hselections
      next candidates hcandidates =>
        have hnodup : (contents working).Nodup :=
          hr.distinct.sublist ((List.sublist_append_left _ _).map _)
        rw [hcandidates]
        apply (h.tryStep hall.1 hworking (fun xs hxs => ⟨mem_selections hcandidates hxs,
          nodup_of_mem_selections hcandidates hxs hnodup⟩) hr).bind
        intro r v hv
        split_ifs with hfound
        · exact .pure ⟨hv.1, hv.2.of_found hfound _⟩
        · have hrest := ih hall.2 (fun x hx => h.deduces (hworking x hx) hv.1) hv.2
          exact hrest.mono (fun _ _ h => ⟨hv.1.trans h.1, h.2⟩) fun _ h => h

/-- As long as the target itself is not there, the check for instances tells whether it can be had.
-/
theorem Tractable.check (hworking : ∀ x ∈ working, Good k u x.result)
    (hmissed : ∀ q ∈ contents working, ¬q.equivalent target = true) :
    Ensures (Search.instance? target working) u
      (fun found v => Deduces (fun _ => True) u v ∧ (found.isSome = true ↔
        ∃ q ∈ contents working, q.equivalent target = true ∨ settles q)) fun _ => False := by
  refine (h.instance? hworking).mono (fun found v hv => ⟨hv.1, hv.2.trans ?_⟩) fun _ h => h
  exact exists_congr fun q => and_congr_right fun hq => (or_iff_right (hmissed q hq)).symm

omit h in
/-- A round that misses the target makes everything available that follows in one step. -/
theorem Gathered.grown {Good : Session → Fact → Prop} (hnodup : (contents working).Nodup)
    (hr : Gathered Good u working target (tried follows working Step.defaults) r)
    (hnone : r.found = none) :
    {q | q ∈ contents (working ++ r.derived)} = onward follows {q | q ∈ contents working} := by
  ext q
  rw [mem_onward_contents hnodup, Set.mem_ofPred_eq, contents_append, List.mem_append]
  constructor
  · exact Or.imp_right (hr.sound q)
  · intro hq
    rw [← List.mem_append, ← contents_append]
    exact hq.elim (fun hold => contents_append _ _ ▸ List.mem_append_left _ hold)
      (hr.complete hnone q)

/-- Every round that does not find the target goes onward by one step, and one that adds nothing
shows that there is nothing to add. -/
theorem Tractable.rounds (n : Nat) (hworking : ∀ x ∈ working, Good n u x.result)
    (hnodup : (contents working).Nodup)
    (hmissed : ∀ q ∈ contents working, ¬q.equivalent target = true) :
    Ensures (Search.rounds Step.defaults target n working) u
      (fun found _ => found.isSome = true ↔
        ∃ q ∈ (onward follows)^[n] {q | q ∈ contents working},
          q.equivalent target = true ∨ settles q) fun _ => False := by
  induction n generalizing u working with
  | zero => exact (h.check hworking hmissed).mono (fun _ _ h => h.2) fun _ h => h
  | succ n ih =>
      have hempty : ∀ v, Gathered (Good n) v working target [] {} := fun v =>
        ⟨by simp, by simp [contents], by simpa using hnodup, by simp, by simp⟩
      rw [Search.rounds, Function.iterate_succ_apply]
      apply (h.check hworking hmissed).bind
      intro found v hv
      have hworking' : ∀ x ∈ working, Good (n + 1) v x.result := fun x hx =>
        h.deduces (hworking x hx) hv.1
      split
      next x =>
        obtain ⟨q, hq, hsettles⟩ := hv.2.mp rfl
        exact .pure (iff_of_true rfl ⟨q, subset_iterate_onward n _ (.inl hq), hsettles⟩)
      next =>
        apply (h.trySteps (fun _ h => h) hworking' (hempty v)).bind
        intro r w hw
        rw [List.nil_append] at hw
        have hr := hw.2
        have hlater : ∀ x ∈ working, Good n w x.result := fun x hx =>
          h.later (h.deduces (hworking' x hx) hw.1)
        split
        next x hx =>
          obtain ⟨q, hq, htarget⟩ := hr.found.mp (by rw [hx]; rfl)
          have honward := (mem_onward_contents hnodup).mpr (.inr hq)
          exact .pure (iff_of_true rfl ⟨q, subset_iterate_onward n _ honward, .inl htarget⟩)
        next hnone hderived =>
          -- What has been reached is closed under the steps.
          have hclosed := hr.grown hnodup hnone
          rw [hderived, List.append_nil] at hclosed
          rw [← hclosed, Function.iterate_fixed hclosed.symm]
          exact (h.check hlater hmissed).mono (fun _ _ h => h.2) fun _ h => h
        next hnone _ =>
          rw [← hr.grown hnodup hnone]
          refine ih (List.forall_mem_append.mpr ⟨hlater, hr.good⟩) hr.distinct ?_
          rw [contents_append, List.forall_mem_append]
          refine ⟨hmissed, fun q hq htarget => ?_⟩
          have hfound := hr.found.mpr ⟨q, hr.sound q hq, htarget⟩
          rw [hnone] at hfound
          cases hfound

omit h in
/-- A speculation gives the answer of what is done in it, wherever the ledger and what is known are
the same. -/
theorem speculate_answer {α : Type} {s : Session} {body : Action (α × List FactId)} {P : α → Prop}
    (hbody : ∀ t : Session, t.ledger = s.ledger → t.knowledge = s.knowledge →
      t.speculation.isSome = true → Ensures body t (fun x _ => P x.1) fun _ => False) :
    Ensures (speculate body) s (fun x _ => P x) fun _ => False := by
  have hbegin : Ensures speculateFrom s (fun _ t => t.ledger = s.ledger ∧
      t.knowledge = s.knowledge ∧ t.speculation.isSome = true) fun _ => False := by
    cases hspeculation : s.speculation <;>
      simp [Ensures, speculateFrom, modifyGet_run, hspeculation]
  unfold speculate
  apply hbegin.bind
  intro outermost t ht
  apply (hbody t ht.1 ht.2.1 ht.2.2).bind
  intro x v hx
  dsimp only
  split_ifs
  · exact Ensures.modify_bind (.pure hx)
  · exact .pure hx

/-- A search starts from one fact of each content, unless it is given the target. -/
theorem Tractable.start {given : List Proposition} {fs : List Fact} (hfs : ∀ f ∈ fs, Good k u f)
    (hworking : Stocked (Good k) u target given working) :
    (∀ x, Search.start u target working (fs.map Fact.proposition) = .inl x →
      ∃ q ∈ given ++ fs.map Fact.content, q.equivalent target = true) ∧
    ∀ xs, Search.start u target working (fs.map Fact.proposition) = .inr xs →
      Stocked (Good k) u target (given ++ fs.map Fact.content) xs := by
  induction fs generalizing working given with
  | nil =>
      refine ⟨by simp [Search.start], fun xs hxs => ?_⟩
      cases hxs
      simpa using hworking
  | cons f fs ih =>
      have hall := List.forall_mem_cons.mp hfs
      have hknown := h.isKnown_iff hworking.good hall.1
      rw [List.map_cons, List.map_cons, List.append_cons, Search.start,
        provenFact?_proposition (h.proves hall.1)]
      dsimp only
      rw [← equivalent_content]
      split_ifs with htarget hold
      · exact ⟨fun _ _ => ⟨f.content, by simp, htarget⟩, by simp⟩
      · exact ih hall.2 (hworking.skip (hknown.mp hold))
      · exact ih hall.2 (hworking.add hall.1 htarget (mt hknown.mpr hold))

theorem Tractable.run {s : Session} (n : Nat) {kb : List Fact}
    (hkb : ∀ t : Session, t.ledger = s.ledger → t.knowledge = s.knowledge →
      t.speculation.isSome = true → ∀ f ∈ kb, Good n t f) :
    Ensures (Search.run ⟨Step.defaults, n⟩ (kb.map Fact.proposition) target) s
      (fun found _ => found.isSome = true ↔
        ∃ q ∈ (onward follows)^[n] {q | q ∈ kb.map Fact.content},
          q.equivalent target = true ∨ settles q) fun _ => False := by
  apply speculate_answer
  intro t hledger hknowledge hspeculation
  have hstart := @Tractable.start _ _ _ _ n t [] h [] kb
    (hkb t hledger hknowledge hspeculation) ⟨nofun, .nil, fun _ => Iff.rfl, nofun⟩
  rw [List.nil_append] at hstart
  refine Ensures.get_bind ?_
  split
  next x hx =>
    obtain ⟨q, hq, htarget⟩ := hstart.1 x hx
    exact .pure (iff_of_true rfl ⟨q, subset_iterate_onward n _ hq, .inl htarget⟩)
  next working hworking =>
    have hstocked := hstart.2 working hworking
    have hrounds := h.rounds n hstocked.good hstocked.distinct fun q hq =>
      hstocked.missed q ((hstocked.mem_iff q).mp hq)
    simp only [hstocked.mem_iff] at hrounds
    apply hrounds.bind
    intro found u hfound
    exact .pure hfound

/-- The search finds its target exactly if the target can be had from what follows in so many steps.
-/
theorem Tractable.finds_iff {s : Session} (n : Nat) {kb : List Fact}
    (hkb : ∀ t : Session, t.ledger = s.ledger → t.knowledge = s.knowledge →
      t.speculation.isSome = true → ∀ f ∈ kb, Good n t f) :
    Finds n kb target s ↔ ∃ q ∈ (onward follows)^[n] {q | q ∈ kb.map Fact.content},
      q.equivalent target = true ∨ settles q := by
  have hrun := h.run n hkb
  unfold Ensures at hrun
  unfold Finds
  split at hrun
  next found t hok =>
    rw [hok, ← hrun]
    cases found <;> simp
  next => exact hrun.elim

end Searching

end Rounds

end Search

end Entailment
