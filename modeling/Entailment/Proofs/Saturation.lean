import Entailment.Proofs.Conclusions
import Entailment.Proofs.Rounds
import Mathlib.Data.Set.Image

/-!
# A search finds what there is to find

What can be had from a list of propositions in so many rounds is defined without a search, as the
stages of a closure (`stage`). Where there are no quantifiers and no assumptions, equivalent facts
say the same up to marks, and the steps only look at that. So a search is not misled by what it
leaves out (`plain_tractable`), and a target is found in `n` rounds exactly if it is in the stage
`n`.
-/
namespace Entailment

open Session

namespace Search

/-- What can be had from the given propositions by the usual steps, one round after the other. -/
def stage (base : List Proposition) : Nat → Set Proposition
  | 0 => {p | p ∈ base}
  | k + 1 => stage base k ∪ {q | ∃ step ∈ Step.defaults, ∃ ps : List Proposition,
      ps.length = step.arity ∧ (∀ p ∈ ps, p ∈ stage base k) ∧ q ∈ step.conclusions ps}

/-- The propositions at hand, and what follows from them in one step. -/
def advance (shapes : Set Proposition) : Set Proposition :=
  shapes ∪ {q | ∃ step ∈ Step.defaults, ∃ ps : List Proposition,
    ps.length = step.arity ∧ (∀ p ∈ ps, p ∈ shapes) ∧ q ∈ consequences step.rule ps}

section Stages
variable {base : List Proposition} {k n : Nat} {S T : Set Proposition}

theorem advance_mono (h : S ⊆ T) : advance S ⊆ advance T := by
  rintro q (hq | ⟨step, hstep, ps, hlength, hps, hq⟩)
  · exact .inl (h hq)
  · exact .inr ⟨step, hstep, ps, hlength, fun p hp => h (hps p hp), hq⟩

theorem subset_iterate_advance (n : Nat) (S : Set Proposition) : S ⊆ advance^[n] S := by
  induction n with
  | zero => exact subset_rfl
  | succ n ih =>
      rw [Function.iterate_succ_apply']
      exact ih.trans Set.subset_union_left

theorem iterate_advance_mono (h : S ⊆ T) (n : Nat) : advance^[n] S ⊆ advance^[n] T := by
  induction n with
  | zero => exact h
  | succ n ih =>
      rw [Function.iterate_succ_apply', Function.iterate_succ_apply']
      exact advance_mono ih

theorem isQuantifierFree_stage (h : ∀ p ∈ base, p.isQuantifierFree = true) (k : Nat) :
    ∀ p ∈ stage base k, p.isQuantifierFree = true := by
  induction k with
  | zero => exact h
  | succ k ih =>
      rintro q (hq | ⟨step, hstep, ps, hlength, hps, hq⟩)
      · exact ih q hq
      · have hfree : ∀ p ∈ ps, p.isQuantifierFree = true := fun p hp => ih p (hps p hp)
        have hshapes : ∀ r ∈ (step.conclusions ps).map Proposition.skeleton,
            r.isQuantifierFree = true := by
          rw [Step.skeleton_conclusions hstep hlength hfree]
          exact isQuantifierFree_consequences (by simpa using hfree)
        rw [← Proposition.isQuantifierFree_skeleton]
        exact hshapes _ (List.mem_map_of_mem hq)

theorem exists_map_eq {α β : Type} {f : α → β} {A : Set α} {ys : List β}
    (h : ∀ y ∈ ys, y ∈ f '' A) : ∃ xs : List α, (∀ x ∈ xs, x ∈ A) ∧ xs.map f = ys := by
  induction ys with
  | nil => exact ⟨[], nofun, rfl⟩
  | cons y ys ih =>
      have hall := List.forall_mem_cons.mp h
      obtain ⟨x, hx, hy⟩ := hall.1
      obtain ⟨xs, hxs, hys⟩ := ih hall.2
      refine ⟨x :: xs, List.forall_mem_cons.mpr ⟨hx, hxs⟩, ?_⟩
      rw [List.map_cons, hy, hys]

/-- The stages, as far as equality can tell. -/
theorem skeleton_image_stage (h : ∀ p ∈ base, p.isQuantifierFree = true) (n : Nat) :
    Proposition.skeleton '' stage base n =
      advance^[n] (Proposition.skeleton '' {p | p ∈ base}) := by
  induction n with
  | zero => rfl
  | succ n ih =>
      have hfree := isQuantifierFree_stage h n
      rw [Function.iterate_succ_apply', ← ih, stage, Set.image_union, advance]
      congr 1
      ext q
      constructor
      · rintro ⟨r, ⟨step, hstep, ps, hlength, hps, hr⟩, rfl⟩
        refine ⟨step, hstep, ps.map Proposition.skeleton, ?_, ?_, ?_⟩
        · rw [List.length_map, hlength]
        · rw [List.forall_mem_map]
          exact fun p hp => Set.mem_image_of_mem _ (hps p hp)
        · rw [← Step.skeleton_conclusions hstep hlength fun p hp => hfree p (hps p hp)]
          exact List.mem_map_of_mem hr
      · rintro ⟨step, hstep, qs, hlength, hqs, hq⟩
        obtain ⟨ps, hps, rfl⟩ := exists_map_eq hqs
        rw [List.length_map] at hlength
        rw [← Step.skeleton_conclusions hstep hlength fun p hp => hfree p (hps p hp)] at hq
        obtain ⟨r, hr, rfl⟩ := List.mem_map.mp hq
        exact ⟨r, ⟨step, hstep, ps, hlength, hps, hr⟩, rfl⟩

end Stages

section Shapes
variable {S : Set Proposition} {n : Nat}

/-- Skeletons without quantifiers, as the plain facts of a search have. -/
def Skeletal (S : Set Proposition) : Prop := ∀ p ∈ S, p.skeleton = p ∧ p.isQuantifierFree = true

theorem Skeletal.advance (h : Skeletal S) : Skeletal (advance S) := by
  intro q hq
  cases hq with
  | inl hold => exact h q hold
  | inr hnew =>
      obtain ⟨step, hstep, ps, hlength, hps, hq⟩ := hnew
      have hfixed : ps.map Proposition.skeleton = ps :=
        (List.map_congr_left fun p hp => (h p (hps p hp)).1).trans ps.map_id
      have hconclusions := skeleton_reshapes.consequences step.rule ps
      rw [hfixed] at hconclusions
      refine ⟨?_, isQuantifierFree_consequences (fun p hp => (h p (hps p hp)).2) q hq⟩
      exact List.map_inj_left.mp (hconclusions.trans (List.map_id _).symm) q hq

/-- It is enough to take different premises. -/
theorem Skeletal.onward (h : Skeletal S) : onward consequences S = Search.advance S := by
  ext q
  constructor
  · refine Or.imp_right ?_
    rintro ⟨step, hstep, ps, hlength, -, hrest⟩
    exact ⟨step, hstep, ps, hlength, hrest⟩
  · rintro (hold | ⟨step, hstep, ps, hlength, hps, hq⟩)
    · exact .inl hold
    · by_cases hnodup : ps.Nodup
      · exact .inr ⟨step, hstep, ps, hlength, hnodup, hps, hq⟩
      · obtain ⟨p, rfl⟩ : ∃ p, ps = [p, p] := by
          cases Step.arity_of_mem_defaults step hstep with
          | inl hone =>
              obtain ⟨p, rfl⟩ := List.length_eq_one_iff.mp (hlength.trans hone)
              simp at hnodup
          | inr htwo =>
              obtain ⟨p, p', rfl⟩ := List.length_eq_two.mp (hlength.trans htwo)
              exact ⟨p, by simpa [eq_comm] using hnodup⟩
        have hp := hps p (by simp)
        rw [consequences_twice (h p hp).1 hq]
        exact .inl hp

theorem Skeletal.iterate (h : Skeletal S) (n : Nat) :
    (Search.onward consequences)^[n] S = Search.advance^[n] S ∧ Skeletal (Search.advance^[n] S) := by
  induction n with
  | zero => exact ⟨rfl, h⟩
  | succ n ih =>
      rw [Function.iterate_succ_apply', Function.iterate_succ_apply', ih.1]
      exact ⟨ih.2.onward, ih.2.advance⟩

end Shapes

section Runs
variable {s : Session} {target : Proposition}

theorem content_of_plain {f : Fact} (h : s.Plain f) : f.content = f.shape :=
  Proposition.bare_eq_skeleton h.2

theorem map_content_of_plain {fs : List Fact} (h : ∀ f ∈ fs, s.Plain f) :
    fs.map Fact.content = fs.map Fact.shape :=
  List.map_congr_left fun f hf => content_of_plain (h f hf)

/-- Without universal facts there is nothing to instantiate. -/
theorem instance?_plain {working : List Trace} (h : ∀ x ∈ working, s.Plain x.result) :
    instance? target working = Pure.pure none := by
  induction working with
  | nil => rfl
  | cons x xs ih =>
      have hall := List.forall_mem_cons.mp h
      have hfree := hall.1.2
      rw [instance?]
      split
      next huniversal =>
        rw [huniversal] at hfree
        cases hfree
      next => exact ih hall.2

/-- Plain facts are taken for each other only if they say the same, and never have instances. -/
theorem plain_tractable (target : Proposition) :
    Tractable consequences (fun _ => False) target fun _ => Plain where
  proves h := h.1.1
  deduces h hdeduces := h.deduces hdeduces
  later h := h
  discerned hf hg hequivalent := by
    rw [content_of_plain hf, content_of_plain hg]
    exact (Proposition.equivalent_iff_skeleton hf.2 _).mp hequivalent
  step hstep hlength _ hfs := by
    refine (Step.try_plain hstep hlength hfs).mono (fun gs t hgs => ⟨hgs.1, ?_, hgs.2.2⟩)
      fun _ h => h
    rw [map_content_of_plain hgs.2.2, map_content_of_plain hfs, hgs.2.1]
  instance? hworking := by
    rw [instance?_plain hworking]
    exact .pure ⟨.refl, by simp⟩

theorem finds_iff_advance (n : Nat) {kb : List Fact} (target : Proposition)
    (hkb : ∀ f ∈ kb, s.Plain f) :
    Finds n kb target s ↔ target.skeleton ∈ advance^[n] {q | q ∈ kb.map Fact.shape} := by
  have hplain : ∀ t : Session, t.ledger = s.ledger → t.knowledge = s.knowledge →
      t.speculation.isSome = true → ∀ f ∈ kb, t.Plain f := by
    intro t hledger _ _ f hf
    refine ⟨(hkb f hf).1.of_entry fun e he => ?_, (hkb f hf).2⟩
    unfold entry? at he ⊢
    rw [hledger]
    exact he
  have hskeletal : Skeletal {q | q ∈ kb.map Fact.shape} := by
    intro q hq
    obtain ⟨f, hf, rfl⟩ := List.mem_map.mp hq
    exact ⟨f.statement.skeleton_skeleton,
      f.statement.isQuantifierFree_skeleton.trans (hkb f hf).2⟩
  obtain ⟨honward, hiterate⟩ := hskeletal.iterate n
  rw [(plain_tractable target).finds_iff n hplain, map_content_of_plain hkb, honward]
  constructor
  · rintro ⟨q, hq, hequivalent⟩
    have hsame := (Proposition.equivalent_iff_skeleton (hiterate q hq).2 target).mp
      (by simpa using hequivalent)
    rw [← hsame, (hiterate q hq).1]
    exact hq
  · intro htarget
    have hfree := (hiterate _ htarget).2
    refine ⟨_, htarget, .inl ((Proposition.equivalent_iff_skeleton hfree target).mpr ?_)⟩
    exact target.skeleton_skeleton

/-- The members of a stage, as far as equality can tell. -/
theorem exists_stage_iff (n : Nat) {kb : List Fact} (target : Proposition)
    (hkb : ∀ f ∈ kb, s.Plain f) :
    (∃ q ∈ stage (kb.map Fact.statement) n, q.equal target = true) ↔
      target.skeleton ∈ advance^[n] {q | q ∈ kb.map Fact.shape} := by
  have hfree : ∀ p ∈ kb.map Fact.statement, p.isQuantifierFree = true := by
    rw [List.forall_mem_map]
    exact fun f hf => (hkb f hf).2
  have hshapes : Proposition.skeleton '' {p | p ∈ kb.map Fact.statement} =
      {q | q ∈ kb.map Fact.shape} := by
    ext q
    simp [Fact.shape]
  rw [← hshapes, ← skeleton_image_stage hfree]
  exact exists_congr fun q => and_congr_right fun _ => q.equal_iff_skeleton target

/-- More rounds and more facts do no harm. -/
theorem Finds.mono {s' : Session} {n m : Nat} {kb kb' : List Fact} (hkb : ∀ f ∈ kb, s.Plain f)
    (hkb' : ∀ f ∈ kb', s'.Plain f) (hnm : n ≤ m)
    (hmore : ∀ f ∈ kb, ∃ g ∈ kb', g.statement.equal f.statement = true)
    (h : Finds n kb target s) : Finds m kb' target s' := by
  have hgiven : {q | q ∈ kb.map Fact.shape} ⊆ {q | q ∈ kb'.map Fact.shape} := by
    intro q hq
    obtain ⟨f, hf, rfl⟩ := List.mem_map.mp hq
    obtain ⟨g, hg, hequal⟩ := hmore f hf
    exact List.mem_map.mpr ⟨g, hg, (g.statement.equal_iff_skeleton f.statement).mp hequal⟩
  rw [finds_iff_advance n target hkb] at h
  rw [finds_iff_advance m target hkb', ← Nat.sub_add_cancel hnm, Function.iterate_add_apply]
  exact subset_iterate_advance _ _ (iterate_advance_mono hgiven n h)

/-- From facts without quantifiers and assumptions, such as axioms are, a search finds its target in
`n` rounds exactly if the target equals a member of the stage `n`, and otherwise answers that there
is no trace. So whatever it finds it also finds in more rounds and from more facts, and whether it
finds something depends only on what the facts say: not on their order, nor on how often each is
given, nor on the session. -/
theorem finds_iff_stage {s : Session} (n : Nat) (kb : List Fact) (target : Proposition)
    (hkb : ∀ f ∈ kb, s.Plain f) :
    (∃ found t, Search.run ⟨Step.defaults, n⟩ (kb.map Fact.proposition) target s = .ok found t) ∧
    (Finds n kb target s ↔ ∃ q ∈ stage (kb.map Fact.statement) n, q.equal target = true) ∧
    ∀ (s' : Session) (kb' : List Fact), (∀ f ∈ kb', s'.Plain f) →
      (∀ m, n ≤ m → (∀ f ∈ kb, ∃ g ∈ kb', g.statement.equal f.statement = true) →
        Finds n kb target s → Finds m kb' target s') ∧
      ((∀ p, p ∈ kb.map Fact.statement ↔ p ∈ kb'.map Fact.statement) →
        (Finds n kb target s ↔ Finds n kb' target s')) := by
  refine ⟨?_, ?_, fun s' kb' hkb' => ⟨fun m hnm hmore => ?_, fun hsame => ?_⟩⟩
  · exact run_answers Step.arity_of_mem_defaults n _ target s
  · rw [finds_iff_advance n target hkb, exists_stage_iff n target hkb]
  · exact Finds.mono hkb hkb' hnm hmore
  · have hcovers : ∀ {fs gs : List Fact},
        (∀ p, p ∈ fs.map Fact.statement → p ∈ gs.map Fact.statement) →
        ∀ f ∈ fs, ∃ g ∈ gs, g.statement.equal f.statement = true := by
      intro fs gs hsub f hf
      obtain ⟨g, hg, hstatement⟩ := List.mem_map.mp (hsub _ (List.mem_map_of_mem hf))
      exact ⟨g, hg, by rw [hstatement]; exact f.statement.equal_refl⟩
    constructor
    · exact Finds.mono hkb hkb' (Nat.le_refl n) (hcovers fun p => (hsame p).mp)
    · exact Finds.mono hkb' hkb (Nat.le_refl n) (hcovers fun p => (hsame p).mpr)

end Runs

section Example

/-- An atomic proposition without terms. -/
def letter (name : String) : Proposition := .relation name []

/-- A session with three axioms, `P`, `P → Q` and `Q → R`. -/
def chainedSession : Session :=
  Session.run {} [.postulate (letter "P"), .postulate (.implies (letter "P") (letter "Q")),
    .postulate (.implies (letter "Q") (letter "R"))]

def chainedFacts : List Fact :=
  [⟨⟨0⟩, letter "P"⟩, ⟨⟨1⟩, .implies (letter "P") (letter "Q")⟩,
    ⟨⟨2⟩, .implies (letter "Q") (letter "R")⟩]

/-- It takes two rounds to get from `P` to `R`. -/
theorem finds_iff_stage_chained :
    (∃ q ∈ stage (chainedFacts.map Fact.statement) 2, q.equal (letter "R") = true) ∧
      ¬∃ q ∈ stage (chainedFacts.map Fact.statement) 1, q.equal (letter "R") = true := by
  have hplain : ∀ f ∈ chainedFacts, chainedSession.Plain f := by
    intro f hf
    simp only [chainedFacts, List.mem_cons, List.not_mem_nil, or_false] at hf
    rcases hf with rfl | rfl | rfl
    · exact ⟨⟨⟨_, rfl, rfl, rfl⟩, rfl⟩, rfl⟩
    · exact ⟨⟨⟨_, rfl, rfl, rfl⟩, rfl⟩, rfl⟩
    · exact ⟨⟨⟨_, rfl, rfl, rfl⟩, rfl⟩, rfl⟩
  have hevaluate : ∀ n, Finds n chainedFacts (letter "R") chainedSession ↔
      ((Search.run ⟨Step.defaults, n⟩ (chainedFacts.map Fact.proposition) (letter "R")).run'
        chainedSession).join.isSome = true := by
    intro n
    unfold Finds
    delta EStateM.run' EStateM.run
    split
    next found t hrun =>
      rw [hrun]
      cases found <;> simp
    next hrun =>
      rw [hrun]
      simp
  constructor
  · rw [← (finds_iff_stage 2 chainedFacts (letter "R") hplain).2.1, hevaluate]
    decide +kernel
  · rw [← (finds_iff_stage 1 chainedFacts (letter "R") hplain).2.1, hevaluate]
    decide +kernel

end Example

end Search

end Entailment
