import Entailment.Proofs.Knowledge
import Entailment.Proofs.Outcomes
import Entailment.Proofs.Saturation

/-!
# More facts do no harm

A search leaves out a fact if it has an equivalent one already. The steps it tries are not as
indifferent: some of them tell apart facts that differ in the names of bound variables only. So a
fact that is left out may have been needed, and adding facts may keep a search from finding its
target. It takes facts like that, though. If none of the facts that come up is equivalent to another
one without being the same, whatever is found is also found from more facts. There is one more thing
to rule out, a disjunction that can be refuted altogether, because what is concluded then depends on
assumptions, and equivalent facts may rest on different ones.
-/
namespace Entailment

open Session

namespace Session

/-- Deductions in a speculation have led from one session to the other. -/
structure Ponders (s u : Session) : Prop where
  speculating : u.speculation.isSome = true
  knowledge : u.knowledge = s.knowledge
  entry : ∀ {id e}, s.entry? id = some e → u.entry? id = some e

section Pondering
variable {s u v : Session}

theorem Ponders.deduces {R : Rule → Prop} (h : Ponders s u) (hv : Deduces R u v) :
    Ponders s v := by
  obtain ⟨-, -, hknowledge, hspeculating⟩ := hv.extends.unrecorded h.speculating
  exact ⟨hspeculating, hknowledge.trans h.knowledge, fun he => hv.extends.entry_eq (h.entry he)⟩

theorem Ponders.certified (h : Ponders s u) (p : Proposition) (i : Inference FactId)
    (d : List FactId) : Ponders s (u.certified p i d) := by
  obtain ⟨derived, hderived⟩ := Option.isSome_iff_exists.mp h.speculating
  constructor
  · rw [certified_speculation, hderived]
    rfl
  · rw [certified_eq_noted u p i d hderived]
    exact h.knowledge
  · exact fun he => entry?_of_push_of_some (certified_ledger u p i d) (h.entry he)

theorem findSome?_congr {α β : Type} {f g : α → Option β} {xs : List α}
    (h : ∀ x ∈ xs, f x = g x) : xs.findSome? f = xs.findSome? g := by
  induction xs with
  | nil => rfl
  | cons x xs ih =>
      have hall := List.forall_mem_cons.mp h
      rw [List.findSome?_cons, List.findSome?_cons, hall.1, ih hall.2]

/-- While speculating, nothing new is known. -/
theorem Ponders.knows (h : Ponders s u) (hs : s.Catalogued) : u.knows = s.knows := by
  funext want
  have hentry : ∀ w, ∀ id ∈ s.known w, u.entry? id = s.entry? id := by
    intro w id hid
    obtain ⟨e, he⟩ := entry?_of_lt (hs w id hid)
    rw [he]
    exact h.entry he
  have hknown : ∀ w, u.known w = s.known w := fun w => by rw [known, h.knowledge, known]
  have hlookup : u.lookup want [] = s.lookup want [] := by
    unfold lookup
    refine findSome?_congr fun w _ => ?_
    rw [hknown]
    refine findSome?_congr fun id hid => ?_
    rw [Session.holds, Session.holds, hentry w id hid]
  rw [Session.knows, Session.knows, hlookup]

end Pondering

end Session

namespace Search

/-- What a step concludes in a session from the given statements, entered as axioms for a try. -/
def Step.conclusionsIn (step : Step) (s : Session) (ps : List Proposition) : List Proposition :=
  match (do step.apply ((← ps.mapM postulate).map Fact.proposition) : Action (List Fact))
    { s with speculation := some [] } with
  | .ok fs _ => fs.map Fact.statement
  | .error _ _ => []

/-- What comes up in a session in so many rounds, if nothing is left out. -/
def stock (s : Session) (base : List Proposition) : Nat → List Proposition
  | 0 => base
  | k + 1 => stock s base k ++ Step.defaults.flatMap fun step =>
      ((selections (stock s base k) step.arity).getD []).flatMap (step.conclusionsIn s)

/-- Propositions that are equivalent are the same, and no disjunction has one disjunct only. -/
def areDistinctive (ps : List Proposition) : Bool :=
  (ps.all fun p => ps.all fun q => !p.equivalent q || p.same q) && ps.all fun p => !isUniform p

section Stock
variable {s : Session} {step : Step} {base ps : List Proposition} {j n : Nat}

theorem subset_stock (h : j ≤ n) : stock s base j ⊆ stock s base n := by
  induction h with
  | refl => exact List.Subset.refl _
  | step _ ih => exact List.Subset.trans ih (List.subset_append_left _ _)

theorem areDistinctive_iff :
    areDistinctive ps = true ↔
      (∀ p ∈ ps, ∀ q ∈ ps, p.equivalent q = true → p.bare = q.bare) ∧
        ∀ p ∈ ps, isUniform p = false := by
  simp only [areDistinctive, Bool.and_eq_true, List.all_eq_true, Bool.or_eq_true,
    Bool.not_eq_true', Proposition.same_iff_bare]
  refine and_congr_left fun _ => forall₂_congr fun p _ => forall₂_congr fun q _ => ?_
  cases p.equivalent q <;> simp

theorem postulates_deliver (ps : List Proposition) :
    Ensures (ps.mapM postulate) { s with speculation := some [] }
      (fun fs t => Ponders s t ∧ fs.map Fact.content = ps.map Proposition.bare ∧
        ∀ f ∈ fs, t.Proves f) fun _ => False := by
  have hadds : ∀ t p, (∀ f ∈ [], t.Establishes f) → Adds (postulate p) t p :=
    fun t p _ => certify_adds t p _
  have hcontent : ∀ p ∈ ps, ∀ t, Ponders s t → Ensures (postulate p) t
      (fun f u => Ponders s u ∧ f.content = p.bare) fun _ => False :=
    fun p _ t ht => .certify ⟨ht.certified p _ _, p.bare_strip⟩
  have hstart : Ponders s { s with speculation := some [] } := ⟨rfl, rfl, fun he => he⟩
  refine ((Ensures.mapM hcontent hstart).and (mapM_adds ps hadds nofun)).mono ?_ fun _ h => h.1
  intro fs t hfs
  exact ⟨hfs.1.1, map_content_of_forall₂ hfs.1.2, fun f hf => (hfs.2.2.1 f hf).1⟩

theorem Step.bare_conclusionsIn (hs : s.Catalogued) (hstep : step ∈ Step.defaults)
    (hlength : ps.length = step.arity) (hps : ∀ p ∈ ps, isUniform p = false) :
    (step.conclusionsIn s ps).map Proposition.bare =
      outcomes s.knows step.rule (ps.map Proposition.bare) := by
  have hrun : Ensures (do step.apply ((← ps.mapM postulate).map Fact.proposition))
      { s with speculation := some [] }
      (fun gs _ => gs.map Fact.content = outcomes s.knows step.rule (ps.map Proposition.bare))
      fun _ => [] = outcomes s.knows step.rule (ps.map Proposition.bare) := by
    apply ((postulates_deliver ps).mono (fun _ _ h => h) nofun).bind
    intro fs t hfs
    obtain ⟨hponders, hcontents, hproven⟩ := hfs
    have hcount : fs.length = ps.length := by simpa using congrArg List.length hcontents
    have hleft : ∀ f ∈ fs, isUniform f.statement = false := by
      intro f hf
      have hmem : f.content ∈ ps.map Proposition.bare := hcontents ▸ List.mem_map_of_mem hf
      obtain ⟨p, hp, hbare⟩ := List.mem_map.mp hmem
      rw [← hps p hp]
      exact isUniform_eq_of_bare_eq hbare.symm
    have hdelivers := Step.delivers hstep (hcount.trans hlength) hproven hleft
    have houtcomes : (outcomes t.knows step.rule (fs.map Fact.statement)).map Proposition.bare =
        outcomes s.knows step.rule (ps.map Proposition.bare) := by
      rw [hponders.knows hs, bare_outcomes, ← hcontents, List.map_map]
      rfl
    rw [← houtcomes]
    refine Ensures.mono hdelivers (fun gs _ hgs => hgs.1) fun _ h => ?_
    rw [h]
    rfl
  unfold Ensures at hrun
  unfold conclusionsIn
  split
  next gs t hok =>
    rw [hok] at hrun
    rw [List.map_map]
    exact hrun
  next e t herror =>
    rw [herror] at hrun
    exact hrun

end Stock

section Runs
variable {s u : Session} {base : List Proposition} {k n : Nat} {f g : Fact}

/-- The fact is proven in the course of a speculation, and comes up while so many rounds are left. -/
structure Arises (s : Session) (base : List Proposition) (n k : Nat) (u : Session) (f : Fact) :
    Prop where
  ponders : Ponders s u
  proves : u.Proves f
  stocked : ∃ j, j + k = n ∧ f.content ∈ (stock s base j).map Proposition.bare

theorem Arises.mem_stock (h : Arises s base n k u f) :
    ∃ p ∈ stock s base n, p.bare = f.content := by
  obtain ⟨j, hj, hmem⟩ := h.stocked
  obtain ⟨p, hp, hbare⟩ := List.mem_map.mp hmem
  exact ⟨p, subset_stock (by omega) hp, hbare⟩

/-- What follows from different facts in the stock comes up one round later. -/
theorem mem_stock_succ {step : Step} {j : Nat} {qs : List Proposition} {q : Proposition}
    (hs : s.Catalogued) (hleft : ∀ p ∈ stock s base j, isUniform p = false)
    (hstep : step ∈ Step.defaults) (hlength : qs.length = step.arity) (hnodup : qs.Nodup)
    (hqs : ∀ q ∈ qs, q ∈ (stock s base j).map Proposition.bare)
    (hq : q ∈ outcomes s.knows step.rule qs) :
    q ∈ (stock s base (j + 1)).map Proposition.bare := by
  obtain ⟨candidates, hcandidates, ps, hps, rfl⟩ := exists_selection
    (Step.arity_of_mem_defaults step hstep) hlength (fun q hq => List.mem_map.mp (hqs q hq))
    fun p hp => by simp [hp] at hnodup
  have hmem := mem_selections hcandidates hps
  rw [← Step.bare_conclusionsIn hs hstep hmem.1 fun p hp => hleft p (hmem.2 p hp)] at hq
  obtain ⟨r, hr, rfl⟩ := List.mem_map.mp hq
  refine List.mem_map_of_mem (List.mem_append_right _ ?_)
  refine List.mem_flatMap.mpr ⟨step, hstep, List.mem_flatMap.mpr ⟨ps, ?_, hr⟩⟩
  rw [hcandidates]
  exact hps

theorem Arises.deduces {v : Session} (h : Arises s base n k u f)
    (hdeduces : Deduces (fun _ => True) u v) : Arises s base n k v f :=
  ⟨h.ponders.deduces hdeduces, hdeduces.extends.proves h.proves, h.stocked⟩

theorem Arises.later (h : Arises s base n (k + 1) u f) : Arises s base n k u f := by
  obtain ⟨j, hj, hmem⟩ := h.stocked
  refine ⟨h.ponders, h.proves, j + 1, by omega, ?_⟩
  exact List.map_subset _ (subset_stock (Nat.le_succ j)) hmem

section Distinctive
variable (hdistinctive : areDistinctive (stock s base n) = true)
include hdistinctive

theorem Arises.isUniform_eq_false (h : Arises s base n k u f) :
    isUniform f.statement = false := by
  obtain ⟨p, hp, hbare⟩ := h.mem_stock
  rw [← (areDistinctive_iff.mp hdistinctive).2 p hp]
  exact isUniform_eq_of_bare_eq hbare.symm

theorem Arises.content_eq (hf : Arises s base n k u f) (hg : Arises s base n k u g)
    (hequivalent : f.statement.equivalent g.statement = true) : f.content = g.content := by
  obtain ⟨p, hp, hpf⟩ := hf.mem_stock
  obtain ⟨q, hq, hqg⟩ := hg.mem_stock
  rw [← hpf, ← hqg]
  apply (areDistinctive_iff.mp hdistinctive).1 p hp q hq
  rw [← Proposition.equivalent_bare, hpf, hqg]
  exact (Proposition.equivalent_bare _ _).trans hequivalent

/-- With a round less to go, what a usual step concludes from different facts arises as well. -/
theorem Arises.step (hs : s.Catalogued) {fs : List Fact} {step : Step}
    (hstep : step ∈ Step.defaults) (hlength : fs.length = step.arity)
    (hnodup : (fs.map Fact.content).Nodup) (hfs : ∀ f ∈ fs, Arises s base n (k + 1) u f) :
    Ensures (MonadExcept.tryCatch (step.apply (fs.map Fact.proposition)) fun _ => Pure.pure []) u
      (fun gs v => Deduces (fun _ => True) u v ∧
        gs.map Fact.content = outcomes s.knows step.rule (fs.map Fact.content) ∧
        ∀ g ∈ gs, Arises s base n k v g)
      fun _ => False := by
  obtain ⟨first, hfirst⟩ : ∃ f, f ∈ fs := by
    apply List.exists_mem_of_length_pos
    have harity := Step.arity_of_mem_defaults step hstep
    omega
  have hponders := (hfs first hfirst).ponders
  obtain ⟨j, hj, -⟩ := (hfs first hfirst).stocked
  have hstocked : ∀ q ∈ fs.map Fact.content, q ∈ (stock s base j).map Proposition.bare := by
    rw [List.forall_mem_map]
    intro f hf
    obtain ⟨i, hi, hmem⟩ := (hfs f hf).stocked
    obtain rfl : i = j := by omega
    exact hmem
  have hleft : ∀ p ∈ stock s base j, isUniform p = false := fun p hp =>
    (areDistinctive_iff.mp hdistinctive).2 p (subset_stock (by omega) hp)
  have htry := Step.try_delivers hstep hlength (fun f hf => (hfs f hf).proves) fun f hf =>
    (hfs f hf).isUniform_eq_false hdistinctive
  rw [hponders.knows hs] at htry
  refine htry.mono (fun gs v hgs => ⟨hgs.1, hgs.2.1, fun g hg => ?_⟩) fun _ h => h
  have hconcluded : g.content ∈ outcomes s.knows step.rule (fs.map Fact.content) := by
    rw [← hgs.2.1]
    exact List.mem_map_of_mem hg
  refine ⟨hponders.deduces hgs.1, hgs.2.2 g hg, j + 1, by omega, ?_⟩
  exact mem_stock_succ hs hleft hstep (by rw [List.length_map, hlength]) hnodup hstocked hconcluded

/-- A search keeps to what is in stock, and there it is not misled. -/
theorem arises_tractable (hs : s.Catalogued) (target : Proposition) :
    Tractable (outcomes s.knows) (fun q => isInstance s.knows target q = true) target
      (Arises s base n) where
  proves h := h.proves
  deduces h hdeduces := h.deduces hdeduces
  later h := h.later
  discerned hf hg hequivalent := hf.content_eq hdistinctive hg hequivalent
  step hstep hlength hnodup hfs := Arises.step hdistinctive hs hstep hlength hnodup hfs
  instance? hworking := by
    refine (instance?_finds fun x hx => (hworking x hx).proves).mono
      (fun found v hv => ⟨hv.1, hv.2.trans ?_⟩) fun _ h => h
    simp only [mem_contents, exists_exists_and_eq_and]
    refine exists_congr fun x => and_congr_right fun hx => ?_
    rw [(hworking x hx).ponders.knows hs]

/-- What is found is what can be had if nothing is left out. -/
theorem finds_iff_answered (hs : s.Catalogued) {kb : List Fact} (target : Proposition)
    (hproven : ∀ f ∈ kb, s.Proves f) (hbase : ∀ f ∈ kb, f.statement ∈ base) :
    Finds n kb target s ↔ ∃ q ∈ (onward (outcomes s.knows))^[n] {q | q ∈ kb.map Fact.content},
      q.equivalent target = true ∨ isInstance s.knows target q = true := by
  apply (arises_tractable hdistinctive hs target).finds_iff
  intro t hledger hknowledge hspeculation f hf
  have hentry : ∀ {id e}, s.entry? id = some e → t.entry? id = some e := by
    intro id e he
    rw [Session.entry?, hledger]
    exact he
  obtain ⟨e, he, hrest⟩ := hproven f hf
  refine ⟨⟨hspeculation, hknowledge, hentry⟩, ⟨e, hentry he, hrest⟩, 0, Nat.zero_add n, ?_⟩
  exact List.mem_map_of_mem (hbase f hf)

end Distinctive

/-- Whatever a search finds it also finds from more facts, wherever they are put among the others,
as long as nothing comes up that it takes for something else. -/
theorem finds_of_sublist (calls : List Call) (n : Nat) {kb kb' : List Fact} (target : Proposition)
    (hproven : ∀ f ∈ kb', (Session.run {} calls).Proves f) (hmore : kb.Sublist kb')
    (hdistinctive :
      areDistinctive (stock (Session.run {} calls) (kb'.map Fact.statement) n) = true)
    (hfinds : Finds n kb target (Session.run {} calls)) :
    Finds n kb' target (Session.run {} calls) := by
  have hs : (Session.run {} calls).Catalogued := Catalogued.initial.run calls
  have hbase : ∀ f ∈ kb', f.statement ∈ kb'.map Fact.statement := fun f hf =>
    List.mem_map_of_mem hf
  rw [finds_iff_answered hdistinctive hs target (fun f hf => hproven f (hmore.subset hf))
    fun f hf => hbase f (hmore.subset hf)] at hfinds
  rw [finds_iff_answered hdistinctive hs target hproven hbase]
  obtain ⟨q, hq, hanswers⟩ := hfinds
  exact ⟨q, iterate_onward_mono (List.map_subset _ hmore.subset) n hq, hanswers⟩

end Runs

section Examples

/-- The facts with the given numbers. -/
def factsOf (s : Session) (numbers : List Nat) : List Fact :=
  numbers.filterMap fun i => (s.entry? ⟨i⟩).map fun e => ⟨⟨i⟩, e.statement⟩

theorem proves_factsOf {s : Session} {numbers : List Nat}
    (h : (numbers.all fun i => s.holds ⟨i⟩) = true) : ∀ f ∈ factsOf s numbers, s.Proves f := by
  intro f hf
  obtain ⟨i, hi, hentry⟩ := List.mem_filterMap.mp hf
  obtain ⟨e, he, rfl⟩ := Option.map_eq_some_iff.mp hentry
  have hholds := List.all_eq_true.mp h i hi
  rw [Session.holds, he] at hholds
  exact ⟨e, he, rfl, hholds⟩

/-- To everything in `S` with the property `P` something is in the relation `R`. Further axioms put
`z` into `S`, say `P` of it, and let `T` follow from what that gives. The last one has nothing to do
with all this. -/
def boundedCalls : List Call :=
  let x : Variable := ⟨1, "x"⟩
  let y : Variable := ⟨2, "y"⟩
  let z : Variable := ⟨3, "z"⟩
  [.newVariable "x", .newVariable "y", .newVariable "z",
    .postulate (.rel .element (.var z) (.const "S")),
    .postulate (.quantified .all x (some (.const "S")) (.implies (.relation "P" [.var x])
      (.quantified .exist y none (.relation "R" [.var x, .var y])))),
    .postulate (.relation "P" [.var z]),
    .postulate (.quantified .all y none (.implies (.relation "R" [.var z, .var y]) (letter "T"))),
    .postulate (.junction .and [letter "U", letter "V"])]

/-- The last axiom is put in front of those that are needed. -/
theorem finds_of_sublist_bounded :
    let s := Session.run {} boundedCalls
    (∀ f ∈ factsOf s [4, 1, 2, 3], s.Proves f) ∧
      (factsOf s [1, 2, 3]).Sublist (factsOf s [4, 1, 2, 3]) ∧
      areDistinctive (stock s ((factsOf s [4, 1, 2, 3]).map Fact.statement) 2) = true ∧
      Finds 2 (factsOf s [1, 2, 3]) (letter "T") s ∧
      Finds 2 (factsOf s [4, 1, 2, 3]) (letter "T") s := by
  intro s
  have hproven : ∀ f ∈ factsOf s [4, 1, 2, 3], s.Proves f := proves_factsOf (by decide)
  have hmore : (factsOf s [1, 2, 3]).Sublist (factsOf s [4, 1, 2, 3]) :=
    List.Sublist.filterMap _ (by decide)
  have hdistinctive :
      areDistinctive (stock s ((factsOf s [4, 1, 2, 3]).map Fact.statement) 2) = true := by
    decide +kernel
  have hfinds : Finds 2 (factsOf s [1, 2, 3]) (letter "T") s := by
    rw [finds_iff_isSome]
    decide +kernel
  exact ⟨hproven, hmore, hdistinctive, hfinds,
    finds_of_sublist boundedCalls 2 (letter "T") hproven hmore hdistinctive hfinds⟩

/-- The same said of all `x` and of all `y`, and an implication from the first to `Q`. -/
def renamedCalls : List Call :=
  let x : Variable := ⟨1, "x"⟩
  let y : Variable := ⟨2, "y"⟩
  let every (v : Variable) : Proposition := .quantified .all v none (.relation "P" [.var v])
  [.newVariable "x", .newVariable "y", .postulate (every x), .postulate (every y),
    .postulate (.implies (every x) (letter "Q"))]

/-- Two assumptions that clash, and the first of them as an axiom. -/
def clashingCalls : List Call :=
  [.assume (.not (letter "P")), .assume (.junction .or [letter "P", letter "P"]),
    .postulate (.not (letter "P"))]

/-- Next to an equivalent fact, one that a step depends on is left out: because of its bound
variable, or because of the assumption it rests on. -/
theorem more_facts_find_less :
    let s := Session.run {} renamedCalls
    let t := Session.run {} clashingCalls
    ((∀ f ∈ factsOf s [1, 0, 2], s.Proves f) ∧
      (factsOf s [0, 2]).Sublist (factsOf s [1, 0, 2]) ∧
      Finds 3 (factsOf s [0, 2]) (letter "Q") s ∧
      ¬Finds 3 (factsOf s [1, 0, 2]) (letter "Q") s) ∧
    (∀ f ∈ factsOf t [2, 0, 1], t.Proves f) ∧
      (factsOf t [0, 1]).Sublist (factsOf t [2, 0, 1]) ∧
      Finds 3 (factsOf t [0, 1]) .contradiction t ∧
      ¬Finds 3 (factsOf t [2, 0, 1]) .contradiction t := by
  intro s t
  have hmore : ∀ (u : Session) {ms ns : List Nat}, ms.Sublist ns →
      (factsOf u ms).Sublist (factsOf u ns) := fun u _ _ h => h.filterMap _
  simp only [finds_iff_isSome]
  refine ⟨⟨proves_factsOf (by decide), hmore s (by decide), ?_, ?_⟩,
    proves_factsOf (by decide), hmore t (by decide), ?_, ?_⟩
  · decide +kernel
  · decide +kernel
  · decide +kernel
  · decide +kernel

end Examples

end Search

end Entailment
