import Entailment.Proofs.Eigenvariables
import Entailment.Proofs.Equivalence
import Entailment.Proofs.Generalisation

/-!
# Soundness of runs that generalise

What holds in a scope is restated outside of it with the suppositions of the scope in front. This is
sound if no remaining assumption speaks about a variable of the scope. A run in which variables are
introduced while no current assumption speaks about them keeps it so, and then everything it enters
is true, in every interpretation that makes the axioms true, wherever its assumptions are.

Tactics identify quantified propositions whatever variable they bind, so another condition is that
no two propositions of the run are taken for each other without being the same. The last theorem
shows what happens without the conditions.
-/
namespace Entailment

universe u

namespace Proposition

mutual

/-- The parts of a proposition that connectives have put together. -/
def atoms : Proposition → List Proposition
  | .relation name args m => [.relation name args m]
  | .not p _ => atoms p
  | .junction _ ps _ => atomsOf ps
  | .implies a b _ | .iff a b _ => atoms a ++ atoms b
  | .quantified q v domain p m => [.quantified q v domain p m]
  | .contradiction _ => []

def atomsOf : List Proposition → List Proposition
  | [] => []
  | p :: ps => atoms p ++ atomsOf ps

end

theorem atomsOf_eq_flatMap (ps : List Proposition) : atomsOf ps = ps.flatMap atoms := by
  induction ps with
  | nil => rfl
  | cons p ps ih => rw [atomsOf, ih, List.flatMap_cons]

/-- Propositions that are taken for each other are the same. -/
def discerned (ps : List Proposition) : Bool :=
  ps.all fun p => ps.all fun q => !p.equal q || p.same q

theorem same_of_discerned {ps : List Proposition} (h : discerned ps = true) {p q : Proposition}
    (hp : p ∈ ps) (hq : q ∈ ps) (hequal : p.equal q = true) : p.same q = true := by
  rw [discerned, List.all_eq_true] at h
  have hpq := List.all_eq_true.mp (h p hp) q hq
  rw [hequal] at hpq
  exact hpq

end Proposition

namespace Interpretation
variable {D : Type u} {I : Interpretation D} {ρ : Variable → D}

/-- Truth under an interpretation, as far as some atoms show it. -/
def valuation (I : Interpretation D) (ρ : Variable → D) (atoms : List Proposition) :
    Valuation where
  atom p := ∃ a ∈ atoms, a.equal p = true ∧ I.Satisfies ρ a
  respects := by
    intro p q h
    rw [Proposition.equal_iff_skeleton] at h
    simp only [Proposition.equal_iff_skeleton, h]

theorem atom_valuation {atoms : List Proposition} (h : Proposition.discerned atoms = true)
    {p : Proposition} (hp : p ∈ atoms) : (I.valuation ρ atoms).atom p ↔ I.Satisfies ρ p := by
  constructor
  · rintro ⟨a, ha, hequal, htrue⟩
    exact (satisfies_same (Proposition.same_of_discerned h ha hp hequal)).mp htrue
  · exact fun htrue => ⟨p, hp, p.equal_refl, htrue⟩

/-- A valuation that knows the atoms of a proposition knows whether it is true. -/
theorem satisfies_valuation {atoms : List Proposition} (h : Proposition.discerned atoms = true)
    {p : Proposition} (hp : ∀ a ∈ p.atoms, a ∈ atoms) :
    (I.valuation ρ atoms).Satisfies p ↔ I.Satisfies ρ p := by
  induction p using Proposition.inductionOn with
  | relation name args m => exact atom_valuation h (hp _ (by simp [Proposition.atoms]))
  | not p m ih => exact not_congr (ih hp)
  | junction c ps m ih =>
      rw [Proposition.atoms, Proposition.atomsOf_eq_flatMap] at hp
      have hmembers : ps.map (I.valuation ρ atoms).Satisfies = ps.map (I.Satisfies ρ) := by
        refine List.map_congr_left fun p hmem => propext (ih p hmem fun a ha => hp a ?_)
        exact List.mem_flatMap.mpr ⟨p, hmem, ha⟩
      rw [Valuation.Satisfies, Satisfies, Valuation.values_eq_map, truths_eq_map, hmembers]
  | implies a b m iha ihb =>
      rw [Proposition.atoms] at hp
      exact imp_congr (iha fun c hc => hp c (List.mem_append_left _ hc))
        (ihb fun c hc => hp c (List.mem_append_right _ hc))
  | iff a b m iha ihb =>
      rw [Proposition.atoms] at hp
      exact iff_congr (iha fun c hc => hp c (List.mem_append_left _ hc))
        (ihb fun c hc => hp c (List.mem_append_right _ hc))
  | quantified q v domain p m => exact atom_valuation h (hp _ (by simp [Proposition.atoms]))
  | contradiction m => exact Iff.rfl

/-- A property holds under the suppositions of a log if it holds wherever the assumptions of the log
and those made outside are true, and if no variable of the log is spoken about by the latter or by
an earlier assumption. -/
theorem supposing_of {log : List Supposition} {P : (Variable → D) → Prop} {G : Fact → Prop}
    (hlog : log.Pairwise Supposition.Independent)
    (hfree : ∀ v, .introduced v ∈ log → ∀ f, G f → f.statement.contains (.var v) = false)
    (houtside : ∀ f, G f → I.Satisfies ρ f.statement)
    (hP : ∀ ρ, (∀ f, G f ∨ .assumed f ∈ log → I.Satisfies ρ f.statement) → P ρ) :
    I.Supposing log P ρ := by
  induction log generalizing ρ G with
  | nil => exact hP ρ fun f hf => houtside f (by simpa using hf)
  | cons x log ih =>
      obtain ⟨hfirst, hrest⟩ := List.pairwise_cons.mp hlog
      cases x with
      | introduced v =>
          intro d
          refine ih hrest (fun w hw => hfree w (List.mem_cons_of_mem _ hw)) (fun f hf => ?_) ?_
          · rw [satisfies_update_of_not_contains (hfree v List.mem_cons_self f hf)]
            exact houtside f hf
          · exact fun ρ hall => hP ρ fun f hf => hall f (by simpa using hf)
      | assumed g =>
          -- From here on the assumption counts as made outside.
          intro hg
          refine ih (G := fun f => G f ∨ f = g) hrest ?_ ?_ ?_
          · rintro w hw f (hf | rfl)
            · exact hfree w (List.mem_cons_of_mem _ hw) f hf
            · exact hfirst _ hw
          · rintro f (hf | rfl)
            · exact houtside f hf
            · exact hg
          · refine fun ρ hall => hP ρ fun f hf => hall f ?_
            simpa [or_assoc] using hf

end Interpretation

namespace Session
variable {D : Type u} {I : Interpretation D} {V : (Variable → D) → Valuation}

section Lists
variable {s t : Session} {f : Fact}

theorem Lists.dependencies_push {new : Entry} (h : s.Lists f)
    (ht : t.ledger = s.ledger.push new) : t.dependencies f.id = s.dependencies f.id := by
  obtain ⟨e, he, -⟩ := h
  rw [dependencies, dependencies, he, entry?_of_push_of_some ht he]

theorem Lists.extended {R : Rule → Prop} (h : s.Lists f) (ht : Extends R s t) : t.Lists f := by
  induction ht with
  | refl => exact h
  | aside _ _ _ _ ih => exact ih
  | certify _ _ _ ih => exact ih.push (certified_ledger _ _ _ _)

theorem Lists.exported {c : ScopeId} {scope : Scope} (h : s.Lists f)
    (statements : List (Fact × Proposition)) :
    (Session.exported c scope s statements).Lists f := by
  induction statements generalizing s with
  | nil => exact h
  | cons x statements ih => exact ih (h.push (certified_ledger _ _ _ _))

theorem lists_certified (s : Session) (p : Proposition) (i : Inference FactId) (d : List FactId) :
    (s.certified p i d).Lists (s.nextFact p) :=
  ⟨_, (entry?_certified s p i d _).trans (if_pos rfl), rfl⟩

theorem lists_exported (s : Session) (c : ScopeId) (scope : Scope)
    {statements : List (Fact × Proposition)} {x : Fact × Proposition} (hx : x ∈ statements) :
    ∃ f, (Session.exported c scope s statements).Lists f ∧ f.statement = x.2.strip := by
  induction statements generalizing s with
  | nil => cases hx
  | cons y statements ih =>
      rcases List.mem_cons.mp hx with rfl | hx
      · exact ⟨_, (lists_certified s x.2 _ _).exported statements, rfl⟩
      · exact ih _ hx

/-- What is in the ledger stays there. -/
theorem Lists.call (h : s.Lists f) (call : Call) : (call.apply s).Lists f := by
  have hchange := call.change s
  generalize call.apply s = t at hchange
  cases hchange with
  | aside ht =>
      obtain ⟨_, _, _, rfl⟩ := ht
      exact h
  | tactic ht => exact h.extended ht
  | postulate => exact h.push (certified_ledger s _ _ _)
  | suppose _ => exact h.push (supposed_ledger s _)
  | assumeIn _ _ => exact h.push (supposed_ledger s _)
  | openScope => exact h
  | introduce _ ht _ =>
      obtain ⟨_, _, _, rfl⟩ := ht
      exact h
  | conclude _ _ => exact h
  | close _ _ => exact ((retract_sameContents s _).lists h).exported _
  | discard _ _ => exact (retract_sameContents s _).lists h
  | speculateFrom _ => exact h
  | settle => exact (settled_sameContents s _).lists h

theorem Lists.run (h : s.Lists f) (calls : List Call) : (run s calls).Lists f := by
  induction calls generalizing s with
  | nil => exact h
  | cons call calls ih => exact ih (h.call call)

end Lists

/-- The valuations agree with an interpretation on everything in the ledger. -/
def Agrees (s : Session) (I : Interpretation D) (V : (Variable → D) → Valuation) : Prop :=
  ∀ ρ f, s.Lists f → ((V ρ).Satisfies f.statement ↔ I.Satisfies ρ f.statement)

/-- The atoms of everything in the ledger. -/
def atoms (s : Session) : List Proposition := s.ledger.toList.flatMap (·.statement.atoms)

theorem agrees_of_discerned {s : Session} (h : Proposition.discerned s.atoms = true) :
    s.Agrees I fun ρ => I.valuation ρ s.atoms := by
  intro ρ f hf
  obtain ⟨e, he, hstatement⟩ := hf
  refine Interpretation.satisfies_valuation h fun a ha => List.mem_flatMap.mpr ⟨e, ?_, ?_⟩
  · exact Array.mem_toList_iff.mpr (Array.mem_of_getElem? he)
  · rw [hstatement]
    exact ha

section Closing
variable {s t : Session} {c : ScopeId} {scope : Scope} {f : Fact} {ρ : Variable → D}

theorem Agrees.of_lists (h : t.Agrees I V) (hlists : ∀ f, s.Lists f → t.Lists f) : s.Agrees I V :=
  fun ρ f hf => h ρ f (hlists f hf)

/-- An assumption that something on the record of the innermost scope depends on speaks about a
variable of the scope only if it was made in the scope. -/
theorem Scoped.mem_assumptions (h : s.Scoped) (haccounted : s.Accounted)
    (hc : s.Innermost c scope) {id : FactId} (hid : id ∈ scope.onRecord) {g : Fact}
    (hg : s.Lists g) (hdepends : g.id ∈ s.dependencies id) {v : Variable}
    (hv : .introduced v ∈ scope.log) (hcontains : g.statement.contains (.var v) = true) :
    g ∈ scope.assumptions := by
  have hstack : c ∈ s.stack := haccounted.nested.of_open hc.1 hc.2.1
  have hassumed := (haccounted.onRecord hstack hc.1 hid).1.isAssumed g.id hdepends
  have hassumes : s.Assumes g := by
    obtain ⟨e, he, hstatement⟩ := hg
    obtain ⟨e', he', hassumed⟩ := isAssumed_eq_true.mp hassumed
    obtain rfl := Option.some.inj (he.symm.trans he')
    exact ⟨e, he, hstatement, hassumed⟩
  rw [← logOf_of_some hc.1] at hv
  obtain ⟨d, hd, hmem⟩ := h.owned c hstack v hv g hassumes hcontains
  obtain rfl := hd.resolve_right (haccounted.nested.not_inside_head hc.2.2)
  rw [logOf_of_some hc.1] at hmem
  exact Scope.mem_assumptions.mpr hmem

/-- What a closed scope states is true wherever the remaining assumptions are. -/
theorem Scoped.satisfies_generalised (h : s.Scoped) (haccounted : s.Accounted)
    (hc : s.Innermost c scope) (hagrees : s.Agrees I V) (hsound : ∀ ρ, s.SoundAt (V ρ))
    (hlists : s.Lists f) (hid : f.id ∈ scope.onRecord) {p : Proposition}
    (hp : scope.generalise f.statement = .ok p)
    (hgrants : s.Grants (V ρ)
      ((s.dependencies f.id).filter (· ∉ scope.assumptions.map Fact.id))) :
    I.Satisfies ρ p := by
  have hstack : c ∈ s.stack := haccounted.nested.of_open hc.1 hc.2.1
  rw [Interpretation.satisfies_layers hp]
  simp only [Interpretation.satisfies_strip]
  refine Interpretation.supposing_of (G := fun g => s.Lists g ∧
    g.id ∈ s.dependencies f.id ∧ g.id ∉ scope.assumptions.map Fact.id) ?_ ?_ ?_ ?_
  · rw [← logOf_of_some hc.1]
    exact h.ordered c hstack
  · rintro v hv g ⟨hg, hdepends, houtside⟩
    by_contra hcontains
    rw [Bool.not_eq_false] at hcontains
    have hmem := h.mem_assumptions haccounted hc hid hg hdepends hv hcontains
    exact houtside (List.mem_map_of_mem hmem)
  · rintro g ⟨hg, hdepends, houtside⟩
    rw [← hagrees ρ g hg]
    obtain ⟨e, he, hstatement⟩ := hg
    rw [← hstatement]
    refine hgrants g.id ?_ e he
    exact List.mem_filter.mpr ⟨hdepends, by simpa using houtside⟩
  · intro ρ' hall
    rw [← hagrees ρ' f hlists]
    refine (hsound ρ').satisfies hlists fun a ha e he => ?_
    have hentry : s.Lists ⟨a, e.statement⟩ := ⟨e, he, rfl⟩
    refine (hagrees ρ' _ hentry).mpr (hall ⟨a, e.statement⟩ ?_)
    by_cases hmem : a ∈ scope.assumptions.map Fact.id
    · obtain ⟨g, hg, rfl⟩ := List.mem_map.mp hmem
      have hlog := Scope.mem_assumptions.mp hg
      have hassumed : .assumed g ∈ s.logOf c := by
        rw [logOf_of_some hc.1]
        exact hlog
      obtain ⟨e', he', hstatement, -⟩ := h.assumed c hstack g hassumed
      obtain rfl := Option.some.inj (he.symm.trans he')
      rw [hstatement]
      exact .inr hlog
    · exact .inl ⟨hentry, ha, hmem⟩

/-- Exporting keeps a ledger sound if each statement is true wherever what is left of the
dependencies is. -/
theorem SoundAt.exported {W : Valuation} {statements : List (Fact × Proposition)}
    (hs : s.SoundAt W)
    (hstatements : ∀ x ∈ statements, s.Lists x.1 ∧ (s.Grants W
      ((s.dependencies x.1.id).filter (· ∉ scope.assumptions.map Fact.id)) → W.Satisfies x.2)) :
    (Session.exported c scope s statements).SoundAt W := by
  induction statements generalizing s with
  | nil => exact hs
  | cons x statements ih =>
      refine ih (hs.certified (hstatements x (by simp)).2) fun y hy => ?_
      obtain ⟨hlists, htrue⟩ := hstatements y (by simp [hy])
      refine ⟨hlists.push (certified_ledger _ _ _ _), fun hgrants => htrue ?_⟩
      rw [hlists.dependencies_push (certified_ledger s _ _ _)] at hgrants
      exact hgrants.of_push (certified_ledger _ _ _ _)

/-- A statement that is in the ledger, up to its mark, is read alike by both. -/
theorem Agrees.satisfies {p : Proposition} (h : s.Agrees I V) (hf : s.Lists f)
    (hp : f.statement = p.strip) : (V ρ).Satisfies p ↔ I.Satisfies ρ p := by
  rw [← Valuation.satisfies_strip, ← Interpretation.satisfies_strip, ← hp]
  exact h ρ f hf

theorem Scoped.soundAt_closed {statements : List (Fact × Proposition)} {results : List Fact}
    (h : s.Scoped) (haccounted : s.Accounted) (hc : s.Innermost c scope)
    (hstatements : List.Forall₂ (Restates scope) (s.targets scope) statements)
    (hagrees : Agrees ((Session.exported c scope (s.retract c) statements).modifyScope c
      ({ · with results })) I V) (hsound : ∀ ρ, s.SoundAt (V ρ)) (ρ : Variable → D) :
    SoundAt ((Session.exported c scope (s.retract c) statements).modifyScope c
      ({ · with results })) (V ρ) := by
  have hsame := retract_sameContents s c
  have hbefore : s.Agrees I V := hagrees.of_lists fun f hf => (hsame.lists hf).exported statements
  refine (hsame.soundAt (hsound ρ)).exported fun x hx => ?_
  obtain ⟨htarget, -, hgeneralise⟩ := restates_of_mem hstatements hx
  have hlists : s.Lists x.1 := lists_targets (h.concluded c scope hc.1) htarget
  refine ⟨hsame.lists hlists, fun hgrants => ?_⟩
  rw [dependencies_retract hc.1] at hgrants
  obtain ⟨f, hf, hstatement⟩ := lists_exported (s.retract c) c scope hx
  rw [hagrees.satisfies hf hstatement]
  exact h.satisfies_generalised haccounted hc hbefore hsound hlists
    (mem_onRecord_of_mem_targets htarget) hgeneralise (hsame.grants hgrants)

end Closing

section Runs
variable {s : Session}

/-- Scopes are closed from the inside and outside of speculations. -/
theorem Scoped.orderly {call : Call} (h : s.Scoped) (hnested : s.Nested)
    (hcall : call.isGeneralising = true) : call.Orderly s := by
  rintro c scope (⟨-, hhead⟩ | rfl) - -
  · exact hnested.severable hhead h.quiet
  · cases hcall

theorem Scoped.soundAt_call {call : Call} (h : s.Scoped) (haccounted : s.Accounted)
    (hcall : call.isGeneralising = true)
    (hpostulate : ∀ p, call = .postulate p → ∀ ρ, I.Satisfies ρ p)
    (hagrees : (call.apply s).Agrees I V) (hsound : ∀ ρ, s.SoundAt (V ρ)) (ρ : Variable → D) :
    (call.apply s).SoundAt (V ρ) := by
  have hchange := call.change s
  generalize call.apply s = t at hchange hagrees
  cases hchange with
  | aside ht =>
      obtain ⟨_, _, _, rfl⟩ := ht
      exact hsound ρ
  | tactic ht => exact (hsound ρ).extended (ht.mono fun r hr => hr ▸ hcall)
  | @postulate p =>
      refine (hsound ρ).certified fun _ => ?_
      exact (hagrees.satisfies (lists_certified s p _ _) rfl).mpr (hpostulate p rfl ρ)
  | suppose _ => exact (hsound ρ).supposed _
  | @assumeIn _ c scope p _ _ => exact (hsound ρ).supposed p
  | openScope => exact hsound ρ
  | introduce _ ht _ =>
      obtain ⟨_, _, _, rfl⟩ := ht
      exact hsound ρ
  | conclude _ _ => exact hsound ρ
  | close hc hstatements => exact h.soundAt_closed haccounted hc hstatements hagrees hsound ρ
  | discard => cases hcall
  | speculateFrom => cases hcall
  | settle => cases hcall

theorem soundAt_run (calls : List Call) (hcalls : ∀ call ∈ calls, call.isGeneralising = true)
    (hfree : unrestrictedRun s calls = true)
    (haxioms : ∀ p, .postulate p ∈ calls → ∀ ρ, I.Satisfies ρ p)
    (hagrees : (run s calls).Agrees I V) (haccounted : s.Accounted) (hscoped : s.Scoped)
    (hsound : ∀ ρ, s.SoundAt (V ρ)) (ρ : Variable → D) : (run s calls).SoundAt (V ρ) := by
  induction calls generalizing s with
  | nil => exact hsound ρ
  | cons call calls ih =>
      rw [unrestrictedRun, Bool.and_eq_true] at hfree
      have hcall := hcalls call List.mem_cons_self
      have hafter : (call.apply s).Agrees I V := hagrees.of_lists fun f hf => hf.run calls
      refine ih (fun c hc => hcalls c (List.mem_cons_of_mem _ hc)) hfree.2
        (fun p hp => haxioms p (List.mem_cons_of_mem _ hp)) hagrees
        (haccounted.call (hscoped.orderly haccounted.nested hcall))
        (hscoped.call haccounted.nested hcall hfree.1) ?_
      refine hscoped.soundAt_call haccounted hcall (fun p hp => haxioms p ?_) hafter hsound
      rw [← hp]
      exact List.mem_cons_self

end Runs

/-- Whatever such a run has entered, results of closed scopes among it, is true under every
assignment that makes the assumptions it depends on true, in every interpretation where the axioms
are true under all assignments. -/
theorem generalising_run_sound (calls : List Call)
    (hcalls : ∀ call ∈ calls, call.isGeneralising = true)
    (hfree : unrestrictedRun {} calls = true)
    (hdiscerned : Proposition.discerned (run {} calls).atoms = true) (I : Interpretation D)
    (haxioms : ∀ p, .postulate p ∈ calls → ∀ ρ, I.Satisfies ρ p) (id : FactId) (e : Entry)
    (he : Session.entry? (run {} calls) id = some e) (ρ : Variable → D)
    (hassumptions : ∀ a ∈ e.dependencies, ∀ e', Session.entry? (run {} calls) a = some e' →
      I.Satisfies ρ e'.statement) : I.Satisfies ρ e.statement := by
  have hagrees := agrees_of_discerned (I := I) hdiscerned
  have hempty : ∀ ρ, SoundAt {} (I.valuation ρ (run {} calls).atoms) := by
    intro ρ id e he
    simp [Session.entry?] at he
  have hsound := soundAt_run calls hcalls hfree haxioms hagrees .initial .initial hempty ρ
  rw [← hagrees ρ ⟨id, e.statement⟩ ⟨e, he, rfl⟩]
  refine hsound id e he fun a ha e' he' => ?_
  exact (hagrees ρ ⟨a, e'.statement⟩ ⟨e', he', rfl⟩).mpr (hassumptions a ha e' he')

/-- Numbers, where a relation says that its last argument is zero. -/
def endsInZero : Interpretation Nat where
  constant _ := 0
  number n := n.toNat
  function _ _ := 0
  relation _ args := args.getLast? = some 0

/-- The variable `x` has property `P`. -/
def propertyOfX (mark : Option FactId) : Proposition := .relation "P" [.var ⟨1, "x"⟩] mark

/-- A scope with a variable, on which it assumes something, closed on a conjunction with what was
assumed outside. -/
def generalisingRun : List Call :=
  let given (mark : Option FactId) : Proposition := .relation "Q" [.const "c"] mark
  [.assume (given none), .openScope "inner", .letVariable ⟨0⟩ "x",
    .assumeIn ⟨0⟩ (propertyOfX none),
    .tactic (.conjoin [some (given (some ⟨0⟩)), some (propertyOfX (some ⟨1⟩))]), .close ⟨0⟩]

theorem generalising_run_sound_generalisingRun :
    ∃ e, Session.entry? (run {} generalisingRun) ⟨3⟩ = some e ∧ e.dependencies = [⟨0⟩] ∧
      e.statement = .quantified .all ⟨1, "x"⟩ none (.implies (propertyOfX none)
        (.junction .and [.relation "Q" [.const "c"], propertyOfX none])) ∧
      endsInZero.Satisfies (fun _ => 0) e.statement := by
  refine ⟨_, rfl, rfl, rfl, generalising_run_sound generalisingRun (by decide) (by decide)
    (by decide) endsInZero ?_ ⟨3⟩ _ rfl (fun _ => 0) ?_⟩
  · intro p hp
    simp [generalisingRun] at hp
  · intro a ha e he
    obtain rfl : a = ⟨0⟩ := List.mem_singleton.mp ha
    cases he
    rfl

/-- A closed scope has stated something that is false where all that it depends on is true, in a run
that has no axioms. -/
def Overstates (calls : List Call) (id : FactId) : Prop :=
  (∀ call ∈ calls, call.isGeneralising = true) ∧ (∀ p, .postulate p ∉ calls) ∧
    ∃ e, Session.entry? (run {} calls) id = some e ∧ e.inference.rule = .closeScope ∧
      (∀ a ∈ e.dependencies, ∀ e', Session.entry? (run {} calls) a = some e' →
        endsInZero.Satisfies (fun _ => 0) e'.statement) ∧
      ¬endsInZero.Satisfies (fun _ => 0) e.statement

/-- Introduces a variable that an assumption made outside speaks about. -/
def outerAssumptionRun : List Call :=
  [.newVariable "x", .assume (propertyOfX none), .openScope "inner", .introduce ⟨0⟩ ⟨1, "x"⟩,
    .conclude ⟨0⟩ (some (propertyOfX (some ⟨0⟩))), .close ⟨0⟩]

/-- Introduces a variable that an earlier assumption of the same scope speaks about. -/
def earlierAssumptionRun : List Call :=
  [.newVariable "x", .openScope "inner", .assumeIn ⟨0⟩ (propertyOfX none),
    .introduce ⟨0⟩ ⟨1, "x"⟩, .conclude ⟨0⟩ (some (propertyOfX (some ⟨0⟩))), .close ⟨0⟩]

/-- All pairs of `x` and `y` are related, as far as `v` goes. -/
def relatesAll (v : Variable) (mark : Option FactId) : Proposition :=
  .quantified .all v none (.relation "R" [.var ⟨1, "x"⟩, .var ⟨2, "y"⟩]) mark

/-- Takes a statement about all `x` for one about all `y`. -/
def confusingRun : List Call :=
  let rule (mark : Option FactId) : Proposition :=
    .implies (relatesAll ⟨2, "y"⟩ none) (.relation "Q" []) mark
  [.newVariable "x", .newVariable "y", .assume (relatesAll ⟨1, "x"⟩ none), .assume (rule none),
    .openScope "inner",
    .tactic (.modusPonens (some (relatesAll ⟨1, "x"⟩ (some ⟨0⟩))) (some (rule (some ⟨1⟩)))),
    .close ⟨0⟩]

/-- The first two runs state `∀x. P(x)` because of `P(x)` alone, and the third one states `Q`. -/
theorem closing_overstates :
    Overstates outerAssumptionRun ⟨1⟩ ∧ Overstates earlierAssumptionRun ⟨1⟩ ∧
      Overstates confusingRun ⟨3⟩ := by
  have hone : ¬endsInZero.Satisfies (Function.update (fun _ => 0) ⟨1, "x"⟩ 1)
      (propertyOfX none) := by
    change ¬some 1 = some 0
    decide
  refine ⟨⟨by decide, by simp [outerAssumptionRun], _, rfl, rfl, ?_, ?_⟩,
    ⟨by decide, by simp [earlierAssumptionRun], _, rfl, rfl, ?_, ?_⟩,
    ⟨by decide, by simp [confusingRun], _, rfl, rfl, ?_, ?_⟩⟩
  · intro a ha e he
    obtain rfl : a = ⟨0⟩ := List.mem_singleton.mp ha
    cases he
    rfl
  · exact fun hall => hone (hall 1 trivial)
  · intro a ha
    cases ha
  · exact fun himplies => hone (himplies rfl 1 trivial)
  · intro a ha e he
    have hmem : a ∈ [⟨0⟩, ⟨1⟩] := ha
    rcases List.mem_pair.mp hmem with rfl | rfl
    · cases he
      exact fun d _ => rfl
    · cases he
      intro hall
      have hone : some 1 = some 0 := hall 1 trivial
      cases hone
  · intro hzero
    cases hzero

end Session

end Entailment
