import Entailment.Proofs.Run
import Entailment.Proofs.Valuation

/-!
# Soundness of propositional runs

Whatever is entered by a run of propositional calls is true wherever the axioms entered so far and
the assumptions it depends on are true. The invariant is about what entries say and never about
their flags, so nothing that withdraws an entry can hurt it. Beside it stands what a scope has to
remember for closing it to be sound: its log and its conclusions repeat what the ledger says, and
it introduces no variable.
-/
namespace Entailment

/-- The part of an entry that is never changed. -/
def Entry.content (e : Entry) : Proposition × Inference FactId × List FactId :=
  (e.statement, e.inference, e.dependencies)

/-- The calls that involve no variable and no tactic beyond the propositional ones. -/
def Session.Call.IsPropositional : Call → Prop
  | .introduce _ _ | .letVariable _ _ => False
  | .tactic t => t.rule.isPropositional = true
  | _ => True

namespace Session

/-- Two sessions whose ledgers say the same, up to flags. -/
def SameContents (s t : Session) : Prop :=
  ∀ id, (s.entry? id).map Entry.content = (t.entry? id).map Entry.content

/-- A valuation satisfies every axiom that has been entered. -/
def Models (s : Session) (V : Valuation) : Prop :=
  ∀ id e, s.entry? id = some e → e.inference.rule = .postulate → V.Satisfies e.statement

/-- A valuation satisfies every one of the given entries. -/
def Grants (s : Session) (V : Valuation) (ids : List FactId) : Prop :=
  ∀ id ∈ ids, ∀ e, s.entry? id = some e → V.Satisfies e.statement

/-- A valuation satisfies every entry for which it satisfies what the entry depends on. -/
def SoundAt (s : Session) (V : Valuation) : Prop :=
  ∀ id e, s.entry? id = some e → s.Grants V e.dependencies → V.Satisfies e.statement

/-- Every entry follows from the axioms and the assumptions it depends on. -/
def Sound (s : Session) : Prop :=
  ∀ V, s.Models V → ∀ id e, s.entry? id = some e → s.Grants V e.dependencies →
    V.Satisfies e.statement

/-- Scopes introduce no variable, and remember assumptions and conclusions as the ledger has
them. -/
def Faithful (s : Session) : Prop :=
  ∀ c scope, s.scope? c = some scope →
    scope.introduced = [] ∧ ∀ f ∈ scope.assumptions ++ scope.conclusions, s.Lists f

section Contents
variable {s t : Session}

theorem SameContents.symm (h : SameContents s t) : SameContents t s := fun id => (h id).symm

theorem SameContents.entry (h : SameContents s t) {id : FactId} {e : Entry}
    (he : s.entry? id = some e) : ∃ e', t.entry? id = some e' ∧ e'.content = e.content := by
  have hid := h id
  rw [he, Option.map_some] at hid
  exact Option.map_eq_some_iff.mp hid.symm

theorem SameContents.lists (h : SameContents s t) {f : Fact} (hf : s.Lists f) : t.Lists f := by
  obtain ⟨e, he, hstatement⟩ := hf
  obtain ⟨e', he', hcontent⟩ := h.entry he
  exact ⟨e', he', (congrArg Prod.fst hcontent).trans hstatement⟩

theorem SameContents.models (h : SameContents s t) {V : Valuation} (ht : t.Models V) :
    s.Models V := by
  intro id e he hrule
  obtain ⟨e', he', hcontent⟩ := h.entry he
  obtain ⟨hstatement, hinference, -⟩ : e'.statement = e.statement ∧ e'.inference = e.inference ∧
      e'.dependencies = e.dependencies := by simpa [Entry.content] using hcontent
  rw [← hstatement]
  exact ht id e' he' (by rw [hinference, hrule])

theorem SameContents.grants (h : SameContents s t) {V : Valuation} {ids : List FactId}
    (ht : t.Grants V ids) : s.Grants V ids := by
  intro id hid e he
  obtain ⟨e', he', hcontent⟩ := h.entry he
  have hstatement : e'.statement = e.statement := congrArg Prod.fst hcontent
  rw [← hstatement]
  exact ht id hid e' he'

theorem SameContents.soundAt (h : SameContents s t) {V : Valuation} (hs : s.SoundAt V) :
    t.SoundAt V := by
  intro id e he hgrants
  obtain ⟨e', he', hcontent⟩ := h.symm.entry he
  obtain ⟨hstatement, -, hdependencies⟩ : e'.statement = e.statement ∧
      e'.inference = e.inference ∧ e'.dependencies = e.dependencies := by
    simpa [Entry.content] using hcontent
  rw [← hstatement]
  apply hs id e' he'
  rw [hdependencies]
  exact h.grants hgrants

theorem Sound.soundAt {V : Valuation} (hs : s.Sound) (hmodels : s.Models V) : s.SoundAt V :=
  hs V hmodels

theorem SameContents.sound (h : SameContents s t) (hs : s.Sound) : t.Sound :=
  fun _ hmodels => h.soundAt (hs.soundAt (h.models hmodels))

theorem retract_sameContents (s : Session) (c : ScopeId) : SameContents s (s.retract c) := by
  intro id
  cases h : s.scope? c with
  | none => simp only [retract, h]
  | some scope =>
      rw [entry?_retract h, Option.map_map]
      rfl

theorem settled_sameContents (s : Session) (keep : List FactId) :
    SameContents s (s.settled keep) := by
  intro id
  cases h : s.speculation with
  | none => rw [settled_of_none keep h]
  | some derived =>
      rw [entry?_settled keep h, Option.map_map]
      congr 1
      funext e
      simp only [Function.comp]
      split
      next => rfl
      next => rfl

end Contents

section Growth
variable {s t : Session} {new : Entry}

theorem Lists.push {f : Fact} (h : t.ledger = s.ledger.push new) (hf : s.Lists f) : t.Lists f := by
  obtain ⟨e, he, hstatement⟩ := hf
  exact ⟨e, entry?_of_push_of_some h he, hstatement⟩

theorem Models.of_push {V : Valuation} (h : t.ledger = s.ledger.push new) (ht : t.Models V) :
    s.Models V :=
  fun id e he hrule => ht id e (entry?_of_push_of_some h he) hrule

theorem Grants.of_push {V : Valuation} {ids : List FactId} (h : t.ledger = s.ledger.push new)
    (ht : t.Grants V ids) : s.Grants V ids :=
  fun id hid e he => ht id hid e (entry?_of_push_of_some h he)

theorem SoundAt.push {V : Valuation} (h : t.ledger = s.ledger.push new) (hs : s.SoundAt V)
    (hnew : t.Grants V new.dependencies → V.Satisfies new.statement) : t.SoundAt V := by
  intro id e he hgrants
  rw [entry?_of_push h] at he
  split at he
  next =>
    cases he
    exact hnew hgrants
  next => exact hs id e he (hgrants.of_push h)

/-- A ledger stays sound when the entry added to it is. -/
theorem Sound.push (h : t.ledger = s.ledger.push new) (hs : s.Sound)
    (hnew : ∀ V, t.Models V → t.Grants V new.dependencies → V.Satisfies new.statement) :
    t.Sound :=
  fun V hmodels => (hs.soundAt (hmodels.of_push h)).push h (hnew V hmodels)

/-- A listed fact is true wherever what it depends on is. -/
theorem SoundAt.satisfies {V : Valuation} (hs : s.SoundAt V) {f : Fact} (hf : s.Lists f)
    (hgrants : s.Grants V (s.dependencies f.id)) : V.Satisfies f.statement := by
  obtain ⟨e, he, hstatement⟩ := hf
  rw [← hstatement]
  refine hs f.id e he fun a ha => ?_
  exact hgrants a ((mem_dependencies he).mpr ha)

theorem Derives.satisfies {p : Proposition} {i : Inference FactId} {d : List FactId}
    {V : Valuation} (h : s.Derives p i d) (hrule : i.rule.isPropositional = true)
    (hs : s.SoundAt V) (hgrants : s.Grants V d) : V.Satisfies p := by
  cases h with
  | @plain premises _ _ hconcludes hproven _ =>
      refine Valuation.satisfies_of_concludes hconcludes hrule fun q hq => ?_
      obtain ⟨f, hf, rfl⟩ := List.mem_map.mp hq
      refine hs.satisfies (hproven f hf).lists fun a ha => ?_
      exact hgrants a (mem_union.mpr ⟨f.id, List.mem_map_of_mem hf, ha⟩)
  | @followedFrom p a rest hp hassumed =>
      rw [Valuation.satisfies_implies, Valuation.satisfies_conjunction]
      intro hall
      refine hs.satisfies hp.lists fun b hb e he => ?_
      by_cases hmem : b ∈ (a :: rest).map Fact.id
      · obtain ⟨f, hf, rfl⟩ := List.mem_map.mp hmem
        obtain ⟨e', he', hstatement⟩ := (hassumed f hf).lists
        rw [he] at he'
        cases he'
        rw [hstatement]
        exact hall f.statement (List.mem_map_of_mem (f := Fact.statement) hf)
      · refine hgrants b ?_ e he
        rw [List.mem_filter]
        exact ⟨mem_union.mpr ⟨p.id, by simp, hb⟩, by simpa using hmem⟩
  | @assumptionsCannotAllHold c m hc hstatement _ =>
      rw [Valuation.satisfies_or]
      by_contra hnone
      have hsat : V.Satisfies c.statement := by
        refine hs.satisfies hc.lists fun a ha e he => ?_
        by_contra hfails
        have hmem : e ∈ (s.dependencies c.id).filterMap s.entry? :=
          List.mem_filterMap.mpr ⟨a, ha, he⟩
        exact hnone ⟨_, List.mem_map_of_mem hmem, (V.satisfies_not _ _).mpr hfails⟩
      rw [hstatement] at hsat
      exact V.satisfies_contradiction m hsat

theorem SoundAt.certified {p : Proposition} {i : Inference FactId} {d : List FactId}
    {V : Valuation} (hs : s.SoundAt V) (h : s.Grants V d → V.Satisfies p) :
    (s.certified p i d).SoundAt V := by
  refine hs.push (certified_ledger s p i d) fun hgrants => ?_
  rw [Valuation.satisfies_strip]
  exact h (hgrants.of_push (certified_ledger s p i d))

theorem Sound.certified {p : Proposition} {i : Inference FactId} {d : List FactId} (hs : s.Sound)
    (h : ∀ V, s.Models V → s.Grants V d → V.Satisfies p) : (s.certified p i d).Sound := by
  intro V hmodels
  have hbefore := hmodels.of_push (certified_ledger s p i d)
  exact (hs.soundAt hbefore).certified (h V hbefore)

theorem SoundAt.supposed {V : Valuation} (hs : s.SoundAt V) (p : Proposition) :
    (s.supposed p).SoundAt V := by
  refine hs.push (supposed_ledger s p) fun hgrants => ?_
  apply hgrants ⟨s.ledger.size⟩ (by simp) _
  rw [entry?_supposed, if_pos rfl]

theorem Sound.supposed (hs : s.Sound) (p : Proposition) : (s.supposed p).Sound :=
  fun _ hmodels => (hs.soundAt (hmodels.of_push (supposed_ledger s p))).supposed p

theorem Sound.postulated (hs : s.Sound) (p : Proposition) :
    (s.certified p { rule := .postulate } []).Sound := by
  refine hs.push (certified_ledger s p _ _) fun V hmodels _ => ?_
  refine hmodels ⟨s.ledger.size⟩ _ ?_ rfl
  rw [entry?_certified, if_pos rfl]

theorem SoundAt.extended {V : Valuation} (hs : s.SoundAt V)
    (h : Extends (·.isPropositional = true) s t) : t.SoundAt V := by
  induction h with
  | refl => exact hs
  | aside _ _ _ _ ih => exact ih
  | certify _ hd hr ih => exact ih.certified fun hg => hd.satisfies hr ih hg

theorem Sound.extended (hs : s.Sound) (h : Extends (·.isPropositional = true) s t) : t.Sound := by
  induction h with
  | refl => exact hs
  | aside _ _ _ _ ih => exact ih
  | certify _ hd hr ih => exact ih.certified fun V hm hg => hd.satisfies hr (ih.soundAt hm) hg

end Growth

section Closing

theorem ofLog_of_forall_assumed {log : List Supposition} {fs : List Fact}
    (h : log = fs.map .assumed) :
    Layer.ofLog log = match fs.map Fact.statement with
      | [] => []
      | p :: ps => [.given p ps] := by
  subst h
  induction fs with
  | nil => rfl
  | cons f fs ih =>
      rw [List.map_cons, Layer.ofLog, ih]
      cases fs with
      | nil => rfl
      | cons g fs => rfl

theorem log_eq_assumed {scope : Scope} (h : scope.introduced = []) :
    scope.log = scope.assumptions.map .assumed := by
  unfold Scope.introduced at h
  unfold Scope.assumptions
  generalize scope.log = log at h ⊢
  induction log with
  | nil => rfl
  | cons x log ih =>
      cases x with
      | introduced v => simp at h
      | assumed f =>
          exact congrArg (Supposition.assumed f :: ·) (ih h)

theorem Restates.satisfies {scope : Scope} {t : Fact} {x : Fact × Proposition} {V : Valuation}
    (h : Restates scope t x) (hintroduced : scope.introduced = []) :
    V.Satisfies x.2 ↔
      ((∀ f ∈ scope.assumptions, V.Satisfies f.statement) → V.Satisfies t.statement) := by
  obtain ⟨-, hgeneralise⟩ := h
  rw [Scope.generalise, ofLog_of_forall_assumed (log_eq_assumed hintroduced)] at hgeneralise
  cases hfs : scope.assumptions with
  | nil =>
      rw [hfs] at hgeneralise
      have heq : t.statement.strip = x.2 := Except.ok.inj hgeneralise
      rw [← heq, Valuation.satisfies_strip]
      simp
  | cons f fs =>
      rw [hfs] at hgeneralise
      have hwrap : Layer.wrap (.given f.statement (fs.map Fact.statement)) t.statement.strip =
          .ok x.2 := by simpa using hgeneralise
      have hhypothesis : V.Satisfies (.conjunction f.statement (fs.map Fact.statement)) ↔
          ∀ g ∈ f :: fs, V.Satisfies g.statement := by simp
      rw [← hhypothesis, ← V.satisfies_strip t.statement]
      generalize t.statement.strip = p at hwrap ⊢
      cases p with
      | contradiction m =>
          have heq : Proposition.not (.conjunction f.statement (fs.map Fact.statement)) = x.2 :=
            Except.ok.inj hwrap
          rw [← heq, Valuation.satisfies_not]
          simp [Valuation.satisfies_contradiction]
      | _ =>
          rw [← Except.ok.inj hwrap, Valuation.satisfies_implies]

/-- What closing a scope enters no longer needs the assumptions of that scope. -/
theorem Sound.exported {c : ScopeId} {scope : Scope} (hintroduced : scope.introduced = [])
    (statements : List (Fact × Proposition)) {s : Session} (hs : s.Sound)
    (hassumed : ∀ f ∈ scope.assumptions, s.Lists f)
    (hstatements : ∀ x ∈ statements, s.Lists x.1 ∧ Restates scope x.1 x) :
    (Session.exported c scope s statements).Sound := by
  induction statements generalizing s with
  | nil => exact hs
  | cons x statements ih =>
      obtain ⟨hlists, hrestates⟩ := hstatements x (by simp)
      refine ih (hs.certified fun V hmodels hgrants => ?_) ?_ ?_
      · refine (hrestates.satisfies hintroduced).mpr fun hall => ?_
        refine (hs.soundAt hmodels).satisfies hlists fun a ha e he => ?_
        by_cases hmem : a ∈ scope.assumptions.map Fact.id
        · obtain ⟨f, hf, rfl⟩ := List.mem_map.mp hmem
          obtain ⟨e', he', hstatement⟩ := hassumed f hf
          rw [he] at he'
          cases he'
          rw [hstatement]
          exact hall f hf
        · refine hgrants a ?_ e he
          rw [List.mem_filter]
          exact ⟨ha, by simpa using hmem⟩
      · intro f hf
        exact (hassumed f hf).push (certified_ledger s _ _ _)
      · intro y hy
        obtain ⟨hly, hry⟩ := hstatements y (by simp [hy])
        exact ⟨hly.push (certified_ledger s _ _ _), hry⟩

end Closing

section Records
variable {s t : Session}

/-- Nothing was added to the logs and conclusions of scopes, and nothing listed was lost. -/
def Remembers (s t : Session) : Prop :=
  (∀ f, s.Lists f → t.Lists f) ∧
    ∀ c scope', t.scope? c = some scope' → ∃ scope, s.scope? c = some scope ∧
      scope'.log = scope.log ∧ scope'.conclusions = scope.conclusions

theorem Faithful.remembered (hs : s.Faithful) (h : Remembers s t) : t.Faithful := by
  intro c scope' hscope'
  obtain ⟨scope, hscope, hlog, hconclusions⟩ := h.2 c scope' hscope'
  obtain ⟨hintroduced, hlists⟩ := hs c scope hscope
  unfold Scope.introduced Scope.assumptions at *
  rw [hlog, hconclusions]
  exact ⟨hintroduced, fun f hf => h.1 f (hlists f hf)⟩

theorem remembers_of_map {g : ScopeId → Scope → Scope} (hlists : ∀ f, s.Lists f → t.Lists f)
    (hscope : ∀ c, t.scope? c = (s.scope? c).map (g c))
    (hg : ∀ c scope, (g c scope).log = scope.log ∧ (g c scope).conclusions = scope.conclusions) :
    Remembers s t := by
  refine ⟨hlists, fun c scope' hscope' => ?_⟩
  rw [hscope] at hscope'
  obtain ⟨scope, hsome, rfl⟩ := Option.map_eq_some_iff.mp hscope'
  exact ⟨scope, hsome, hg c scope⟩

theorem remembers_certified (s : Session) (p : Proposition) (i : Inference FactId)
    (d : List FactId) : Remembers s (s.certified p i d) := by
  refine remembers_of_map (fun f hf => hf.push (certified_ledger s p i d))
    (scope?_certified s p i d) fun c scope => ?_
  split
  next => exact ⟨rfl, rfl⟩
  next => exact ⟨rfl, rfl⟩

theorem remembers_supposed (s : Session) (p : Proposition) : Remembers s (s.supposed p) := by
  refine ⟨fun f hf => hf.push (supposed_ledger s p), fun c scope hscope => ?_⟩
  rw [scope?, supposed_scopes] at hscope
  exact ⟨scope, hscope, rfl, rfl⟩

theorem lists_nextFact (s : Session) (p : Proposition) : (s.supposed p).Lists (s.nextFact p) :=
  ⟨_, (entry?_supposed s p _).trans (if_pos rfl), rfl⟩

theorem remembers_retract (s : Session) (c : ScopeId) : Remembers s (s.retract c) := by
  cases h : s.scope? c with
  | none =>
      simp only [retract, h]
      exact ⟨fun _ hf => hf, fun _ scope hscope => ⟨scope, hscope, rfl, rfl⟩⟩
  | some scope =>
      exact remembers_of_map (fun _ hf => (retract_sameContents s c).lists hf) (scope?_retract h)
        fun _ _ => ⟨rfl, rfl⟩

theorem remembers_settled (s : Session) (keep : List FactId) :
    Remembers s (s.settled keep) := by
  cases h : s.speculation with
  | none =>
      rw [settled_of_none keep h]
      exact ⟨fun _ hf => hf, fun _ scope hscope => ⟨scope, hscope, rfl, rfl⟩⟩
  | some derived =>
      refine remembers_of_map (fun _ hf => (settled_sameContents s keep).lists hf)
        (scope?_settled keep h) fun c scope => ?_
      split
      next => exact ⟨rfl, rfl⟩
      next => exact ⟨rfl, rfl⟩

theorem Faithful.extended {R : Rule → Prop} (hs : s.Faithful) (h : Extends R s t) :
    t.Faithful := by
  induction h with
  | refl => exact hs
  | aside _ _ _ _ ih => exact ih
  | certify _ _ _ ih => exact ih.remembered (remembers_certified _ _ _ _)

theorem Faithful.exported {c : ScopeId} {scope : Scope} (statements : List (Fact × Proposition))
    {s : Session} (hs : s.Faithful) : (Session.exported c scope s statements).Faithful := by
  induction statements generalizing s with
  | nil => exact hs
  | cons x statements ih => exact ih (hs.remembered (remembers_certified s _ _ _))

theorem Faithful.modifyScope {c : ScopeId} {g : Scope → Scope} (hs : s.Faithful)
    (hg : ∀ scope, s.scope? c = some scope → scope.introduced = [] →
      (∀ f ∈ scope.assumptions ++ scope.conclusions, s.Lists f) →
      (g scope).introduced = [] ∧
        ∀ f ∈ (g scope).assumptions ++ (g scope).conclusions, s.Lists f) :
    (s.modifyScope c g).Faithful := by
  intro c' scope' hscope'
  rw [scope?_modifyScope] at hscope'
  split at hscope'
  next heq =>
    subst heq
    obtain ⟨scope, hscope, rfl⟩ := Option.map_eq_some_iff.mp hscope'
    obtain ⟨hintroduced, hlists⟩ := hs c scope hscope
    exact hg scope hscope hintroduced hlists
  next => exact hs c' scope' hscope'

theorem Faithful.noted {c : ScopeId} {f : Fact} (hs : s.Faithful) (hf : s.Lists f) :
    (s.noted c (.assumed f)).Faithful := by
  refine hs.modifyScope fun scope _ hintroduced hlists => ?_
  refine ⟨by simpa [Scope.introduced] using hintroduced, fun g hg => ?_⟩
  have hcases : g ∈ scope.assumptions ++ scope.conclusions ∨ g = f := by
    simp only [Scope.assumptions, List.filterMap_append, List.mem_append] at hg ⊢
    rcases hg with (hg | hg) | hg
    · exact .inl (.inl hg)
    · exact .inr (by simpa using hg)
    · exact .inl (.inr hg)
  rcases hcases with hg | rfl
  · exact hlists g hg
  · exact hf

theorem Faithful.concluded {c : ScopeId} {f : Fact} (hs : s.Faithful) (hf : s.Lists f) :
    (s.concluded c f).Faithful := by
  refine hs.modifyScope fun scope _ hintroduced hlists => ⟨hintroduced, fun g hg => ?_⟩
  have hcases : g ∈ scope.assumptions ++ scope.conclusions ∨ g = f := by
    simp only [List.mem_append, List.mem_singleton] at hg ⊢
    rcases hg with hg | hg | hg
    · exact .inl (.inl hg)
    · exact .inl (.inr hg)
    · exact .inr hg
  rcases hcases with hg | rfl
  · exact hlists g hg
  · exact hf

theorem Faithful.opened (hs : s.Faithful) (name : String) : (s.opened name).Faithful := by
  intro c scope hscope
  have hpush : (s.opened name).scope? c =
      if c.index = s.scopes.size then some { name } else s.scope? c := by
    simp only [scope?, Session.opened, Array.getElem?_push]
  rw [hpush] at hscope
  split at hscope
  next =>
    cases hscope
    exact ⟨rfl, by simp [Scope.assumptions]⟩
  next => exact hs c scope hscope

end Records

section Targets
variable {s : Session} {scope : Scope}

theorem lists_targets (h : ∀ f ∈ scope.conclusions, s.Lists f) {f : Fact}
    (hf : f ∈ s.targets scope) : s.Lists f := by
  unfold targets at hf
  split at hf
  next =>
    obtain ⟨id, -, hid⟩ := Option.bind_eq_some_iff.mp (Option.mem_toList.mp hf)
    obtain ⟨e, he, rfl⟩ := Option.map_eq_some_iff.mp hid
    exact ⟨e, he, rfl⟩
  next => exact h f hf

end Targets

/-- One propositional call keeps a session sound and its scopes faithful. -/
theorem sound_faithful_call {s : Session} (call : Call) (hcall : call.IsPropositional)
    (h : s.Sound ∧ s.Faithful) : (call.apply s).Sound ∧ (call.apply s).Faithful := by
  obtain ⟨hsound, hfaithful⟩ := h
  have hchange := call.change s
  generalize call.apply s = t at hchange ⊢
  cases hchange with
  | aside haside =>
      obtain ⟨_, _, _, rfl⟩ := haside
      exact ⟨hsound, hfaithful⟩
  | tactic hextends =>
      have hrule := hextends.mono fun r hr => (hr ▸ hcall : r.isPropositional = true)
      exact ⟨hsound.extended hrule, hfaithful.extended hextends⟩
  | postulate =>
      exact ⟨hsound.postulated _, hfaithful.remembered (remembers_certified s _ _ _)⟩
  | suppose _ =>
      exact ⟨hsound.supposed _, hfaithful.remembered (remembers_supposed s _)⟩
  | @assumeIn _ c scope p _ _ =>
      have hremembered := hfaithful.remembered (remembers_supposed s p)
      exact ⟨hsound.supposed p, hremembered.noted (lists_nextFact s p)⟩
  | openScope => exact ⟨hsound, hfaithful.opened _⟩
  | introduce hor =>
      rcases hor with rfl | ⟨_, rfl⟩
      · exact hcall.elim
      · exact hcall.elim
  | conclude _ hproven => exact ⟨hsound, hfaithful.concluded hproven.lists⟩
  | @close c scope statements results hinnermost hrestates =>
      obtain ⟨hintroduced, hlists⟩ := hfaithful c scope hinnermost.1
      have hsame := retract_sameContents s c
      have hretracted := hfaithful.remembered (remembers_retract s c)
      constructor
      · refine Sound.exported hintroduced statements (hsame.sound hsound) ?_ ?_
        · intro f hf
          exact hsame.lists (hlists f (List.mem_append_left _ hf))
        · intro x hx
          obtain ⟨ht, hx⟩ := restates_of_mem hrestates hx
          exact ⟨hsame.lists (lists_targets (fun f hf => hlists f (List.mem_append_right _ hf)) ht),
            hx⟩
      · apply Faithful.modifyScope (hretracted.exported statements)
        intro _ _ hnone hall
        exact ⟨hnone, hall⟩
  | discard =>
      exact ⟨(retract_sameContents s _).sound hsound, hfaithful.remembered (remembers_retract s _)⟩
  | speculateFrom => exact ⟨hsound, hfaithful⟩
  | settle =>
      exact ⟨(settled_sameContents s _).sound hsound, hfaithful.remembered (remembers_settled s _)⟩

theorem sound_faithful_run (calls : List Call) (hcalls : ∀ call ∈ calls, call.IsPropositional) :
    (run {} calls).Sound ∧ (run {} calls).Faithful := by
  refine run_induction (P := fun s => s.Sound ∧ s.Faithful)
    (fun s call hcall h => sound_faithful_call call hcall h) ?_ calls hcalls
  constructor
  · intro V _ id e he
    simp [Session.entry?] at he
  · intro c scope hscope
    simp [scope?] at hscope

/-- Whatever a run of propositional calls has entered, as an assumption or as proven, is satisfied
by every valuation that satisfies the axioms entered so far and the assumptions it depends on. -/
theorem propositional_run_sound (calls : List Call)
    (hcalls : ∀ call ∈ calls, call.IsPropositional) (V : Valuation)
    (haxioms : (run {} calls).Models V) (id : FactId) (e : Entry)
    (he : Session.entry? (run {} calls) id = some e)
    (hassumptions : (run {} calls).Grants V e.dependencies) : V.Satisfies e.statement :=
  (sound_faithful_run calls hcalls).1 V haxioms id e he hassumptions

/-- A scope that is closed on a conjunction, derived speculatively from an assumption of its own and
one made outside. -/
def nestedConjunction : List Call :=
  [.assume (.relation "P" []), .openScope "inner", .assumeIn ⟨0⟩ (.relation "Q" []),
    .speculateFrom,
    .tactic (.conjoin [some (.relation "P" [] (some ⟨0⟩)), some (.relation "Q" [] (some ⟨1⟩))]),
    .settle [⟨2⟩], .close ⟨0⟩]

/-- The valuation that makes the relations of one name true and all else false. -/
def onlyNamed (name : String) : Valuation where
  atom p := p.name = name
  respects := by
    intro p q h
    cases p <;> cases q <;> simp_all [Proposition.equal, Proposition.name]

theorem propositional_run_sound_nestedConjunction :
    ∃ e, Session.entry? (run {} nestedConjunction) ⟨3⟩ = some e ∧ e.dependencies = [⟨0⟩] ∧
      (onlyNamed "P").Satisfies e.statement := by
  refine ⟨_, rfl, rfl, propositional_run_sound nestedConjunction ?_ (onlyNamed "P") ?_ ⟨3⟩ _ rfl ?_⟩
  · simp [nestedConjunction, Call.IsPropositional, Tactic.rule, Rule.isPropositional]
  · intro id e he hrule
    have hnone : ∀ e ∈ (run {} nestedConjunction).ledger, e.inference.rule ≠ .postulate := by
      decide
    exact absurd hrule (hnone e (Array.mem_of_getElem? he))
  · intro id hid e he
    obtain rfl : id = ⟨0⟩ := List.mem_singleton.mp hid
    cases he
    rfl

end Session

end Entailment
