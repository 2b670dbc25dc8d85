import Entailment.Proofs.Liveness
import Entailment.Proofs.PropositionalSoundness

/-!
# Which assumptions speak about an introduced variable

Closing a scope generalises over the variables that it introduced, and this needs that no assumption
left over speaks about them. If a variable is introduced only while no current assumption speaks
about it, then later ones that do were made in the same scope or inside of it: `Scoped` says so,
along with what it takes to keep it so. The session does not check the condition, so it is one on
runs.
-/
namespace Entailment

/-- An assumption made before a variable was introduced does not speak about it. -/
def Supposition.Independent : Supposition → Supposition → Prop
  | .assumed f, .introduced v => f.statement.contains (.var v) = false
  | _, _ => True

theorem Scope.mem_assumptions {scope : Scope} {f : Fact} :
    f ∈ scope.assumptions ↔ .assumed f ∈ scope.log := by
  rw [assumptions, List.mem_filterMap]
  constructor
  · rintro ⟨x, hx, hf⟩
    cases x with
    | introduced v => cases hf
    | assumed g =>
        cases hf
        exact hx
  · exact fun h => ⟨_, h, rfl⟩

namespace Session

/-- What a scope has recorded, and nothing if there is no such scope. -/
def logOf (s : Session) (c : ScopeId) : List Supposition :=
  ((s.scope? c).map Scope.log).getD []

/-- No current assumption speaks about the variable. -/
def isUnrestricted (s : Session) (v : Variable) : Bool :=
  s.ledger.toList.all fun e => !(e.assumed && e.statement.contains (.var v))

/-- What the scopes of a session know about assumptions and variables. -/
structure Scoped (s : Session) : Prop where
  quiet : s.speculation = none
  concluded : ∀ c scope, s.scope? c = some scope → ∀ f ∈ scope.conclusions, s.Lists f
  assumed : ∀ c ∈ s.stack, ∀ f, .assumed f ∈ s.logOf c → s.Assumes f
  distinct : ∀ c ∈ s.stack, ∀ d ∈ s.stack, c ≠ d → ∀ f, .assumed f ∈ s.logOf c →
    ∀ g, .assumed g ∈ s.logOf d → f.id ≠ g.id
  ordered : ∀ c ∈ s.stack, (s.logOf c).Pairwise Supposition.Independent
  owned : ∀ c ∈ s.stack, ∀ v, .introduced v ∈ s.logOf c → ∀ f, s.Assumes f →
    f.statement.contains (.var v) = true →
    ∃ d, (d = c ∨ s.Inside d c) ∧ .assumed f ∈ s.logOf d

section Logs
variable {s t : Session} {c d : ScopeId}

theorem logOf_of_some {scope : Scope} (h : s.scope? c = some scope) : s.logOf c = scope.log := by
  rw [logOf, h]
  rfl

theorem logOf_modifyScope {g : Scope → Scope} (hg : ∀ scope, (g scope).log = scope.log) :
    (s.modifyScope c g).logOf d = s.logOf d := by
  rw [logOf, logOf, scope?_modifyScope]
  split
  next =>
    rw [Option.map_map]
    congr 2
    exact funext hg
  next => rfl

theorem logOf_certified (s : Session) (p : Proposition) (i : Inference FactId)
    (ids : List FactId) (c : ScopeId) : (s.certified p i ids).logOf c = s.logOf c := by
  rw [logOf, logOf, scope?_certified, Option.map_map]
  congr 2
  funext scope
  dsimp only [Function.comp_apply]
  split <;> rfl

theorem logOf_supposed (s : Session) (p : Proposition) (c : ScopeId) :
    (s.supposed p).logOf c = s.logOf c := by
  rw [logOf, logOf, scope?, supposed_scopes, scope?]

theorem logOf_noted {scope : Scope} (h : s.scope? c = some scope) (x : Supposition) :
    (s.noted c x).logOf d = if d = c then s.logOf c ++ [x] else s.logOf d := by
  rw [logOf, noted, scope?_modifyScope]
  by_cases hcd : c = d
  · subst hcd
    simp [h, logOf]
  · rw [if_neg hcd, if_neg (Ne.symm hcd), logOf]

theorem mem_logOf_noted {scope : Scope} (h : s.scope? c = some scope) {x y : Supposition} :
    y ∈ (s.noted c x).logOf d ↔ y ∈ s.logOf d ∨ (d = c ∧ y = x) := by
  rw [logOf_noted h]
  split
  next hd => simp [hd]
  next hd => simp [hd]

theorem logOf_size (s : Session) : s.logOf ⟨s.scopes.size⟩ = [] := by
  have hnone : s.scope? ⟨s.scopes.size⟩ = none := Array.getElem?_eq_none (Nat.le_refl _)
  rw [logOf, hnone]
  rfl

theorem logOf_opened (name : String) : (s.opened name).logOf c = s.logOf c := by
  have hscope : (s.opened name).scope? c =
      if c.index = s.scopes.size then some { name } else s.scope? c := by
    simp only [scope?, Session.opened, Array.getElem?_push]
  rw [logOf, hscope]
  split
  next hc =>
    have hnew : c = ⟨s.scopes.size⟩ := by rw [← hc]
    rw [hnew, logOf_size]
    rfl
  next => rfl

theorem logOf_retract {scope : Scope} (h : s.scope? c = some scope) :
    (s.retract c).logOf d = s.logOf d := by
  rw [logOf, logOf, scope?_retract h, Option.map_map]
  rfl

end Logs

section Assumptions
variable {s t : Session} {f : Fact}

theorem isUnrestricted_spec {v : Variable} (h : s.isUnrestricted v = true) (hf : s.Assumes f) :
    f.statement.contains (.var v) = false := by
  obtain ⟨e, he, hstatement, hassumed⟩ := hf
  rw [isUnrestricted, List.all_eq_true] at h
  have hentry := h e (Array.mem_toList_iff.mpr (Array.mem_of_getElem? he))
  simpa [hassumed, hstatement] using hentry

theorem assumes_certified (s : Session) (p : Proposition) (i : Inference FactId)
    (ids : List FactId) : (s.certified p i ids).Assumes f ↔ s.Assumes f := by
  unfold Assumes
  rw [entry?_certified]
  split
  next hid =>
    have hnone : s.entry? f.id = none := by
      rw [Session.entry?, hid]
      exact Array.getElem?_eq_none (Nat.le_refl _)
    simp [hnone]
  next => exact Iff.rfl

theorem assumes_supposed (s : Session) (p : Proposition) :
    (s.supposed p).Assumes f ↔ s.Assumes f ∨ f = s.nextFact p := by
  unfold Assumes
  rw [entry?_supposed]
  split
  next hid =>
    have hnone : s.entry? f.id = none := by
      rw [Session.entry?, hid]
      exact Array.getElem?_eq_none (Nat.le_refl _)
    constructor
    · rintro ⟨e, he, hstatement, -⟩
      obtain rfl := Option.some.inj he
      obtain ⟨⟨index⟩, statement⟩ := f
      cases hid
      cases hstatement
      exact .inr rfl
    · rintro (⟨e, he, -⟩ | rfl)
      · rw [hnone] at he
        cases he
      · exact ⟨_, rfl, rfl, rfl⟩
  next hid =>
    have hne : f ≠ s.nextFact p := by
      rintro rfl
      exact hid rfl
    simp [hne]

theorem assumes_retract {c : ScopeId} {scope : Scope} (h : s.scope? c = some scope) :
    (s.retract c).Assumes f ↔ s.Assumes f ∧ f.id ∉ scope.assumptions.map Fact.id := by
  unfold Assumes
  rw [entry?_retract h]
  cases s.entry? f.id with
  | none => simp
  | some e => simp [retracted, and_assoc]

theorem Assumes.id_ne_size (h : s.Assumes f) (p : Proposition) : f.id ≠ (s.nextFact p).id := by
  obtain ⟨e, he, -⟩ := h
  have hlt := entry?_lt he
  intro heq
  rw [heq] at hlt
  exact Nat.lt_irrefl _ hlt

end Assumptions

section Operations
variable {s t : Session} {c : ScopeId} {scope : Scope}

theorem Scoped.congr (h : s.Scoped) (hquiet : t.speculation = none) (hstack : t.stack = s.stack)
    (hlog : ∀ c, t.logOf c = s.logOf c) (hassumes : ∀ f, t.Assumes f ↔ s.Assumes f)
    (hconcluded : ∀ c scope, t.scope? c = some scope → ∀ f ∈ scope.conclusions, t.Lists f) :
    t.Scoped := by
  refine ⟨hquiet, hconcluded, ?_, ?_, ?_, ?_⟩
  · simpa only [hstack, hlog, hassumes] using h.assumed
  · simpa only [hstack, hlog] using h.distinct
  · simpa only [hstack, hlog] using h.ordered
  · simpa only [hstack, hlog, hassumes, Inside] using h.owned

theorem Scoped.remembered (h : s.Scoped) (ht : Remembers s t) (c : ScopeId) (scope : Scope)
    (hscope : t.scope? c = some scope) : ∀ f ∈ scope.conclusions, t.Lists f := by
  obtain ⟨before, hbefore, -, hconclusions⟩ := ht.2 c scope hscope
  rw [hconclusions]
  exact fun f hf => ht.1 f (h.concluded c before hbefore f hf)

theorem Scoped.aside (h : s.Scoped) (ht : s.Aside t) : t.Scoped := by
  obtain ⟨_, _, _, rfl⟩ := ht
  exact ⟨h.quiet, h.concluded, h.assumed, h.distinct, h.ordered, h.owned⟩

theorem Scoped.certified (h : s.Scoped) (p : Proposition) (i : Inference FactId)
    (ids : List FactId) : (s.certified p i ids).Scoped := by
  refine h.congr ?_ (certified_stack s p i ids) (logOf_certified s p i ids)
    (fun f => assumes_certified s p i ids) (h.remembered (remembers_certified s p i ids))
  rw [certified_speculation, h.quiet]
  rfl

theorem Scoped.extended {R : Rule → Prop} (h : s.Scoped) (ht : Extends R s t) : t.Scoped := by
  induction ht with
  | refl => exact h
  | aside fresh warnings order _ ih => exact ih.aside ⟨fresh, warnings, order, rfl⟩
  | certify _ _ _ ih => exact ih.certified _ _ _

theorem Scoped.exported (h : s.Scoped) (statements : List (Fact × Proposition)) :
    (exported c scope s statements).Scoped := by
  induction statements generalizing s with
  | nil => exact h
  | cons x statements ih => exact ih (h.certified _ _ _)

/-- Outside of all scopes there is nothing to keep but what closed scopes have concluded. -/
theorem Scoped.supposed (h : s.Scoped) (hstack : s.stack = []) (p : Proposition) :
    (s.supposed p).Scoped := by
  have hnone : ∀ c, c ∉ (s.supposed p).stack := by
    intro c
    rw [supposed_stack, hstack]
    exact List.not_mem_nil
  refine ⟨?_, h.remembered (remembers_supposed s p), ?_, ?_, ?_, ?_⟩
  · rw [supposed_speculation, h.quiet]
  all_goals exact fun c hc => absurd hc (hnone c)

theorem Scoped.modifyScope {g : Scope → Scope} (h : s.Scoped)
    (hlog : ∀ scope, (g scope).log = scope.log)
    (hconcluded : ∀ scope, ∀ f ∈ (g scope).conclusions, f ∈ scope.conclusions ∨ s.Lists f) :
    (s.modifyScope c g).Scoped := by
  refine h.congr h.quiet rfl (fun _ => logOf_modifyScope hlog) (fun _ => Iff.rfl) ?_
  intro d scope' hscope' f hf
  rw [scope?_modifyScope] at hscope'
  split at hscope'
  next =>
    obtain ⟨before, hbefore, rfl⟩ := Option.map_eq_some_iff.mp hscope'
    rcases hconcluded before f hf with hold | hlists
    · exact h.concluded d before hbefore f hold
    · exact hlists
  next => exact h.concluded d scope' hscope' f hf

/-- Notes leave conclusions alone. -/
theorem conclusions_noted {d : ScopeId} {scope' : Scope} {x : Supposition}
    (h : (s.noted c x).scope? d = some scope') :
    ∃ before, s.scope? d = some before ∧ scope'.conclusions = before.conclusions := by
  rw [noted, scope?_modifyScope] at h
  split at h
  next =>
    obtain ⟨before, hbefore, rfl⟩ := Option.map_eq_some_iff.mp h
    exact ⟨before, hbefore, rfl⟩
  next => exact ⟨scope', h, rfl⟩

theorem Scoped.concluded_noted {x : Supposition} (h : s.Scoped) (d : ScopeId) (scope' : Scope)
    (hscope' : (s.noted c x).scope? d = some scope') : ∀ f ∈ scope'.conclusions, s.Lists f := by
  obtain ⟨before, hbefore, hconclusions⟩ := conclusions_noted hscope'
  rw [hconclusions]
  exact h.concluded d before hbefore

theorem Scoped.introduced {v : Variable} (h : s.Scoped) (hc : s.Innermost c scope)
    (hv : s.isUnrestricted v = true) : (s.noted c (.introduced v)).Scoped := by
  have hmem : ∀ {d f}, .assumed f ∈ (s.noted c (.introduced v)).logOf d ↔
      .assumed f ∈ s.logOf d := by
    intro d f
    rw [mem_logOf_noted hc.1]
    simp
  refine ⟨h.quiet, h.concluded_noted, ?_, ?_, ?_, ?_⟩
  · exact fun d hd f hf => h.assumed d hd f (hmem.mp hf)
  · exact fun b hb d hd hne f hf g hg => h.distinct b hb d hd hne f (hmem.mp hf) g (hmem.mp hg)
  · intro d hd
    rw [logOf_noted hc.1]
    split
    next hdc =>
      subst hdc
      rw [List.pairwise_append]
      refine ⟨h.ordered d hd, List.pairwise_singleton _ _, fun x hx y hy => ?_⟩
      rw [List.mem_singleton.mp hy]
      cases x with
      | introduced w => trivial
      | assumed f => exact isUnrestricted_spec hv (h.assumed d hd f hx)
    next => exact h.ordered d hd
  · intro d hd w hw f hf hcontains
    rcases (mem_logOf_noted hc.1).mp hw with hold | ⟨-, hnew⟩
    · obtain ⟨b, hb, hlog⟩ := h.owned d hd w hold f hf hcontains
      exact ⟨b, hb, hmem.mpr hlog⟩
    · -- No assumption that is there already speaks about a variable introduced now.
      cases hnew
      rw [isUnrestricted_spec hv hf] at hcontains
      cases hcontains

theorem Scoped.assumedIn (h : s.Scoped) (hc : s.Innermost c scope) (p : Proposition) :
    ((s.supposed p).noted c (.assumed (s.nextFact p))).Scoped := by
  have hscope : (s.supposed p).scope? c = some scope := by
    rw [scope?, supposed_scopes]
    exact hc.1
  have hmem : ∀ {d x}, x ∈ ((s.supposed p).noted c (.assumed (s.nextFact p))).logOf d ↔
      x ∈ s.logOf d ∨ (d = c ∧ x = .assumed (s.nextFact p)) := by
    intro d x
    rw [mem_logOf_noted hscope, logOf_supposed]
  have hassumes : ∀ {f}, ((s.supposed p).noted c (.assumed (s.nextFact p))).Assumes f ↔
      s.Assumes f ∨ f = s.nextFact p := assumes_supposed s p
  have hstack := supposed_stack s p
  refine ⟨?_, ?_, ?_, ?_, ?_, ?_⟩
  · exact (supposed_speculation s p).trans h.quiet
  · intro d scope' hscope' f hf
    obtain ⟨before, hbefore, hconclusions⟩ := conclusions_noted hscope'
    rw [hconclusions] at hf
    exact h.remembered (remembers_supposed s p) d before hbefore f hf
  · intro d hd f hf
    rw [hassumes]
    rcases hmem.mp hf with hold | ⟨-, hnew⟩
    · exact .inl (h.assumed d (hstack ▸ hd) f hold)
    · cases hnew
      exact .inr rfl
  · intro b hb d hd hne f hf g hg
    have hb : b ∈ s.stack := hstack ▸ hb
    have hd : d ∈ s.stack := hstack ▸ hd
    rcases hmem.mp hf with hf | ⟨hbc, hf⟩
    · rcases hmem.mp hg with hg | ⟨-, hg⟩
      · exact h.distinct b hb d hd hne f hf g hg
      · cases hg
        exact (h.assumed b hb f hf).id_ne_size p
    · rcases hmem.mp hg with hg | ⟨hdc, -⟩
      · cases hf
        exact ((h.assumed d hd g hg).id_ne_size p).symm
      · exact absurd (hbc.trans hdc.symm) hne
  · intro d hd
    have hordered := h.ordered d (hstack ▸ hd)
    rw [logOf_noted hscope, logOf_supposed, logOf_supposed]
    split
    next hdc =>
      subst hdc
      rw [List.pairwise_append]
      refine ⟨hordered, List.pairwise_singleton _ _, fun x _ y hy => ?_⟩
      rw [List.mem_singleton.mp hy]
      cases x <;> trivial
    next => exact hordered
  · intro d hd w hw f hf hcontains
    have hd : d ∈ s.stack := hstack ▸ hd
    have hw : .introduced w ∈ s.logOf d := by simpa [hmem] using hw
    unfold Inside
    rw [show ((s.supposed p).noted c (.assumed (s.nextFact p))).stack = s.stack from hstack]
    rcases hassumes.mp hf with hold | rfl
    · obtain ⟨b, hb, hlog⟩ := h.owned d hd w hw f hold hcontains
      exact ⟨b, hb, hmem.mpr (.inl hlog)⟩
    · exact ⟨c, inside_head hc.2.2 hd, hmem.mpr (.inr ⟨rfl, rfl⟩)⟩

theorem Scoped.opened (h : s.Scoped) (name : String) : (s.opened name).Scoped := by
  have hmem : ∀ {d x}, d ∈ (s.opened name).stack → x ∈ (s.opened name).logOf d →
      d ∈ s.stack ∧ x ∈ s.logOf d := by
    intro d x hd hx
    rw [logOf_opened] at hx
    rcases List.mem_cons.mp hd with rfl | hd
    · rw [logOf_size] at hx
      cases hx
    · exact ⟨hd, hx⟩
  refine ⟨h.quiet, ?_, ?_, ?_, ?_, ?_⟩
  · intro d scope' hscope' f hf
    have hscope : (s.opened name).scope? d =
        if d.index = s.scopes.size then some { name } else s.scope? d := by
      simp only [scope?, Session.opened, Array.getElem?_push]
    rw [hscope] at hscope'
    split at hscope'
    next =>
      cases hscope'
      cases hf
    next => exact h.concluded d scope' hscope' f hf
  · intro d hd f hf
    obtain ⟨hd, hf⟩ := hmem hd hf
    exact h.assumed d hd f hf
  · intro b hb d hd hne f hf g hg
    obtain ⟨hb, hf⟩ := hmem hb hf
    obtain ⟨hd, hg⟩ := hmem hd hg
    exact h.distinct b hb d hd hne f hf g hg
  · intro d hd
    rw [logOf_opened]
    rcases List.mem_cons.mp hd with rfl | hd
    · rw [logOf_size]
      exact List.Pairwise.nil
    · exact h.ordered d hd
  · intro d hd w hw f hf hcontains
    obtain ⟨hd, hw⟩ := hmem hd hw
    obtain ⟨b, hb, hlog⟩ := h.owned d hd w hw f hf hcontains
    refine ⟨b, hb.imp_right fun h => h.cons _, ?_⟩
    rw [logOf_opened]
    exact hlog

theorem Scoped.retract (h : s.Scoped) (hnested : s.Nested) (hscope : s.scope? c = some scope)
    (hc : c ∈ s.stack) : (s.retract c).Scoped := by
  have hlog : ∀ d, (s.retract c).logOf d = s.logOf d := fun d => logOf_retract hscope
  have hown : ∀ f, f ∈ scope.assumptions ↔ .assumed f ∈ s.logOf c := by
    intro f
    rw [Scope.mem_assumptions, logOf_of_some hscope]
  refine ⟨?_, h.remembered (remembers_retract s c), ?_, ?_, ?_, ?_⟩
  · rw [retract_speculation hscope, h.quiet]
  · intro d hd f hf
    obtain ⟨hdc, hd⟩ := (hnested.mem_stack_retract hscope).mp hd
    rw [hlog] at hf
    refine (assumes_retract hscope).mpr ⟨h.assumed d hd f hf, fun hid => ?_⟩
    obtain ⟨g, hg, hsame⟩ := List.mem_map.mp hid
    exact h.distinct d hd c hc hdc f hf g ((hown g).mp hg) hsame.symm
  · intro b hb d hd hne f hf g hg
    rw [hlog] at hf hg
    have hb := (hnested.mem_stack_retract hscope).mp hb
    have hd := (hnested.mem_stack_retract hscope).mp hd
    exact h.distinct b hb.2 d hd.2 hne f hf g hg
  · intro d hd
    rw [hlog]
    exact h.ordered d ((hnested.mem_stack_retract hscope).mp hd).2
  · intro d hd w hw f hf hcontains
    obtain ⟨hdc, hd⟩ := (hnested.mem_stack_retract hscope).mp hd
    obtain ⟨hf, hgone⟩ := (assumes_retract hscope).mp hf
    rw [hlog] at hw
    obtain ⟨b, hb, hmem⟩ := h.owned d hd w hw f hf hcontains
    have hbc : b ≠ c := by
      rintro rfl
      exact hgone (List.mem_map_of_mem ((hown f).mpr hmem))
    refine ⟨b, hb.imp_right fun hb => ?_, ?_⟩
    · exact (hnested.inside_retract hscope).mpr ⟨hb, hbc, hdc⟩
    · rw [hlog]
      exact hmem

end Operations

/-- The calls that suppose, generalise and deduce with connectives alone. -/
def Call.isGeneralising : Call → Bool
  | .discard _ | .speculateFrom | .settle _ => false
  | .tactic t => t.rule.isPropositional
  | _ => true

/-- The variable that a call introduces, if it succeeds. -/
def Call.introduces? (s : Session) : Call → Option Variable
  | .introduce _ v => some v
  | .letVariable _ name => some ⟨s.fresh, name⟩
  | _ => none

/-- No variable is introduced by a run while a current assumption speaks about it. -/
def unrestrictedRun (s : Session) : List Call → Bool
  | [] => true
  | call :: calls =>
      (call.introduces? s).all s.isUnrestricted && unrestrictedRun (call.apply s) calls

section Calls
variable {s : Session}

theorem apply_letVariable (s : Session) (c : ScopeId) (name : String) :
    (Call.letVariable c name).apply s =
      (Call.introduce c ⟨s.fresh, name⟩).apply ((Call.newVariable name).apply s) := by
  change after (letVariable c name) s =
    after (introduce c ⟨s.fresh, name⟩) { s with fresh := s.fresh + 1 }
  simp only [after, letVariable, newVariable, bind, EStateM.bind, modifyGet_run]
  cases introduce c ⟨s.fresh, name⟩ { s with fresh := s.fresh + 1 } with
  | ok _ t => rfl
  | error _ t => rfl

theorem Scoped.closed {c : ScopeId} {scope : Scope} {statements : List (Fact × Proposition)}
    {results : List Fact} (h : s.Scoped) (hnested : s.Nested) (hc : s.Innermost c scope) :
    ((Session.exported c scope (s.retract c) statements).modifyScope c
      ({ · with results })).Scoped := by
  have hretracted := h.retract hnested hc.1 (hnested.of_open hc.1 hc.2.1)
  exact (hretracted.exported statements).modifyScope (fun _ => rfl) fun _ _ hf => .inl hf

/-- A call other than `letVariable`, of which `Change` does not say what it introduces. -/
theorem Scoped.call_of_ne {call : Call} (h : s.Scoped) (hnested : s.Nested)
    (hcall : call.isGeneralising = true) (hv : (call.introduces? s).all s.isUnrestricted = true)
    (hlet : ∀ c name, call ≠ .letVariable c name) : (call.apply s).Scoped := by
  have hchange := call.change s
  generalize call.apply s = t at hchange
  cases hchange with
  | aside ht => exact h.aside ht
  | tactic ht => exact h.extended ht
  | postulate => exact h.certified _ _ _
  | suppose hstack => exact h.supposed hstack _
  | assumeIn _ hc => exact h.assumedIn hc _
  | openScope => exact h.opened _
  | introduce hor ht hc =>
      rcases hor with rfl | ⟨name, rfl⟩
      · obtain ⟨_, _, _, rfl⟩ := ht
        exact (h.aside ⟨_, _, _, rfl⟩).introduced hc hv
      · exact absurd rfl (hlet _ _)
  | conclude hc hf =>
      refine h.modifyScope (fun _ => rfl) fun scope g hg => ?_
      rcases List.mem_append.mp hg with hg | hg
      · exact .inl hg
      · rw [List.mem_singleton.mp hg]
        exact .inr hf.lists
  | close hc _ => exact h.closed hnested hc
  | discard => cases hcall
  | speculateFrom => cases hcall
  | settle => cases hcall

theorem Scoped.call {call : Call} (h : s.Scoped) (hnested : s.Nested)
    (hcall : call.isGeneralising = true)
    (hv : (call.introduces? s).all s.isUnrestricted = true) : (call.apply s).Scoped := by
  by_cases hlet : ∃ c name, call = .letVariable c name
  · obtain ⟨c, name, rfl⟩ := hlet
    rw [apply_letVariable]
    have hnew : s.Aside ((Call.newVariable name).apply s) := ⟨_, _, _, rfl⟩
    exact (h.aside hnew).call_of_ne (hnested.aside hnew) rfl hv (by simp)
  · exact h.call_of_ne hnested hcall hv fun c name heq => hlet ⟨c, name, heq⟩

theorem Scoped.initial : Scoped {} := by
  refine ⟨rfl, ?_, ?_, ?_, ?_, ?_⟩
  all_goals simp [scope?]

end Calls

end Session

end Entailment
