import Entailment.Proofs.Auditing
import Entailment.Search.Basic

/-!
# What a completed piece of work leaves standing

A piece of work is completed when every scope that it opened is closed again and every speculation
that it started is settled. `Proceeds` says what such work leaves: whatever was proven before still
is. The assumptions of the scopes closed on the way are all newer than that, so nothing older rests
on them. Tactics, whole scopes and searches are of this kind, and they compose. `Advances` adds that
whatever holds in the end passes its audit, for which no scope may discharge assumptions.
-/
namespace Entailment.Session

/-- Tactics whose rules are all in `R`, one after another, whatever each of them comes to. -/
inductive Deduces (R : Rule → Prop) (s : Session) : Session → Prop
  | refl : Deduces R s s
  | aside {t u : Session} : Deduces R s t → t.Aside u → Deduces R s u
  | tactic {t : Session} (a : Tactic) : Deduces R s t → R a.rule → Deduces R s (a.apply t)

/-- No speculation is going on, and what is on record is traced and accounted for. -/
structure Coherent (s : Session) : Prop where
  traced : s.Traced
  accounted : s.Accounted
  quiet : s.speculation = none

/-- From `s`, completed work has led to `t`. -/
structure Proceeds (s t : Session) : Prop where
  coherent : t.Coherent
  stack : t.stack = s.stack
  contents : ∀ id e, s.entry? id = some e → ∃ e', t.entry? id = some e' ∧ e'.content = e.content
  proves : ∀ f, s.Proves f → t.Proves f
  assumptions : ∀ c, ∀ a ∈ t.assumptionsOf c, a ∈ s.assumptionsOf c ∨ s.ledger.size ≤ a.index

/-- From `s`, completed work has led to `t`, and all that holds there passes its audit. -/
structure Advances (s t : Session) : Prop where
  auditable : t.Auditable
  quiet : t.speculation = none
  stack : t.stack = s.stack
  contents : ∀ id e, s.entry? id = some e → ∃ e', t.entry? id = some e' ∧ e'.content = e.content
  proves : ∀ f, s.Proves f → t.Proves f
  assumptions : ∀ c, ∀ a ∈ t.assumptionsOf c, a ∈ s.assumptionsOf c ∨ s.ledger.size ≤ a.index

/-- Nothing was entered between `s` and `t` by a rule that discharges assumptions. -/
def Undischarged (s t : Session) : Prop :=
  ∀ id e, t.entry? id = some e → e.inference.rule.discharges = true → id.index < s.ledger.size

section Deductions
variable {R : Rule → Prop} {s t u : Session}

theorem Extends.trans (h : Extends R s t) (h' : Extends R t u) : Extends R s u := by
  induction h' with
  | refl => exact h
  | aside fresh warnings order _ ih => exact .aside fresh warnings order ih
  | certify _ hd hr ih => exact .certify ih hd hr

theorem Deduces.trans (h : Deduces R s t) (h' : Deduces R t u) : Deduces R s u := by
  induction h' with
  | refl => exact h
  | aside _ haside ih => exact .aside ih haside
  | tactic a _ hr ih => exact .tactic a ih hr

theorem Deduces.extends (h : Deduces R s t) : Extends R s t := by
  induction h with
  | refl => exact .refl
  | aside _ haside ih => exact ih.ofAside haside
  | tactic a _ hr ih =>
      apply ih.trans
      exact (a.apply_extends _).mono fun r heq => heq ▸ hr

theorem Deduces.auditable (h : Deduces R s t) (hs : s.Auditable) : t.Auditable := by
  induction h with
  | refl => exact hs
  | aside _ haside ih => exact ih.aside haside
  | tactic a _ _ ih => exact ih.tactic a

theorem Extends.entry_eq (h : Extends R s t) {id : FactId} {e : Entry}
    (he : s.entry? id = some e) : t.entry? id = some e := by
  induction h with
  | refl => exact he
  | aside _ _ _ _ ih => exact ih
  | certify _ _ _ ih => exact entry?_of_push_of_some (certified_ledger _ _ _ _) ih

theorem Extends.proves (h : Extends R s t) {f : Fact} (hf : s.Proves f) : t.Proves f := by
  obtain ⟨e, he, hrest⟩ := hf
  exact ⟨e, h.entry_eq he, hrest⟩

/-- What a tactic enters is new, and entered by its own rule. -/
theorem Extends.entry (h : Extends R s t) :
    s.ledger.size ≤ t.ledger.size ∧
      ∀ id e, t.entry? id = some e → id.index < s.ledger.size ∨ R e.inference.rule := by
  induction h with
  | refl => exact ⟨Nat.le_refl _, fun _ _ he => .inl (entry?_lt he)⟩
  | aside _ _ _ _ ih => exact ih
  | @certify t p i d _ _ hr ih =>
      obtain ⟨hsize, hentry⟩ := ih
      refine ⟨?_, fun id e he => ?_⟩
      · rw [certified_ledger, Array.size_push]
        omega
      · rw [entry?_certified] at he
        split at he
        next =>
          cases he
          exact .inr hr
        next => exact hentry id e he

theorem Extends.contents (h : Extends R s t) (id : FactId) (e : Entry)
    (he : s.entry? id = some e) : ∃ e', t.entry? id = some e' ∧ e'.content = e.content :=
  ⟨e, h.entry_eq he, rfl⟩

theorem Extends.frame (h : Extends R s t) :
    t.stack = s.stack ∧ ∀ c, t.assumptionsOf c = s.assumptionsOf c := by
  induction h with
  | refl => exact ⟨rfl, fun _ => rfl⟩
  | aside _ _ _ _ ih => exact ih
  | @certify t p i d _ _ _ ih =>
      refine ⟨(certified_stack t p i d).trans ih.1, fun c => ?_⟩
      rw [assumptionsOf_congr (logOf_certified t p i d c), ih.2]

/-- While speculating, what a tactic enters is noted. -/
theorem Extends.speculation (h : Extends R s t) :
    (s.speculation = none → t.speculation = none) ∧
      ∀ derived, s.speculation = some derived → ∃ new, t.speculation = some (new ++ derived) ∧
        ∀ id ∈ new, s.ledger.size ≤ id.index := by
  induction h with
  | refl => exact ⟨fun hnone => hnone, fun derived hsome => ⟨[], hsome, by simp⟩⟩
  | aside _ _ _ _ ih => exact ih
  | @certify t p i d hst _ _ ih =>
      rw [certified_speculation]
      refine ⟨fun hnone => by rw [ih.1 hnone, Option.map_none], fun derived hsome => ?_⟩
      obtain ⟨new, hnew, hids⟩ := ih.2 derived hsome
      refine ⟨⟨t.ledger.size⟩ :: new, by rw [hnew, Option.map_some, List.cons_append], ?_⟩
      intro id hid
      rcases List.mem_cons.mp hid with rfl | hid
      · exact hst.entry.1
      · exact hids id hid

end Deductions

section Proceeds
variable {R : Rule → Prop} {s t u : Session}

theorem Coherent.of_auditable (h : s.Auditable) (hquiet : s.speculation = none) : s.Coherent :=
  ⟨h.traced, h.accounted, hquiet⟩

theorem Advances.proceeds (h : Advances s t) : Proceeds s t :=
  ⟨.of_auditable h.auditable h.quiet, h.stack, h.contents, h.proves, h.assumptions⟩

theorem Proceeds.advances (h : Proceeds s t) (ht : t.Auditable) : Advances s t :=
  ⟨ht, h.coherent.quiet, h.stack, h.contents, h.proves, h.assumptions⟩

theorem Proceeds.refl (h : s.Coherent) : Proceeds s s :=
  ⟨h, rfl, fun _ e he => ⟨e, he, rfl⟩, fun _ hf => hf, fun _ _ ha => .inl ha⟩

theorem Proceeds.size (h : Proceeds s t) : s.ledger.size ≤ t.ledger.size := by
  by_contra hlt
  rw [Nat.not_le] at hlt
  have hentry : ∃ e, s.entry? ⟨t.ledger.size⟩ = some e := entry?_of_lt hlt
  obtain ⟨e, he⟩ := hentry
  obtain ⟨e', he', -⟩ := h.contents _ e he
  exact Nat.lt_irrefl _ (entry?_lt he')

theorem Proceeds.trans (h : Proceeds s t) (h' : Proceeds t u) : Proceeds s u := by
  refine ⟨h'.coherent, h'.stack.trans h.stack, fun id e he => ?_,
    fun f hf => h'.proves f (h.proves f hf), fun c a ha => ?_⟩
  · obtain ⟨e', he', hcontent⟩ := h.contents id e he
    obtain ⟨e'', he'', hcontent'⟩ := h'.contents id e' he'
    exact ⟨e'', he'', hcontent'.trans hcontent⟩
  · rcases h'.assumptions c a ha with hold | hnew
    · exact h.assumptions c a hold
    · exact .inr (Nat.le_trans h.size hnew)

theorem Advances.refl (h : s.Auditable) (hquiet : s.speculation = none) : Advances s s :=
  (Proceeds.refl (.of_auditable h hquiet)).advances h

theorem Advances.trans (h : Advances s t) (h' : Advances t u) : Advances s u :=
  (h.proceeds.trans h'.proceeds).advances h'.auditable

theorem Undischarged.trans (h : Undischarged s t) (hadvances : Advances t u)
    (h' : Undischarged t u) : Undischarged s u := by
  intro id e he hdischarges
  obtain ⟨e', he'⟩ := entry?_of_lt (h' id e he hdischarges)
  obtain ⟨_, hsame, hcontent⟩ := hadvances.contents id e' he'
  obtain rfl := Option.some.inj (he.symm.trans hsame)
  have hinference : e.inference = e'.inference := congrArg (·.2.1) hcontent
  exact h id e' he' (hinference ▸ hdischarges)

theorem Extends.proceeds (h : Extends R s t) (hs : s.Coherent) : Proceeds s t := by
  refine ⟨⟨hs.traced.extended h, hs.accounted.extended h, h.speculation.1 hs.quiet⟩, h.frame.1,
    h.contents, fun f hf => h.proves hf, fun c a ha => .inl ?_⟩
  rw [← h.frame.2 c]
  exact ha

theorem Deduces.advances (h : Deduces R s t) (hs : s.Auditable) (hquiet : s.speculation = none) :
    Advances s t :=
  (h.extends.proceeds (.of_auditable hs hquiet)).advances (h.auditable hs)

theorem Deduces.undischarged (h : Deduces R s t) (hR : ∀ r, R r → r.discharges = false) :
    Undischarged s t := by
  intro id e he hdischarges
  rcases h.extends.entry.2 id e he with hold | hrule
  · exact hold
  · rw [hR _ hrule] at hdischarges
    cases hdischarges

/-- A call that enters at most one statement, and neither retracts nor opens anything. -/
theorem Proceeds.push {new : Entry} (ht : t.Coherent) (hledger : t.ledger = s.ledger.push new)
    (hstack : t.stack = s.stack)
    (hassumptions : ∀ c, ∀ a ∈ t.assumptionsOf c, a ∈ s.assumptionsOf c ∨ s.ledger.size ≤ a.index) :
    Proceeds s t := by
  refine ⟨ht, hstack, fun id e he => ⟨e, entry?_of_push_of_some hledger he, rfl⟩, ?_,
    hassumptions⟩
  rintro f ⟨e, he, hrest⟩
  exact ⟨e, entry?_of_push_of_some hledger he, hrest⟩

end Proceeds

section Calls
variable {s : Session}

/-- The calls that neither open nor retract a scope, and do not speculate. -/
def Call.isSteady : Call → Bool
  | .openScope _ | .close _ | .discard _ | .speculateFrom | .settle _ => false
  | _ => true

theorem Call.careful_of_not_retracts {call : Call} (h : ∀ c, ¬call.Retracts s c) :
    call.Careful s :=
  ⟨fun c _ hc => absurd hc (h c), fun c _ hc => absurd hc (h c)⟩

theorem Call.careful_of_isSteady {call : Call} (h : call.isSteady = true) : call.Careful s := by
  apply Call.careful_of_not_retracts
  rintro c (⟨rfl, -⟩ | rfl)
  · cases h
  · cases h

theorem mem_assumptionsOf {c : ScopeId} {a : FactId} :
    a ∈ s.assumptionsOf c ↔ ∃ f, .assumed f ∈ s.logOf c ∧ f.id = a := by
  rw [assumptionsOf, logOf]
  cases s.scope? c with
  | none => simp
  | some scope => simp [Scope.mem_assumptions]

theorem assumptionsOf_noted {c d : ScopeId} {scope : Scope} {x : Supposition} {a : FactId}
    (hscope : s.scope? c = some scope) (h : a ∈ (s.noted c x).assumptionsOf d) :
    a ∈ s.assumptionsOf d ∨ ∃ f, x = .assumed f ∧ a = f.id := by
  obtain ⟨f, hf, rfl⟩ := mem_assumptionsOf.mp h
  rcases (mem_logOf_noted hscope).mp hf with hold | ⟨-, hnew⟩
  · exact .inl (mem_assumptionsOf.mpr ⟨f, hold, rfl⟩)
  · exact .inr ⟨f, hnew.symm, rfl⟩

theorem Call.orderly_of_isSteady {call : Call} (h : call.isSteady = true) : call.Orderly s :=
  (Call.careful_of_isSteady h).1

theorem Proceeds.call {call : Call} (h : s.Coherent) (hsteady : call.isSteady = true) :
    Proceeds s (call.apply s) := by
  have htraced := h.traced.call call
  have haccounted := h.accounted.call (Call.orderly_of_isSteady hsteady)
  have hchange := call.change s
  generalize call.apply s = t at hchange htraced haccounted
  have haside : ∀ {u : Session}, s.Aside u → Proceeds s u := fun hu =>
    (Extends.refl.ofAside hu : Extends (fun _ => False) s _).proceeds h
  cases hchange with
  | aside ht => exact haside ht
  | tactic ht => exact ht.proceeds h
  | postulate =>
      refine .push ⟨htraced, haccounted, ?_⟩ (certified_ledger s _ _ _) (certified_stack s _ _ _) ?_
      · rw [certified_speculation, h.quiet, Option.map_none]
      · intro c a ha
        rw [assumptionsOf_congr (logOf_certified s _ _ _ c)] at ha
        exact .inl ha
  | suppose _ =>
      refine .push ⟨htraced, haccounted, ?_⟩ (supposed_ledger s _) (supposed_stack s _) ?_
      · rw [supposed_speculation, h.quiet]
      · intro c a ha
        rw [assumptionsOf_congr (logOf_supposed s _ c)] at ha
        exact .inl ha
  | @assumeIn _ c scope p _ hc =>
      have hscope : (s.supposed p).scope? c = some scope := by
        rw [scope?, supposed_scopes]
        exact hc.1
      refine .push ⟨htraced, haccounted, ?_⟩ (supposed_ledger s p) (supposed_stack s p) ?_
      · exact (supposed_speculation s p).trans h.quiet
      · intro d a ha
        rcases assumptionsOf_noted hscope ha with hold | ⟨f, hf, rfl⟩
        · rw [assumptionsOf_congr (logOf_supposed s p d)] at hold
          exact .inl hold
        · cases hf
          exact .inr (Nat.le_refl _)
  | openScope => cases hsteady
  | @introduce _ t c scope v _ ht hc =>
      have hscope : t.scope? c = some scope := by
        obtain ⟨_, _, _, rfl⟩ := ht
        exact hc.1
      have hbefore := haside ht
      refine ⟨⟨htraced, haccounted, hbefore.coherent.quiet⟩, hbefore.stack, hbefore.contents,
        hbefore.proves, ?_⟩
      intro d a ha
      rcases assumptionsOf_noted hscope ha with hold | ⟨f, hf, rfl⟩
      · exact hbefore.assumptions d a hold
      · cases hf
  | @conclude c _ _ f _ _ =>
      refine ⟨⟨htraced, haccounted, h.quiet⟩, rfl, fun _ e he => ⟨e, he, rfl⟩, fun _ hf => hf, ?_⟩
      intro d a ha
      have hlog : (s.concluded c f).logOf d = s.logOf d := logOf_modifyScope fun _ => rfl
      rw [assumptionsOf_congr hlog] at ha
      exact .inl ha
  | close _ _ => cases hsteady
  | discard _ _ => cases hsteady
  | speculateFrom _ => cases hsteady
  | settle => cases hsteady

theorem Advances.call {call : Call} (h : s.Auditable) (hquiet : s.speculation = none)
    (hsteady : call.isSteady = true) : Advances s (call.apply s) :=
  (Proceeds.call (.of_auditable h hquiet) hsteady).advances
    (h.call (Call.careful_of_isSteady hsteady))

theorem Undischarged.push {t : Session} {new : Entry} (hledger : t.ledger = s.ledger.push new)
    (hrule : new.inference.rule.discharges = false) : Undischarged s t := by
  intro id e he hdischarges
  rw [entry?_of_push hledger] at he
  split at he
  next =>
    cases he
    rw [hrule] at hdischarges
    cases hdischarges
  next => exact entry?_lt he

theorem Undischarged.call {call : Call} (hsteady : call.isSteady = true)
    (htactic : ∀ t, call = .tactic t → t.rule.discharges = false) :
    Undischarged s (call.apply s) := by
  have hchange := call.change s
  generalize call.apply s = t at hchange
  cases hchange with
  | aside ht =>
      obtain ⟨_, _, _, rfl⟩ := ht
      exact fun id e he _ => entry?_lt he
  | @tactic a _ ht =>
      intro id e he hdischarges
      rcases ht.entry.2 id e he with hold | hrule
      · exact hold
      · rw [hrule, htactic a rfl] at hdischarges
        cases hdischarges
  | postulate => exact .push (certified_ledger s _ _ _) rfl
  | suppose _ => exact .push (supposed_ledger s _) rfl
  | assumeIn _ _ => exact .push (supposed_ledger s _) rfl
  | openScope => cases hsteady
  | introduce _ ht _ =>
      obtain ⟨_, _, _, rfl⟩ := ht
      exact fun id e he _ => entry?_lt he
  | conclude _ _ => exact fun id e he _ => entry?_lt he
  | close _ _ => cases hsteady
  | discard _ _ => cases hsteady
  | speculateFrom _ => cases hsteady
  | settle => cases hsteady

end Calls

section Scopes
variable {s t : Session} {c : ScopeId} {scope : Scope}

theorem getScope_reads_of_some (h : s.scope? c = some scope) :
    Reads (getScope c) s (· = scope) := by
  unfold getScope
  refine .get_bind (.pure ?_)
  rw [h]
  rfl

theorem proves_of_holds {f : Fact} (hlists : s.Lists f) (hholds : s.holds f.id = true) :
    s.Proves f := by
  obtain ⟨e, he, hstatement⟩ := hlists
  refine ⟨e, he, hstatement, ?_⟩
  simpa [Session.holds, he] using hholds

/-- What closing an open scope leaves. -/
theorem close_ensures (hc : s.Innermost c scope) :
    Ensures (close c) s
      (fun _ t => ∃ statements results,
        List.Forall₂ (Restates scope) (s.targets scope) statements ∧
        (∀ f ∈ results, (exported c scope (s.retract c) statements).Proves f) ∧
        results.map Fact.statement = statements.map (fun x => x.2.strip) ∧
        t = (exported c scope (s.retract c) statements).modifyScope c ({ · with results }))
      fun _ => True := by
  unfold close
  refine (getScope_reads_of_some hc.1).ensures_bind trivial ?_
  rintro scope rfl
  split
  next hclosed =>
    rw [hc.2.1] at hclosed
    cases hclosed
  next =>
    refine .get_bind (.guard trivial fun _ => ?_)
    refine (generalise_reads s scope (s.targets scope)).ensures_bind trivial ?_
    intro statements hstatements
    refine .modify_bind ?_
    have hexport := (export_ensures c scope statements (s.retract c)).mono (fun _ _ h => h)
      (fun _ _ => trivial)
    apply hexport.bind
    rintro results u ⟨rfl, hproves, hresults⟩
    exact .modify ⟨statements, results, hstatements, hproves, hresults, rfl⟩

theorem Traced.dependency_le {id a : FactId} (h : s.Traced) (ha : a ∈ s.dependencies id) :
    a.index ≤ id.index := by
  have htraces := h.tracesTo_of_mem ha
  induction htraces with
  | itself _ _ => exact Nat.le_refl _
  | @through id j e he hj _ _ ih =>
      have hlt := (h.recorded id e he).older j (Inference.mem_premises_of_mem_carriers hj)
      exact Nat.le_trans (ih (h.mem_of_tracesTo ‹_›)) (Nat.le_of_lt hlt)

/-- Nothing rests on assumptions that are newer than itself. -/
theorem Traced.restsOn_eq_false {n : Nat} {id : FactId} (h : s.Traced)
    (hscope : s.scope? c = some scope) (hnew : ∀ a ∈ s.assumptionsOf c, n ≤ a.index)
    (hid : id.index < n) : s.restsOn scope id = false := by
  by_contra hrests
  rw [Bool.not_eq_false, restsOn, List.any_eq_true] at hrests
  obtain ⟨a, ha, hmem⟩ := hrests
  rw [assumptionsOf_of_some hscope] at hnew
  have hle := h.dependency_le ha
  have hge := hnew a (of_decide_eq_true hmem)
  omega

/-- A scope in which nothing was derived by discharging assumptions can be retracted with care. -/
theorem Undischarged.not_straddles {n : Nat} (h : s.Traced) (hscope : s.scope? c = some scope)
    (hnew : ∀ a ∈ s.assumptionsOf c, n ≤ a.index)
    (hfree : ∀ id e, s.entry? id = some e → e.inference.rule.discharges = true → id.index < n)
    (id : FactId) : ¬s.Straddles scope id := by
  rintro ⟨e, he, -, hdischarges, -, j, hj, hrests⟩
  have hlt := (h.recorded id e he).older j hj
  have hid := hfree id e he hdischarges
  rw [h.restsOn_eq_false hscope hnew (by omega)] at hrests
  cases hrests

theorem exported_frame (s : Session) (c : ScopeId) (scope : Scope)
    (statements : List (Fact × Proposition)) :
    (exported c scope s statements).stack = s.stack ∧
      (s.speculation = none → (exported c scope s statements).speculation = none) ∧
      (∀ d, (exported c scope s statements).logOf d = s.logOf d) ∧
      (∀ d, s.isClosed d = true → (exported c scope s statements).isClosed d = true) ∧
      ∀ id e, s.entry? id = some e →
        Session.entry? (exported c scope s statements) id = some e := by
  induction statements generalizing s with
  | nil => exact ⟨rfl, fun h => h, fun _ => rfl, fun _ h => h, fun _ _ he => he⟩
  | cons x statements ih =>
      obtain ⟨f, p⟩ := x
      have hledger := certified_ledger s p
        { rule := .closeScope, first := some f.id, closed := [c] }
        ((s.dependencies f.id).filter (· ∉ scope.assumptions.map Fact.id))
      have hretains := retains_certified s p
        { rule := .closeScope, first := some f.id, closed := [c] }
        ((s.dependencies f.id).filter (· ∉ scope.assumptions.map Fact.id))
      obtain ⟨hstack, hquiet, hlog, hclosed, hentry⟩ := ih (s.certified p
        { rule := .closeScope, first := some f.id, closed := [c] }
        ((s.dependencies f.id).filter (· ∉ scope.assumptions.map Fact.id)))
      refine ⟨hstack.trans (certified_stack _ _ _ _), fun hnone => hquiet ?_, fun d => ?_, ?_, ?_⟩
      · rw [certified_speculation, hnone, Option.map_none]
      · exact (hlog d).trans (logOf_certified _ _ _ _ d)
      · exact fun d hd => hclosed d (hretains.scope d hd).1
      · exact fun id e he => hentry id e (entry?_of_push_of_some hledger he)

theorem Innermost.of_stack (h : s.Nested) {rest : List ScopeId} (hstack : s.stack = c :: rest) :
    ∃ scope, s.Innermost c scope := by
  have hmem : c ∈ s.stack := by rw [hstack]; exact List.mem_cons_self
  obtain ⟨scope, hscope, hopen⟩ := Option.map_eq_some_iff.mp ((h.mem_stack c).mp hmem)
  exact ⟨scope, hscope, hopen, by rw [hstack]; rfl⟩

/-- All assumptions of a scope are newer than what was there before the scope was opened. -/
theorem Proceeds.assumption_ge {name : String} (h : Proceeds (s.opened name) t) :
    ∀ a ∈ t.assumptionsOf ⟨s.scopes.size⟩, s.ledger.size ≤ a.index := by
  intro a ha
  rcases h.assumptions _ a ha with hold | hnew
  · obtain ⟨f, hf, -⟩ := mem_assumptionsOf.mp hold
    rw [logOf_opened, logOf_size] at hf
    cases hf
  · exact hnew

/-- Opening a scope, completed work inside of it, and closing the scope make completed work
again. -/
theorem Proceeds.closed {name : String} {statements : List (Fact × Proposition)}
    {results : List Fact} (hinner : Proceeds (s.opened name) t)
    (hc : t.Innermost ⟨s.scopes.size⟩ scope)
    (hstatements : List.Forall₂ (Restates scope) (t.targets scope) statements) :
    Proceeds s ((exported ⟨s.scopes.size⟩ scope (t.retract ⟨s.scopes.size⟩) statements).modifyScope
      ⟨s.scopes.size⟩ ({ · with results })) := by
  obtain ⟨htraced, haccounted, hquiet⟩ := hinner.coherent
  have hseverable : t.Severable ⟨s.scopes.size⟩ scope :=
    haccounted.nested.severable hc.2.2 hquiet
  obtain ⟨hstack, hspeculation, hlog, -, hentry⟩ :=
    exported_frame (t.retract ⟨s.scopes.size⟩) ⟨s.scopes.size⟩ scope statements
  have hspeculation := hspeculation ((retract_speculation hc.1).trans hquiet)
  refine ⟨⟨htraced.closed hc.1 hstatements, haccounted.closed hc hseverable hstatements,
    hspeculation⟩, ?_, ?_, ?_, ?_⟩
  · refine hstack.trans ?_
    rw [retract_stack hc.1, hinner.stack, Session.opened]
    simp
  · intro id e he
    obtain ⟨e', he', hcontent⟩ := hinner.contents id e he
    obtain ⟨e'', he'', hcontent'⟩ := (retract_sameContents t ⟨s.scopes.size⟩).entry he'
    exact ⟨e'', hentry id e'' he'', hcontent'.trans hcontent⟩
  · intro f hf
    have hlt : f.id.index < s.ledger.size := hf.lists.index_lt
    have hinside : t.Proves f := hinner.proves f hf
    have hlists := (retract_sameContents t ⟨s.scopes.size⟩).lists hinside.lists
    have hholds := haccounted.holds_retract hc.1 hinside.holds
      (htraced.restsOn_eq_false hc.1 hinner.assumption_ge hlt)
    exact (proves_of_holds hlists hholds).exported statements
  · intro d a ha
    have hresults : ∀ u : Session, Session.assumptionsOf (u.modifyScope ⟨s.scopes.size⟩
        ({ · with results })) d = u.assumptionsOf d := fun u =>
      assumptionsOf_congr (logOf_modifyScope fun _ => rfl)
    rw [hresults, assumptionsOf_congr (hlog d), assumptionsOf_congr (logOf_retract hc.1)] at ha
    have hopened : (s.opened name).assumptionsOf d = s.assumptionsOf d :=
      assumptionsOf_congr (logOf_opened name)
    rw [← hopened]
    exact hinner.assumptions d a ha

/-- If nothing was discharged inside, what holds after closing the scope also passes its audit. -/
theorem Advances.closed {name : String} {statements : List (Fact × Proposition)}
    {results : List Fact} (hinner : Advances (s.opened name) t)
    (hfree : Undischarged (s.opened name) t) (hc : t.Innermost ⟨s.scopes.size⟩ scope)
    (hstatements : List.Forall₂ (Restates scope) (t.targets scope) statements) :
    Advances s ((exported ⟨s.scopes.size⟩ scope (t.retract ⟨s.scopes.size⟩) statements).modifyScope
      ⟨s.scopes.size⟩ ({ · with results })) := by
  have hseverable : t.Severable ⟨s.scopes.size⟩ scope :=
    hinner.auditable.accounted.nested.severable hc.2.2 hinner.quiet
  have hstraddles := Undischarged.not_straddles hinner.auditable.traced hc.1
    hinner.proceeds.assumption_ge hfree
  exact (hinner.proceeds.closed hc hstatements).advances
    (hinner.auditable.closed hc hseverable hstraddles hstatements)

/-- Closing a scope enters nothing but what it restates. -/
theorem exported_entry (s : Session) (c : ScopeId) (scope : Scope)
    (statements : List (Fact × Proposition)) (id : FactId) (e : Entry)
    (he : Session.entry? (exported c scope s statements) id = some e) :
    s.entry? id = some e ∨ e.inference.rule = .closeScope := by
  induction statements generalizing s with
  | nil => exact .inl he
  | cons x statements ih =>
      obtain ⟨f, p⟩ := x
      rcases ih _ he with hbefore | hrule
      · rw [entry?_certified] at hbefore
        split at hbefore
        next =>
          cases hbefore
          exact .inr rfl
        next => exact .inl hbefore
      · exact .inr hrule

theorem Undischarged.closed {name : String} {statements : List (Fact × Proposition)}
    {results : List Fact} (h : Undischarged (s.opened name) t) :
    Undischarged s ((exported c scope (t.retract c) statements).modifyScope c
      ({ · with results })) := by
  intro id e he hdischarges
  rcases exported_entry (t.retract c) c scope statements id e he with hbefore | hrule
  · obtain ⟨e', he', hcontent⟩ := (retract_sameContents t c).symm.entry hbefore
    have hinference : e'.inference = e.inference := congrArg (·.2.1) hcontent
    exact h id e' he' (hinference ▸ hdischarges)
  · rw [hrule] at hdischarges
    cases hdischarges

theorem Ensures.tryCatch {α : Type} {a : Action α} {handle : Failure → Action α}
    {ok : α → Session → Prop} {mid failed : Session → Prop} (ha : Ensures a s ok mid)
    (hh : ∀ e t, mid t → Ensures (handle e) t ok failed) :
    Ensures (MonadExcept.tryCatch a handle) s ok failed := by
  change Ensures (EStateM.tryCatch a handle) s ok failed
  unfold Ensures EStateM.tryCatch
  unfold Ensures at ha
  cases h : a s with
  | ok x t =>
      simp only [h] at ha
      exact ha
  | error e t =>
      simp only [h] at ha
      exact hh e t ha

theorem Ensures.of_all {α : Type} (a : Action α) (s : Session) :
    Ensures a s (fun _ _ => True) fun _ => True := by
  unfold Ensures
  split <;> trivial

theorem results_reads_of_some (h : s.scope? c = some scope) (hclosed : scope.closed = true) :
    Reads (results c) s (· = scope.results) := by
  unfold results
  refine .bind (getScope_reads_of_some h) ?_
  rintro scope rfl
  rw [if_pos hclosed]
  exact .pure rfl

/-- What is assumed counts as proven. -/
theorem assume_proves (p : Proposition) (s : Session) :
    Ensures (assume p) s (fun f t => t.Proves f) fun _ => True := by
  have hsupposed : (s.supposed p).Proves (s.nextFact p) :=
    ⟨_, (entry?_supposed s p _).trans (if_pos rfl), rfl, rfl⟩
  have hrest : ∀ c, Ensures (do let fact ← suppose p; note c (.assumed fact); Pure.pure fact) s
      (fun f t => t.Proves f) fun _ => True := by
    intro c
    have hsuppose : Ensures (suppose p) s (fun f t => f = s.nextFact p ∧ t = s.supposed p)
        fun _ => True := .suppose ⟨rfl, rfl⟩
    apply hsuppose.bind
    rintro f t ⟨rfl, rfl⟩
    exact hsupposed
  unfold assume
  refine .get_bind ?_
  split
  next top _ _ =>
    unfold assumeIn
    refine (requireInnermost_reads s top).ensures_bind trivial fun scope _ => .get_bind ?_
    cases p.freeVariables.find? s.isRetired with
    | some v => exact Ensures.breach trivial
    | none =>
        cases scope.memberOf? p with
        | none => exact hrest top
        | some v => exact .guard trivial fun _ => hrest top
  next => exact .suppose hsupposed

/-- A scope is closed and has its results once they are entered. -/
theorem exists_closed (hc : s.Innermost c scope) (statements : List (Fact × Proposition))
    (results : List Fact) :
    ∃ after, Session.scope? ((exported c scope (s.retract c) statements).modifyScope c
      ({ · with results })) c = some after ∧ after.closed = true ∧ after.results = results := by
  have hretracted : (s.retract c).isClosed c = true := by
    rw [isClosed, scope?_retract hc.1, hc.1]
    simp
  obtain ⟨-, -, -, hclosed, -⟩ := exported_frame (s.retract c) c scope statements
  obtain ⟨before, hbefore, hclosed⟩ := isClosed_eq_true.mp (hclosed c hretracted)
  refine ⟨{ before with results }, ?_, hclosed, rfl⟩
  rw [scope?_modifyScope, if_pos rfl, hbefore, Option.map_some]

/-- Closing a scope for its results answers with facts that count as proven, one for each statement
that was put together. -/
theorem finish_ensures (hc : s.Innermost c scope) :
    Ensures (finish c) s
      (fun fs t => (∀ f ∈ fs, t.Proves f) ∧ ∃ statements results,
        List.Forall₂ (Restates scope) (s.targets scope) statements ∧
        fs.map Fact.statement = statements.map (fun x => x.2.strip) ∧
        t = (exported c scope (s.retract c) statements).modifyScope c ({ · with results }))
      fun _ => True := by
  have hgiveUp : ∀ (ok : Unit → Session → Prop) (e : Failure) (t : Session), True →
      Ensures (do Session.discard c; MonadExcept.throw e : Action Unit) t ok fun _ => True := by
    intro ok e t _
    exact (Ensures.of_all (discard c) t).bind fun _ _ _ => .throw trivial
  unfold finish
  refine ((close_ensures hc).tryCatch (hgiveUp _)).bind ?_
  rintro - t ⟨statements, results, hstatements, hproves, hresults, rfl⟩
  obtain ⟨after, hafter, hclosed, rfl⟩ := exists_closed hc statements results
  refine Ensures.mono (results_reads_of_some hafter hclosed) ?_ fun _ _ => trivial
  rintro fs t ⟨rfl, rfl⟩
  exact ⟨hproves, statements, _, hstatements, hresults, rfl⟩

end Scopes

end Entailment.Session
