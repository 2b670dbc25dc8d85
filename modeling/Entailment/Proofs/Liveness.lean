import Entailment.Proofs.Nesting

/-!
# Nothing proven outlives its assumptions

Retracting a scope lowers the flags of its assumptions, and of those facts on the scope's own record
that rest on them. This is enough if every fact that rests on an assumption of the scope is on that
record. `Accounted` says where such facts are: on the record of the scope, on that of a scope inside
it, or among what is being derived in a speculation. So a retraction does its work if nothing in the
last two places rests on an assumption of the scope (`Severable`). This holds if the scope is the
innermost one and no speculation is going on, but the session does not insist on it. What is left
over otherwise is said by `outlives_retract_iff`, and the last theorem shows two runs that leave
something over.
-/
namespace Entailment

/-- What was derived in a scope, and what is marked for export from it. -/
def Scope.onRecord (scope : Scope) : List FactId := scope.proven ++ scope.conclusions.map Fact.id

namespace Session

/-- The entry is currently an assumption. -/
def isAssumed (s : Session) (id : FactId) : Bool := (s.entry? id).any Entry.assumed

/-- Everything that an entry depends on is currently assumed. -/
def Stands (s : Session) (id : FactId) : Prop :=
  ∃ e, s.entry? id = some e ∧ ∀ a ∈ e.dependencies, s.isAssumed a = true

/-- The entry does not belong to an ongoing speculation. -/
def Settled (s : Session) (id : FactId) : Prop :=
  ∀ derived, s.speculation = some derived → id ∉ derived

/-- Every proven entry stands, and where the entries are that rest on assumptions of a scope. -/
structure Accounted (s : Session) : Prop where
  nested : s.Nested
  self : ∀ {id e}, s.entry? id = some e → e.assumed = true → e.dependencies = [id]
  proven : ∀ {id e}, s.entry? id = some e → e.proven = true → s.Stands id
  derived : ∀ {derived id}, s.speculation = some derived → id ∈ derived → s.Stands id
  onRecord : ∀ {c scope id}, c ∈ s.stack → s.scope? c = some scope → id ∈ scope.onRecord →
    s.Stands id ∧ ∀ d inner, s.Inside d c → s.scope? d = some inner → s.restsOn inner id = false
  recorded : ∀ {id e c scope}, s.entry? id = some e → e.proven = true → s.Settled id →
    c ∈ s.stack → s.scope? c = some scope → s.restsOn scope id = true →
    ∃ d inner, (d = c ∨ s.Inside d c) ∧ s.scope? d = some inner ∧ id ∈ inner.proven

/-- Whether retracting a scope reaches all that rests on its assumptions. -/
def Severable (s : Session) (c : ScopeId) (scope : Scope) : Prop :=
  (∀ d inner, s.Inside d c → s.scope? d = some inner →
    ∀ id ∈ inner.onRecord, s.restsOn scope id = false) ∧
  ∀ derived, s.speculation = some derived → ∀ id ∈ derived, s.restsOn scope id = false

/-- What the entries of `s` depend on is the same in `t`, and is still assumed if it was. -/
def Keeps (s t : Session) : Prop :=
  ∀ id e, s.entry? id = some e →
    ∃ e', t.entry? id = some e' ∧ e'.dependencies = e.dependencies ∧
      (e.assumed = true → e'.assumed = true)

section Entries
variable {s t : Session} {id a : FactId} {scope : Scope}

theorem restsOn_eq_true {e : Entry} (he : s.entry? id = some e) :
    s.restsOn scope id = true ↔ ∃ a ∈ e.dependencies, a ∈ scope.assumptions.map Fact.id := by
  simp [restsOn, dependencies, he]

theorem isAssumed_eq_true :
    s.isAssumed id = true ↔ ∃ e, s.entry? id = some e ∧ e.assumed = true := by
  rw [isAssumed, Option.any_eq_true]

theorem Keeps.isAssumed (h : Keeps s t) (hs : s.isAssumed id = true) : t.isAssumed id = true := by
  obtain ⟨e, he, hassumed⟩ := isAssumed_eq_true.mp hs
  obtain ⟨e', he', -, hkeeps⟩ := h id e he
  exact isAssumed_eq_true.mpr ⟨e', he', hkeeps hassumed⟩

theorem Stands.mono (h : s.Stands id) (hkeeps : Keeps s t) : t.Stands id := by
  obtain ⟨e, he, hdeps⟩ := h
  obtain ⟨e', he', hsame, -⟩ := hkeeps id e he
  refine ⟨e', he', fun a ha => hkeeps.isAssumed (hdeps a ?_)⟩
  rw [← hsame]
  exact ha

/-- Resting on an assumption that is new to the session is not possible for what stands already. -/
theorem Stands.restsOn {scope' : Scope} (h : s.Stands id) (hkeeps : Keeps s t)
    (hscope : ∀ a ∈ scope'.assumptions.map Fact.id,
      a ∈ scope.assumptions.map Fact.id ∨ s.entry? a = none)
    (hrests : t.restsOn scope' id = true) : s.restsOn scope id = true := by
  obtain ⟨e, he, hdeps⟩ := h
  obtain ⟨e', he', hsame, -⟩ := hkeeps id e he
  obtain ⟨a, ha, hmem⟩ := (restsOn_eq_true he').mp hrests
  rw [hsame] at ha
  refine (restsOn_eq_true he).mpr ⟨a, ha, ?_⟩
  rcases hscope a hmem with hmem | hnone
  · exact hmem
  · obtain ⟨entry, hentry, -⟩ := isAssumed_eq_true.mp (hdeps a ha)
    rw [hnone] at hentry
    cases hentry

theorem stands_of_holds (h : s.Accounted) (hid : s.holds id = true) : s.Stands id := by
  rw [Session.holds, Option.any_eq_true] at hid
  obtain ⟨e, he, hholds⟩ := hid
  rw [Entry.holds, Bool.or_eq_true] at hholds
  rcases hholds with hproven | hassumed
  · exact h.proven he hproven
  · refine ⟨e, he, fun a ha => ?_⟩
    rw [h.self he hassumed, List.mem_singleton] at ha
    rw [ha]
    exact isAssumed_eq_true.mpr ⟨e, he, hassumed⟩

end Entries

section Growth
variable {s t : Session}

/-- How the record of a scope may grow: by entries that stand, if the scope is the innermost one,
and by assumptions that are new to the session. -/
structure Extended (s t : Session) (c : ScopeId) (scope scope' : Scope) : Prop where
  onRecord : ∀ id ∈ scope'.onRecord,
    id ∈ scope.onRecord ∨ (s.stack.head? = some c ∧ t.Stands id)
  proven : ∀ id ∈ scope.proven, id ∈ scope'.proven
  assumptions : ∀ a ∈ scope'.assumptions.map Fact.id,
    a ∈ scope.assumptions.map Fact.id ∨ s.entry? a = none

theorem Extended.refl (s t : Session) (c : ScopeId) (scope : Scope) :
    Extended s t c scope scope :=
  ⟨fun _ h => .inl h, fun _ h => h, fun _ h => .inl h⟩

theorem Extended.record {c : ScopeId} {ids : List FactId} (scope : Scope)
    (hhead : s.stack.head? = some c) (hids : ∀ id ∈ ids, t.Stands id) :
    Extended s t c scope { scope with proven := scope.proven ++ ids } := by
  refine ⟨fun id hid => ?_, fun id hid => List.mem_append_left _ hid, fun _ h => .inl h⟩
  rw [Scope.onRecord, List.mem_append, List.mem_append] at hid
  rcases hid with (hold | hnew) | hconcluded
  · exact .inl (List.mem_append_left _ hold)
  · exact .inr ⟨hhead, hids id hnew⟩
  · exact .inl (List.mem_append_right _ hconcluded)

/-- A session stays accounted for if what is new stands, and is put on record in the innermost scope
or left to a speculation. -/
theorem Accounted.grown (h : s.Accounted) (hnested : t.Nested) (hstack : t.stack = s.stack)
    (hkeeps : Keeps s t)
    (hself : ∀ {id e}, t.entry? id = some e → e.assumed = true → e.dependencies = [id])
    (hproven : ∀ {id e}, t.entry? id = some e → e.proven = true → t.Stands id)
    (hderived : ∀ {derived id}, t.speculation = some derived → id ∈ derived → t.Stands id)
    (hscopes : ∀ c scope', t.scope? c = some scope' →
      ∃ scope, s.scope? c = some scope ∧ Extended s t c scope scope')
    (hrecorded : ∀ {id e}, t.entry? id = some e → e.proven = true → t.Settled id →
      (∃ e, s.entry? id = some e ∧ e.proven = true ∧ s.Settled id) ∨
      ∀ top scope, s.stack.head? = some top → t.scope? top = some scope → id ∈ scope.proven) :
    t.Accounted where
  nested := hnested
  self := hself
  proven := hproven
  derived := hderived
  onRecord := by
    intro c scope' id hc hscope' hid
    rw [hstack] at hc
    obtain ⟨scope, hscope, hextended⟩ := hscopes c scope' hscope'
    rcases hextended.onRecord id hid with hold | ⟨hhead, hstands⟩
    · obtain ⟨hstands, hclear⟩ := h.onRecord hc hscope hold
      refine ⟨hstands.mono hkeeps, fun d inner' hinside hinner' => ?_⟩
      obtain ⟨inner, hinner, hextended'⟩ := hscopes d inner' hinner'
      rw [Inside, hstack] at hinside
      by_contra hrests
      have hbefore := hstands.restsOn hkeeps hextended'.assumptions (by simpa using hrests)
      rw [hclear d inner hinside hinner] at hbefore
      cases hbefore
    · refine ⟨hstands, fun d inner hinside => ?_⟩
      rw [← hstack] at hhead
      exact absurd hinside (hnested.not_inside_head hhead)
  recorded := by
    intro id e c scope' he hproven' hsettled hc hscope' hrests
    rw [hstack] at hc
    obtain ⟨scope, hscope, hextended⟩ := hscopes c scope' hscope'
    rcases hrecorded he hproven' hsettled with ⟨e, he, hproven, hsettled⟩ | hnew
    · have hbefore := (h.proven he hproven).restsOn hkeeps hextended.assumptions hrests
      obtain ⟨d, inner, hinside, hinner, hid⟩ :=
        h.recorded he hproven hsettled hc hscope hbefore
      have hd : d ∈ s.stack := by
        rcases hinside with rfl | hinside
        · exact hc
        · exact hinside.subset (by simp)
      obtain ⟨inner', hinner'⟩ := hnested.exists_scope (hstack ▸ hd)
      obtain ⟨o, ho, hextended'⟩ := hscopes d inner' hinner'
      obtain rfl : inner = o := Option.some.inj (hinner.symm.trans ho)
      refine ⟨d, inner', ?_, hinner', hextended'.proven id hid⟩
      rw [Inside, hstack]
      exact hinside
    · obtain ⟨top, htop⟩ : ∃ top, s.stack.head? = some top := by
        cases hlist : s.stack with
        | nil =>
            rw [hlist] at hc
            cases hc
        | cons top rest => exact ⟨top, rfl⟩
      have hmem : top ∈ s.stack := List.mem_of_mem_head? htop
      obtain ⟨inner, hinner⟩ := hnested.exists_scope (hstack ▸ hmem)
      refine ⟨top, inner, ?_, hinner, hnew top inner htop hinner⟩
      rw [Inside, hstack]
      exact inside_head htop hc

end Growth

section Operations
variable {s t : Session}

theorem keeps_of_push {e : Entry} (h : t.ledger = s.ledger.push e) : Keeps s t :=
  fun _ entry hentry => ⟨entry, entry?_of_push_of_some h hentry, rfl, fun h => h⟩

theorem entry?_size (s : Session) : s.entry? ⟨s.ledger.size⟩ = none := by
  rw [Session.entry?]
  exact Array.getElem?_eq_none (Nat.le_refl _)

theorem Accounted.aside (h : s.Accounted) (ht : s.Aside t) : t.Accounted := by
  have hnested := h.nested.aside ht
  obtain ⟨_, _, _, rfl⟩ := ht
  exact ⟨hnested, h.self, h.proven, h.derived, h.onRecord, h.recorded⟩

theorem Accounted.modifyScope {g : Scope → Scope} (h : s.Accounted) (c : ScopeId)
    (hclosed : ∀ scope, (g scope).closed = scope.closed)
    (hscope : ∀ scope, Extended s (s.modifyScope c g) c scope (g scope)) :
    (s.modifyScope c g).Accounted := by
  refine h.grown (h.nested.modifyScope c hclosed) rfl ?_ h.self h.proven h.derived ?_ ?_
  · exact fun _ e he => ⟨e, he, rfl, fun h => h⟩
  · intro d scope' hd
    rw [scope?_modifyScope] at hd
    split at hd
    next hcd =>
      obtain ⟨scope, hscope', rfl⟩ := Option.map_eq_some_iff.mp hd
      exact ⟨scope, hscope', hcd ▸ hscope scope⟩
    next => exact ⟨scope', hd, .refl _ _ _ _⟩
  · exact fun he hproven hsettled => .inl ⟨_, he, hproven, hsettled⟩

theorem Accounted.concluded {c : ScopeId} {scope : Scope} {f : Fact} (h : s.Accounted)
    (hc : s.Innermost c scope) (hf : s.Proves f) : (s.concluded c f).Accounted := by
  refine h.modifyScope c (fun _ => rfl) fun scope => ?_
  refine ⟨fun id hid => ?_, fun _ h => h, fun _ h => .inl h⟩
  have hcases : id ∈ scope.onRecord ∨ id = f.id := by
    simpa [Scope.onRecord, or_assoc] using hid
  rcases hcases with hold | rfl
  · exact .inl hold
  · have hstands : s.Stands f.id := stands_of_holds h hf.holds
    exact .inr ⟨hc.2.2, hstands⟩

theorem Accounted.supposed {p : Proposition} (h : s.Accounted) (hnested : t.Nested)
    (hledger : t.ledger = (s.supposed p).ledger) (hstack : t.stack = s.stack)
    (hspeculation : t.speculation = s.speculation)
    (hscopes : ∀ c scope', t.scope? c = some scope' →
      ∃ scope, s.scope? c = some scope ∧ Extended s t c scope scope') : t.Accounted := by
  rw [supposed_ledger] at hledger
  have hkeeps : Keeps s t := keeps_of_push hledger
  have hentry : ∀ {id e}, t.entry? id = some e → e.proven = true → s.entry? id = some e := by
    intro id e he hproven
    rw [entry?_of_push hledger] at he
    split at he
    next =>
      cases he
      cases hproven
    next => exact he
  refine h.grown hnested hstack hkeeps ?_ ?_ ?_ hscopes ?_
  · intro id e he hassumed
    rw [entry?_of_push hledger] at he
    split at he
    next hid =>
      cases he
      cases id
      simpa using hid.symm
    next => exact h.self he hassumed
  · exact fun he hproven => (h.proven (hentry he hproven) hproven).mono hkeeps
  · intro derived id hderived hid
    exact (h.derived (hspeculation ▸ hderived) hid).mono hkeeps
  · intro id e he hproven hsettled
    rw [Settled, hspeculation] at hsettled
    exact .inl ⟨e, hentry he hproven, hproven, hsettled⟩

theorem Accounted.certified {d : List FactId} (h : s.Accounted) (p : Proposition)
    (i : Inference FactId) (hd : ∀ a ∈ d, s.isAssumed a = true) :
    (s.certified p i d).Accounted := by
  have hledger := certified_ledger s p i d
  have hkeeps : Keeps s (s.certified p i d) := keeps_of_push hledger
  have hnew : (s.certified p i d).Stands ⟨s.ledger.size⟩ :=
    ⟨_, (entry?_of_push hledger _).trans (if_pos rfl), fun a ha => hkeeps.isAssumed (hd a ha)⟩
  have hentry : ∀ {id e}, Session.entry? (s.certified p i d) id = some e →
      id = ⟨s.ledger.size⟩ ∨ s.entry? id = some e := by
    intro id e he
    rw [entry?_of_push hledger] at he
    split at he
    next hid =>
      cases id
      exact .inl (by simpa using hid)
    next => exact .inr he
  refine h.grown (h.nested.certified p i d) (certified_stack s p i d) hkeeps ?_ ?_ ?_ ?_ ?_
  · intro id e he hassumed
    rw [entry?_of_push hledger] at he
    split at he
    next =>
      cases he
      cases hassumed
    next => exact h.self he hassumed
  · intro id e he hproven
    rcases hentry he with rfl | hold
    · exact hnew
    · exact (h.proven hold hproven).mono hkeeps
  · intro derived id hderived hid
    rw [certified_speculation] at hderived
    obtain ⟨before, hbefore, rfl⟩ := Option.map_eq_some_iff.mp hderived
    rcases List.mem_cons.mp hid with rfl | hid
    · exact hnew
    · exact (h.derived hbefore hid).mono hkeeps
  · intro c scope' hscope'
    rw [scope?_certified] at hscope'
    obtain ⟨scope, hscope, rfl⟩ := Option.map_eq_some_iff.mp hscope'
    refine ⟨scope, hscope, ?_⟩
    split
    next hhead =>
      have hids : ∀ id ∈ [⟨s.ledger.size⟩], (s.certified p i d).Stands id := by
        intro id hid
        rw [List.mem_singleton.mp hid]
        exact hnew
      exact .record scope hhead.2 hids
    next => exact .refl _ _ _ _
  · intro id e he hproven hsettled
    rw [Settled, certified_speculation] at hsettled
    rcases hentry he with rfl | hold
    · refine .inr fun top scope htop hscope => ?_
      cases hspeculation : s.speculation with
      | none =>
          rw [scope?_certified] at hscope
          obtain ⟨before, -, rfl⟩ := Option.map_eq_some_iff.mp hscope
          simp [hspeculation, htop]
      | some derived =>
          rw [hspeculation] at hsettled
          exact absurd List.mem_cons_self (hsettled _ rfl)
    · refine .inl ⟨e, hold, hproven, fun derived hderived hid => ?_⟩
      rw [hderived] at hsettled
      exact hsettled _ rfl (List.mem_cons_of_mem _ hid)

theorem Accounted.opened (h : s.Accounted) (name : String) : (s.opened name).Accounted := by
  have hscope : ∀ {c scope}, (s.opened name).scope? c = some scope →
      scope = { name } ∨ s.scope? c = some scope := by
    intro c scope hc
    simp only [scope?, Session.opened, Array.getElem?_push] at hc
    split at hc
    next => exact .inl (Option.some.inj hc).symm
    next => exact .inr hc
  have hnew : ∀ id, Session.restsOn (s.opened name) { name } id = false := by
    intro id
    simp [restsOn, Scope.assumptions]
  have hinside : ∀ {d c}, (s.opened name).Inside d c → d = ⟨s.scopes.size⟩ ∨ s.Inside d c := by
    intro d c hdc
    exact (pair_sublist_cons.mp hdc).imp_left fun h => h.1
  have hmem : ∀ {c scope}, c ∈ (s.opened name).stack → s.scope? c = some scope → c ∈ s.stack := by
    intro c scope hc hold
    rcases List.mem_cons.mp hc with rfl | hc
    · have hnone : s.scope? ⟨s.scopes.size⟩ = none := Array.getElem?_eq_none (Nat.le_refl _)
      rw [hnone] at hold
      cases hold
    · exact hc
  refine ⟨h.nested.opened name, h.self, h.proven, h.derived, ?_, ?_⟩
  · intro c scope id hc hsc hid
    rcases hscope hsc with rfl | hold
    · simp [Scope.onRecord] at hid
    · obtain ⟨hstands, hclear⟩ := h.onRecord (hmem hc hold) hold hid
      refine ⟨hstands, fun d inner hdc hinner => ?_⟩
      rcases hscope hinner with rfl | hinner
      · exact hnew id
      · rcases hinside hdc with rfl | hdc
        · have hnone : s.scope? ⟨s.scopes.size⟩ = none := Array.getElem?_eq_none (Nat.le_refl _)
          rw [hnone] at hinner
          cases hinner
        · exact hclear d inner hdc hinner
  · intro id e c scope he hproven hsettled hc hsc hrests
    rcases hscope hsc with rfl | hold
    · rw [hnew] at hrests
      cases hrests
    · obtain ⟨d, inner, hdc, hinner, hid⟩ :=
        h.recorded he hproven hsettled (hmem hc hold) hold hrests
      have hlt : d.index < s.scopes.size := (Array.getElem?_eq_some_iff.mp hinner).choose
      refine ⟨d, inner, ?_, ?_, hid⟩
      · exact hdc.imp_right fun h => h.cons _
      · simp only [scope?, Session.opened, Array.getElem?_push, if_neg (Nat.ne_of_lt hlt)]
        exact hinner

theorem Accounted.speculating (h : s.Accounted) (hnone : s.speculation = none) :
    Accounted { s with speculation := some [] } := by
  refine h.grown ⟨h.nested.nodup, h.nested.mem_stack⟩ rfl ?_ h.self h.proven ?_ ?_ ?_
  · exact fun _ e he => ⟨e, he, rfl, fun h => h⟩
  · intro derived id hderived hid
    cases hderived
    cases hid
  · exact fun c scope hscope => ⟨scope, hscope, .refl _ _ _ _⟩
  · intro id e he hproven _
    refine .inl ⟨e, he, hproven, fun derived hderived => ?_⟩
    rw [hnone] at hderived
    cases hderived

section Settle
variable {derived : List FactId}

/-- Settling a speculation withdraws what it derived and does not need, and nothing else. -/
theorem entry_of_settled {keep : List FactId} {id : FactId} {e : Entry}
    (hspeculation : s.speculation = some derived)
    (he : Session.entry? (s.settled keep) id = some e) :
    ∃ before, s.entry? id = some before ∧ e.dependencies = before.dependencies ∧
      e.assumed = before.assumed ∧ (e.proven = true → before.proven = true ∧
        (id ∈ derived → id ∈ s.supporting keep derived)) := by
  rw [entry?_settled keep hspeculation] at he
  obtain ⟨before, hbefore, rfl⟩ := Option.map_eq_some_iff.mp he
  refine ⟨before, hbefore, ?_⟩
  split
  next => exact ⟨rfl, rfl, fun h => by cases h⟩
  next hneeded =>
    refine ⟨rfl, rfl, fun hproven => ⟨hproven, fun hid => ?_⟩⟩
    by_contra hnot
    exact hneeded ⟨hid, hnot⟩

theorem keeps_settled (keep : List FactId) (hspeculation : s.speculation = some derived) :
    Keeps s (s.settled keep) := by
  intro id e he
  refine ⟨_, (entry?_settled keep hspeculation id).trans (by rw [he, Option.map_some]), ?_⟩
  split
  next => exact ⟨rfl, fun h => h⟩
  next => exact ⟨rfl, fun h => h⟩

theorem Accounted.settled (h : s.Accounted) (keep : List FactId) : (s.settled keep).Accounted := by
  cases hspeculation : s.speculation with
  | none =>
      rw [settled_of_none keep hspeculation]
      exact h
  | some derived =>
      have hkeeps := keeps_settled keep hspeculation
      refine h.grown (h.nested.settled keep) (settled_stack s keep) hkeeps ?_ ?_ ?_ ?_ ?_
      · intro id e he hassumed
        obtain ⟨before, hbefore, hdeps, hsame, -⟩ := entry_of_settled hspeculation he
        rw [hdeps]
        exact h.self hbefore (hsame ▸ hassumed)
      · intro id e he hproven
        obtain ⟨before, hbefore, -, -, hwas⟩ := entry_of_settled hspeculation he
        exact (h.proven hbefore (hwas hproven).1).mono hkeeps
      · intro derived' id hderived'
        rw [settled_speculation] at hderived'
        cases hderived'
      · intro c scope' hscope'
        rw [scope?_settled keep hspeculation] at hscope'
        obtain ⟨scope, hscope, rfl⟩ := Option.map_eq_some_iff.mp hscope'
        refine ⟨scope, hscope, ?_⟩
        split
        next hhead =>
          have hids : ∀ id ∈ s.keptBy keep derived, (s.settled keep).Stands id := by
            intro id hid
            have hderived : id ∈ derived := List.mem_reverse.mp (List.mem_of_mem_filter hid)
            exact (h.derived hspeculation hderived).mono hkeeps
          exact .record scope hhead hids
        next => exact .refl _ _ _ _
      · intro id e he hproven _
        obtain ⟨before, hbefore, -, -, hwas⟩ := entry_of_settled hspeculation he
        obtain ⟨hproven, hneeded⟩ := hwas hproven
        by_cases hid : id ∈ derived
        · refine .inr fun top scope htop hscope => ?_
          rw [scope?_settled keep hspeculation] at hscope
          obtain ⟨o, -, rfl⟩ := Option.map_eq_some_iff.mp hscope
          have hkept : id ∈ s.keptBy keep derived := by
            rw [keptBy, List.mem_filter, List.mem_reverse]
            exact ⟨hid, by simp [hneeded hid, hbefore]⟩
          rw [if_pos htop]
          exact List.mem_append_right _ hkept
        · refine .inl ⟨before, hbefore, hproven, fun derived' hderived' => ?_⟩
          rw [hspeculation] at hderived'
          cases hderived'
          exact hid

end Settle

end Operations

section Retraction
variable {s : Session} {c : ScopeId} {scope : Scope} {id : FactId}

theorem dependencies_retract (hscope : s.scope? c = some scope) (id : FactId) :
    (s.retract c).dependencies id = s.dependencies id := by
  rw [dependencies, entry?_retract hscope, Option.map_map]
  rfl

/-- The records of the other scopes stay, and what does not rest on the retracted scope is handed to
the scope directly around it. -/
theorem onRecord_retract {d : ScopeId} {o' : Scope} (hscope : s.scope? c = some scope)
    (hd : (s.retract c).scope? d = some o') :
    ∃ o, s.scope? d = some o ∧ o'.assumptions = o.assumptions ∧
      (∀ id, id ∈ o'.proven ↔ id ∈ o.proven ∨
        enclosing? c s.stack = some d ∧ id ∈ scope.proven ∧ s.restsOn scope id = false) ∧
      ∀ id, id ∈ o'.onRecord ↔ id ∈ o.onRecord ∨
        enclosing? c s.stack = some d ∧ id ∈ scope.proven ∧ s.restsOn scope id = false := by
  rw [scope?_retract hscope] at hd
  obtain ⟨o, ho, rfl⟩ := Option.map_eq_some_iff.mp hd
  have hproven : ∀ id, id ∈ (if enclosing? c s.stack = some d then
      o.proven ++ scope.proven.filter fun id => !s.restsOn scope id else o.proven) ↔
      id ∈ o.proven ∨
        enclosing? c s.stack = some d ∧ id ∈ scope.proven ∧ s.restsOn scope id = false := by
    intro id
    by_cases henclosing : enclosing? c s.stack = some d
    · simp [henclosing]
    · simp [henclosing]
  refine ⟨o, ho, rfl, hproven, fun id => ?_⟩
  rw [Scope.onRecord, Scope.onRecord, List.mem_append, List.mem_append, hproven]
  exact or_right_comm

theorem restsOn_retract {o o' : Scope} (hscope : s.scope? c = some scope)
    (ho : o'.assumptions = o.assumptions) (id : FactId) :
    (s.retract c).restsOn o' id = s.restsOn o id := by
  rw [restsOn, restsOn, dependencies_retract hscope, ho]

theorem isAssumed_retract {a : FactId} (hscope : s.scope? c = some scope)
    (ha : s.isAssumed a = true) (hnot : a ∉ scope.assumptions.map Fact.id) :
    (s.retract c).isAssumed a = true := by
  obtain ⟨e, he, hassumed⟩ := isAssumed_eq_true.mp ha
  refine isAssumed_eq_true.mpr ⟨s.retracted scope a e, ?_, ?_⟩
  · rw [entry?_retract hscope, he, Option.map_some]
  · rw [retracted, hassumed, Bool.true_and]
    exact decide_eq_true hnot

theorem Stands.retract (h : s.Stands id) (hscope : s.scope? c = some scope)
    (hrests : s.restsOn scope id = false) : (s.retract c).Stands id := by
  obtain ⟨e, he, hdeps⟩ := h
  refine ⟨s.retracted scope id e, by rw [entry?_retract hscope, he, Option.map_some], ?_⟩
  intro a ha
  refine isAssumed_retract hscope (hdeps a ha) fun hmem => ?_
  rw [(restsOn_eq_true he).mpr ⟨a, ha, hmem⟩] at hrests
  cases hrests

/-- What is proven after a retraction does not rest on the retracted scope. -/
theorem Accounted.restsOn_eq_false {e : Entry} (h : s.Accounted) (hscope : s.scope? c = some scope)
    (hopen : scope.closed = false) (hseverable : s.Severable c scope) (he : s.entry? id = some e)
    (hproven : (s.retracted scope id e).proven = true) : s.restsOn scope id = false := by
  rw [retracted, Bool.and_eq_true] at hproven
  obtain ⟨hproven, hkept⟩ := hproven
  by_contra hrests
  rw [Bool.not_eq_false] at hrests
  by_cases hsettled : s.Settled id
  · obtain ⟨d, inner, hinside, hinner, hid⟩ :=
      h.recorded he hproven hsettled (h.nested.of_open hscope hopen) hscope hrests
    rcases hinside with rfl | hinside
    · obtain rfl : scope = inner := Option.some.inj (hscope.symm.trans hinner)
      simp [hid, hrests] at hkept
    · have hrecord : id ∈ inner.onRecord := List.mem_append_left _ hid
      rw [hseverable.1 d inner hinside hinner id hrecord] at hrests
      cases hrests
  · rw [Settled] at hsettled
    push Not at hsettled
    obtain ⟨derived, hderived, hid⟩ := hsettled
    rw [hseverable.2 derived hderived id hid] at hrests
    cases hrests

/-- What stays on record after a retraction still stands, and still rests on no scope further in. -/
theorem Accounted.onRecord_of_retract {b : ScopeId} {o' : Scope} (h : s.Accounted)
    (hscope : s.scope? c = some scope) (hopen : scope.closed = false)
    (hseverable : s.Severable c scope) (hb : b ∈ (s.retract c).stack)
    (ho' : (s.retract c).scope? b = some o') (hid : id ∈ o'.onRecord) :
    (s.retract c).Stands id ∧ ∀ d inner', (s.retract c).Inside d b →
      (s.retract c).scope? d = some inner' → (s.retract c).restsOn inner' id = false := by
  have hc : c ∈ s.stack := h.nested.of_open hscope hopen
  obtain ⟨hbc, hb⟩ := (h.nested.mem_stack_retract hscope).mp hb
  obtain ⟨o, ho, -, -, hrecord⟩ := onRecord_retract hscope ho'
  rcases (hrecord id).mp hid with hid | ⟨henclosing, hid, hrests⟩
  · obtain ⟨hstands, hclear⟩ := h.onRecord hb ho hid
    have hrests : s.restsOn scope id = false := by
      rcases pair_sublist_or hb hc hbc with hinside | houtside
      · exact hseverable.1 b o hinside ho id hid
      · exact hclear c scope houtside hscope
    refine ⟨hstands.retract hscope hrests, fun d inner' hdb hinner' => ?_⟩
    obtain ⟨inner, hinner, hassumptions, -⟩ := onRecord_retract hscope hinner'
    rw [restsOn_retract hscope hassumptions]
    exact hclear d inner ((h.nested.inside_retract hscope).mp hdb).1 hinner
  · have hrecord : id ∈ scope.onRecord := List.mem_append_left _ hid
    obtain ⟨hstands, hclear⟩ := h.onRecord hc hscope hrecord
    refine ⟨hstands.retract hscope hrests, fun d inner' hdb hinner' => ?_⟩
    obtain ⟨inner, hinner, hassumptions, -⟩ := onRecord_retract hscope hinner'
    obtain ⟨hdb, hdc, -⟩ := (h.nested.inside_retract hscope).mp hdb
    rw [restsOn_retract hscope hassumptions]
    exact hclear d inner (pair_sublist_of_enclosing? h.nested.nodup henclosing hdb hdc) hinner

theorem Nested.scope_retract {b d : ScopeId} (h : s.Nested) (hscope : s.scope? c = some scope)
    (hb : b ∈ s.stack) (hbc : b ≠ c) (hdc : d ≠ c) (hdb : d = b ∨ s.Inside d b) :
    ∃ inner', (d = b ∨ (s.retract c).Inside d b) ∧ (s.retract c).scope? d = some inner' := by
  have hd : d ∈ s.stack := by
    rcases hdb with rfl | hdb
    · exact hb
    · exact hdb.subset (by simp)
  have hstays : d ∈ (s.retract c).stack := (h.mem_stack_retract hscope).mpr ⟨hdc, hd⟩
  obtain ⟨inner', hinner'⟩ := (h.retract hscope).exists_scope hstays
  have hinside : d = b ∨ (s.retract c).Inside d b :=
    hdb.imp_right fun hdb => (h.inside_retract hscope).mpr ⟨hdb, hdc, hbc⟩
  exact ⟨inner', hinside, hinner'⟩

/-- What rests on a remaining scope is on record in it or further in, perhaps because the retracted
scope has handed it on. -/
theorem Accounted.recorded_of_retract {b : ScopeId} {e : Entry} {o : Scope} (h : s.Accounted)
    (hscope : s.scope? c = some scope) (he : s.entry? id = some e) (hproven : e.proven = true)
    (hsettled : s.Settled id) (hb : b ∈ s.stack) (hbc : b ≠ c) (ho : s.scope? b = some o)
    (hrests : s.restsOn o id = true) (hfree : s.restsOn scope id = false) :
    ∃ d inner', (d = b ∨ (s.retract c).Inside d b) ∧ (s.retract c).scope? d = some inner' ∧
      id ∈ inner'.proven := by
  obtain ⟨d, inner, hdb, hinner, hid⟩ := h.recorded he hproven hsettled hb ho hrests
  by_cases hdc : d = c
  · subst hdc
    obtain rfl : scope = inner := Option.some.inj (hscope.symm.trans hinner)
    obtain ⟨outer, houter, hob⟩ := enclosing?_of_pair (hdb.resolve_left (Ne.symm hbc))
    have hne : outer ≠ d := by
      rintro rfl
      exact absurd (h.nested.nodup.sublist (pair_of_enclosing? houter)) (by simp)
    obtain ⟨outer', hinside', houter'⟩ := h.nested.scope_retract hscope hb hbc hne hob
    obtain ⟨_, _, -, hmoved, -⟩ := onRecord_retract hscope houter'
    exact ⟨outer, outer', hinside', houter', (hmoved id).mpr (.inr ⟨houter, hid, hfree⟩)⟩
  · obtain ⟨inner', hinside', hinner'⟩ := h.nested.scope_retract hscope hb hbc hdc hdb
    obtain ⟨before, hbefore, -, hstill, -⟩ := onRecord_retract hscope hinner'
    obtain rfl : inner = before := Option.some.inj (hinner.symm.trans hbefore)
    exact ⟨d, inner', hinside', hinner', (hstill id).mpr (.inl hid)⟩

theorem Accounted.retract (h : s.Accounted) (hscope : s.scope? c = some scope)
    (hopen : scope.closed = false) (hseverable : s.Severable c scope) :
    (s.retract c).Accounted := by
  have hbefore : ∀ {id e}, Session.entry? (s.retract c) id = some e →
      ∃ before, s.entry? id = some before ∧ e = s.retracted scope id before := by
    intro id e he
    rw [entry?_retract hscope] at he
    obtain ⟨before, hentry, rfl⟩ := Option.map_eq_some_iff.mp he
    exact ⟨before, hentry, rfl⟩
  have hwas : ∀ {id e}, (s.retracted scope id e).proven = true → e.proven = true := by
    intro id e hproven
    rw [retracted, Bool.and_eq_true] at hproven
    exact hproven.1
  refine ⟨h.nested.retract hscope, ?_, ?_, ?_, ?_, ?_⟩
  · intro id e he hassumed
    obtain ⟨before, hentry, rfl⟩ := hbefore he
    rw [retracted, Bool.and_eq_true] at hassumed
    change before.dependencies = [id]
    exact h.self hentry hassumed.1
  · intro id e he hproven
    obtain ⟨before, hentry, rfl⟩ := hbefore he
    have hfree := h.restsOn_eq_false hscope hopen hseverable hentry hproven
    exact (h.proven hentry (hwas hproven)).retract hscope hfree
  · intro derived id hderived hid
    rw [retract_speculation hscope] at hderived
    exact (h.derived hderived hid).retract hscope (hseverable.2 derived hderived id hid)
  · intro b o' id hb ho' hid
    exact h.onRecord_of_retract hscope hopen hseverable hb ho' hid
  · intro id e b o' he hproven hsettled hb ho' hrests
    obtain ⟨before, hentry, rfl⟩ := hbefore he
    obtain ⟨hbc, hb⟩ := (h.nested.mem_stack_retract hscope).mp hb
    obtain ⟨o, ho, hassumptions, -⟩ := onRecord_retract hscope ho'
    rw [restsOn_retract hscope hassumptions] at hrests
    rw [Settled, retract_speculation hscope] at hsettled
    exact h.recorded_of_retract hscope hentry (hwas hproven) hsettled hb hbc ho hrests
      (h.restsOn_eq_false hscope hopen hseverable hentry hproven)

end Retraction

section Runs
variable {s t : Session}

theorem Stands.isAssumed {id : FactId} (h : s.Stands id) :
    ∀ a ∈ s.dependencies id, s.isAssumed a = true := by
  obtain ⟨e, he, hdeps⟩ := h
  exact fun a ha => hdeps a ((mem_dependencies he).mp ha)

theorem Accounted.union {premises : List Fact} (h : s.Accounted)
    (hpremises : ∀ f ∈ premises, s.Proves f) :
    ∀ a ∈ s.union (premises.map Fact.id), s.isAssumed a = true := by
  intro a ha
  obtain ⟨id, hid, ha⟩ := mem_union.mp ha
  obtain ⟨f, hf, rfl⟩ := List.mem_map.mp hid
  exact (stands_of_holds h (hpremises f hf).holds).isAssumed a ha

/-- Whatever may be entered as proven depends on current assumptions only. -/
theorem Accounted.derives {p : Proposition} {i : Inference FactId} {d : List FactId}
    (h : s.Accounted) (hd : s.Derives p i d) : ∀ a ∈ d, s.isAssumed a = true := by
  cases hd with
  | plain _ hpremises _ => exact h.union hpremises
  | @followedFrom f first rest hf _ =>
      intro a ha
      have hpremises : ∀ g ∈ [f], s.Proves g := by
        intro g hg
        rw [List.mem_singleton.mp hg]
        exact hf
      exact h.union hpremises a (List.mem_of_mem_filter ha)
  | assumptionsCannotAllHold _ _ _ => simp

theorem Accounted.extended {R : Rule → Prop} (h : s.Accounted) (ht : Extends R s t) :
    t.Accounted := by
  induction ht with
  | refl => exact h
  | aside fresh warnings order _ ih => exact ih.aside ⟨fresh, warnings, order, rfl⟩
  | certify _ hd _ ih => exact ih.certified _ _ (ih.derives hd)

theorem Accounted.exported {c : ScopeId} {scope : Scope} {statements : List (Fact × Proposition)}
    (h : s.Accounted)
    (hstatements : ∀ x ∈ statements, ∃ e, s.entry? x.1.id = some e ∧
      ∀ a ∈ e.dependencies, a ∉ scope.assumptions.map Fact.id → s.isAssumed a = true) :
    (exported c scope s statements).Accounted := by
  induction statements generalizing s with
  | nil => exact h
  | cons x statements ih =>
      obtain ⟨f, p⟩ := x
      rw [Session.exported]
      refine ih (h.certified _ _ fun a ha => ?_) fun y hy => ?_
      · obtain ⟨e, he, hdeps⟩ := hstatements (f, p) List.mem_cons_self
        obtain ⟨ha, hnot⟩ := List.mem_filter.mp ha
        exact hdeps a ((mem_dependencies he).mp ha) (by simpa using hnot)
      · obtain ⟨e, he, hdeps⟩ := hstatements y (List.mem_cons_of_mem _ hy)
        refine ⟨e, entry?_of_push_of_some (certified_ledger _ _ _ _) he, fun a ha hnot => ?_⟩
        exact (keeps_of_push (certified_ledger _ _ _ _)).isAssumed (hdeps a ha hnot)

theorem mem_onRecord_of_mem_targets {scope : Scope} {f : Fact} (h : f ∈ s.targets scope) :
    f.id ∈ scope.onRecord := by
  unfold targets at h
  rw [Scope.onRecord, List.mem_append]
  split at h
  next =>
    rw [Option.mem_toList] at h
    obtain ⟨id, hid, hf⟩ := Option.bind_eq_some_iff.mp h
    obtain ⟨e, -, rfl⟩ := Option.map_eq_some_iff.mp hf
    exact .inl (List.mem_of_getLast? hid)
  next => exact .inr (List.mem_map_of_mem h)

theorem Accounted.closed {c : ScopeId} {scope : Scope} {statements : List (Fact × Proposition)}
    {results : List Fact} (h : s.Accounted) (hc : s.Innermost c scope)
    (hseverable : s.Severable c scope)
    (hstatements : List.Forall₂ (Restates scope) (s.targets scope) statements) :
    ((Session.exported c scope (s.retract c) statements).modifyScope c
      ({ · with results })).Accounted := by
  have hexported : (Session.exported c scope (s.retract c) statements).Accounted := by
    refine (h.retract hc.1 hc.2.1 hseverable).exported fun x hx => ?_
    have hstack : c ∈ s.stack := h.nested.of_open hc.1 hc.2.1
    have hrecord : x.1.id ∈ scope.onRecord :=
      mem_onRecord_of_mem_targets (restates_of_mem hstatements hx).1
    obtain ⟨⟨e, he, hdeps⟩, -⟩ := h.onRecord hstack hc.1 hrecord
    refine ⟨s.retracted scope x.1.id e, ?_, fun a ha hnot => ?_⟩
    · rw [entry?_retract hc.1, he, Option.map_some]
    · exact isAssumed_retract hc.1 (hdeps a ha) hnot
  exact hexported.modifyScope c (fun _ => rfl) fun _ =>
    ⟨fun _ h => .inl h, fun _ h => h, fun _ h => .inl h⟩

/-- The scope that a call retracts, if it succeeds. -/
def Call.Retracts (s : Session) (call : Call) (c : ScopeId) : Prop :=
  (call = .close c ∧ s.stack.head? = some c) ∨ call = .discard c

/-- Whatever is retracted by a call can be severed from the rest. -/
def Call.Orderly (s : Session) (call : Call) : Prop :=
  ∀ c scope, call.Retracts s c → s.scope? c = some scope → scope.closed = false →
    s.Severable c scope

/-- Every call of a run is orderly when it is made. -/
def OrderlyRun (s : Session) : List Call → Prop
  | [] => True
  | call :: calls => call.Orderly s ∧ OrderlyRun (call.apply s) calls

theorem Accounted.initial : Accounted {} := by
  refine ⟨.initial, ?_, ?_, ?_, ?_, ?_⟩
  all_goals simp [Session.entry?]

/-- Nothing is out of reach when the innermost scope is retracted outside of speculations. -/
theorem Nested.severable {c : ScopeId} {scope : Scope} (h : s.Nested)
    (hc : s.stack.head? = some c) (hnone : s.speculation = none) : s.Severable c scope := by
  refine ⟨fun d inner hinside => absurd hinside (h.not_inside_head hc), fun derived hderived => ?_⟩
  rw [hnone] at hderived
  cases hderived

theorem Accounted.call {call : Call} (h : s.Accounted) (horderly : call.Orderly s) :
    (call.apply s).Accounted := by
  have hchange := call.change s
  generalize call.apply s = t at hchange
  cases hchange with
  | aside ht => exact h.aside ht
  | tactic ht => exact h.extended ht
  | postulate => exact h.certified _ _ (by simp)
  | @suppose p _ =>
      refine h.supposed (p := p) (h.nested.supposed p) rfl (supposed_stack s p)
        (supposed_speculation s p) ?_
      intro c scope hscope
      rw [scope?, supposed_scopes] at hscope
      exact ⟨scope, hscope, .refl _ _ _ _⟩
  | @assumeIn _ c scope p _ _ =>
      refine h.supposed (p := p) ((h.nested.supposed p).modifyScope c fun _ => rfl) rfl
        (supposed_stack s p) (supposed_speculation s p) ?_
      intro d scope' hscope'
      rw [noted, scope?_modifyScope, scope?, supposed_scopes] at hscope'
      split at hscope'
      next =>
        obtain ⟨before, hbefore, rfl⟩ := Option.map_eq_some_iff.mp hscope'
        refine ⟨before, hbefore, fun _ h => .inl h, fun _ h => h, fun a ha => ?_⟩
        have hcases : a ∈ before.assumptions.map Fact.id ∨ a = (s.nextFact p).id := by
          simpa [Scope.assumptions, or_comm, eq_comm] using ha
        rcases hcases with hold | rfl
        · exact .inl hold
        · exact .inr (entry?_size s)
      next => exact ⟨scope', hscope', .refl _ _ _ _⟩
  | openScope => exact h.opened _
  | introduce _ ht hc =>
      refine (h.aside ht).modifyScope _ (fun _ => rfl) fun scope => ?_
      refine ⟨fun _ h => .inl h, fun _ h => h, fun a ha => .inl ?_⟩
      simpa [Scope.assumptions] using ha
  | conclude hc hf => exact h.concluded hc hf
  | close hc hstatements =>
      exact h.closed hc (horderly _ _ (.inl ⟨rfl, hc.2.2⟩) hc.1 hc.2.1) hstatements
  | discard hscope hopen =>
      exact h.retract hscope hopen (horderly _ _ (.inr rfl) hscope hopen)
  | speculateFrom hnone => exact h.speculating hnone
  | settle => exact h.settled _

theorem Accounted.run (h : s.Accounted) (calls : List Call) (hcalls : OrderlyRun s calls) :
    (run s calls).Accounted := by
  induction calls generalizing s with
  | nil => exact h
  | cons call calls ih => exact ih (h.call hcalls.1) hcalls.2

end Runs

/-- After an orderly run, whatever counts as proven depends on current assumptions only. -/
theorem isAssumed_of_holds (calls : List Call) (hcalls : OrderlyRun {} calls) (id : FactId)
    (hholds : (run {} calls).holds id = true) :
    ∀ a ∈ (run {} calls).dependencies id, (run {} calls).isAssumed a = true :=
  (stands_of_holds (Accounted.initial.run calls hcalls) hholds).isAssumed

/-- Assumes `Q`, and `P` inside a scope, which then establishes `P → Q ∧ P`. -/
def conjoiningRun : List Call :=
  [.assume (.relation "Q" []), .openScope "inner", .assumeIn ⟨0⟩ (.relation "P" []),
    .tactic (.conjoin [some (.relation "Q" [] (some ⟨0⟩)), some (.relation "P" [] (some ⟨1⟩))]),
    .close ⟨0⟩]

theorem isAssumed_of_holds_conjoiningRun :
    (run {} conjoiningRun).holds ⟨3⟩ = true ∧ ⟨0⟩ ∈ (run {} conjoiningRun).dependencies ⟨3⟩ ∧
      (run {} conjoiningRun).isAssumed ⟨0⟩ = true := by
  have hdepends : ⟨0⟩ ∈ (run {} conjoiningRun).dependencies ⟨3⟩ := by decide
  have horderly : ∀ (s : Session) (call : Call), (∀ c, ¬call.Retracts s c) → call.Orderly s :=
    fun s call hnot c scope hretracts => absurd hretracts (hnot c)
  refine ⟨by decide, hdepends, isAssumed_of_holds conjoiningRun ?_ ⟨3⟩ (by decide) ⟨0⟩ hdepends⟩
  refine ⟨horderly _ _ ?_, horderly _ _ ?_, horderly _ _ ?_, horderly _ _ ?_, ?_, trivial⟩
  iterate 4 simp [Call.Retracts]
  rintro c scope (⟨hclose, hhead⟩ | hdiscard) - -
  · exact (Nested.initial.run (conjoiningRun.take 4)).severable hhead rfl
  · cases hdiscard

/-- The entry counts as proven, outside of speculations, and depends on what is not assumed. -/
def Outlives (s : Session) (id a : FactId) : Prop :=
  s.speculation = none ∧ s.holds id = true ∧ a ∈ s.dependencies id ∧ s.isAssumed a = false

/-- What outlives a retraction is exactly what was proven, rests on the retracted scope and is not
on its record. -/
theorem outlives_retract_iff {s : Session} {c : ScopeId} {scope : Scope} (h : s.Accounted)
    (hnone : s.speculation = none) (hscope : s.scope? c = some scope) (id : FactId) :
    (∃ a, (s.retract c).Outlives id a) ↔
      ∃ e, s.entry? id = some e ∧ e.proven = true ∧ s.restsOn scope id = true ∧
        id ∉ scope.proven := by
  constructor
  · rintro ⟨a, -, hholds, hdepends, hgone⟩
    rw [Session.holds, Option.any_eq_true] at hholds
    obtain ⟨e', he', hholds⟩ := hholds
    rw [entry?_retract hscope] at he'
    obtain ⟨e, he, rfl⟩ := Option.map_eq_some_iff.mp he'
    rw [dependencies_retract hscope, mem_dependencies he] at hdepends
    have hassumption : s.isAssumed a = true → a ∈ scope.assumptions.map Fact.id := by
      intro ha
      by_contra hnot
      rw [isAssumed_retract hscope ha hnot] at hgone
      cases hgone
    rw [Entry.holds, Bool.or_eq_true, retracted, Bool.and_eq_true, Bool.and_eq_true] at hholds
    rcases hholds with ⟨hproven, hkept⟩ | ⟨hassumed, hnot⟩
    · obtain ⟨_, hsame, hdeps⟩ := h.proven he hproven
      obtain rfl := Option.some.inj (he.symm.trans hsame)
      have hrests : s.restsOn scope id = true :=
        (restsOn_eq_true he).mpr ⟨a, hdepends, hassumption (hdeps a hdepends)⟩
      refine ⟨e, he, hproven, hrests, fun hrecord => ?_⟩
      simp [hrecord, hrests] at hkept
    · rw [h.self he hassumed, List.mem_singleton] at hdepends
      subst hdepends
      have hmem := hassumption (isAssumed_eq_true.mpr ⟨e, he, hassumed⟩)
      exact absurd hmem (of_decide_eq_true hnot)
  · rintro ⟨e, he, hproven, hrests, hrecord⟩
    obtain ⟨a, ha, hmem⟩ := (restsOn_eq_true he).mp hrests
    refine ⟨a, ?_, ?_, ?_, ?_⟩
    · rw [retract_speculation hscope, hnone]
    · rw [Session.holds, entry?_retract hscope, he, Option.map_some, Option.any_some, Entry.holds,
        retracted, hproven]
      simp [hrecord]
    · rw [dependencies_retract hscope]
      exact (mem_dependencies he).mpr ha
    · rw [isAssumed, entry?_retract hscope]
      cases s.entry? a with
      | none => rfl
      | some entry => simp [retracted, hmem]

/-- Discards a scope with another scope inside, in which something was derived from the
assumption. -/
def discardingRun : List Call :=
  [.openScope "outer", .assumeIn ⟨0⟩ (.relation "P" []), .openScope "inner",
    .tactic (.disjoin (some (.relation "P" [] (some ⟨0⟩))) [some (.relation "Q" [])]),
    .discard ⟨0⟩]

/-- Closes a scope in a speculation, and keeps the result. -/
def speculatingRun : List Call :=
  [.speculateFrom, .openScope "inner", .assumeIn ⟨0⟩ (.relation "P" []),
    .tactic (.disjoin (some (.relation "P" [] (some ⟨0⟩))) [some (.relation "Q" [])]),
    .conclude ⟨0⟩ (some (.junction .or [.relation "P" [], .relation "Q" []] (some ⟨1⟩))),
    .close ⟨0⟩, .settle [⟨2⟩]]

/-- In both runs, `P ∨ Q` outlives the assumption `P`. -/
theorem consequence_outlives_assumption :
    Outlives (run {} discardingRun) ⟨1⟩ ⟨0⟩ ∧ Outlives (run {} speculatingRun) ⟨1⟩ ⟨0⟩ := by
  unfold Outlives
  decide

end Session

end Entailment
