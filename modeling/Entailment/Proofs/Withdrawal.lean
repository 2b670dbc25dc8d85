import Entailment.Proofs.Deduction

/-!
# Withdrawing what was entered

Two operations change entries after the fact: retracting a scope, and settling a speculation. Both
only lower flags. The theorems here say exactly which ones, and what happens to the records that
scopes keep, so that no later proof looks inside the loops that do it.
-/
namespace Entailment.Session

theorem entry?_modifyEntry (s : Session) (id id' : FactId) (g : Entry → Entry) :
    Session.entry? (s.modifyEntry id g) id' =
      (s.entry? id').map fun e => if id = id' then g e else e := by
  have hid : id.index = id'.index ↔ id = id' := by
    cases id; cases id'; simp
  simp only [Session.entry?, modifyEntry, Array.getElem?_modify, hid]
  by_cases h : id = id' <;> simp [h]

/-- The same modification of several entries. -/
def modifyEntries (s : Session) (ids : List FactId) (g : Entry → Entry) : Session :=
  ids.foldl (fun s id => s.modifyEntry id g) s

/-- Modifying many entries, some of them perhaps repeatedly, in a way where once is enough. -/
theorem entry?_modifyEntries (s : Session) (ids : List FactId) (id : FactId)
    {g : Entry → Entry} (hg : ∀ e, g (g e) = g e) :
    Session.entry? (s.modifyEntries ids g) id =
      (s.entry? id).map fun e => if id ∈ ids then g e else e := by
  unfold modifyEntries
  induction ids generalizing s with
  | nil => simp
  | cons first ids ih =>
      rw [List.foldl_cons, ih, entry?_modifyEntry, Option.map_map]
      congr 1
      funext e
      by_cases h : first = id
      · subst h
        by_cases hm : first ∈ ids <;> simp [hm, hg]
      · have h' : id ≠ first := fun he => h he.symm
        simp [h, h']

theorem modifyEntries_frame (s : Session) (ids : List FactId) (g : Entry → Entry) :
    (s.modifyEntries ids g).scopes = s.scopes ∧ (s.modifyEntries ids g).stack = s.stack ∧
      (s.modifyEntries ids g).speculation = s.speculation := by
  unfold modifyEntries
  induction ids generalizing s with
  | nil => exact ⟨rfl, rfl, rfl⟩
  | cons first ids ih => exact ih (s.modifyEntry first g)

/-- Whether an entry depends on an assumption of a scope. -/
def restsOn (s : Session) (scope : Scope) (id : FactId) : Bool :=
  (s.dependencies id).any (· ∈ scope.assumptions.map Fact.id)

/-- What retracting a scope leaves of an entry. -/
def retracted (s : Session) (scope : Scope) (id : FactId) (e : Entry) : Entry :=
  { e with
    assumed := e.assumed && decide (id ∉ scope.assumptions.map Fact.id)
    proven := e.proven && !(decide (id ∈ scope.proven) && s.restsOn scope id) }

section Retract
variable {s : Session} {c : ScopeId} {scope : Scope}

/-- The session with the flags lowered that retracting a scope lowers. -/
def lowered (s : Session) (scope : Scope) : Session :=
  (s.modifyEntries (scope.assumptions.map Fact.id) ({ · with assumed := false })).modifyEntries
    (scope.proven.filter (s.restsOn scope)) ({ · with proven := false })

theorem entry?_lowered (s : Session) (scope : Scope) (id : FactId) :
    Session.entry? (s.lowered scope) id = (s.entry? id).map (s.retracted scope id) := by
  unfold lowered
  rw [entry?_modifyEntries, entry?_modifyEntries, Option.map_map]
  · congr 1
    funext e
    unfold retracted
    by_cases ha : id ∈ scope.assumptions.map Fact.id <;>
      by_cases hp : id ∈ scope.proven <;>
      cases hr : s.restsOn scope id <;> simp [ha, hp, hr]
  · intro e
    rfl
  · intro e
    rfl

theorem lowered_frame (s : Session) (scope : Scope) :
    (s.lowered scope).scopes = s.scopes ∧ (s.lowered scope).stack = s.stack ∧
      (s.lowered scope).speculation = s.speculation := by
  have hassumed := modifyEntries_frame s (scope.assumptions.map Fact.id)
    ({ · with assumed := false })
  have hproven := modifyEntries_frame
    (s.modifyEntries (scope.assumptions.map Fact.id) ({ · with assumed := false }))
    (scope.proven.filter (s.restsOn scope)) ({ · with proven := false })
  exact ⟨hproven.1.trans hassumed.1, hproven.2.1.trans hassumed.2.1,
    hproven.2.2.trans hassumed.2.2⟩

theorem modifyEntries_stack (s : Session) (ids : List FactId) (g : Entry → Entry)
    (stack : List ScopeId) :
    ids.foldl (fun s id => s.modifyEntry id g) { s with stack } =
      { s.modifyEntries ids g with stack } := by
  unfold modifyEntries
  induction ids generalizing s with
  | nil => rfl
  | cons first ids ih => exact ih (s.modifyEntry first g)

theorem retract_eq (h : s.scope? c = some scope) :
    s.retract c =
      ((match enclosing? c s.stack with
        | some outer => { s.lowered scope with stack := s.stack.erase c }.modifyScope outer fun o =>
            { o with proven := o.proven ++ scope.proven.filter fun id => !s.restsOn scope id }
        | none => { s.lowered scope with stack := s.stack.erase c }).forget
          scope.introduced).modifyScope c ({ · with closed := true }) := by
  unfold retract
  rw [h]
  simp only [List.partition_eq_filter_filter, modifyEntries_stack]
  rfl

theorem entry?_retract (h : s.scope? c = some scope) (id : FactId) :
    Session.entry? (s.retract c) id = (s.entry? id).map (s.retracted scope id) := by
  rw [retract_eq h, ← entry?_lowered]
  cases enclosing? c s.stack with
  | none => rfl
  | some outer => rfl

theorem retract_stack (h : s.scope? c = some scope) : (s.retract c).stack = s.stack.erase c := by
  rw [retract_eq h]
  cases enclosing? c s.stack with
  | none => rfl
  | some outer => rfl

theorem retract_speculation (h : s.scope? c = some scope) :
    (s.retract c).speculation = s.speculation := by
  rw [retract_eq h]
  cases enclosing? c s.stack with
  | none => exact (lowered_frame s scope).2.2
  | some outer => exact (lowered_frame s scope).2.2

theorem scope?_retract (h : s.scope? c = some scope) (c' : ScopeId) :
    (s.retract c).scope? c' = (s.scope? c').map fun o => { o with
      proven := if enclosing? c s.stack = some c' then
          o.proven ++ scope.proven.filter fun id => !s.restsOn scope id
        else o.proven
      closed := o.closed || decide (c = c') } := by
  have hscope : ∀ stack, scope? { s.lowered scope with stack } c' = s.scope? c' := by
    intro stack
    simp only [scope?, (lowered_frame s scope).1]
  have hforget : ∀ (t : Session) (vs : List Variable), (t.forget vs).scope? c' = t.scope? c' :=
    fun _ _ => rfl
  rw [retract_eq h, scope?_modifyScope, hforget]
  cases enclosing? c s.stack with
  | none =>
      simp only [hscope]
      by_cases hc : c = c' <;> simp [hc]
  | some outer =>
      simp only [scope?_modifyScope, hscope]
      by_cases hc : c = c' <;> by_cases ho : outer = c' <;> simp [hc, ho, Function.comp_def]

end Retract

section Settle

theorem entry?_settleEntry (s : Session) (needed : List FactId) (id id' : FactId) :
    Session.entry? (settleEntry needed s id) id' = (s.entry? id').map fun e =>
      if id = id' ∧ id ∉ needed then { e with proven := false } else e := by
  unfold settleEntry
  split
  next hnone =>
    by_cases h : id = id'
    · subst h
      simp [hnone]
    · simp [h]
  next e he =>
    split
    next hn => simp [hn, Session.entry?]
    next hn =>
      rw [entry?_modifyEntry]
      simp [hn]

theorem settleEntry_stack (s : Session) (needed : List FactId) (id : FactId) :
    (settleEntry needed s id).stack = s.stack := by
  unfold settleEntry
  split
  next => rfl
  next =>
    split
    next => rw [record_stack]
    next => rfl

theorem settleEntry_speculation (s : Session) (needed : List FactId) (id : FactId) :
    (settleEntry needed s id).speculation = s.speculation := by
  unfold settleEntry
  split
  next => rfl
  next =>
    split
    next => rw [record_speculation]
    next => rfl

theorem scope?_settleEntry (s : Session) (needed : List FactId) (id : FactId) (c : ScopeId) :
    (settleEntry needed s id).scope? c = (s.scope? c).map fun o =>
      if s.stack.head? = some c ∧ id ∈ needed ∧ (s.entry? id).isSome then
        { o with proven := o.proven ++ [id] }
      else o := by
  unfold settleEntry
  split
  next hnone => simp [hnone]
  next e he =>
    split
    next hn =>
      rw [scope?_record]
      simp [hn, he]
    next hn => simp [hn, scope?, modifyEntry]

theorem entry?_foldl_settleEntry (s : Session) (needed ids : List FactId) (id : FactId) :
    Session.entry? (ids.foldl (settleEntry needed) s) id = (s.entry? id).map fun e =>
      if id ∈ ids ∧ id ∉ needed then { e with proven := false } else e := by
  induction ids generalizing s with
  | nil => simp
  | cons first ids ih =>
      rw [List.foldl_cons, ih, entry?_settleEntry, Option.map_map]
      congr 1
      funext e
      by_cases hf : first = id
      · subst hf
        by_cases hm : first ∈ ids <;> by_cases hn : first ∈ needed <;> simp [hm, hn]
      · have hf' : id ≠ first := fun h => hf h.symm
        simp [hf, hf']

theorem foldl_settleEntry_frame (s : Session) (needed ids : List FactId) :
    (ids.foldl (settleEntry needed) s).stack = s.stack ∧
      (ids.foldl (settleEntry needed) s).speculation = s.speculation := by
  induction ids generalizing s with
  | nil => exact ⟨rfl, rfl⟩
  | cons first ids ih =>
      have hfirst := ih (settleEntry needed s first)
      rw [settleEntry_stack, settleEntry_speculation] at hfirst
      exact hfirst

theorem scope?_foldl_settleEntry (s : Session) (needed ids : List FactId) (c : ScopeId) :
    (ids.foldl (settleEntry needed) s).scope? c = (s.scope? c).map fun o =>
      if s.stack.head? = some c then
        { o with
          proven := o.proven ++ ids.filter fun id => id ∈ needed && (s.entry? id).isSome }
      else o := by
  induction ids generalizing s with
  | nil => simp
  | cons first ids ih =>
      have hisSome : ∀ id, (Session.entry? (settleEntry needed s first) id).isSome =
          (s.entry? id).isSome := by
        intro id
        rw [entry?_settleEntry, Option.isSome_map]
      rw [List.foldl_cons, ih, settleEntry_stack, scope?_settleEntry, Option.map_map]
      simp only [hisSome]
      congr 1
      funext o
      by_cases hc : s.stack.head? = some c
      · by_cases hn : first ∈ needed <;> cases he : (s.entry? first).isSome <;>
          simp [hc, hn, he]
      · simp [hc]

end Settle

/-- The session once a speculation has been settled. -/
def settled (s : Session) (keep : List FactId) : Session := after (settle keep) s

/-- What settling a speculation puts on record, oldest first. -/
def keptBy (s : Session) (keep derived : List FactId) : List FactId :=
  derived.reverse.filter fun id => id ∈ s.supporting keep derived && (s.entry? id).isSome

section Settled
variable {s : Session} {derived : List FactId}

theorem settled_of_none (keep : List FactId) (h : s.speculation = none) : s.settled keep = s := by
  simp [settled, after, settle, modify, modifyGet_run, h]

theorem settled_of_some (keep : List FactId) (h : s.speculation = some derived) :
    s.settled keep = derived.reverse.foldl (settleEntry (s.supporting keep derived))
      { s with speculation := none } := by
  simp [settled, after, settle, modify, modifyGet_run, h]

theorem entry?_settled (keep : List FactId) (h : s.speculation = some derived) (id : FactId) :
    Session.entry? (s.settled keep) id = (s.entry? id).map fun e =>
      if id ∈ derived ∧ id ∉ s.supporting keep derived then { e with proven := false } else e := by
  rw [settled_of_some keep h, entry?_foldl_settleEntry]
  simp [Session.entry?]

theorem scope?_settled (keep : List FactId) (h : s.speculation = some derived) (c : ScopeId) :
    (s.settled keep).scope? c = (s.scope? c).map fun o =>
      if s.stack.head? = some c then { o with proven := o.proven ++ s.keptBy keep derived }
      else o := by
  rw [settled_of_some keep h, scope?_foldl_settleEntry]
  rfl

theorem settled_stack (s : Session) (keep : List FactId) : (s.settled keep).stack = s.stack := by
  cases h : s.speculation with
  | none => rw [settled_of_none keep h]
  | some derived => rw [settled_of_some keep h, (foldl_settleEntry_frame _ _ _).1]

theorem settled_speculation (s : Session) (keep : List FactId) :
    (s.settled keep).speculation = none := by
  cases h : s.speculation with
  | none => rw [settled_of_none keep h, h]
  | some derived => rw [settled_of_some keep h, (foldl_settleEntry_frame _ _ _).2]

end Settled

end Entailment.Session
