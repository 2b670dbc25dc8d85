import Entailment.Proofs.Auditing
import Entailment.Proofs.Interpretation

/-!
# What is known about a variable

Beside its ledger a session keeps, for every variable, the atomic facts that mention it. They enter
one at a time, at once or when a speculation is settled, and leave when a scope is retracted. The
ledger says the same without being asked to: it knows the statement of every entry and whether the
entry holds. `Informed` states that the two agree, up to what an ongoing speculation has derived
and not yet put on record. The agreement asks for nothing but that derived entries stay off the
records of scopes until then, so scopes may be given up in any order.
-/
namespace Entailment

theorem Term.mem_addVariables (v : Variable) (seen : List Variable) (t : Term) :
    v ∈ t.addVariables seen ↔ v ∈ seen ∨ (Term.var v).occursIn t = true := by
  induction t using Term.inductionOn generalizing seen with
  | var w =>
      rw [addVariables, occursIn]
      by_cases hw : w ∈ seen
      · rw [if_pos hw]
        have hseen : w = v → v ∈ seen := fun h => h ▸ hw
        simpa using hseen
      · rw [if_neg hw]
        simp [eq_comm]
  | const name => simp [addVariables, occursIn]
  | num n => simp [addVariables, occursIn]
  | app head args ih =>
      simp only [addVariables, addVariablesList_eq_foldl, occursIn, occursInAny_eq_any,
        reduceCtorEq, decide_false, Bool.false_or]
      induction args generalizing seen with
      | nil => simp
      | cons t args ihargs =>
          rw [List.foldl_cons, ihargs (fun u hu => ih u (List.mem_cons_of_mem t hu)),
            ih t (by simp), List.any_cons, Bool.or_eq_true, or_assoc]

theorem Term.mem_vars {v : Variable} {t : Term} :
    v ∈ t.vars ↔ (Term.var v).occursIn t = true := by
  simp [vars, mem_addVariables]

namespace Proposition

theorem mem_addUnbound (v : Variable) (bound seen vs : List Variable) :
    v ∈ addUnbound bound seen vs ↔ v ∈ seen ∨ (v ∉ bound ∧ v ∈ vs) := by
  unfold addUnbound
  induction vs generalizing seen with
  | nil => simp
  | cons w vs ih =>
      rw [List.foldl_cons, ih]
      by_cases hv : v = w
      · subst hv
        by_cases hb : v ∈ bound <;> by_cases hs : v ∈ seen <;> simp [hb, hs]
      · split <;> simp [hv]

theorem nodup_append_if {α : Type} {xs : List α} {x : α} {c : Prop} [Decidable c] (h : xs.Nodup)
    (hx : c → x ∉ xs) : (xs ++ if c then [x] else []).Nodup := by
  split
  next hc =>
    refine List.nodup_append.mpr ⟨h, by simp, fun y hy z hz heq => hx hc ?_⟩
    rw [← List.mem_singleton.mp hz, ← heq]
    exact hy
  next => simpa using h

theorem nodup_addUnbound {seen : List Variable} (bound vs : List Variable) (h : seen.Nodup) :
    (addUnbound bound seen vs).Nodup := by
  unfold addUnbound
  induction vs generalizing seen with
  | nil => exact h
  | cons w vs ih =>
      rw [List.foldl_cons]
      apply ih
      split
      next => exact h
      next hw => simpa using nodup_append_if (c := True) h fun _ hmem => hw (.inr hmem)

/-- An atomic statement in which a variable occurs. -/
def isAbout (v : Variable) : Proposition → Bool
  | .relation name args m => (Proposition.relation name args m).contains (.var v)
  | _ => false

theorem nodup_freeVariables_relation (name : String) (args : List Term) (m : Option FactId) :
    (freeVariables (.relation name args m)).Nodup := by
  have hfold : ∀ seen : List Variable, seen.Nodup →
      (args.foldl (fun acc t => addUnbound [] acc t.vars) seen).Nodup := by
    induction args with
    | nil => exact fun seen h => h
    | cons t args ih => exact fun seen h => ih _ (nodup_addUnbound [] t.vars h)
  exact hfold [] List.nodup_nil

theorem mem_freeVariables_relation {v : Variable} {name : String} {args : List Term}
    {m : Option FactId} :
    v ∈ freeVariables (.relation name args m) ↔
      (Proposition.relation name args m).isAbout v = true := by
  have hfold : ∀ seen : List Variable,
      v ∈ args.foldl (fun acc t => addUnbound [] acc t.vars) seen ↔
        v ∈ seen ∨ args.any (Term.var v).occursIn = true := by
    induction args with
    | nil => simp
    | cons t args ih =>
        intro seen
        rw [List.foldl_cons, ih, mem_addUnbound, Term.mem_vars, List.any_cons, Bool.or_eq_true,
          or_assoc]
        simp
  rw [freeVariables, addFree, hfold, isAbout, contains]
  simp

end Proposition

namespace Session

/-- What is being derived in an ongoing speculation, newest first. -/
def pending (s : Session) : List FactId := s.speculation.getD []

/-- The entry currently holds and is an atomic statement in which the variable occurs. -/
def Tells (s : Session) (v : Variable) (id : FactId) : Prop :=
  ∃ e, s.entry? id = some e ∧ e.holds = true ∧ e.statement.isAbout v = true

/-- Some scope has the entry on record. -/
def Filed (s : Session) (id : FactId) : Prop :=
  ∃ c scope, s.scope? c = some scope ∧ id ∈ scope.proven

/-- What is known about variables agrees with the ledger, except for what is still pending. -/
structure Informed (s : Session) : Prop where
  nodup : ∀ v, v ∉ s.retired → (s.known v).Nodup
  exact : ∀ v, v ∉ s.retired → ∀ id, id ∈ s.known v ↔ s.Tells v id ∧ id ∉ s.pending
  pending : s.pending.Nodup
  derived : ∀ id ∈ s.pending,
    ∃ e, s.entry? id = some e ∧ e.proven = true ∧ e.assumed = false
  filed : ∀ id, s.Filed id → id.index < s.ledger.size ∧ id ∉ s.pending

section Learning
variable (s : Session) (f : Fact) (v : Variable)

theorem filterMap_eq_if_mem {vs : List Variable} (h : vs.Nodup) (id : FactId) :
    (vs.map (·, id)).filterMap (fun (w, id) => if w = v then some id else none) =
      if v ∈ vs then [id] else [] := by
  induction vs with
  | nil => rfl
  | cons w vs ih =>
      obtain ⟨hw, hvs⟩ := List.nodup_cons.mp h
      rw [List.map_cons, List.filterMap_cons, ih hvs]
      by_cases hwv : w = v
      · subst hwv
        simp [hw]
      · simp [hwv, Ne.symm hwv]

theorem known_learn :
    (s.learn f).known v = s.known v ++ if f.statement.isAbout v then [f.id] else [] := by
  unfold learn
  split
  next name args m hstatement =>
    rw [known, List.filterMap_append, hstatement,
      filterMap_eq_if_mem v (Proposition.nodup_freeVariables_relation name args m)]
    simp only [Proposition.mem_freeVariables_relation, known]
  next hother =>
    have hnot : f.statement.isAbout v = false := by
      cases hf : f.statement with
      | relation name args m => exact absurd hf (hother name args m)
      | _ => rfl
    simp [hnot]

@[simp] theorem learn_retired : (s.learn f).retired = s.retired := by unfold learn; split <;> rfl

theorem known_record :
    (s.record f).known v = s.known v ++ if f.statement.isAbout v then [f.id] else [] := by
  unfold record
  rw [known_learn]
  split <;> rfl

@[simp] theorem record_retired : (s.record f).retired = s.retired := by
  unfold record
  rw [learn_retired]
  split <;> rfl

theorem known_certified (p : Proposition) (i : Inference FactId) (d : List FactId) :
    (s.certified p i d).known v = s.known v ++
      if s.speculation = none ∧ p.strip.isAbout v = true then [⟨s.ledger.size⟩] else [] := by
  cases h : s.speculation with
  | none =>
      rw [certified_eq_record s p i d h, known_record]
      simp only [nextFact, true_and]
      rfl
  | some derived =>
      rw [certified_eq_noted s p i d h]
      simp [known]

@[simp] theorem certified_retired (p : Proposition) (i : Inference FactId) (d : List FactId) :
    (s.certified p i d).retired = s.retired := by
  cases h : s.speculation with
  | none => rw [certified_eq_record s p i d h, record_retired]
  | some derived => rw [certified_eq_noted s p i d h]

theorem known_supposed (p : Proposition) :
    (s.supposed p).known v =
      s.known v ++ if p.strip.isAbout v then [⟨s.ledger.size⟩] else [] :=
  known_learn { s with ledger := s.ledger.push _ } (s.nextFact p) v

@[simp] theorem supposed_retired (p : Proposition) : (s.supposed p).retired = s.retired :=
  learn_retired _ _

end Learning

section Withdrawing
variable {s : Session} {c : ScopeId} {scope : Scope} {v : Variable}

theorem lowered_knowledge (s : Session) (scope : Scope) :
    (s.lowered scope).knowledge = s.knowledge ∧ (s.lowered scope).retired = s.retired := by
  have hmany : ∀ (ids : List FactId) (g : Entry → Entry) (t : Session),
      (t.modifyEntries ids g).knowledge = t.knowledge ∧
        (t.modifyEntries ids g).retired = t.retired := by
    intro ids g
    unfold modifyEntries
    induction ids with
    | nil => exact fun t => ⟨rfl, rfl⟩
    | cons first ids ih => exact fun t => ih (t.modifyEntry first g)
  unfold lowered
  rw [(hmany _ _ _).1, (hmany _ _ _).1, (hmany _ _ _).2, (hmany _ _ _).2]
  exact ⟨rfl, rfl⟩

theorem retract_knowledge (h : s.scope? c = some scope) :
    (s.retract c).knowledge = s.knowledge.filter (fun (v, id) =>
        !scope.introduced.contains v && (s.retract c).holds id) ∧
      (s.retract c).retired = s.retired ++ scope.introduced := by
  have hholds : ∀ id, (s.retract c).holds id = (s.lowered scope).holds id := by
    intro id
    rw [Session.holds, entry?_retract h, ← entry?_lowered, Session.holds]
  simp only [hholds]
  rw [retract_eq h, ← (lowered_knowledge s scope).1, ← (lowered_knowledge s scope).2]
  cases enclosing? c s.stack with
  | none => exact ⟨rfl, rfl⟩
  | some outer => exact ⟨rfl, rfl⟩

theorem known_retract (h : s.scope? c = some scope) (hv : v ∉ scope.introduced) :
    (s.retract c).known v = (s.known v).filter (s.retract c).holds := by
  rw [known, (retract_knowledge h).1, known, List.filterMap_filter, List.filter_filterMap]
  apply List.filterMap_congr
  rintro ⟨w, id⟩ -
  by_cases hw : w = v
  · subst hw
    cases hid : (s.retract c).holds id <;> simp [hv, hid, Option.filter]
  · simp [hw]

theorem known_settleEntry (s : Session) (needed : List FactId) (id : FactId) (v : Variable) :
    (settleEntry needed s id).known v = s.known v ++
      if id ∈ needed ∧ (s.entry? id).any (·.statement.isAbout v) = true then [id] else [] := by
  unfold settleEntry
  split
  next hnone => simp [hnone]
  next e he =>
    split
    next hn =>
      rw [known_record]
      simp [hn, he]
    next hn => simp [hn, known, modifyEntry]

theorem settleEntry_retired (s : Session) (needed : List FactId) (id : FactId) :
    (settleEntry needed s id).retired = s.retired := by
  unfold settleEntry
  split
  next => rfl
  next =>
    split
    next => rw [record_retired]
    next => rfl

theorem known_foldl_settleEntry (s : Session) (needed ids : List FactId) (v : Variable) :
    (ids.foldl (settleEntry needed) s).known v = s.known v ++ ids.filter fun id =>
      id ∈ needed && (s.entry? id).any (·.statement.isAbout v) := by
  induction ids generalizing s with
  | nil => simp
  | cons first ids ih =>
      have hstatement : ∀ id, (Session.entry? (settleEntry needed s first) id).any
          (·.statement.isAbout v) = (s.entry? id).any (·.statement.isAbout v) := by
        intro id
        rw [entry?_settleEntry]
        cases s.entry? id with
        | none => rfl
        | some e =>
            simp only [Option.map_some, Option.any_some]
            split <;> rfl
      rw [List.foldl_cons, ih, known_settleEntry, List.append_assoc, List.filter_cons]
      simp only [hstatement]
      congr 1
      by_cases hn : first ∈ needed <;>
        cases he : (s.entry? first).any (·.statement.isAbout v) <;> simp [hn]

theorem known_settled {derived : List FactId} (keep : List FactId)
    (h : s.speculation = some derived) (v : Variable) :
    (s.settled keep).known v = s.known v ++ (s.keptBy keep derived).filter fun id =>
      (s.entry? id).any (·.statement.isAbout v) := by
  rw [settled_of_some keep h, known_foldl_settleEntry, keptBy, List.filter_filter]
  congr 1
  apply List.filter_congr
  intro id _
  change (decide (id ∈ s.supporting keep derived) &&
    (s.entry? id).any (·.statement.isAbout v)) = _
  cases s.entry? id with
  | none => simp
  | some e => simp [Bool.and_comm]

theorem settled_retired (s : Session) (keep : List FactId) :
    (s.settled keep).retired = s.retired := by
  cases h : s.speculation with
  | none => rw [settled_of_none keep h]
  | some derived =>
      rw [settled_of_some keep h]
      have hfold : ∀ (needed ids : List FactId) (t : Session),
          (ids.foldl (settleEntry needed) t).retired = t.retired := by
        intro needed ids
        induction ids with
        | nil => exact fun t => rfl
        | cons first ids ih =>
            intro t
            rw [List.foldl_cons, ih, settleEntry_retired]
      rw [hfold]

end Withdrawing

section Invariant
variable {s t : Session} {v : Variable} {id : FactId}

theorem Tells.index_lt (h : s.Tells v id) : id.index < s.ledger.size := by
  obtain ⟨e, he, -⟩ := h
  exact entry?_lt he

theorem tells_of_push {e : Entry} (h : t.ledger = s.ledger.push e) :
    t.Tells v id ↔ s.Tells v id ∨
      (id = ⟨s.ledger.size⟩ ∧ e.holds = true ∧ e.statement.isAbout v = true) := by
  unfold Tells
  rw [entry?_of_push h]
  by_cases hid : id.index = s.ledger.size
  · obtain rfl : id = ⟨s.ledger.size⟩ := by
      rw [← hid]
    have hnone : s.entry? ⟨s.ledger.size⟩ = none := by simp [Session.entry?]
    simp [hnone]
  · have hne : id ≠ ⟨s.ledger.size⟩ := by
      rintro rfl
      exact hid rfl
    simp [hid, hne]

theorem Informed.new_notMem (h : s.Informed) (hv : v ∉ s.retired) :
    (⟨s.ledger.size⟩ : FactId) ∉ s.known v := by
  intro hmem
  exact Nat.lt_irrefl _ ((h.exact v hv _).mp hmem).1.index_lt

theorem Informed.pending_lt (h : s.Informed) (hid : id ∈ s.pending) :
    id.index < s.ledger.size := by
  obtain ⟨e, he, -⟩ := h.derived id hid
  exact entry?_lt he

/-- Whatever leaves the ledger, what is known and the speculation alone may do to the records of
scopes what it likes, short of adding to them. -/
theorem Informed.congr (h : s.Informed) (hledger : t.ledger = s.ledger)
    (hknowledge : t.knowledge = s.knowledge) (hretired : t.retired = s.retired)
    (hspeculation : t.speculation = s.speculation)
    (hrecord : ∀ id, t.Filed id → s.Filed id) : t.Informed := by
  have hentry : ∀ id, t.entry? id = s.entry? id := fun id => by
    rw [Session.entry?, hledger, Session.entry?]
  have hpending : t.pending = s.pending := by
    rw [Session.pending, hspeculation, Session.pending]
  have hknown : ∀ v, t.known v = s.known v := fun v => by
    rw [known, hknowledge, known]
  constructor
  · intro v hv
    rw [hknown]
    exact h.nodup v (hretired ▸ hv)
  · intro v hv id
    rw [hknown, hpending, Tells, hentry]
    exact h.exact v (hretired ▸ hv) id
  · rw [hpending]
    exact h.pending
  · intro id hid
    rw [hentry]
    exact h.derived id (hpending ▸ hid)
  · intro id hid
    rw [hledger, hpending]
    exact h.filed id (hrecord id hid)

theorem Informed.aside (h : s.Informed) (ht : s.Aside t) : t.Informed := by
  obtain ⟨_, _, _, rfl⟩ := ht
  exact h.congr rfl rfl rfl rfl fun _ hid => hid

theorem Informed.modifyScope {g : Scope → Scope} (h : s.Informed) (c : ScopeId)
    (hg : ∀ scope, (g scope).proven = scope.proven) : (s.modifyScope c g).Informed := by
  refine h.congr rfl rfl rfl rfl ?_
  rintro id ⟨d, scope, hscope, hid⟩
  rw [scope?_modifyScope] at hscope
  split at hscope
  next =>
    obtain ⟨old, hold, rfl⟩ := Option.map_eq_some_iff.mp hscope
    rw [hg] at hid
    exact ⟨d, old, hold, hid⟩
  next => exact ⟨d, scope, hscope, hid⟩

theorem Informed.opened (h : s.Informed) (name : String) : (s.opened name).Informed := by
  refine h.congr rfl rfl rfl rfl ?_
  rintro id ⟨c, scope, hscope, hid⟩
  simp only [scope?, Session.opened, Array.getElem?_push] at hscope
  split at hscope
  next =>
    obtain rfl := Option.some.inj hscope
    cases hid
  next => exact ⟨c, scope, hscope, hid⟩

theorem filed_certified {p : Proposition} {i : Inference FactId} {d : List FactId}
    (h : (s.certified p i d).Filed id) :
    s.Filed id ∨ (s.speculation = none ∧ id = ⟨s.ledger.size⟩) := by
  obtain ⟨c, scope, hscope, hid⟩ := h
  rw [scope?_certified] at hscope
  obtain ⟨old, hold, rfl⟩ := Option.map_eq_some_iff.mp hscope
  split at hid
  next hinnermost =>
    rcases List.mem_append.mp hid with hid | hid
    · exact .inl ⟨c, old, hold, hid⟩
    · exact .inr ⟨hinnermost.1, List.mem_singleton.mp hid⟩
  next => exact .inl ⟨c, old, hold, hid⟩

/-- A derived statement is known at once, or pending until the speculation is settled. -/
theorem Informed.certified (h : s.Informed) (p : Proposition) (i : Inference FactId)
    (d : List FactId) : (s.certified p i d).Informed := by
  have hpending : (s.certified p i d).pending =
      if s.speculation = none then [] else ⟨s.ledger.size⟩ :: s.pending := by
    rw [Session.pending, certified_speculation, Session.pending]
    cases s.speculation <;> rfl
  have hnone : s.speculation = none → s.pending = [] := fun hs => by
    rw [Session.pending, hs, Option.getD_none]
  have hnew : (⟨s.ledger.size⟩ : FactId) ∉ s.pending := fun hmem =>
    Nat.lt_irrefl _ (h.pending_lt hmem)
  constructor
  · intro v hv
    rw [certified_retired] at hv
    rw [known_certified]
    exact Proposition.nodup_append_if (h.nodup v hv) fun _ => h.new_notMem hv
  · intro v hv id
    rw [certified_retired] at hv
    rw [known_certified, List.mem_append, h.exact v hv, tells_of_push (certified_ledger s p i d),
      hpending]
    have hholds : Entry.holds ⟨p.strip, i, true, false, d⟩ = true := rfl
    by_cases hs : s.speculation = none
    · by_cases habout : p.strip.isAbout v = true <;> simp [hs, hnone hs, habout, hholds]
    · have hnew' : s.Tells v id → id ≠ ⟨s.ledger.size⟩ := by
        rintro htells rfl
        exact Nat.lt_irrefl _ htells.index_lt
      simp only [hs, false_and, if_false, List.not_mem_nil, or_false, List.mem_cons, not_or]
      grind
  · rw [hpending]
    split
    next => exact List.nodup_nil
    next => exact List.nodup_cons.mpr ⟨hnew, h.pending⟩
  · intro id hid
    rw [hpending] at hid
    rw [entry?_certified]
    split at hid
    next => cases hid
    next =>
      rcases List.mem_cons.mp hid with rfl | hid
      · exact ⟨_, if_pos rfl, rfl, rfl⟩
      · rw [if_neg (Nat.ne_of_lt (h.pending_lt hid))]
        exact h.derived id hid
  · intro id hid
    rw [hpending, certified_ledger, Array.size_push]
    rcases filed_certified hid with hold | ⟨hs, rfl⟩
    · obtain ⟨hlt, hnotMem⟩ := h.filed id hold
      refine ⟨Nat.lt_succ_of_lt hlt, ?_⟩
      split
      next => simp
      next =>
        rw [List.mem_cons, not_or]
        refine ⟨?_, hnotMem⟩
        rintro rfl
        exact Nat.lt_irrefl _ hlt
    · simp [hs]

theorem Informed.extended {R : Rule → Prop} (h : s.Informed) (ht : Extends R s t) :
    t.Informed := by
  induction ht with
  | refl => exact h
  | aside fresh warnings order _ ih => exact ih.aside ⟨fresh, warnings, order, rfl⟩
  | certify _ _ _ ih => exact ih.certified _ _ _

/-- An assumption is known at once, also while speculating. -/
theorem Informed.supposed (h : s.Informed) (p : Proposition) : (s.supposed p).Informed := by
  have hpending : (s.supposed p).pending = s.pending := by
    rw [Session.pending, supposed_speculation, Session.pending]
  constructor
  · intro v hv
    rw [supposed_retired] at hv
    rw [known_supposed]
    exact Proposition.nodup_append_if (h.nodup v hv) fun _ => h.new_notMem hv
  · intro v hv id
    rw [supposed_retired] at hv
    rw [known_supposed, List.mem_append, h.exact v hv, tells_of_push (supposed_ledger s p),
      hpending]
    have hnew : id = ⟨s.ledger.size⟩ → id ∉ s.pending := by
      rintro rfl hmem
      exact Nat.lt_irrefl _ (h.pending_lt hmem)
    have hholds : Entry.holds ⟨p.strip, { rule := .assumption }, false, true,
        [⟨s.ledger.size⟩]⟩ = true := rfl
    by_cases habout : p.strip.isAbout v = true <;> simp [habout, hholds]
    grind
  · rw [hpending]
    exact h.pending
  · intro id hid
    rw [hpending] at hid
    rw [entry?_supposed, if_neg (Nat.ne_of_lt (h.pending_lt hid))]
    exact h.derived id hid
  · rintro id ⟨c, scope, hscope, hid⟩
    rw [scope?, supposed_scopes] at hscope
    obtain ⟨hlt, hnotMem⟩ := h.filed id ⟨c, scope, hscope, hid⟩
    rw [hpending, supposed_ledger, Array.size_push]
    exact ⟨Nat.lt_succ_of_lt hlt, hnotMem⟩

theorem filed_retract {c : ScopeId} {scope : Scope} (hscope : s.scope? c = some scope)
    (h : (s.retract c).Filed id) : s.Filed id := by
  obtain ⟨d, scope', hscope', hid⟩ := h
  rw [scope?_retract hscope] at hscope'
  obtain ⟨old, hold, rfl⟩ := Option.map_eq_some_iff.mp hscope'
  dsimp only at hid
  split at hid
  next =>
    rcases List.mem_append.mp hid with hid | hid
    · exact ⟨d, old, hold, hid⟩
    · exact ⟨c, scope, hscope, (List.mem_filter.mp hid).1⟩
  next => exact ⟨d, old, hold, hid⟩

theorem tells_retract {c : ScopeId} {scope : Scope} (hscope : s.scope? c = some scope) :
    (s.retract c).Tells v id ↔ s.Tells v id ∧ (s.retract c).holds id = true := by
  unfold Tells
  rw [Session.holds, entry?_retract hscope]
  cases he : s.entry? id with
  | none => simp
  | some e =>
      have hlower : (s.retracted scope id e).holds = true → e.holds = true := by
        simp only [Entry.holds, retracted, Bool.or_eq_true, Bool.and_eq_true]
        rintro (⟨hproven, -⟩ | ⟨hassumed, -⟩)
        · exact .inl hproven
        · exact .inr hassumed
      have hstatement : (s.retracted scope id e).statement = e.statement := rfl
      simp only [Option.map_some, Option.some.injEq, exists_eq_left', Option.any_some, hstatement]
      grind

/-- Retracting a scope lowers flags, and what is known is swept right after. -/
theorem Informed.retract {c : ScopeId} {scope : Scope} (h : s.Informed)
    (hscope : s.scope? c = some scope) : (s.retract c).Informed := by
  have hpending : (s.retract c).pending = s.pending := by
    rw [Session.pending, retract_speculation hscope, Session.pending]
  have hretired : ∀ v, v ∉ (s.retract c).retired → v ∉ s.retired ∧ v ∉ scope.introduced := by
    intro v hv
    rw [(retract_knowledge hscope).2, List.mem_append, not_or] at hv
    exact hv
  constructor
  · intro v hv
    obtain ⟨hold, hintroduced⟩ := hretired v hv
    rw [known_retract hscope hintroduced]
    exact (h.nodup v hold).filter _
  · intro v hv id
    obtain ⟨hold, hintroduced⟩ := hretired v hv
    rw [known_retract hscope hintroduced, List.mem_filter, h.exact v hold, tells_retract hscope,
      hpending]
    exact and_right_comm
  · rw [hpending]
    exact h.pending
  · intro id hid
    rw [hpending] at hid
    obtain ⟨e, he, hproven, hassumed⟩ := h.derived id hid
    -- a pending entry is on no record, so no retraction finds it
    have hrecord : id ∉ scope.proven := fun hmem =>
      (h.filed id ⟨c, scope, hscope, hmem⟩).2 hid
    refine ⟨s.retracted scope id e, ?_, ?_, ?_⟩
    · rw [entry?_retract hscope, he, Option.map_some]
    · simp [retracted, hproven, hrecord]
    · simp [retracted, hassumed]
  · intro id hid
    have hsize : (s.retract c).ledger.size = s.ledger.size := 
      (retract_sameContents s c).size_eq
    rw [hpending, hsize]
    exact h.filed id (filed_retract hscope hid)

theorem Informed.exported {scope : Scope} (h : s.Informed) (c : ScopeId)
    (statements : List (Fact × Proposition)) : (exported c scope s statements).Informed := by
  induction statements generalizing s with
  | nil => exact h
  | cons x statements ih =>
      obtain ⟨f, p⟩ := x
      exact ih (h.certified _ _ _)

theorem mem_keptBy {keep derived : List FactId} :
    id ∈ s.keptBy keep derived ↔
      id ∈ derived ∧ id ∈ s.supporting keep derived ∧ (s.entry? id).isSome := by
  simp [keptBy]

theorem filed_settled {keep derived : List FactId} (hspeculation : s.speculation = some derived)
    (h : (s.settled keep).Filed id) : s.Filed id ∨ id ∈ derived := by
  obtain ⟨c, scope, hscope, hid⟩ := h
  rw [scope?_settled keep hspeculation] at hscope
  obtain ⟨old, hold, rfl⟩ := Option.map_eq_some_iff.mp hscope
  split at hid
  next =>
    rcases List.mem_append.mp hid with hid | hid
    · exact .inl ⟨c, old, hold, hid⟩
    · exact .inr (mem_keptBy.mp hid).1
  next => exact .inl ⟨c, old, hold, hid⟩

/-- After a speculation an entry tells something if it did before, unless it was withdrawn. -/
theorem tells_settled {keep derived : List FactId} (h : s.Informed)
    (hspeculation : s.speculation = some derived) :
    (s.settled keep).Tells v id ↔
      s.Tells v id ∧ (id ∈ derived → id ∈ s.supporting keep derived) := by
  unfold Tells
  rw [entry?_settled keep hspeculation]
  cases he : s.entry? id with
  | none => simp
  | some e =>
      simp only [Option.map_some, Option.some.injEq, exists_eq_left']
      by_cases hderived : id ∈ derived
      · have hpending : id ∈ s.pending := by
          rw [Session.pending, hspeculation]
          exact hderived
        obtain ⟨e', he', -, hassumed⟩ := h.derived id hpending
        obtain rfl : e = e' := Option.some.inj (he.symm.trans he')
        by_cases hsupporting : id ∈ s.supporting keep derived
        · simp [hsupporting]
        · simp [hderived, hsupporting, Entry.holds, hassumed]
      · simp [hderived]

/-- Settling a speculation makes known what it keeps, and withdraws the rest before it was ever
known. -/
theorem Informed.settled (h : s.Informed) (keep : List FactId) : (s.settled keep).Informed := by
  cases hspeculation : s.speculation with
  | none =>
      rw [settled_of_none keep hspeculation]
      exact h
  | some derived =>
      have hpending : s.pending = derived := by
        rw [Session.pending, hspeculation, Option.getD_some]
      have hsettled : (s.settled keep).pending = [] := by
        rw [Session.pending, settled_speculation, Option.getD_none]
      constructor
      · intro v hv
        rw [settled_retired] at hv
        rw [known_settled keep hspeculation, List.nodup_append]
        refine ⟨h.nodup v hv, ?_, ?_⟩
        · have hderived : derived.reverse.Nodup :=
            (List.reverse_perm derived).nodup_iff.mpr (hpending ▸ h.pending)
          exact (hderived.filter _).filter _
        · rintro id hid _ hkept rfl
          have hnotMem : id ∉ s.pending := ((h.exact v hv id).mp hid).2
          rw [hpending] at hnotMem
          exact hnotMem (mem_keptBy.mp (List.mem_filter.mp hkept).1).1
      · intro v hv id
        rw [settled_retired] at hv
        rw [known_settled keep hspeculation, List.mem_append, h.exact v hv,
          tells_settled h hspeculation, hsettled, hpending, List.mem_filter, mem_keptBy]
        by_cases hderived : id ∈ derived
        · obtain ⟨e, he, hproven, -⟩ := h.derived id (hpending ▸ hderived)
          have htells : s.Tells v id ↔ e.statement.isAbout v = true := by
            simp [Tells, he, Entry.holds, hproven]
          simp [hderived, htells, he, and_comm]
        · simp [hderived]
      · rw [hsettled]
        exact List.nodup_nil
      · intro id hid
        rw [hsettled] at hid
        cases hid
      · intro id hid
        rw [hsettled, (settled_sameContents s keep).size_eq]
        refine ⟨?_, List.not_mem_nil⟩
        rcases filed_settled hspeculation hid with hold | hderived
        · exact (h.filed id hold).1
        · exact h.pending_lt (hpending ▸ hderived)

/-- Every call keeps what is known in step with the ledger. -/
theorem Informed.call (h : s.Informed) (call : Call) : (call.apply s).Informed := by
  have hchange := call.change s
  generalize call.apply s = t at hchange
  cases hchange with
  | aside ht => exact h.aside ht
  | tactic ht => exact h.extended ht
  | postulate => exact h.certified _ _ _
  | suppose _ => exact h.supposed _
  | assumeIn _ _ => exact (h.supposed _).modifyScope _ fun _ => rfl
  | openScope => exact h.opened _
  | introduce _ ht _ => exact (h.aside ht).modifyScope _ fun _ => rfl
  | conclude _ _ => exact h.modifyScope _ fun _ => rfl
  | close hinnermost _ =>
      exact ((h.retract hinnermost.1).exported _ _).modifyScope _ fun _ => rfl
  | discard hscope _ => exact h.retract hscope
  | speculateFrom hnone =>
      have hpending : s.pending = [] := by
        rw [Session.pending, hnone, Option.getD_none]
      exact ⟨h.nodup, fun v hv id => hpending ▸ h.exact v hv id, List.nodup_nil, nofun,
        fun id hid => ⟨(h.filed id hid).1, List.not_mem_nil⟩⟩
  | settle => exact h.settled _

theorem Informed.initial : Informed {} := by
  refine ⟨fun v _ => List.nodup_nil, fun v _ id => ?_, List.nodup_nil, nofun, ?_⟩
  · have hnone : ¬Session.Tells {} v id := by
      rintro ⟨e, he, -⟩
      simp [Session.entry?] at he
    simp [hnone, known]
  · rintro id ⟨c, scope, hscope, -⟩
    simp [scope?] at hscope

theorem Informed.run (h : s.Informed) (calls : List Call) : (run s calls).Informed := by
  induction calls generalizing s with
  | nil => exact h
  | cons call calls ih => exact ih (h.call call)

/-- Whatever is known about a variable, retired or not, is an entry of the ledger. -/
def Catalogued (s : Session) : Prop := ∀ v, ∀ id ∈ s.known v, id.index < s.ledger.size

theorem Catalogued.of_subset (h : s.Catalogued) (hsize : t.ledger.size = s.ledger.size)
    (hknown : ∀ v, ∀ id ∈ t.known v, id ∈ s.known v) : t.Catalogued := by
  intro v id hid
  rw [hsize]
  exact h v id (hknown v id hid)

theorem Catalogued.of_push {e : Entry} (h : s.Catalogued) (hledger : t.ledger = s.ledger.push e)
    {told : Variable → Prop} [∀ v, Decidable (told v)]
    (hknown : ∀ v, t.known v = s.known v ++ if told v then [⟨s.ledger.size⟩] else []) :
    t.Catalogued := by
  intro v id hid
  rw [hledger, Array.size_push]
  rw [hknown, List.mem_append] at hid
  cases hid with
  | inl hold =>
      have hlt := h v id hold
      omega
  | inr hnew =>
      split at hnew
      next =>
        rw [List.mem_singleton.mp hnew]
        exact Nat.lt_succ_self _
      next => cases hnew

theorem Catalogued.certified (h : s.Catalogued) (p : Proposition) (i : Inference FactId)
    (d : List FactId) : (s.certified p i d).Catalogued :=
  h.of_push (certified_ledger s p i d) fun v => known_certified s v p i d

theorem Catalogued.supposed (h : s.Catalogued) (p : Proposition) : (s.supposed p).Catalogued :=
  h.of_push (supposed_ledger s p) fun v => known_supposed s v p

theorem Catalogued.extended {R : Rule → Prop} (h : s.Catalogued) (ht : Extends R s t) :
    t.Catalogued := by
  induction ht with
  | refl => exact h
  | aside _ _ _ _ ih => exact ih
  | certify _ _ _ ih => exact ih.certified _ _ _

theorem Catalogued.exported {scope : Scope} (h : s.Catalogued) (c : ScopeId)
    (statements : List (Fact × Proposition)) : (exported c scope s statements).Catalogued := by
  induction statements generalizing s with
  | nil => exact h
  | cons x statements ih =>
      obtain ⟨f, p⟩ := x
      exact ih (h.certified _ _ _)

theorem Catalogued.retract {c : ScopeId} {scope : Scope} (h : s.Catalogued)
    (hscope : s.scope? c = some scope) : (s.retract c).Catalogued := by
  refine h.of_subset (retract_sameContents s c).size_eq fun v id hid => ?_
  rw [known, (retract_knowledge hscope).1] at hid
  exact List.Sublist.subset (List.filter_sublist.filterMap _) hid

theorem Catalogued.settled (h : s.Catalogued) (keep : List FactId) :
    (s.settled keep).Catalogued := by
  cases hspeculation : s.speculation with
  | none =>
      rw [settled_of_none keep hspeculation]
      exact h
  | some derived =>
      intro v id hid
      rw [(settled_sameContents s keep).size_eq]
      rw [known_settled keep hspeculation, List.mem_append] at hid
      cases hid with
      | inl hold => exact h v id hold
      | inr hkept =>
          obtain ⟨e, he⟩ := Option.isSome_iff_exists.mp
            (mem_keptBy.mp (List.mem_filter.mp hkept).1).2.2
          exact entry?_lt he

theorem Catalogued.call (h : s.Catalogued) (call : Call) : (call.apply s).Catalogued := by
  have hchange := call.change s
  generalize call.apply s = t at hchange
  cases hchange with
  | aside ht =>
      obtain ⟨_, _, _, rfl⟩ := ht
      exact h
  | tactic ht => exact h.extended ht
  | postulate => exact h.certified _ _ _
  | suppose _ => exact h.supposed _
  | assumeIn _ _ => exact (h.supposed _).of_subset rfl fun _ _ hid => hid
  | openScope => exact h
  | introduce _ ht _ =>
      obtain ⟨_, _, _, rfl⟩ := ht
      exact h
  | conclude _ _ => exact h
  | close hinnermost _ =>
      exact ((h.retract hinnermost.1).exported _ _).of_subset rfl fun _ _ hid => hid
  | discard hscope _ => exact h.retract hscope
  | speculateFrom _ => exact h
  | settle => exact h.settled _

theorem Catalogued.initial : Catalogued {} := by
  simp [Catalogued, known]

theorem Catalogued.run (h : s.Catalogued) (calls : List Call) : (run s calls).Catalogued := by
  induction calls generalizing s with
  | nil => exact h
  | cons call calls ih => exact ih (h.call call)

end Invariant

/-- Whenever a run is not speculating, what is known about a variable that is not retired are the
relations in the ledger in which it occurs and which hold, each of them once. -/
theorem known_exact (calls : List Call) (h : (run {} calls).speculation = none) (v : Variable)
    (hv : v ∉ (run {} calls).retired) :
    ((run {} calls).known v).Nodup ∧ ∀ id, id ∈ (run {} calls).known v ↔
      ∃ e, Session.entry? (run {} calls) id = some e ∧ e.holds = true ∧
        e.statement.isAbout v = true := by
  have hinformed : (run {} calls).Informed := Informed.initial.run calls
  have hpending : (run {} calls).pending = [] := by
    rw [Session.pending, h, Option.getD_none]
  refine ⟨hinformed.nodup v hv, fun id => ?_⟩
  rw [hinformed.exact v hv, hpending]
  simp [Tells]

/-- An outer scope is given up while an inner one is open, which takes away the fact assumed in it
and leaves the one assumed inside. Of two relations postulated in a speculation one is kept. -/
theorem known_exact_of_discarded_and_settled :
    let y : Variable := ⟨1, "y"⟩
    let holding (name : String) : Proposition := .relation name [.var y]
    let calls : List Call :=
      [.newVariable "y", .openScope "outer", .assumeIn ⟨0⟩ (holding "P"), .openScope "inner",
        .assumeIn ⟨1⟩ (holding "Q"), .discard ⟨0⟩, .speculateFrom, .postulate (holding "R"),
        .postulate (holding "S"), .settle [⟨3⟩]]
    (run {} calls).speculation = none ∧ y ∉ (run {} calls).retired ∧
      (run {} calls).known y = [⟨1⟩, ⟨3⟩] ∧ ((run {} calls).known y).Nodup ∧
      ∀ id, id ∈ (run {} calls).known y ↔
        ∃ e, Session.entry? (run {} calls) id = some e ∧ e.holds = true ∧
          e.statement.isAbout y = true := by
  intro y holding calls
  have hspeculation : (run {} calls).speculation = none := by decide
  have hretired : y ∉ (run {} calls).retired := by decide
  exact ⟨hspeculation, hretired, by decide, known_exact calls hspeculation y hretired⟩

end Session

end Entailment
