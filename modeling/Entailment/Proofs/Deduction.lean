import Entailment.Session.Scope
import Entailment.Session.Speculation
import Mathlib.Data.List.Forall2

/-!
# Outcomes of deductions

A deduction either answers or fails, and in both cases leaves a session behind.
`Ensures` states what holds of either outcome. The rules below compose such
statements along the steps of a deduction, so later proofs follow the text of
a tactic from its first requirement to the statement it enters and never open
the representation of deductions.

The second half says what entering a statement does to a session: the ledger
grows by one entry, earlier entries stay, and only the innermost scope and the
known facts may record the newcomer.
-/
namespace Entailment.Session

/-- The session left behind, whether a deduction succeeds or fails. -/
def after {α : Type} (a : Action α) (s : Session) : Session :=
  match a s with
  | .ok _ t => t
  | .error _ t => t

/-- What holds of the answer and the session on success, and of the session on failure. -/
def Ensures {α : Type} (a : Action α) (s : Session) (ok : α → Session → Prop)
    (failed : Session → Prop) : Prop :=
  match a s with
  | .ok r t => ok r t
  | .error _ t => failed t

section Rules
variable {α β : Type} {s : Session} {ok : α → Session → Prop} {failed : Session → Prop}

theorem Ensures.answer {a : Action α} {r : α} {t : Session} (h : Ensures a s ok failed)
    (ha : a s = .ok r t) : ok r t := by
  simpa only [Ensures, ha] using h

theorem Ensures.left {a : Action α} {P : Session → Prop}
    (h : Ensures a s (fun _ t => P t) P) : P (after a s) := by
  unfold Ensures at h
  unfold after
  split <;> simp_all only

theorem Ensures.mono {a : Action α} {ok' : α → Session → Prop} {failed' : Session → Prop}
    (h : Ensures a s ok failed) (hok : ∀ r t, ok r t → ok' r t)
    (hfailed : ∀ t, failed t → failed' t) : Ensures a s ok' failed' := by
  unfold Ensures at h ⊢
  split at h
  · exact hok _ _ h
  · exact hfailed _ h

theorem Ensures.bind {a : Action β} {k : β → Action α} {mid : β → Session → Prop}
    (h : Ensures a s mid failed) (hk : ∀ r t, mid r t → Ensures (k r) t ok failed) :
    Ensures (a >>= k) s ok failed := by
  change Ensures (EStateM.bind a k) s ok failed
  unfold Ensures EStateM.bind
  unfold Ensures at h
  cases heq : a s with
  | ok r t =>
      simp only [heq] at h
      exact hk r t h
  | error e t => simpa only [heq] using h

theorem Ensures.pure {r : α} (h : ok r s) : Ensures (Pure.pure r) s ok failed := h

theorem Ensures.throw {e : Failure} (h : failed s) :
    Ensures (MonadExcept.throw e : Action α) s ok failed := h

theorem Ensures.get_bind {k : Session → Action α} (h : Ensures (k s) s ok failed) :
    Ensures (MonadState.get >>= k) s ok failed := h

theorem Ensures.modify_bind {f : Session → Session} {k : PUnit → Action α}
    (h : Ensures (k ⟨⟩) (f s) ok failed) :
    Ensures ((modify f : Action PUnit) >>= k) s ok failed := h

theorem Ensures.modify {ok : PUnit → Session → Prop} {f : Session → Session}
    (h : ok ⟨⟩ (f s)) : Ensures (modify f : Action PUnit) s ok failed := h

theorem Ensures.refuse {rule : Rule} {obstacle : Obstacle} {about : List Fact} (h : failed s) :
    Ensures (refuse rule obstacle about : Action α) s ok failed := h

theorem Ensures.breach {scope : Scope} {b : Breach} (h : failed s) :
    Ensures (breach scope b : Action α) s ok failed := h

/-- After a condition that makes a deduction fail, the rest may rely on its negation. -/
theorem Ensures.guard {c : Prop} [Decidable c] {e : Failure} {k : PUnit → Action α}
    (hfailed : failed s) (h : ¬c → Ensures (k ⟨⟩) s ok failed) :
    Ensures (if c then MonadExcept.throw e >>= k else k ⟨⟩) s ok failed := by
  split
  next => exact hfailed
  next hc => exact h hc

/-- A loop keeps what each of its rounds keeps, and collects one answer for each item. -/
theorem Ensures.mapM {f : β → Action α} {I : Session → Prop} {R : β → α → Prop} {xs : List β}
    (h : ∀ x ∈ xs, ∀ t, I t → Ensures (f x) t (fun r u => I u ∧ R x r) failed) (hs : I s) :
    Ensures (xs.mapM f) s (fun rs t => I t ∧ List.Forall₂ R xs rs) failed := by
  induction xs generalizing s with
  | nil => exact ⟨hs, .nil⟩
  | cons x xs ih =>
      rw [List.mapM_cons]
      refine .bind (h x (by simp) s hs) fun r t ht => ?_
      refine .bind (ih (fun y hy => h y (by simp [hy])) ht.1) fun rs u hu => ?_
      exact .pure ⟨hu.1, .cons ht.2 hu.2⟩

end Rules

/-- The ledger holds this very statement under this number. -/
def Lists (s : Session) (f : Fact) : Prop :=
  ∃ e, s.entry? f.id = some e ∧ e.statement = f.statement

/-- The session currently counts this fact as proven. -/
def Proves (s : Session) (f : Fact) : Prop :=
  ∃ e, s.entry? f.id = some e ∧ e.statement = f.statement ∧ e.holds = true

/-- The session currently assumes this fact. -/
def Assumes (s : Session) (f : Fact) : Prop :=
  ∃ e, s.entry? f.id = some e ∧ e.statement = f.statement ∧ e.assumed = true

theorem Proves.lists {s : Session} {f : Fact} (h : s.Proves f) : s.Lists f :=
  h.imp fun _ he => ⟨he.1, he.2.1⟩

theorem Assumes.lists {s : Session} {f : Fact} (h : s.Assumes f) : s.Lists f :=
  h.imp fun _ he => ⟨he.1, he.2.1⟩

theorem Proves.holds {s : Session} {f : Fact} (h : s.Proves f) : s.holds f.id = true := by
  obtain ⟨e, he, -, hh⟩ := h
  simp [Session.holds, he, hh]

theorem proves_of_provenFact? {s : Session} {p : Proposition} {f : Fact}
    (h : s.provenFact? p = some f) : s.Proves f := by
  unfold provenFact? fact? at h
  obtain ⟨hf, hh⟩ := Option.filter_eq_some_iff.mp h
  obtain ⟨id, -, hid⟩ := Option.bind_eq_some_iff.mp hf
  obtain ⟨e, he, rfl⟩ := Option.map_eq_some_iff.mp hid
  refine ⟨e, he, rfl, ?_⟩
  simpa [Session.holds, he] using hh

theorem provenFact?_proposition {s : Session} {f : Fact} (h : s.Proves f) :
    s.provenFact? f.proposition = some f := by
  obtain ⟨e, he, hstatement, hholds⟩ := h
  have hmark : f.proposition.mark? = some f.id := by
    unfold Fact.proposition
    cases f.statement <;> rfl
  have hfact : s.fact? f.proposition = some f := by
    simp [fact?, hmark, he, hstatement]
  rw [provenFact?, hfact, Option.filter_some, Session.holds, he]
  simp [hholds]

theorem forall_mem_of_forall₂ {α β : Type} {P : β → Prop} {xs : List α} {ys : List β}
    (h : List.Forall₂ (fun _ y => P y) xs ys) : ∀ y ∈ ys, P y := by
  induction h with
  | nil => simp
  | cons hy _ ih => simpa using ⟨hy, ih⟩

theorem mem_dependencies {s : Session} {id a : FactId} {e : Entry} (he : s.entry? id = some e) :
    a ∈ s.dependencies id ↔ a ∈ e.dependencies := by
  simp [dependencies, he]

theorem mem_union {s : Session} {ids : List FactId} {a : FactId} :
    a ∈ s.union ids ↔ ∃ id ∈ ids, a ∈ s.dependencies id := by
  have hadd : ∀ xs acc : List FactId,
      a ∈ xs.foldl (fun acc x => if x ∈ acc then acc else acc ++ [x]) acc ↔ a ∈ acc ∨ a ∈ xs := by
    intro xs
    induction xs with
    | nil => simp
    | cons x xs ih =>
        intro acc
        rw [List.foldl_cons, ih]
        split
        next hx =>
          constructor
          · rintro (h | h) <;> simp [h]
          · rintro (h | h)
            · exact .inl h
            · rcases List.mem_cons.mp h with rfl | h
              · exact .inl hx
              · exact .inr h
        next => simp [or_assoc]
  have hall : ∀ (ids acc : List FactId),
      a ∈ ids.foldl (fun acc id => (s.dependencies id).foldl
        (fun acc x => if x ∈ acc then acc else acc ++ [x]) acc) acc ↔
      a ∈ acc ∨ ∃ id ∈ ids, a ∈ s.dependencies id := by
    intro ids
    induction ids with
    | nil => simp
    | cons id ids ih =>
        intro acc
        rw [List.foldl_cons, ih, hadd]
        simp [or_assoc]
  rw [union, hall]
  simp

/-- A deduction that leaves the session alone, and what holds of its answer. -/
def Reads {α : Type} (a : Action α) (s : Session) (P : α → Prop) : Prop :=
  Ensures a s (fun x t => t = s ∧ P x) (· = s)

section Requirements
variable {α β : Type} {s : Session} {P : β → Prop} {Q : α → Prop}

theorem Reads.ensures_bind {a : Action β} {k : β → Action α} {ok : α → Session → Prop}
    {failed : Session → Prop} (ha : Reads a s P) (h : failed s)
    (hk : ∀ x, P x → Ensures (k x) s ok failed) : Ensures (a >>= k) s ok failed := by
  have hleft : Ensures a s (fun x t => t = s ∧ P x) failed := by
    refine Ensures.mono ha (fun _ _ hx => hx) ?_
    intro t ht
    rw [ht]
    exact h
  apply hleft.bind
  rintro x t ⟨rfl, hx⟩
  exact hk x hx

theorem Reads.bind {a : Action β} {k : β → Action α} (ha : Reads a s P)
    (hk : ∀ x, P x → Reads (k x) s Q) : Reads (a >>= k) s Q := ha.ensures_bind rfl hk

theorem Reads.get_bind {k : Session → Action α} (h : Reads (k s) s Q) :
    Reads (MonadState.get >>= k) s Q := h

theorem Reads.pure {x : α} (h : Q x) : Reads (Pure.pure x) s Q := ⟨rfl, h⟩

theorem Reads.throw {e : Failure} : Reads (MonadExcept.throw e : Action α) s Q := rfl

theorem Reads.refuse {rule : Rule} {obstacle : Obstacle} {about : List Fact} :
    Reads (Session.refuse rule obstacle about : Action α) s Q := rfl

theorem Reads.guard {c : Prop} [Decidable c] {e : Failure} {k : PUnit → Action α}
    (h : ¬c → Reads (k ⟨⟩) s Q) : Reads (if c then MonadExcept.throw e >>= k else k ⟨⟩) s Q :=
  Ensures.guard rfl h

theorem Reads.mapM {f : β → Action α} {R : β → α → Prop} {xs : List β}
    (h : ∀ x ∈ xs, Reads (f x) s (R x)) : Reads (xs.mapM f) s (List.Forall₂ R xs) := by
  refine Ensures.mapM ?_ rfl
  intro x hx t ht
  subst ht
  exact h x hx

theorem require_reads (rule : Rule) (p : Option Proposition) (s : Session) :
    Reads (require rule p) s s.Proves := by
  cases p with
  | none => exact .throw
  | some p =>
      unfold require
      refine .get_bind ?_
      split
      next f hf => exact .pure (proves_of_provenFact? hf)
      next => exact .throw

theorem require_proposition_reads (rule : Rule) {f : Fact} {s : Session} (h : s.Proves f) :
    Reads (require rule (some f.proposition)) s (· = f) := by
  unfold require
  refine .get_bind ?_
  rw [provenFact?_proposition h]
  exact .pure rfl

theorem requireAll_reads (rule : Rule) (ps : List (Option Proposition)) (s : Session) :
    Reads (requireAll rule ps) s fun fs => fs.length = ps.length ∧ ∀ f ∈ fs, s.Proves f := by
  have hall : Reads (requireAll rule ps) s (List.Forall₂ (fun _ f => s.Proves f) ps) :=
    .mapM fun p _ => require_reads rule p s
  refine Ensures.mono hall ?_ fun _ ht => ht
  rintro fs t ⟨ht, hfs⟩
  exact ⟨ht, hfs.length_eq.symm, forall_mem_of_forall₂ hfs⟩

/-- A premise that counts as proven is at hand. -/
theorem require_bind_run {rule : Rule} {k : Fact → Action α} {f : Fact} (h : s.Proves f) :
    (require rule (some f.proposition) >>= k) s = k f s := by
  have hrequire : Ensures (require rule (some f.proposition)) s (fun g t => g = f ∧ t = s)
      fun _ => False := by
    refine Ensures.get_bind ?_
    rw [provenFact?_proposition h]
    exact .pure ⟨rfl, rfl⟩
  unfold Ensures at hrequire
  change EStateM.bind _ k s = _
  unfold EStateM.bind
  split at hrequire
  next g t hok => rw [hok, hrequire.1, hrequire.2]
  next => exact hrequire.elim

/-- Premises that all count as proven are at hand. -/
theorem requireAll_bind_run {rule : Rule} {k : List Fact → Action α} {fs : List Fact}
    (h : ∀ f ∈ fs, s.Proves f) :
    (requireAll rule (fs.map (some ·.proposition)) >>= k) s = k fs s := by
  unfold requireAll
  induction fs generalizing k with
  | nil => rfl
  | cons f fs ih =>
      obtain ⟨hf, hfs⟩ := List.forall_mem_cons.mp h
      simp only [List.map_cons, List.mapM_cons, bind_assoc, pure_bind]
      rw [require_bind_run hf, ih hfs]

theorem Ensures.of_run_eq {a b : Action α} {ok : α → Session → Prop} {failed : Session → Prop}
    (h : Ensures b s ok failed) (hrun : a s = b s) : Ensures a s ok failed := by
  unfold Ensures at h ⊢
  rw [hrun]
  exact h

theorem Proves.require_bind {rule : Rule} {k : Fact → Action α} {ok : α → Session → Prop}
    {failed : Session → Prop} {f : Fact} (h : s.Proves f) (hk : Ensures (k f) s ok failed) :
    Ensures (require rule (some f.proposition) >>= k) s ok failed :=
  hk.of_run_eq (require_bind_run h)

end Requirements

/-- The session once a statement has been entered as proven. -/
def certified (s : Session) (p : Proposition) (i : Inference FactId) (d : List FactId) :
    Session := after (certify p i d) s

/-- The session once a statement has been entered as an assumption. -/
def supposed (s : Session) (p : Proposition) : Session := after (suppose p) s

/-- The fact that the next statement entered becomes. -/
def nextFact (s : Session) (p : Proposition) : Fact := ⟨⟨s.ledger.size⟩, p.strip⟩

theorem modifyGet_run {α : Type} (g : Session → α × Session) (s : Session) :
    (modifyGet g : Action α) s = .ok (g s).1 (g s).2 := rfl

theorem certify_run (s : Session) (p : Proposition) (i : Inference FactId) (d : List FactId) :
    certify p i d s = .ok (s.nextFact p) (s.certified p i d) := by
  unfold certified after
  cases h : s.speculation <;> simp [certify, modifyGet_run, h, nextFact]

theorem Ensures.certify {s : Session} {p : Proposition} {i : Inference FactId} {d : List FactId}
    {ok : Fact → Session → Prop} {failed : Session → Prop}
    (h : ok (s.nextFact p) (s.certified p i d)) : Ensures (certify p i d) s ok failed := by
  simpa only [Ensures, certify_run] using h

theorem Ensures.suppose {s : Session} {p : Proposition} {ok : Fact → Session → Prop}
    {failed : Session → Prop} (h : ok (s.nextFact p) (s.supposed p)) :
    Ensures (suppose p) s ok failed := h

theorem Ensures.derive {s : Session} {p : Proposition} {i : Inference FactId}
    {premises : List Fact} {ok : Fact → Session → Prop} {failed : Session → Prop}
    (h : ok (s.nextFact p) (s.certified p i (s.union (premises.map Fact.id)))) :
    Ensures (derive p i premises) s ok failed := by
  unfold Session.derive
  exact .get_bind (.certify h)

section Entries
variable (s : Session) (p : Proposition) (i : Inference FactId) (d : List FactId) (f : Fact)

@[simp] theorem learn_ledger : (s.learn f).ledger = s.ledger := by unfold learn; split <;> rfl
@[simp] theorem learn_scopes : (s.learn f).scopes = s.scopes := by unfold learn; split <;> rfl
@[simp] theorem learn_stack : (s.learn f).stack = s.stack := by unfold learn; split <;> rfl
@[simp] theorem learn_speculation : (s.learn f).speculation = s.speculation := by
  unfold learn; split <;> rfl

@[simp] theorem record_ledger : (s.record f).ledger = s.ledger := by
  unfold record; split <;> simp [modifyScope]
@[simp] theorem record_stack : (s.record f).stack = s.stack := by
  unfold record; split <;> simp [modifyScope]
@[simp] theorem record_speculation : (s.record f).speculation = s.speculation := by
  unfold record; split <;> simp [modifyScope]

theorem certified_eq_record (h : s.speculation = none) :
    s.certified p i d =
      { s with ledger := s.ledger.push ⟨p.strip, i, true, false, d⟩ }.record (s.nextFact p) := by
  simp [certified, after, certify, modifyGet_run, h, nextFact]

theorem certified_eq_noted {derived : List FactId} (h : s.speculation = some derived) :
    s.certified p i d =
      { s with
        ledger := s.ledger.push ⟨p.strip, i, true, false, d⟩
        speculation := some (⟨s.ledger.size⟩ :: derived) } := by
  simp [certified, after, certify, modifyGet_run, h]

@[simp] theorem certified_ledger :
    (s.certified p i d).ledger = s.ledger.push ⟨p.strip, i, true, false, d⟩ := by
  cases h : s.speculation with
  | none => rw [certified_eq_record s p i d h, record_ledger]
  | some derived => rw [certified_eq_noted s p i d h]

@[simp] theorem certified_stack : (s.certified p i d).stack = s.stack := by
  cases h : s.speculation with
  | none => rw [certified_eq_record s p i d h, record_stack]
  | some derived => rw [certified_eq_noted s p i d h]

theorem certified_speculation :
    (s.certified p i d).speculation = s.speculation.map (⟨s.ledger.size⟩ :: ·) := by
  cases h : s.speculation with
  | none => rw [certified_eq_record s p i d h, record_speculation, h, Option.map_none]
  | some derived => rw [certified_eq_noted s p i d h, Option.map_some]

@[simp] theorem supposed_ledger :
    (s.supposed p).ledger =
      s.ledger.push ⟨p.strip, { rule := .assumption }, false, true, [⟨s.ledger.size⟩]⟩ := by
  change (Session.learn _ _).ledger = _
  rw [learn_ledger]

@[simp] theorem supposed_scopes : (s.supposed p).scopes = s.scopes := learn_scopes _ _

@[simp] theorem supposed_stack : (s.supposed p).stack = s.stack := learn_stack _ _

@[simp] theorem supposed_speculation : (s.supposed p).speculation = s.speculation :=
  learn_speculation _ _

theorem entry?_of_push {s t : Session} {e : Entry} (h : t.ledger = s.ledger.push e)
    (id : FactId) : t.entry? id = if id.index = s.ledger.size then some e else s.entry? id := by
  simp only [Session.entry?, h, Array.getElem?_push]

theorem entry?_certified (id : FactId) :
    Session.entry? (s.certified p i d) id =
      if id.index = s.ledger.size then some ⟨p.strip, i, true, false, d⟩ else s.entry? id :=
  entry?_of_push (certified_ledger s p i d) id

theorem entry?_supposed (id : FactId) :
    Session.entry? (s.supposed p) id =
      if id.index = s.ledger.size then
        some ⟨p.strip, { rule := .assumption }, false, true, [⟨s.ledger.size⟩]⟩
      else s.entry? id :=
  entry?_of_push (supposed_ledger s p) id

theorem entry?_lt {s : Session} {id : FactId} {e : Entry} (h : s.entry? id = some e) :
    id.index < s.ledger.size :=
  (Array.getElem?_eq_some_iff.mp h).choose

/-- Entries are never overwritten by what is entered after them. -/
theorem entry?_of_push_of_some {s t : Session} {e new : Entry} {id : FactId}
    (h : t.ledger = s.ledger.push new) (he : s.entry? id = some e) : t.entry? id = some e := by
  rw [entry?_of_push h, if_neg (Nat.ne_of_lt (entry?_lt he))]
  exact he

theorem Proves.certified {s : Session} {f : Fact} (h : s.Proves f) (p : Proposition)
    (i : Inference FactId) (d : List FactId) : (s.certified p i d).Proves f := by
  obtain ⟨e, he, hrest⟩ := h
  exact ⟨e, entry?_of_push_of_some (certified_ledger s p i d) he, hrest⟩

/-- The statements that an entry was derived from. -/
def grounds (s : Session) (id : FactId) : List Proposition :=
  (((s.entry? id).map (·.inference.premises)).getD []).filterMap fun j =>
    (s.entry? j).map Entry.statement

theorem statement_mem_grounds {s : Session} {f : Fact} {i : Inference FactId} (hf : s.Lists f)
    (hi : f.id ∈ i.premises) (p : Proposition) (d : List FactId) :
    f.statement ∈ (s.certified p i d).grounds (s.nextFact p).id := by
  obtain ⟨e, he, hstatement⟩ := hf
  have hnew : Session.entry? (s.certified p i d) (s.nextFact p).id =
      some ⟨p.strip, i, true, false, d⟩ := (entry?_certified s p i d _).trans (if_pos rfl)
  unfold grounds
  rw [hnew, List.mem_filterMap]
  refine ⟨f.id, hi, ?_⟩
  rw [entry?_of_push_of_some (certified_ledger s p i d) he, Option.map_some, hstatement]

theorem scope?_modifyScope (c c' : ScopeId) (g : Scope → Scope) :
    (s.modifyScope c g).scope? c' = if c = c' then (s.scope? c').map g else s.scope? c' := by
  have hc : c.index = c'.index ↔ c = c' := by
    cases c; cases c'; simp
  simp only [scope?, modifyScope, Array.getElem?_modify, hc]

theorem scope?_record (c : ScopeId) :
    (s.record f).scope? c = (s.scope? c).map fun scope =>
      if s.stack.head? = some c then { scope with proven := scope.proven ++ [f.id] }
      else scope := by
  unfold record
  cases hs : s.stack with
  | nil => simp [scope?]
  | cons top rest =>
      have hm := scope?_modifyScope s top c fun o => { o with proven := o.proven ++ [f.id] }
      simp only [scope?, learn_scopes] at hm ⊢
      rw [hm]
      by_cases h : top = c <;> simp [h]

theorem scope?_certified (c : ScopeId) :
    (s.certified p i d).scope? c = (s.scope? c).map fun scope =>
      if s.speculation = none ∧ s.stack.head? = some c then
        { scope with proven := scope.proven ++ [⟨s.ledger.size⟩] }
      else scope := by
  cases h : s.speculation with
  | none =>
      rw [certified_eq_record s p i d h, scope?_record]
      simp [scope?, nextFact]
  | some derived =>
      rw [certified_eq_noted s p i d h]
      simp [scope?]

end Entries

end Entailment.Session
