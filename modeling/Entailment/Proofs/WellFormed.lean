import Entailment.Proofs.Atomicity
import Entailment.Proofs.Contradictions
import Entailment.Proofs.FirstOrderSoundness
import Entailment.Proofs.Rewriting

/-!
# Well-formed sessions

The constructors refuse a connective with fewer than two members. Variables are numbered, and a
session knows the number of the next one. So in what a caller can come by, every connective has two
members or more, and no quantifier binds a variable that is still to come. Replacing terms by others
changes neither, and so no deduction does.

A session that is only ever given such propositions is well-formed: all that its ledger states and
all that its scopes suppose is of this kind.
-/
namespace Entailment

namespace Proposition

mutual

/-- Every connective has two members or more, and every bound variable has a number below `n`. -/
def isWellFormed (n : Nat) : Proposition → Bool
  | .relation _ _ _ | .contradiction _ => true
  | .not p _ => p.isWellFormed n
  | .junction _ ps _ => 2 ≤ ps.length && areWellFormed n ps
  | .implies a b _ | .iff a b _ => a.isWellFormed n && b.isWellFormed n
  | .quantified _ v _ p _ => v.id < n && p.isWellFormed n

def areWellFormed (n : Nat) : List Proposition → Bool
  | [] => true
  | p :: ps => p.isWellFormed n && areWellFormed n ps

end

section Forms
variable {n : Nat} {a b p : Proposition} {ps : List Proposition} {mark : Option FactId}

theorem areWellFormed_iff : areWellFormed n ps = true ↔ ∀ p ∈ ps, p.isWellFormed n = true := by
  induction ps with
  | nil => simp [areWellFormed]
  | cons p ps ih => simp [areWellFormed, ih]

@[simp] theorem isWellFormed_relation (name : String) (args : List Term) :
    isWellFormed n (.relation name args mark) = true := rfl

@[simp] theorem isWellFormed_contradiction : isWellFormed n (.contradiction mark) = true := rfl

@[simp] theorem isWellFormed_not : isWellFormed n (.not a mark) = a.isWellFormed n := rfl

@[simp] theorem isWellFormed_junction (c : Connective) :
    isWellFormed n (.junction c ps mark) = true ↔
      2 ≤ ps.length ∧ ∀ p ∈ ps, p.isWellFormed n = true := by
  rw [isWellFormed, Bool.and_eq_true, decide_eq_true_iff, areWellFormed_iff]

@[simp] theorem isWellFormed_implies : isWellFormed n (.implies a b mark) = true ↔
    a.isWellFormed n = true ∧ b.isWellFormed n = true := Bool.and_eq_true_iff

@[simp] theorem isWellFormed_iff : isWellFormed n (.iff a b mark) = true ↔
    a.isWellFormed n = true ∧ b.isWellFormed n = true := Bool.and_eq_true_iff

@[simp] theorem isWellFormed_quantified (q : Quantifier) (v : Variable) (domain : Option Term) :
    isWellFormed n (.quantified q v domain p mark) = true ↔
      v.id < n ∧ p.isWellFormed n = true := by
  rw [isWellFormed, Bool.and_eq_true, decide_eq_true_iff]

@[simp] theorem isWellFormed_withMark : (p.withMark mark).isWellFormed n = p.isWellFormed n := by
  cases p <;> rfl

@[simp] theorem isWellFormed_strip : p.strip.isWellFormed n = p.isWellFormed n :=
  isWellFormed_withMark

theorem isWellFormed_conjunction (h : ∀ p ∈ a :: ps, p.isWellFormed n = true) :
    (conjunction a ps).isWellFormed n = true := by
  cases ps with
  | nil => exact h a (by simp)
  | cons b ps => exact (isWellFormed_junction .and).mpr ⟨by simp, h⟩

theorem isWellFormed_clause (h : ∀ p ∈ ps, p.isWellFormed n = true) :
    (clause ps).isWellFormed n = true := by
  cases ps with
  | nil => exact isWellFormed_contradiction
  | cons a ps =>
      cases ps with
      | nil => exact h a (by simp)
      | cons b ps => exact (isWellFormed_junction .or).mpr ⟨by simp, h⟩

theorem isWellFormed_of_mem_children (h : p.isWellFormed n = true) (ha : a ∈ p.children) :
    a.isWellFormed n = true := by
  cases p with
  | relation | contradiction => cases ha
  | not | quantified => simp_all [children]
  | junction c ps m => exact ((isWellFormed_junction c).mp h).2 a ha
  | implies | iff =>
      simp only [children, List.mem_cons, List.not_mem_nil, or_false] at ha
      rcases ha with rfl | rfl <;> simp_all

end Forms

section Operations
variable {n : Nat} {p : Proposition}

theorem isWellFormed_mono {m : Nat} (h : p.isWellFormed n = true) (hm : n ≤ m) :
    p.isWellFormed m = true := by
  induction p using inductionOn with
  | relation | contradiction => simp
  | not p mark ih => simpa using ih (by simpa using h)
  | junction c ps mark ih =>
      obtain ⟨hlength, hall⟩ := (isWellFormed_junction c).mp h
      exact (isWellFormed_junction c).mpr ⟨hlength, fun q hq => ih q hq (hall q hq)⟩
  | implies a b mark iha ihb =>
      rw [isWellFormed_implies] at h ⊢
      exact ⟨iha h.1, ihb h.2⟩
  | iff a b mark iha ihb =>
      rw [isWellFormed_iff] at h ⊢
      exact ⟨iha h.1, ihb h.2⟩
  | quantified q v domain p mark ih =>
      rw [isWellFormed_quantified] at h ⊢
      exact ⟨Nat.lt_of_lt_of_le h.1 hm, ih h.2⟩

/-- A variable that is still to come is bound nowhere. -/
theorem binds_of_isWellFormed {v : Variable} (h : p.isWellFormed n = true) (hv : n ≤ v.id) :
    p.binds v = false := by
  induction p using inductionOn with
  | relation | contradiction => rfl
  | not p mark ih => exact ih (by simpa using h)
  | junction c ps mark ih =>
      rw [binds, bindsAny_eq_any, List.any_eq_false]
      intro q hq
      simp [ih q hq (((isWellFormed_junction c).mp h).2 q hq)]
  | implies a b mark iha ihb =>
      rw [isWellFormed_implies] at h
      simp [binds, iha h.1, ihb h.2]
  | iff a b mark iha ihb =>
      rw [isWellFormed_iff] at h
      simp [binds, iha h.1, ihb h.2]
  | quantified q w domain p mark ih =>
      rw [isWellFormed_quantified] at h
      have hne : w ≠ v := by
        rintro rfl
        exact Nat.not_lt.mpr hv h.1
      simp [binds, ih h.2, hne]

theorem length_replaceMembers (old new : Term) (paths : List Path) (i : Nat)
    (ps : List Proposition) : (replaceMembers old new paths i ps).length = ps.length := by
  induction ps generalizing i with
  | nil => rfl
  | cons p ps ih => rw [replaceMembers_cons, List.length_cons, List.length_cons, ih]

theorem exists_of_mem_replaceMembers {old new : Term} {paths : List Path} {i : Nat}
    {ps : List Proposition} (h : p ∈ replaceMembers old new paths i ps) :
    ∃ q ∈ ps, ∃ inner, p = q.replaceWithin old new inner := by
  induction ps generalizing i with
  | nil => cases h
  | cons q ps ih =>
      rw [replaceMembers_cons] at h
      rcases List.mem_cons.mp h with rfl | h
      · exact ⟨q, by simp, _, rfl⟩
      · obtain ⟨r, hr, hp⟩ := ih h
        exact ⟨r, by simp [hr], hp⟩

theorem isWellFormed_replaceWithin {old new : Term} (inner : Option (List Path))
    (h : p.isWellFormed n = true)
    (ih : ∀ paths, (p.replace old new paths).isWellFormed n = true) :
    (p.replaceWithin old new inner).isWellFormed n = true := by
  cases inner with
  | none => exact h
  | some paths => exact ih paths

/-- Replacing terms keeps connectives and bound variables as they are. -/
theorem isWellFormed_replace (old new : Term) (paths : List Path) (h : p.isWellFormed n = true) :
    (p.replace old new paths).isWellFormed n = true := by
  induction p using inductionOn generalizing paths with
  | relation | contradiction => simp [replace]
  | not p mark ih =>
      rw [isWellFormed_not] at h
      rw [replace_not, isWellFormed_not]
      exact isWellFormed_replaceWithin _ h fun paths => ih paths h
  | junction c ps mark ih =>
      obtain ⟨hlength, hall⟩ := (isWellFormed_junction c).mp h
      rw [replace, isWellFormed_junction, length_replaceMembers]
      refine ⟨hlength, fun q hq => ?_⟩
      obtain ⟨r, hr, inner, rfl⟩ := exists_of_mem_replaceMembers hq
      exact isWellFormed_replaceWithin inner (hall r hr) fun paths => ih r hr paths (hall r hr)
  | implies a b mark iha ihb =>
      rw [isWellFormed_implies] at h
      rw [replace_implies, isWellFormed_implies]
      exact ⟨isWellFormed_replaceWithin _ h.1 fun paths => iha paths h.1,
        isWellFormed_replaceWithin _ h.2 fun paths => ihb paths h.2⟩
  | iff a b mark iha ihb =>
      rw [isWellFormed_iff] at h
      rw [replace_iff, isWellFormed_iff]
      exact ⟨isWellFormed_replaceWithin _ h.1 fun paths => iha paths h.1,
        isWellFormed_replaceWithin _ h.2 fun paths => ihb paths h.2⟩
  | quantified q v domain p mark ih =>
      rw [isWellFormed_quantified] at h
      rw [replace]
      split
      next => exact (isWellFormed_quantified q v domain).mpr h
      next => exact (isWellFormed_quantified q v _).mpr ⟨h.1, ih paths h.2⟩

theorem isWellFormed_apply (σ : Substitution) (h : p.isWellFormed n = true) :
    (σ.apply p).isWellFormed n = true := by
  induction p using inductionOn generalizing σ with
  | relation | contradiction => simp [Substitution.apply]
  | not p mark ih =>
      rw [isWellFormed_not] at h
      rw [Substitution.apply, isWellFormed_not]
      exact ih σ h
  | junction c ps mark ih =>
      obtain ⟨hlength, hall⟩ := (isWellFormed_junction c).mp h
      rw [Substitution.apply, Substitution.applyMembers_eq_map, isWellFormed_junction,
        List.length_map]
      exact ⟨hlength, List.forall_mem_map.mpr fun q hq => ih q hq σ (hall q hq)⟩
  | implies a b mark iha ihb =>
      rw [isWellFormed_implies] at h
      rw [Substitution.apply, isWellFormed_implies]
      exact ⟨iha σ h.1, ihb σ h.2⟩
  | iff a b mark iha ihb =>
      rw [isWellFormed_iff] at h
      rw [Substitution.apply, isWellFormed_iff]
      exact ⟨iha σ h.1, ihb σ h.2⟩
  | quantified q v domain p mark ih =>
      rw [isWellFormed_quantified] at h
      rw [Substitution.apply, isWellFormed_quantified]
      exact ⟨h.1, ih _ h.2⟩

theorem isWellFormed_peel {q : Proposition} {layers : List (Variable × Option Term)}
    (h : Session.peel q = (layers, p)) (hq : q.isWellFormed n = true) :
    p.isWellFormed n = true := by
  fun_induction Session.peel q generalizing layers with
  | case1 v domain inner mark layers' inner' hpeel ih =>
      cases h
      exact ih hpeel ((isWellFormed_quantified _ _ _).mp hq).2
  | case2 q _ =>
      cases h
      exact hq

theorem isWellFormed_body (h : p.isWellFormed n = true) : p.body.isWellFormed n = true := by
  unfold body
  split
  next => simp_all [rel]
  next => simp_all [rel]
  next => simp_all
  next => exact h

end Operations

end Proposition

section Rules
open Proposition
variable {n : Nat} {r : Rule} {ps : List Proposition} {p : Proposition}

/-- Whether a conclusion can have parts that are in none of the premises. -/
def Rule.addsParts : Rule → Bool
  | .postulate | .disjunctionIntro | .thusForall | .thusThereExists | .isSpecialCaseOf => true
  | _ => false

theorem isWellFormed_of_literal {q : Proposition} (hq : q.isWellFormed n = true)
    (hp : p ∈ Session.literals q) : p.isWellFormed n = true := by
  unfold Session.literals at hp
  split at hp
  next members mark => exact isWellFormed_of_mem_children hq hp
  next => rwa [List.mem_singleton.mp hp]

/-- Rules that only take premises apart and put the parts together conclude what is well-formed
from what is. -/
theorem Concludes.isWellFormed (h : Concludes r ps p) (hr : r.addsParts = false)
    (hps : ∀ q ∈ ps, q.isWellFormed n = true) : p.isWellFormed n = true := by
  cases h with
  | postulate | disjunctionIntro | thusForall | thusThereExists | thusThereExistsIn
  | isSpecialCaseOf => cases hr
  | modusPonens | modusTollens | hypotheticalSyllogism | doubleNegation | contrapositive | iffIntro
  | iffForward | iffBackward => simp_all
  | existentialElim => simp_all
  | conjunctionIntro hlength => exact (isWellFormed_junction _).mpr ⟨hlength, hps⟩
  | conjunctionElim hp =>
      exact ((isWellFormed_junction .and).mp (hps _ List.mem_cons_self)).2 p hp
  | @resolve _ members rs remaining ns mark _ _ hremaining =>
      have hmembers := ((isWellFormed_junction .or).mp
        (hps (.junction .or members mark) (by simp))).2
      refine isWellFormed_clause fun q hq => hmembers q ?_
      rw [hremaining] at hq
      exact List.mem_of_mem_filter hq
  | @resolveClauses a b i j remaining _ hremaining =>
      refine isWellFormed_clause fun q hq => ?_
      rw [hremaining] at hq
      rcases List.mem_append.mp (Session.mem_distinct hq) with hq | hq
      · exact isWellFormed_of_literal (hps a (by simp)) (List.mem_of_mem_eraseIdx hq)
      · exact isWellFormed_of_literal (hps b (by simp)) (List.mem_of_mem_eraseIdx hq)
  | @exorElim a first members rest i mark _ hrest =>
      have hmembers := ((isWellFormed_junction .exor).mp
        (hps (.junction .exor members mark) (by simp))).2
      refine isWellFormed_conjunction fun q hq => ?_
      rw [← hrest] at hq
      obtain ⟨c, hc, rfl⟩ := List.mem_map.mp hq
      rw [isWellFormed_not]
      exact hmembers c (List.mem_of_mem_eraseIdx hc)
  | contradicts | reflexivity | symmetry | bySimplification | bySimplificationNot | transitive =>
      simp [rel]
  | @inParticular v inner t mark =>
      have hinner := hps (.quantified .all v none inner mark) (by simp)
      exact isWellFormed_replace _ _ _ ((isWellFormed_quantified _ _ _).mp hinner).2
  | @inParticularIn v inner t set mark _ =>
      have hinner := hps (.quantified .all v (some set) inner mark) (by simp)
      exact isWellFormed_replace _ _ _ ((isWellFormed_quantified _ _ _).mp hinner).2
  | @quantifiedModusPonens a q _ b layers σ ms mark hpeel _ _ _ _ =>
      have hbody := isWellFormed_peel hpeel (hps q (by simp))
      exact isWellFormed_apply σ (isWellFormed_implies.mp hbody).2
  | substitute => exact isWellFormed_replace _ _ _ (hps _ (by simp))

end Rules

/-- What is assumed is well-formed, and the variables that are introduced have numbers below `n`. -/
def Supposition.isWellFormed (n : Nat) : Supposition → Bool
  | .introduced v => v.id < n
  | .assumed f => f.statement.isWellFormed n

theorem Supposition.isWellFormed_mono {n m : Nat} {x : Supposition}
    (h : x.isWellFormed n = true) (hm : n ≤ m) : x.isWellFormed m = true := by
  cases x with
  | introduced v =>
      simp only [isWellFormed, decide_eq_true_eq] at h ⊢
      omega
  | assumed f => exact Proposition.isWellFormed_mono h hm

namespace Layer
variable {n : Nat}

/-- The same for what closing a scope puts around a conclusion. -/
def isWellFormed (n : Nat) : Layer → Bool
  | .each v | .eachIn v _ => v.id < n
  | .given first rest => (first :: rest).all (Proposition.isWellFormed n)

theorem isWellFormed_ofLog {log : List Supposition} (h : ∀ x ∈ log, x.isWellFormed n = true) :
    ∀ layer ∈ ofLog log, layer.isWellFormed n = true := by
  fun_induction ofLog log with
  | case1 => simp
  | case2 v => simpa [Supposition.isWellFormed, isWellFormed] using h
  | case3 v w rest ih =>
      obtain ⟨hv, hrest⟩ := List.forall_mem_cons.mp h
      exact List.forall_mem_cons.mpr ⟨hv, ih hrest⟩
  | case4 v f rest set hset ih =>
      obtain ⟨hv, hrest⟩ := List.forall_mem_cons.mp h
      exact List.forall_mem_cons.mpr ⟨hv, ih (List.forall_mem_cons.mp hrest).2⟩
  | case5 v f rest hset ih =>
      obtain ⟨hv, hrest⟩ := List.forall_mem_cons.mp h
      exact List.forall_mem_cons.mpr ⟨hv, ih hrest⟩
  | case6 f rest p ps layers hlayers ih =>
      obtain ⟨hf, hrest⟩ := List.forall_mem_cons.mp h
      rw [hlayers] at ih
      obtain ⟨hgiven, hrest⟩ := List.forall_mem_cons.mp (ih hrest)
      refine List.forall_mem_cons.mpr ⟨?_, hrest⟩
      rw [isWellFormed, List.all_cons, Bool.and_eq_true]
      exact ⟨hf, hgiven⟩
  | case7 f rest hother ih =>
      obtain ⟨hf, hrest⟩ := List.forall_mem_cons.mp h
      refine List.forall_mem_cons.mpr ⟨?_, ih hrest⟩
      rw [isWellFormed, List.all_cons, List.all_nil, Bool.and_true]
      exact hf

theorem isWellFormed_wrap {layer : Layer} {p q : Proposition} (h : layer.wrap p = .ok q)
    (hlayer : layer.isWellFormed n = true) (hp : p.isWellFormed n = true) :
    q.isWellFormed n = true := by
  cases layer with
  | each v =>
      rw [wrap] at h
      split_ifs at h
      · cases h
        exact (Proposition.isWellFormed_quantified _ _ _).mpr ⟨of_decide_eq_true hlayer, hp⟩
      · cases h
        exact hp
  | eachIn v set =>
      rw [wrap] at h
      split_ifs at h
      cases h
      exact (Proposition.isWellFormed_quantified _ _ _).mpr ⟨of_decide_eq_true hlayer, hp⟩
  | given first rest =>
      have hhypothesis : (Proposition.conjunction first rest).isWellFormed n = true :=
        Proposition.isWellFormed_conjunction (List.all_eq_true.mp hlayer)
      cases p with
      | contradiction mark =>
          cases h
          exact hhypothesis
      | _ =>
          cases h
          exact Proposition.isWellFormed_implies.mpr ⟨hhypothesis, hp⟩

end Layer

/-- What closing a scope restates well-formed conclusions as is well-formed. -/
theorem Scope.isWellFormed_generalise {n : Nat} {scope : Scope} {p q : Proposition}
    (h : scope.generalise p = .ok q) (hlog : ∀ x ∈ scope.log, x.isWellFormed n = true)
    (hp : p.isWellFormed n = true) : q.isWellFormed n = true := by
  have hlayers := Layer.isWellFormed_ofLog hlog
  unfold generalise at h
  generalize Layer.ofLog scope.log = layers at h hlayers
  induction layers generalizing q with
  | nil =>
      cases h
      simpa using hp
  | cons layer layers ih =>
      obtain ⟨hlayer, hlayers⟩ := List.forall_mem_cons.mp hlayers
      rw [List.foldrM_cons] at h
      cases hinner : layers.foldrM Layer.wrap p.strip with
      | error b => simp [hinner, bind, Except.bind] at h
      | ok r =>
          rw [hinner] at h
          exact Layer.isWellFormed_wrap h hlayer (ih hinner hlayers)

namespace Session

/-- All that a session states or supposes is well-formed, with variables that are not to come. -/
structure WellFormed (s : Session) : Prop where
  entries : ∀ id e, s.entry? id = some e → e.statement.isWellFormed s.fresh = true
  logs : ∀ c, ∀ x ∈ s.logOf c, x.isWellFormed s.fresh = true

section Fresh
variable (s : Session) (p : Proposition) (i : Inference FactId) (d : List FactId)

@[simp] theorem learn_fresh (f : Fact) : (s.learn f).fresh = s.fresh := by
  unfold learn; split <;> rfl

@[simp] theorem record_fresh (f : Fact) : (s.record f).fresh = s.fresh := by
  unfold record; split <;> simp [modifyScope]

@[simp] theorem certified_fresh : (s.certified p i d).fresh = s.fresh := by
  cases h : s.speculation with
  | none => rw [certified_eq_record s p i d h, record_fresh]
  | some derived => rw [certified_eq_noted s p i d h]

@[simp] theorem supposed_fresh : (s.supposed p).fresh = s.fresh := learn_fresh _ _

theorem modifyEntries_fresh (ids : List FactId) (g : Entry → Entry) :
    (s.modifyEntries ids g).fresh = s.fresh := by
  unfold modifyEntries
  induction ids generalizing s with
  | nil => rfl
  | cons first ids ih => exact ih (s.modifyEntry first g)

@[simp] theorem retract_fresh (c : ScopeId) : (s.retract c).fresh = s.fresh := by
  cases h : s.scope? c with
  | none => simp [retract, h]
  | some scope =>
      have hlowered : (s.lowered scope).fresh = s.fresh := by
        rw [lowered, modifyEntries_fresh, modifyEntries_fresh]
      rw [retract_eq h]
      cases enclosing? c s.stack with
      | none => exact hlowered
      | some outer => exact hlowered

theorem foldl_settleEntry_fresh (needed ids : List FactId) :
    (ids.foldl (settleEntry needed) s).fresh = s.fresh := by
  induction ids generalizing s with
  | nil => rfl
  | cons first ids ih =>
      have hfirst : (settleEntry needed s first).fresh = s.fresh := by
        unfold settleEntry
        split
        next => rfl
        next => split <;> simp [modifyEntry]
      rw [List.foldl_cons, ih, hfirst]

@[simp] theorem settled_fresh (keep : List FactId) : (s.settled keep).fresh = s.fresh := by
  cases h : s.speculation with
  | none => rw [settled_of_none keep h]
  | some derived => rw [settled_of_some keep h, foldl_settleEntry_fresh]

end Fresh

section Preservation
variable {s t : Session} {n : Nat}

theorem WellFormed.lists (h : s.WellFormed) {f : Fact} (hf : s.Lists f) :
    f.statement.isWellFormed s.fresh = true := by
  obtain ⟨e, he, hstatement⟩ := hf
  rw [← hstatement]
  exact h.entries f.id e he

/-- Entries that keep their statements stay well-formed, and so do logs that gain nothing else. -/
theorem WellFormed.grown (h : s.WellFormed) (hfresh : s.fresh ≤ t.fresh)
    (hentries : ∀ id e, t.entry? id = some e →
      (∃ old, s.entry? id = some old ∧ e.statement = old.statement) ∨
        e.statement.isWellFormed t.fresh = true)
    (hlogs : ∀ c, ∀ x ∈ t.logOf c, x ∈ s.logOf c ∨ x.isWellFormed t.fresh = true) :
    t.WellFormed where
  entries id e he := by
    rcases hentries id e he with ⟨old, hold, hstatement⟩ | hnew
    · rw [hstatement]
      exact Proposition.isWellFormed_mono (h.entries id old hold) hfresh
    · exact hnew
  logs c x hx := by
    rcases hlogs c x hx with hold | hnew
    · exact Supposition.isWellFormed_mono (h.logs c x hold) hfresh
    · exact hnew

theorem WellFormed.sameContents (h : s.WellFormed) (hcontents : SameContents s t)
    (hfresh : s.fresh ≤ t.fresh) (hlogs : ∀ c, t.logOf c = s.logOf c) : t.WellFormed := by
  refine h.grown hfresh (fun id e he => ?_) fun c x hx => .inl (hlogs c ▸ hx)
  obtain ⟨old, hold, hcontent⟩ := hcontents.symm.entry he
  exact .inl ⟨old, hold, (congrArg Prod.fst hcontent).symm⟩

theorem WellFormed.push {new : Entry} (h : s.WellFormed) (ht : t.ledger = s.ledger.push new)
    (hfresh : t.fresh = s.fresh) (hlogs : ∀ c, t.logOf c = s.logOf c)
    (hnew : new.statement.isWellFormed s.fresh = true) : t.WellFormed := by
  refine h.grown (Nat.le_of_eq hfresh.symm) (fun id e he => ?_) fun c x hx => .inl (hlogs c ▸ hx)
  rw [entry?_of_push ht] at he
  split at he
  next =>
    cases he
    exact .inr (hfresh ▸ hnew)
  next => exact .inl ⟨e, he, rfl⟩

theorem WellFormed.certified {p : Proposition} (h : s.WellFormed)
    (hp : p.isWellFormed s.fresh = true) (i : Inference FactId) (d : List FactId) :
    (s.certified p i d).WellFormed :=
  h.push (certified_ledger s p i d) (certified_fresh s p i d) (logOf_certified s p i d) (by simpa)

theorem WellFormed.supposed {p : Proposition} (h : s.WellFormed)
    (hp : p.isWellFormed s.fresh = true) : (s.supposed p).WellFormed :=
  h.push (supposed_ledger s p) (supposed_fresh s p) (logOf_supposed s p) (by simpa)

theorem WellFormed.aside (h : s.WellFormed) (ht : s.Aside t) (hfresh : s.fresh ≤ t.fresh) :
    t.WellFormed := by
  obtain ⟨_, _, _, rfl⟩ := ht
  exact h.sameContents (fun _ => rfl) hfresh fun _ => rfl

theorem WellFormed.noted {c : ScopeId} {scope : Scope} {x : Supposition} (h : s.WellFormed)
    (hscope : s.scope? c = some scope) (hx : x.isWellFormed s.fresh = true) :
    (s.noted c x).WellFormed := by
  refine h.grown (Nat.le_refl _) (fun id e he => .inl ⟨e, he, rfl⟩) fun d y hy => ?_
  rcases (mem_logOf_noted hscope).mp hy with hold | ⟨-, rfl⟩
  · exact .inl hold
  · exact .inr hx

theorem WellFormed.retract {c : ScopeId} {scope : Scope} (h : s.WellFormed)
    (hscope : s.scope? c = some scope) : (s.retract c).WellFormed :=
  h.sameContents (retract_sameContents s c) (Nat.le_of_eq (retract_fresh s c).symm)
    fun _ => logOf_retract hscope

theorem WellFormed.settled (h : s.WellFormed) (keep : List FactId) : (s.settled keep).WellFormed :=
  h.sameContents (settled_sameContents s keep) (Nat.le_of_eq (settled_fresh s keep).symm)
    (logOf_settled s keep)

theorem WellFormed.modifyScope {c : ScopeId} {g : Scope → Scope} (h : s.WellFormed)
    (hg : ∀ scope, (g scope).log = scope.log) : (s.modifyScope c g).WellFormed :=
  h.sameContents (fun _ => rfl) (Nat.le_refl _) fun _ => logOf_modifyScope hg

end Preservation

section Tactics
variable {s : Session}

theorem WellFormed.derives {p : Proposition} {i : Inference FactId} {d : List FactId}
    (h : s.WellFormed) (hd : s.Derives p i d) (hr : i.rule.addsParts = false) :
    p.isWellFormed s.fresh = true := by
  cases hd with
  | plain hconcludes hproves _ =>
      refine hconcludes.isWellFormed hr (List.forall_mem_map.mpr fun f hf => ?_)
      exact h.lists (hproves f hf).lists
  | @followedFrom p a rest hp hassumes =>
      refine Proposition.isWellFormed_implies.mpr ⟨Proposition.isWellFormed_conjunction ?_,
        h.lists hp.lists⟩
      rw [← List.map_cons, List.forall_mem_map]
      intro f hf
      obtain ⟨e, he, hstatement, -⟩ := hassumes f hf
      exact h.lists ⟨e, he, hstatement⟩
  | assumptionsCannotAllHold _ _ hlength =>
      refine (Proposition.isWellFormed_junction .or).mpr ⟨by simpa using hlength, ?_⟩
      intro q hq
      obtain ⟨e, he, rfl⟩ := List.mem_map.mp hq
      obtain ⟨id, -, hid⟩ := List.mem_filterMap.mp he
      simpa using h.entries id e hid

/-- However the deduction ends, the session is well-formed. -/
def Preserves {α : Type} (a : Action α) (s : Session) : Prop :=
  Ensures a s (fun _ t => t.WellFormed) WellFormed

theorem WellFormed.spares {t : Session} (h : s.WellFormed) (ht : s.Spares t) : t.WellFormed :=
  h.aside ht.aside ht.1

theorem WellFormed.yields {r : Rule} {a : Action Fact} (h : s.WellFormed) (ha : Yields r a s)
    (hr : r.addsParts = false) : Preserves a s := by
  refine ha.mono ?_ fun t ht => h.spares ht
  rintro f t ⟨u, p, i, d, hu, hd, rfl, -, rfl⟩
  have hwellFormed := h.aside hu.aside hu.1
  exact hwellFormed.certified (hwellFormed.derives hd hr) i d

/-- A new variable is not to come any more. -/
theorem abstractWitness_counts (p : Fact) (name : String) (witness : Term) (paths : List Path) :
    Ensures (abstractWitness p name witness paths) s
      (fun x t => s.Spares t ∧ x.1.id < t.fresh ∧
        x.2 = p.statement.replace witness (.var x.1) paths) s.Spares := by
  have hnew : Ensures (newVariable name) s (fun v t => s.Spares t ∧ v.id < t.fresh) s.Spares :=
    ⟨⟨Nat.le_succ _, rfl⟩, Nat.lt_succ_self _⟩
  unfold abstractWitness
  refine hnew.bind fun v t ht => .guard ht.1 fun _ => .pure ?_
  exact ⟨ht.1, ht.2, rfl⟩

theorem WellFormed.abstracted {t : Session} {p : Fact} {v : Variable} {inner : Proposition}
    {witness : Term} {paths : List Path} (h : s.WellFormed) (hp : s.Proves p) (ht : s.Spares t)
    (hv : v.id < t.fresh) (hinner : inner = p.statement.replace witness (.var v) paths)
    (domain : Option Term) :
    (Proposition.quantified .exist v domain inner).isWellFormed t.fresh = true := by
  refine (Proposition.isWellFormed_quantified _ _ _).mpr ⟨hv, ?_⟩
  rw [hinner]
  apply Proposition.isWellFormed_replace
  exact Proposition.isWellFormed_mono (h.lists hp.lists) ht.1

theorem WellFormed.thusThereExists (h : s.WellFormed) (p : Option Proposition) (name : String)
    (witness : Term) (paths : List Path) :
    Preserves (Session.thusThereExists p name witness paths) s := by
  unfold Session.thusThereExists
  refine (require_reads _ p s).ensures_bind h fun p hp => ?_
  refine ((abstractWitness_counts p name witness paths).mono (fun _ _ hx => hx) fun _ ht =>
    h.spares ht).bind ?_
  rintro ⟨v, inner⟩ t ⟨ht, hv, hinner⟩
  exact .derive ((h.spares ht).certified (h.abstracted hp ht hv hinner none) _ _)

theorem WellFormed.thusThereExistsIn (h : s.WellFormed) (p : Option Proposition) (name : String)
    (witness set : Term) (given : Option Proposition) (paths : List Path) :
    Preserves (Session.thusThereExistsIn p name witness set given paths) s := by
  unfold Session.thusThereExistsIn
  refine (require_reads _ p s).ensures_bind h fun p hp => ?_
  refine (membership_reads s _ _ _ _).ensures_bind h fun m _ => ?_
  refine ((abstractWitness_counts p name witness paths).mono (fun _ _ hx => hx) fun _ ht =>
    h.spares ht).bind ?_
  rintro ⟨v, inner⟩ t ⟨ht, hv, hinner⟩
  exact .derive ((h.spares ht).certified (h.abstracted hp ht hv hinner (some set)) _ _)

theorem WellFormed.thusForall (h : s.WellFormed) (p : Option Proposition) {v : Option Variable}
    (hv : ∀ w, v = some w → w.id < s.fresh) : Preserves (Session.thusForall p v) s := by
  unfold Session.thusForall
  refine (require_reads _ p s).ensures_bind h fun p hp => ?_
  cases v with
  | none => exact .refuse h
  | some v =>
      refine .guard h fun _ => .get_bind (.modify_bind (.derive (.certified ?_ ?_ _ _)))
      · exact h.aside ⟨_, _, _, rfl⟩ (Nat.le_refl _)
      · exact (Proposition.isWellFormed_quantified _ _ _).mpr ⟨hv v rfl, h.lists hp.lists⟩

theorem WellFormed.isSpecialCaseOf {p : Proposition} (h : s.WellFormed)
    (hp : p.isWellFormed s.fresh = true) (universal : Option Proposition)
    (facts : List Proposition) : Preserves (Session.isSpecialCaseOf p universal facts) s := by
  unfold Session.isSpecialCaseOf
  refine (require_reads _ universal s).ensures_bind h fun q _ => ?_
  split
  next => exact .refuse h
  next layers body _ _ =>
    split
    next => exact .throw h
    next σ _ =>
      refine (memberships_reads s _ σ facts layers).ensures_bind h fun ms _ => ?_
      exact .derive (h.certified hp _ _)

theorem map_some_filterMap_id {members : List (Option Proposition)}
    (h : members.any Option.isNone = false) : (members.filterMap id).map some = members := by
  induction members with
  | nil => rfl
  | cons member members ih =>
      rw [List.any_cons, Bool.or_eq_false_iff] at h
      cases member with
      | none => cases h.1
      | some p => exact congrArg (some p :: ·) (ih h.2)

theorem exists_map_some_of_junction? {c : Connective} {members : List (Option Proposition)}
    {p : Proposition} (h : Proposition.junction? c members = .ok p) :
    ∃ ps, members = ps.map some ∧ 2 ≤ ps.length ∧ p = .junction c ps := by
  unfold Proposition.junction? at h
  split_ifs at h with hfew hmissing
  cases h
  have hall := map_some_filterMap_id (Bool.eq_false_iff.mpr hmissing)
  refine ⟨_, hall.symm, ?_, rfl⟩
  rw [← hall, List.length_map] at hfew
  omega

theorem eq_quantified_of_quantified? {q : Quantifier} {v : Variable} {domain : Option Term}
    {body p : Proposition} (h : Proposition.quantified? q (some v) domain body = .ok p) :
    p = .quantified q v domain body := by
  unfold Proposition.quantified? at h
  cases domain with
  | none =>
      simp only at h
      split_ifs at h
      exact (Except.ok.inj h).symm
  | some set =>
      simp only at h
      split_ifs at h
      exact (Except.ok.inj h).symm

theorem WellFormed.disjoin (h : s.WellFormed) (p : Option Proposition)
    {alternatives : List (Option Proposition)}
    (halternatives : ∀ q, some q ∈ alternatives → q.isWellFormed s.fresh = true) :
    Preserves (Session.disjoin p alternatives) s := by
  unfold Session.disjoin
  refine (require_reads _ p s).ensures_bind h fun p hp => .guard h fun _ => ?_
  split
  next q hq =>
    obtain ⟨ps, hps, hlength, rfl⟩ := exists_map_some_of_junction? hq
    refine .derive (h.certified ((Proposition.isWellFormed_junction .or).mpr ⟨hlength, ?_⟩) _ _)
    intro r hr
    have hmem : some r ∈ some p.statement :: alternatives := hps ▸ List.mem_map_of_mem hr
    rcases List.mem_cons.mp hmem with heq | hmem
    · rw [Option.some.inj heq]
      exact h.lists hp.lists
    · exact halternatives r hmem
  next => exact .throw h

theorem WellFormed.split (h : s.WellFormed) (p : Option Proposition) :
    Preserves (Session.split p) s := by
  unfold Session.split
  refine (requireConjuncts_reads s p).ensures_bind h fun ⟨f, members⟩ ⟨hf, m, hstatement⟩ => ?_
  have hmembers : ∀ q ∈ members, q.isWellFormed s.fresh = true := by
    have hconjunction := h.lists hf.lists
    rw [hstatement, Proposition.isWellFormed_junction] at hconjunction
    exact hconjunction.2
  have hloop : Ensures (members.mapM (conjunct f)) s
      (fun fs t => (t.WellFormed ∧ t.fresh = s.fresh) ∧ List.Forall₂ (fun _ _ => True) members fs)
      WellFormed := by
    refine .mapM ?_ ⟨h, rfl⟩
    rintro q hq t ⟨ht, hfresh⟩
    refine .derive ⟨⟨ht.certified ?_ _ _, by rw [certified_fresh, hfresh]⟩, trivial⟩
    rw [hfresh]
    exact hmembers q hq
  exact hloop.mono (fun _ _ ht => ht.1.1) fun _ ht => ht

end Tactics

/-- Propositions that a caller can come by: those that the ledger states, what the constructors make
of them, and their parts, also after terms have been replaced. -/
inductive Obtainable (s : Session) : Proposition → Prop
  | stated {f : Fact} : s.Lists f → Obtainable s f.proposition
  | relation (name : String) (args : List Term) : Obtainable s (.relation name args)
  | not {p : Proposition} : Obtainable s p → Obtainable s (.not p)
  | implies {a b : Proposition} : Obtainable s a → Obtainable s b → Obtainable s (.implies a b)
  | iff {a b : Proposition} : Obtainable s a → Obtainable s b → Obtainable s (.iff a b)
  | junction {c : Connective} {members : List (Option Proposition)} {p : Proposition} :
      (∀ q, some q ∈ members → Obtainable s q) → Proposition.junction? c members = .ok p →
      Obtainable s p
  | quantified {q : Quantifier} {v : Variable} {domain : Option Term} {body p : Proposition} :
      v.id < s.fresh → Obtainable s body →
      Proposition.quantified? q (some v) domain body = .ok p → Obtainable s p
  | part {p q : Proposition} : Obtainable s p → q ∈ p.children → Obtainable s q
  | body {p : Proposition} : Obtainable s p → Obtainable s p.body
  | strip {p : Proposition} : Obtainable s p → Obtainable s p.strip
  | replace {p : Proposition} (old new : Term) (paths : List Path) : Obtainable s p →
      Obtainable s (p.replace old new paths)
  | apply {p : Proposition} (σ : Substitution) : Obtainable s p → Obtainable s (σ.apply p)

section Callers
variable {s : Session}

theorem Obtainable.isWellFormed {p : Proposition} (hp : s.Obtainable p) (h : s.WellFormed) :
    p.isWellFormed s.fresh = true := by
  induction hp with
  | stated hf => simpa [Fact.proposition] using h.lists hf
  | relation name args => simp
  | not _ ih => simpa using ih
  | implies _ _ iha ihb => exact Proposition.isWellFormed_implies.mpr ⟨iha, ihb⟩
  | iff _ _ iha ihb => exact Proposition.isWellFormed_iff.mpr ⟨iha, ihb⟩
  | junction _ hbuilt ih =>
      obtain ⟨ps, rfl, hlength, rfl⟩ := exists_map_some_of_junction? hbuilt
      exact (Proposition.isWellFormed_junction _).mpr
        ⟨hlength, fun q hq => ih q (List.mem_map_of_mem hq)⟩
  | @quantified q v domain body p hv _ hbuilt ih =>
      rw [eq_quantified_of_quantified? hbuilt]
      exact (Proposition.isWellFormed_quantified q v domain).mpr ⟨hv, ih⟩
  | part _ hq ih => exact Proposition.isWellFormed_of_mem_children ih hq
  | body _ ih => exact Proposition.isWellFormed_body ih
  | strip _ ih => simpa using ih
  | replace old new paths _ ih => exact Proposition.isWellFormed_replace old new paths ih
  | apply σ _ ih => exact Proposition.isWellFormed_apply σ ih

/-- What a tactic is given besides premises is there: propositions that can be come by, and
variables that are not to come. -/
def Tactic.Fits (s : Session) : Tactic → Prop
  | disjoin _ alternatives => ∀ p ∈ alternatives, ∃ q, p = some q ∧ s.Obtainable q
  | thusForall _ v => ∀ w, v = some w → w.id < s.fresh
  | thusThereExistsIn _ _ _ set _ _ => ∀ v, (Term.var v).occursIn set = true → v.id < s.fresh
  | isSpecialCaseOf p _ _ => s.Obtainable p
  | _ => True

theorem WellFormed.tactic {t : Tactic} (h : s.WellFormed) (ht : t.Fits s) :
    (t.apply s).WellFormed := by
  have hclosed : ∀ u : Tactic, u.rule.addsParts = false → (∀ p, u ≠ .split p) →
      (u.apply s).WellFormed := by
    intro u hr hu
    obtain ⟨a, hperform, hyields⟩ := u.perform_yields hu
    rw [← Tactic.after_perform, hperform, Tactic.after_alone]
    exact Ensures.left (h.yields (hyields s) hr)
  cases t with
  | split p => exact Ensures.left (h.split p)
  | disjoin p alternatives =>
      refine Ensures.left (h.disjoin p fun q hq => ?_)
      obtain ⟨r, hr, hobtainable⟩ := ht _ hq
      rw [Option.some.inj hr]
      exact hobtainable.isWellFormed h
  | thusForall p v => exact Ensures.left (h.thusForall p ht)
  | thusThereExists p name witness paths =>
      exact Ensures.left (h.thusThereExists p name witness paths)
  | thusThereExistsIn p name witness set given paths =>
      exact Ensures.left (h.thusThereExistsIn p name witness set given paths)
  | isSpecialCaseOf p universal facts =>
      exact Ensures.left (h.isSpecialCaseOf (ht.isWellFormed h) universal facts)
  | _ => exact hclosed _ rfl nofun

/-- The same for all that a caller can ask of a session. -/
def Call.Fits (s : Session) : Call → Prop
  | postulate p | assume p | assumeIn _ p => s.Obtainable p
  | introduce _ v => v.id < s.fresh
  | tactic t => t.Fits s
  | _ => True

theorem WellFormed.exported {c : ScopeId} {scope : Scope} {statements : List (Fact × Proposition)}
    (h : s.WellFormed) (hstatements : ∀ x ∈ statements, x.2.isWellFormed s.fresh = true) :
    (exported c scope s statements).WellFormed := by
  induction statements generalizing s with
  | nil => exact h
  | cons x statements ih =>
      obtain ⟨hfirst, hrest⟩ := List.forall_mem_cons.mp hstatements
      exact ih (h.certified hfirst _ _) (by simpa using hrest)

theorem WellFormed.introduced {t : Session} {c : ScopeId} {scope : Scope} {v : Variable}
    (h : s.WellFormed) (ht : s.Aside t) (hfresh : s.fresh ≤ t.fresh) (hc : s.Innermost c scope)
    (hv : v.id < t.fresh) : (t.noted c (.introduced v)).WellFormed := by
  have hscope : t.scope? c = some scope := by
    obtain ⟨_, _, _, rfl⟩ := ht
    exact hc.1
  exact (h.aside ht hfresh).noted hscope (decide_eq_true hv)

theorem WellFormed.call_of_ne {call : Call} (h : s.WellFormed) (htraced : s.Traced)
    (hfits : call.Fits s) (hlet : ∀ c name, call ≠ .letVariable c name) :
    (call.apply s).WellFormed := by
  by_cases htactic : ∃ t, call = .tactic t
  · obtain ⟨t, rfl⟩ := htactic
    exact h.tactic hfits
  have hchange := call.change s
  generalize call.apply s = t at hchange
  cases hchange with
  | tactic _ => exact absurd ⟨_, rfl⟩ htactic
  | aside ht hfresh => exact h.aside ht hfresh
  | postulate => exact h.certified (hfits.isWellFormed h) _ _
  | suppose _ => exact h.supposed (hfits.isWellFormed h)
  | @assumeIn _ c scope p hor hc =>
      have hp : p.isWellFormed s.fresh = true := by
        rcases hor with rfl | rfl <;> exact hfits.isWellFormed h
      have hscope : (s.supposed p).scope? c = some scope := by
        rw [scope?, supposed_scopes]
        exact hc.1
      exact (h.supposed hp).noted hscope (by simpa [Supposition.isWellFormed, nextFact] using hp)
  | openScope =>
      exact h.sameContents (fun _ => rfl) (Nat.le_refl _) fun _ => logOf_opened _
  | introduce hor ht hc hfresh =>
      rcases hor with rfl | ⟨name, rfl⟩
      · exact h.introduced ht hfresh hc (Nat.lt_of_lt_of_le hfits hfresh)
      · exact absurd rfl (hlet _ name)
  | conclude _ _ => exact h.modifyScope fun _ => rfl
  | @close c scope statements results hc hstatements =>
      refine WellFormed.modifyScope (WellFormed.exported (h.retract hc.1) fun x hx => ?_)
        fun _ => rfl
      have hlists := htraced.lists_of_restates hc.1 hstatements x hx
      have hlog : ∀ y ∈ scope.log, y.isWellFormed s.fresh = true := by
        rw [← logOf_of_some hc.1]
        exact h.logs c
      rw [retract_fresh]
      exact Scope.isWellFormed_generalise (restates_of_mem hstatements hx).2.2 hlog
        (h.lists hlists)
  | discard hscope _ => exact h.retract hscope
  | speculateFrom _ => exact h.sameContents (fun _ => rfl) (Nat.le_refl _) fun _ => rfl
  | settle => exact h.settled _

/-- A call that fits leaves a well-formed session well-formed. -/
theorem WellFormed.call {call : Call} (h : s.WellFormed) (htraced : s.Traced)
    (hfits : call.Fits s) : (call.apply s).WellFormed := by
  by_cases hlet : ∃ c name, call = .letVariable c name
  · obtain ⟨c, name, rfl⟩ := hlet
    rw [apply_letVariable]
    have hnew : ((Call.newVariable name).apply s).WellFormed :=
      h.aside ⟨_, _, _, rfl⟩ (Nat.le_succ _)
    exact hnew.call_of_ne (htraced.call _) (Nat.lt_succ_self s.fresh) nofun
  · exact h.call_of_ne htraced hfits fun c name heq => hlet ⟨c, name, heq⟩

theorem Tactic.fresh_le_apply (t : Tactic) (s : Session) : s.fresh ≤ (t.apply s).fresh := by
  by_cases hsplit : ∃ p, t = .split p
  · obtain ⟨p, rfl⟩ := hsplit
    have hloop : ∀ f members, Ensures (members.mapM (conjunct f)) s
        (fun fs u => s.fresh ≤ u.fresh ∧ List.Forall₂ (fun _ _ => True) members fs)
        (s.fresh ≤ ·.fresh) := by
      intro f members
      refine .mapM (fun q _ u hu => .derive ⟨?_, trivial⟩) (Nat.le_refl _)
      rw [certified_fresh]
      exact hu
    have hsplit : Ensures (Session.split p) s (fun _ u => s.fresh ≤ u.fresh) (s.fresh ≤ ·.fresh) :=
      (requireConjuncts_reads s p).ensures_bind (Nat.le_refl _) fun x _ =>
        (hloop x.1 x.2).mono (fun _ _ hu => hu.1) fun _ hu => hu
    exact hsplit.left
  · obtain ⟨a, hperform, hyields⟩ := t.perform_yields fun p heq => hsplit ⟨p, heq⟩
    rw [← Tactic.after_perform, hperform, Tactic.after_alone]
    have hlater : Ensures a s (fun _ u => s.fresh ≤ u.fresh) (s.fresh ≤ ·.fresh) := by
      refine (hyields s).mono ?_ fun u hu => hu.1
      rintro f u ⟨v, p, i, d, hv, -, -, -, rfl⟩
      rw [certified_fresh]
      exact hv.1
    exact hlater.left

theorem exported_fresh (c : ScopeId) (scope : Scope) (statements : List (Fact × Proposition)) :
    (exported c scope s statements).fresh = s.fresh := by
  induction statements generalizing s with
  | nil => rfl
  | cons x statements ih => rw [exported, ih, certified_fresh]

/-- The counter for variables never goes back. -/
theorem Call.fresh_le_apply (call : Call) (s : Session) : s.fresh ≤ (call.apply s).fresh := by
  by_cases htactic : ∃ t, call = .tactic t
  · obtain ⟨t, rfl⟩ := htactic
    exact t.fresh_le_apply s
  have hchange := call.change s
  generalize call.apply s = t at hchange
  cases hchange with
  | tactic _ => exact absurd ⟨_, rfl⟩ htactic
  | aside _ hfresh => exact hfresh
  | introduce _ _ _ hfresh => exact hfresh
  | postulate => exact Nat.le_of_eq (certified_fresh _ _ _ _).symm
  | suppose _ => exact Nat.le_of_eq (supposed_fresh _ _).symm
  | assumeIn _ _ => exact Nat.le_of_eq (supposed_fresh _ _).symm
  | close _ _ =>
      exact Nat.le_of_eq ((exported_fresh _ _ _).trans (retract_fresh _ _)).symm
  | discard _ _ => exact Nat.le_of_eq (retract_fresh _ _).symm
  | settle => exact Nat.le_of_eq (settled_fresh _ _).symm
  | openScope | conclude _ _ | speculateFrom _ => exact Nat.le_refl _

/-- What a caller has come by once stays with them. -/
theorem Obtainable.call {p : Proposition} (h : s.Obtainable p) (call : Call) :
    (call.apply s).Obtainable p := by
  induction h with
  | stated hf => exact .stated (hf.call call)
  | relation name args => exact .relation name args
  | not _ ih => exact .not ih
  | implies _ _ iha ihb => exact .implies iha ihb
  | iff _ _ iha ihb => exact .iff iha ihb
  | junction _ hbuilt ih => exact .junction ih hbuilt
  | quantified hv _ hbuilt ih =>
      exact .quantified (Nat.lt_of_lt_of_le hv (call.fresh_le_apply s)) ih hbuilt
  | part _ hq ih => exact .part ih hq
  | body _ ih => exact .body ih
  | strip _ ih => exact .strip ih
  | replace old new paths _ ih => exact .replace old new paths ih
  | apply σ _ ih => exact .apply σ ih

/-- Sessions that come about by calls that fit. -/
inductive Reachable : Session → Prop
  | start : Reachable {}
  | call {s : Session} {call : Call} : Reachable s → call.Fits s → Reachable (call.apply s)

theorem WellFormed.initial : WellFormed {} where
  entries id e he := by simp [Session.entry?] at he
  logs c x hx := by simp [logOf, scope?] at hx

theorem Reachable.traced (h : s.Reachable) : s.Traced := by
  induction h with
  | start => exact Traced.initial
  | call _ _ ih => exact ih.call _

theorem Reachable.wellFormed (h : s.Reachable) : s.WellFormed := by
  induction h with
  | start => exact WellFormed.initial
  | call hs hfits ih => exact ih.call hs.traced hfits

end Callers

end Session

end Entailment
