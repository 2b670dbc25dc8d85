import Entailment.Proofs.Matching

/-!
# Nameless forms

The nameless form of a proposition gives each bound variable by the distance to its innermost
binder, keeps free variables, and reads the domain of a quantifier outside of its binder. Marks and
the variables that quantifiers bind are gone, so two propositions have the same nameless form when
they differ in these only.

`Substitution.read` is the nameless form, under binders, of a proposition to which a substitution
has been applied.
-/
namespace Entailment

/-- Terms in which a bound variable is a distance: `0` is the innermost binder around it. -/
inductive IndexedTerm where
  | bound (distance : Nat)
  | free (v : Variable)
  | const (name : String)
  | num (value : Int)
  | app (head : String) (args : List IndexedTerm)

inductive IndexedProposition where
  | relation (name : String) (args : List IndexedTerm)
  | not (body : IndexedProposition)
  | junction (connective : Connective) (members : List IndexedProposition)
  | implies (antecedent consequent : IndexedProposition)
  | iff (left right : IndexedProposition)
  | quantified (quantifier : Quantifier) (domain : Option IndexedTerm) (body : IndexedProposition)
  | contradiction

namespace Term

mutual

/-- The nameless form of a term under the given binders, innermost first. -/
def indexed (bound : List Variable) : Term → IndexedTerm
  | .var v =>
    match bound.idxOf? v with
    | some distance => .bound distance
    | none => .free v
  | .const name => .const name
  | .num n => .num n
  | .app head args => .app head (indexedList bound args)

def indexedList (bound : List Variable) : List Term → List IndexedTerm
  | [] => []
  | t :: ts => indexed bound t :: indexedList bound ts

end

@[simp] theorem indexedList_eq_map (bound : List Variable) (ts : List Term) :
    indexedList bound ts = ts.map (indexed bound) := by
  induction ts with
  | nil => rfl
  | cons t ts ih => simp [indexedList, ih]

end Term

namespace Proposition

mutual

/-- The nameless form of a proposition under the given binders, innermost first. -/
def indexed (bound : List Variable) : Proposition → IndexedProposition
  | .relation name args _ => .relation name (args.map (Term.indexed bound))
  | .not p _ => .not (indexed bound p)
  | .junction c ps _ => .junction c (indexedMembers bound ps)
  | .implies a b _ => .implies (indexed bound a) (indexed bound b)
  | .iff a b _ => .iff (indexed bound a) (indexed bound b)
  | .quantified q v domain p _ =>
    .quantified q (domain.map (Term.indexed bound)) (indexed (v :: bound) p)
  | .contradiction _ => .contradiction

def indexedMembers (bound : List Variable) : List Proposition → List IndexedProposition
  | [] => []
  | p :: ps => indexed bound p :: indexedMembers bound ps

end

def namelessForm (p : Proposition) : IndexedProposition := p.indexed []

@[simp] theorem indexedMembers_eq_map (bound : List Variable) (ps : List Proposition) :
    indexedMembers bound ps = ps.map (indexed bound) := by
  induction ps with
  | nil => rfl
  | cons p ps ih => simp [indexedMembers, ih]

/-- A variable that is bound twice belongs to its innermost binder, and the domain of a quantifier
is not in its reach: `∀x. ∃x∈f(x). R(x, z)`. -/
example (x z : Variable) (h : x ≠ z) :
    namelessForm (.quantified .all x none (.quantified .exist x (some (.app "f" [.var x]))
      (.relation "R" [.var x, .var z]))) =
    .quantified .all none (.quantified .exist (some (.app "f" [.bound 0]))
      (.relation "R" [.bound 0, .free z])) := by
  simp [namelessForm, indexed, Term.indexed, List.idxOf?_cons, h]

end Proposition

namespace Term
variable {bound bound' : List Variable}

@[simp] theorem occursIn_self (v : Variable) : (Term.var v).occursIn (.var v) = true := by
  simp [occursIn]

theorem occursIn_app (x : Variable) (head : String) (args : List Term) :
    (Term.var x).occursIn (.app head args) = args.any (Term.var x).occursIn := by
  simp [occursIn]

theorem indexed_var_of_notMem {v : Variable} (h : v ∉ bound) :
    (Term.var v).indexed bound = .free v := by
  rw [indexed, List.idxOf?_eq_none_iff.mpr h]

theorem indexed_var_of_some {v : Variable} {i : Nat} (h : bound.idxOf? v = some i) :
    (Term.var v).indexed bound = .bound i := by
  rw [indexed, h]

theorem indexed_eq_bound_iff {t : Term} {i : Nat} :
    t.indexed bound = .bound i ↔ ∃ v, t = .var v ∧ bound.idxOf? v = some i := by
  cases t with
  | var v => cases h : bound.idxOf? v <;> simp [indexed, h]
  | _ => simp [indexed]

theorem indexed_eq_free_iff {t : Term} {v : Variable} :
    t.indexed bound = .free v ↔ t = .var v ∧ v ∉ bound := by
  cases t with
  | var w =>
      cases h : bound.idxOf? w with
      | none =>
          have hw := List.idxOf?_eq_none_iff.mp h
          simp only [indexed, h, IndexedTerm.free.injEq, Term.var.injEq]
          exact ⟨fun heq => ⟨heq, heq ▸ hw⟩, And.left⟩
      | some i =>
          have hw := List.isSome_idxOf?.mp (Option.isSome_of_mem h)
          simp only [indexed, h, reduceCtorEq, Term.var.injEq, false_iff]
          rintro ⟨rfl, hnot⟩
          exact hnot hw
  | _ => simp [indexed]

/-- The nameless form of a term depends on how its own variables are bound only. -/
theorem indexed_congr {t : Term}
    (h : ∀ x, (Term.var x).occursIn t = true → bound.idxOf? x = bound'.idxOf? x) :
    t.indexed bound = t.indexed bound' := by
  induction t using Term.inductionOn with
  | var v => rw [indexed, indexed, h v (occursIn_self v)]
  | const name => rfl
  | num n => rfl
  | app head args ih =>
      rw [indexed, indexed, indexedList_eq_map, indexedList_eq_map]
      congr 1
      refine List.map_congr_left fun t ht => ih t ht fun x hx => h x ?_
      rw [occursIn_app]
      exact List.any_eq_true.mpr ⟨t, ht, hx⟩

theorem indexed_eq_of_notMem {t : Term}
    (h : ∀ x, (Term.var x).occursIn t = true → x ∉ bound) : t.indexed bound = t.indexed [] := by
  refine indexed_congr fun x hx => ?_
  rw [List.idxOf?_eq_none_iff.mpr (h x hx)]
  rfl

/-- A nameless form without bound variables comes from one term only, whatever the binders. -/
theorem eq_of_indexed_eq {s t : Term} (h : s.indexed bound = t.indexed []) : s = t := by
  induction s using Term.inductionOn generalizing t with
  | var v =>
      cases hv : bound.idxOf? v with
      | none =>
          rw [indexed, hv] at h
          exact (indexed_eq_free_iff.mp h.symm).1.symm
      | some i =>
          rw [indexed, hv] at h
          obtain ⟨w, -, hw⟩ := indexed_eq_bound_iff.mp h.symm
          cases hw
  | const name =>
      cases t <;> cases h
      rfl
  | num n =>
      cases t <;> cases h
      rfl
  | app head args ih =>
      cases t with
      | app head' args' =>
          rw [indexed, indexed, indexedList_eq_map, indexedList_eq_map] at h
          injection h with hhead hargs
          have hlists : args = args' := by
            induction args generalizing args' with
            | nil =>
                cases args' with
                | nil => rfl
                | cons t ts => cases hargs
            | cons s ss ihs =>
                cases args' with
                | nil => cases hargs
                | cons t ts =>
                    obtain ⟨hfirst, hrest⟩ := List.cons.inj hargs
                    rw [ih s List.mem_cons_self hfirst,
                      ihs (fun u hu => ih u (List.mem_cons_of_mem _ hu)) ts hrest]
          rw [hhead, hlists]
      | _ => cases h

@[simp] theorem indexed_nil_inj {s t : Term} : s.indexed [] = t.indexed [] ↔ s = t :=
  ⟨eq_of_indexed_eq, fun h => by rw [h]⟩

end Term

namespace Substitution

/-- The bindings of variables that are not among those given. -/
def outside (σ : Substitution) (bound : List Variable) : Substitution :=
  σ.filter fun binding => binding.1 ∉ bound

@[simp] theorem outside_nil (σ : Substitution) : σ.outside [] = σ := by simp [outside]

theorem outside_without (σ : Substitution) (bound : List Variable) (v : Variable) :
    (σ.outside bound).without v = σ.outside (v :: bound) := by
  simp [outside, without, List.filter_filter, bne, beq_eq_decide]

theorem find?_outside (σ : Substitution) (bound : List Variable) (v : Variable) :
    (σ.outside bound).find? v = if v ∈ bound then none else σ.find? v := by
  induction bound with
  | nil => simp
  | cons w bound ih =>
      rw [← outside_without, find?_without, ih]
      by_cases hw : v = w <;> simp [hw]

/-- The nameless form, under binders, of a term to which a substitution has been applied. Bound
variables are left alone. -/
def readTerm (σ : Substitution) (bound : List Variable) (t : Term) : IndexedTerm :=
  ((σ.outside bound).applyTerm t).indexed bound

/-- The nameless form, under binders, of a proposition to which a substitution has been applied. -/
def read (σ : Substitution) (bound : List Variable) (p : Proposition) : IndexedProposition :=
  ((σ.outside bound).apply p).indexed bound

section Read
variable (σ : Substitution) (bound : List Variable)

@[simp] theorem readTerm_const (name : String) : σ.readTerm bound (.const name) = .const name := rfl

@[simp] theorem readTerm_num (n : Int) : σ.readTerm bound (.num n) = .num n := rfl

@[simp] theorem readTerm_app (head : String) (args : List Term) :
    σ.readTerm bound (.app head args) = .app head (args.map (σ.readTerm bound)) := by
  simp [readTerm, applyTerm, Term.indexed]

@[simp] theorem read_relation (name : String) (args : List Term) (m : Option FactId) :
    σ.read bound (.relation name args m) = .relation name (args.map (σ.readTerm bound)) := by
  simp [read, readTerm, apply, Proposition.indexed]

@[simp] theorem read_not (p : Proposition) (m : Option FactId) :
    σ.read bound (.not p m) = .not (σ.read bound p) := rfl

@[simp] theorem read_junction (c : Connective) (ps : List Proposition) (m : Option FactId) :
    σ.read bound (.junction c ps m) = .junction c (ps.map (σ.read bound)) := by
  simp [read, apply, Proposition.indexed]

@[simp] theorem read_implies (a b : Proposition) (m : Option FactId) :
    σ.read bound (.implies a b m) = .implies (σ.read bound a) (σ.read bound b) := rfl

@[simp] theorem read_iff (a b : Proposition) (m : Option FactId) :
    σ.read bound (.iff a b m) = .iff (σ.read bound a) (σ.read bound b) := rfl

@[simp] theorem read_quantified (q : Quantifier) (v : Variable) (domain : Option Term)
    (p : Proposition) (m : Option FactId) :
    σ.read bound (.quantified q v domain p m) =
      .quantified q (domain.map (σ.readTerm bound)) (σ.read (v :: bound) p) := by
  rw [read, apply, Proposition.indexed, outside_without, Option.map_map]
  rfl

@[simp] theorem read_contradiction (m : Option FactId) :
    σ.read bound (.contradiction m) = .contradiction := rfl

theorem read_nil (p : Proposition) : σ.read [] p = (σ.apply p).namelessForm := by
  rw [read, outside_nil, Proposition.namelessForm]

end Read

section Variables
variable {σ : Substitution} {bound : List Variable} {v : Variable}

theorem readTerm_var_of_mem (h : v ∈ bound) :
    σ.readTerm bound (.var v) = (Term.var v).indexed bound := by
  rw [readTerm, applyTerm, find?_outside, if_pos h]
  rfl

theorem readTerm_var_of_none (h : σ.find? v = none) :
    σ.readTerm bound (.var v) = (Term.var v).indexed bound := by
  rw [readTerm, applyTerm, find?_outside, h, ite_self]
  rfl

theorem readTerm_var_of_some {t : Term} (hv : v ∉ bound) (h : σ.find? v = some t) :
    σ.readTerm bound (.var v) = t.indexed bound := by
  rw [readTerm, applyTerm, find?_outside, if_neg hv, h]
  rfl

/-- Where nothing has been substituted, the nameless form is read. -/
@[simp] theorem readTerm_empty (t : Term) : readTerm [] bound t = t.indexed bound := by
  induction t using Term.inductionOn with
  | var v => exact readTerm_var_of_none rfl
  | const name => rfl
  | num n => rfl
  | app head args ih =>
      rw [readTerm_app, Term.indexed, Term.indexedList_eq_map]
      congr 1
      exact List.map_congr_left ih

@[simp] theorem read_empty (p : Proposition) : read [] bound p = p.indexed bound := by
  induction p using Proposition.inductionOn generalizing bound with
  | relation name args m =>
      rw [read_relation, Proposition.indexed]
      congr 1
      exact List.map_congr_left fun t _ => readTerm_empty t
  | not p m ih => rw [read_not, ih, Proposition.indexed]
  | junction c ps m ih =>
      rw [read_junction, Proposition.indexed, Proposition.indexedMembers_eq_map]
      congr 1
      exact List.map_congr_left fun p hp => ih p hp
  | implies a b m iha ihb => rw [read_implies, iha, ihb, Proposition.indexed]
  | iff a b m iha ihb => rw [read_iff, iha, ihb, Proposition.indexed]
  | quantified q v domain p m ih =>
      rw [read_quantified, ih, Proposition.indexed]
      congr 1
      exact Option.map_congr fun t _ => readTerm_empty t
  | contradiction m => rfl

end Variables

end Substitution

end Entailment
