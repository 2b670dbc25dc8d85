import Entailment.Proofs.NamelessForm

/-!
# Unification as a list of equations

Unifying two propositions takes them apart in step, down to places where at least one side is a
variable. What stands there are the equations to be solved (`equate`); propositions that differ
anywhere else have none. Unification solves its equations one after the other, from the first to the
last (`proposition_eq_solve`).

The equations decide everything about the two sides: under substitutions, one for each side, two
propositions get the same nameless form if and only if they can be equated and every equation comes
true (`read_eq_iff`).
-/
namespace Entailment

namespace Unify

/-- Two terms in the same place under quantifiers, of which at least one is a variable. -/
structure Equation where
  binders : Binders
  left : Term
  right : Term
  hasVariable : (∃ v, left = .var v) ∨ ∃ v, right = .var v

/-- The equations of two parts, if both have them. -/
def both (es? fs? : Option (List Equation)) : Option (List Equation) :=
  es?.bind fun es => fs?.map (es ++ ·)

mutual

def equateTerm (b : Binders) : Term → Term → Option (List Equation)
  | .app f as, .app g bs => if f = g then equateTerms b as bs else none
  | .var l, t => some [⟨b, .var l, t, .inl ⟨l, rfl⟩⟩]
  | s, .var r => some [⟨b, s, .var r, .inr ⟨r, rfl⟩⟩]
  | s, t => if s = t then some [] else none

def equateTerms (b : Binders) : List Term → List Term → Option (List Equation)
  | [], [] => some []
  | s :: ss, t :: ts => both (equateTerm b s t) (equateTerms b ss ts)
  | _, _ => none

end

def equateDomain (b : Binders) : Option Term → Option Term → Option (List Equation)
  | none, none => some []
  | some s, some t => equateTerm b s t
  | _, _ => none

mutual

/-- The equations that two propositions come down to, if they differ in nothing else. -/
def equate (b : Binders) : Proposition → Proposition → Option (List Equation)
  | .relation n as _, .relation m bs _ => if n = m then equateTerms b as bs else none
  | .not p _, .not q _ => equate b p q
  | .junction c ps _, .junction d qs _ => if c = d then equateMembers b ps qs else none
  | .implies p o _, .implies q r _ => both (equate b p q) (equate b o r)
  | .iff p o _, .iff q r _ => both (equate b p q) (equate b o r)
  | .quantified k v s p _, .quantified l w t q _ =>
    if k = l then both (equateDomain b s t) (equate (b.push v w) p q) else none
  | .contradiction _, .contradiction _ => some []
  | _, _ => none

def equateMembers (b : Binders) : List Proposition → List Proposition → Option (List Equation)
  | [], [] => some []
  | p :: ps, q :: qs => both (equate b p q) (equateMembers b ps qs)
  | _, _ => none

end

/-- Solves equations in their order, each with the values found so far. -/
def solve (allowed : Bindable) (σ : Substitution) (es : List Equation) : Option Substitution :=
  es.foldlM (fun σ e => leaf allowed e.binders σ e.left e.right) σ

section Solve
variable {allowed : Bindable} {b : Binders} {σ : Substitution}

@[simp] theorem solve_nil : solve allowed σ [] = some σ := rfl

theorem solve_cons (e : Equation) (es : List Equation) :
    solve allowed σ (e :: es) =
      (leaf allowed e.binders σ e.left e.right).bind fun τ => solve allowed τ es :=
  List.foldlM_cons

theorem solve_both (es? fs? : Option (List Equation)) :
    (both es? fs?).bind (solve allowed σ) =
      (es?.bind (solve allowed σ)).bind fun τ => fs?.bind (solve allowed τ) := by
  cases es? with
  | none => rfl
  | some es =>
      cases fs? with
      | none => simp [both]
      | some fs => simp [both, solve, List.foldlM_append, Option.bind_eq_bind]

theorem leaf_of_no_variable {s t : Term} (hs : ∀ v, s ≠ .var v) (ht : ∀ v, t ≠ .var v) :
    leaf allowed b σ s t = if s = t then some σ else none := by
  cases s with
  | var v => exact absurd rfl (hs v)
  | _ =>
      cases t with
      | var v => exact absurd rfl (ht v)
      | _ => simp [leaf, Binders.depth?]

theorem solve_ite (c : Prop) [Decidable c] :
    (if c then some [] else none : Option (List Equation)).bind (solve allowed σ) =
      if c then some σ else none := by
  split <;> rfl

theorem solve_singleton (e : Equation) :
    (some [e]).bind (solve allowed σ) = leaf allowed e.binders σ e.left e.right := by
  rw [Option.bind_some, solve_cons]
  cases leaf allowed e.binders σ e.left e.right <;> rfl

mutual

theorem term_eq_solve (σ : Substitution) (s t : Term) :
    Unify.term allowed b σ s t = (equateTerm b s t).bind (solve allowed σ) := by
  cases s with
  | app f as =>
      cases t with
      | app g bs =>
          rw [Unify.term, equateTerm]
          split
          next => exact terms_eq_solve σ as bs
          next => rfl
      | var r =>
          rw [term_eq_leaf (by simp)]
          simp only [equateTerm, solve_singleton]
      | _ =>
          rw [term_eq_leaf (by simp), leaf_of_no_variable (by simp) (by simp), ← solve_ite]
          rfl
  | var l => rw [term_eq_leaf (by simp), equateTerm, solve_singleton]
  | _ =>
      cases t with
      | var r =>
          rw [term_eq_leaf (by simp)]
          simp only [equateTerm, solve_singleton]
      | _ =>
          rw [term_eq_leaf (by simp), leaf_of_no_variable (by simp) (by simp), ← solve_ite]
          rfl

theorem terms_eq_solve (σ : Substitution) (ss ts : List Term) :
    Unify.terms allowed b σ ss ts = (equateTerms b ss ts).bind (solve allowed σ) := by
  cases ss with
  | nil => cases ts <;> rfl
  | cons s ss =>
      cases ts with
      | nil => rfl
      | cons t ts =>
          rw [Unify.terms, equateTerms, solve_both, ← term_eq_solve σ s t]
          cases Unify.term allowed b σ s t with
          | none => rfl
          | some τ => exact terms_eq_solve τ ss ts

end

theorem domain_eq_solve (σ : Substitution) (s t : Option Term) :
    Unify.domain allowed b σ s t = (equateDomain b s t).bind (solve allowed σ) := by
  cases s with
  | none => cases t <;> rfl
  | some s =>
      cases t with
      | none => rfl
      | some t => exact term_eq_solve σ s t

mutual

/-- Unification solves the equations of the two sides. -/
theorem proposition_eq_solve (b : Binders) (σ : Substitution) (p q : Proposition) :
    Unify.proposition allowed b σ p q = (equate b p q).bind (solve allowed σ) := by
  cases p with
  | relation n as m =>
      cases q with
      | relation n' bs m' =>
          rw [Unify.proposition, equate]
          split
          next => exact terms_eq_solve σ as bs
          next => rfl
      | _ => rfl
  | not p m =>
      cases q with
      | not q m' => exact proposition_eq_solve b σ p q
      | _ => rfl
  | junction c ps m =>
      cases q with
      | junction d qs m' =>
          rw [Unify.proposition, equate]
          split
          next => exact members_eq_solve b σ ps qs
          next => rfl
      | _ => rfl
  | implies p o m =>
      cases q with
      | implies q r m' =>
          rw [Unify.proposition, equate, solve_both, ← proposition_eq_solve b σ p q]
          cases Unify.proposition allowed b σ p q with
          | none => rfl
          | some τ => exact proposition_eq_solve b τ o r
      | _ => rfl
  | iff p o m =>
      cases q with
      | iff q r m' =>
          rw [Unify.proposition, equate, solve_both, ← proposition_eq_solve b σ p q]
          cases Unify.proposition allowed b σ p q with
          | none => rfl
          | some τ => exact proposition_eq_solve b τ o r
      | _ => rfl
  | quantified k v s p m =>
      cases q with
      | quantified l w t q m' =>
          rw [Unify.proposition, equate]
          split
          next =>
            rw [solve_both, ← domain_eq_solve σ s t]
            cases Unify.domain allowed b σ s t with
            | none => rfl
            | some τ => exact proposition_eq_solve (b.push v w) τ p q
          next => rfl
      | _ => rfl
  | contradiction m => cases q <;> rfl

theorem members_eq_solve (b : Binders) (σ : Substitution) (ps qs : List Proposition) :
    Unify.members allowed b σ ps qs = (equateMembers b ps qs).bind (solve allowed σ) := by
  cases ps with
  | nil => cases qs <;> rfl
  | cons p ps =>
      cases qs with
      | nil => rfl
      | cons q qs =>
          rw [Unify.members, equateMembers, solve_both, ← proposition_eq_solve b σ p q]
          cases Unify.proposition allowed b σ p q with
          | none => rfl
          | some τ => exact members_eq_solve b τ ps qs

end

end Solve

/-- There are equations, and each of them has a property. -/
def Yields (P : Equation → Prop) (es? : Option (List Equation)) : Prop :=
  ∃ es, es? = some es ∧ ∀ e ∈ es, P e

section Yields
variable {P : Equation → Prop}

@[simp] theorem not_yields_none : ¬Yields P none := by
  rintro ⟨es, hes, -⟩
  cases hes

@[simp] theorem yields_some (es : List Equation) : Yields P (some es) ↔ ∀ e ∈ es, P e := by
  simp [Yields]

@[simp] theorem yields_both (es? fs? : Option (List Equation)) :
    Yields P (both es? fs?) ↔ Yields P es? ∧ Yields P fs? := by
  cases es? with
  | none => simp [both]
  | some es =>
      cases fs? with
      | none => simp [both]
      | some fs => simp [both, or_imp, forall_and]

@[simp] theorem yields_ite (c : Prop) [Decidable c] (es? : Option (List Equation)) :
    Yields P (if c then es? else none) ↔ c ∧ Yields P es? := by
  split <;> simp [*]

end Yields

/-- An equation comes true under substitutions for the two sides, up to the names of bound
variables. -/
def Equation.Holds (α β : Substitution) (e : Equation) : Prop :=
  α.readTerm e.binders.left e.left = β.readTerm e.binders.right e.right

section Reading
variable {α β : Substitution}

mutual

theorem readTerm_eq_iff (b : Binders) (s t : Term) :
    α.readTerm b.left s = β.readTerm b.right t ↔
      Yields (Equation.Holds α β) (equateTerm b s t) := by
  cases s with
  | app f as =>
      cases t with
      | app g bs => simp [equateTerm, readTerms_eq_iff b as bs]
      | var r => simp [equateTerm, Equation.Holds]
      | _ => simp [equateTerm]
  | var l => simp [equateTerm, Equation.Holds]
  | _ =>
      cases t with
      | var r => simp [equateTerm, Equation.Holds]
      | _ => simp [equateTerm]

theorem readTerms_eq_iff (b : Binders) (ss ts : List Term) :
    ss.map (α.readTerm b.left) = ts.map (β.readTerm b.right) ↔
      Yields (Equation.Holds α β) (equateTerms b ss ts) := by
  cases ss with
  | nil => cases ts <;> simp [equateTerms]
  | cons s ss =>
      cases ts with
      | nil => simp [equateTerms]
      | cons t ts => simp [equateTerms, readTerm_eq_iff b s t, readTerms_eq_iff b ss ts]

end

theorem readDomain_eq_iff (b : Binders) (s t : Option Term) :
    s.map (α.readTerm b.left) = t.map (β.readTerm b.right) ↔
      Yields (Equation.Holds α β) (equateDomain b s t) := by
  cases s <;> cases t <;> simp [equateDomain, readTerm_eq_iff]

mutual

/-- Two propositions read the same under substitutions if and only if all their equations come
true. -/
theorem read_eq_iff (b : Binders) (p q : Proposition) :
    α.read b.left p = β.read b.right q ↔ Yields (Equation.Holds α β) (equate b p q) := by
  cases p with
  | relation n as m => cases q <;> simp [equate, readTerms_eq_iff]
  | not p m => cases q <;> simp [equate, read_eq_iff b p]
  | junction c ps m => cases q <;> simp [equate, readMembers_eq_iff b ps]
  | implies p o m => cases q <;> simp [equate, read_eq_iff b p, read_eq_iff b o]
  | iff p o m => cases q <;> simp [equate, read_eq_iff b p, read_eq_iff b o]
  | quantified k v s p m =>
      cases q with
      | quantified l w t q m' =>
          have hbody := read_eq_iff (b.push v w) p q
          rw [Binders.push] at hbody
          simp [equate, readDomain_eq_iff, hbody, Binders.push]
      | _ => simp [equate]
  | contradiction m => cases q <;> simp [equate]

theorem readMembers_eq_iff (b : Binders) (ps qs : List Proposition) :
    ps.map (α.read b.left) = qs.map (β.read b.right) ↔
      Yields (Equation.Holds α β) (equateMembers b ps qs) := by
  cases ps with
  | nil => cases qs <;> simp [equateMembers]
  | cons p ps =>
      cases qs with
      | nil => simp [equateMembers]
      | cons q qs => simp [equateMembers, read_eq_iff b p q, readMembers_eq_iff b ps qs]

end

end Reading

theorem both_eq_some {es? fs? : Option (List Equation)} {es : List Equation}
    (h : both es? fs? = some es) :
    ∃ xs ys, es? = some xs ∧ fs? = some ys ∧ es = xs ++ ys := by
  cases es? with
  | none => cases h
  | some xs =>
      cases fs? with
      | none => cases h
      | some ys =>
          cases h
          exact ⟨xs, ys, rfl, rfl, rfl⟩

/-- The left side of an equation with the variables bound around it. -/
def Equation.onLeft (e : Equation) : List Variable × Term := (e.binders.left, e.left)

def Equation.onRight (e : Equation) : List Variable × Term := (e.binders.right, e.right)

/-- One side of the equations holds the free variables of a part of a proposition and no others, and
lies under its quantifiers only. `bound` are the variables bound around the part. -/
structure Spans (side : Equation → List Variable × Term) (bound : List Variable)
    (free binds : Variable → Bool) (es : List Equation) : Prop where
  occurs : ∀ x, (∃ e ∈ es, (Term.var x).occursIn (side e).2 = true ∧ x ∉ (side e).1) ↔
    free x = true ∧ x ∉ bound
  binders : ∀ e ∈ es, ∀ x ∈ (side e).1, x ∈ bound ∨ binds x = true

section Spans
variable {side : Equation → List Variable × Term} {bound : List Variable}
variable {free free' binds binds' : Variable → Bool} {es fs : List Equation}

theorem Spans.nil : Spans side bound (fun _ => false) (fun _ => false) [] := by
  constructor <;> simp

theorem Spans.singleton {e : Equation} {t : Term} (h : side e = (bound, t)) :
    Spans side bound (fun x => (Term.var x).occursIn t) (fun _ => false) [e] := by
  constructor
  · simp [h]
  · intro f hf x hx
    rw [List.mem_singleton.mp hf, h] at hx
    exact .inl hx

theorem Spans.append (hes : Spans side bound free binds es)
    (hfs : Spans side bound free' binds' fs) :
    Spans side bound (fun x => free x || free' x) (fun x => binds x || binds' x) (es ++ fs) := by
  constructor
  · intro x
    have hfirst := hes.occurs x
    have hrest := hfs.occurs x
    simp only [List.mem_append, or_and_right, exists_or, hfirst, hrest, Bool.or_eq_true]
  · intro e he x hx
    rcases List.mem_append.mp he with he | he
    · exact (hes.binders e he x hx).imp_right fun h => by simp [h]
    · exact (hfs.binders e he x hx).imp_right fun h => by simp [h]

/-- The equations of a body, seen from outside of its quantifier. -/
theorem Spans.body {v : Variable} (h : Spans side (v :: bound) free binds es) :
    Spans side bound (fun x => !(Term.var v).occursIn (.var x) && free x)
      (fun x => v == x || binds x) es := by
  constructor
  · intro x
    rw [h.occurs x, List.mem_cons, not_or]
    have hv : (Term.var v).occursIn (.var x) = false ↔ x ≠ v := by simp [Term.occursIn]
    rw [Bool.and_eq_true, Bool.not_eq_true', hv]
    tauto
  · intro e he x hx
    rcases h.binders e he x hx with hx | hx
    · rcases List.mem_cons.mp hx with rfl | hx
      · exact .inr (by simp)
      · exact .inl hx
    · exact .inr (by simp [hx])

end Spans

/-- The equations hold the free variables and lie under the quantifiers of two parts, each on its
side. -/
structure Covers (b : Binders) (free binds free' binds' : Variable → Bool) (es : List Equation) :
    Prop where
  left : Spans Equation.onLeft b.left free binds es
  right : Spans Equation.onRight b.right free' binds' es

section Covers
variable {b : Binders} {es : List Equation}

theorem Covers.nil :
    Covers b (fun _ => false) (fun _ => false) (fun _ => false) (fun _ => false) [] :=
  ⟨.nil, .nil⟩

theorem Covers.append {fs : List Equation} {free binds free' binds' : Variable → Bool}
    {more bindsMore more' bindsMore' : Variable → Bool}
    (hes : Covers b free binds free' binds' es)
    (hfs : Covers b more bindsMore more' bindsMore' fs) :
    Covers b (fun x => free x || more x) (fun x => binds x || bindsMore x)
      (fun x => free' x || more' x) (fun x => binds' x || bindsMore' x) (es ++ fs) :=
  ⟨hes.left.append hfs.left, hes.right.append hfs.right⟩

mutual

theorem covers_of_equateTerm {s t : Term} {es : List Equation} (h : equateTerm b s t = some es) :
    Covers b (fun x => (Term.var x).occursIn s) (fun _ => false)
      (fun x => (Term.var x).occursIn t) (fun _ => false) es := by
  cases s with
  | app f as =>
      cases t with
      | app g bs =>
          rw [equateTerm] at h
          split at h
          next =>
            simp only [Term.occursIn_app]
            exact covers_of_equateTerms h
          next => cases h
      | var r =>
          cases h
          exact ⟨.singleton rfl, .singleton rfl⟩
      | _ => cases h
  | var l =>
      cases h
      exact ⟨.singleton rfl, .singleton rfl⟩
  | _ =>
      cases t with
      | var r =>
          cases h
          exact ⟨.singleton rfl, .singleton rfl⟩
      | app g bs => cases h
      | _ =>
          simp only [equateTerm] at h
          split at h
          next =>
            cases h
            exact .nil
          next => cases h

theorem covers_of_equateTerms {ss ts : List Term} {es : List Equation}
    (h : equateTerms b ss ts = some es) :
    Covers b (fun x => ss.any (Term.var x).occursIn) (fun _ => false)
      (fun x => ts.any (Term.var x).occursIn) (fun _ => false) es := by
  cases ss with
  | nil =>
      cases ts with
      | nil =>
          cases h
          exact .nil
      | cons t ts => cases h
  | cons s ss =>
      cases ts with
      | nil => cases h
      | cons t ts =>
          obtain ⟨xs, ys, hxs, hys, rfl⟩ := both_eq_some h
          exact (covers_of_equateTerm hxs).append (covers_of_equateTerms hys)

end

theorem covers_of_equateDomain {s t : Option Term} (h : equateDomain b s t = some es) :
    Covers b (fun x => s.any (Term.var x).occursIn) (fun _ => false)
      (fun x => t.any (Term.var x).occursIn) (fun _ => false) es := by
  cases s with
  | none =>
      cases t with
      | none =>
          cases h
          exact .nil
      | some t => cases h
  | some s =>
      cases t with
      | none => cases h
      | some t => exact covers_of_equateTerm h

mutual

/-- The equations of two propositions hold their free variables and no others, and lie under their
quantifiers only. -/
theorem covers_of_equate {b : Binders} {p q : Proposition} {es : List Equation}
    (h : equate b p q = some es) :
    Covers b (fun x => p.contains (.var x)) (fun x => p.binds x) (fun x => q.contains (.var x))
      (fun x => q.binds x) es := by
  cases p with
  | relation n as m =>
      cases q with
      | relation n' bs m' =>
          rw [equate] at h
          split at h
          next => exact covers_of_equateTerms h
          next => cases h
      | _ => cases h
  | not p m =>
      cases q with
      | not q m' => exact covers_of_equate (p := p) (q := q) h
      | _ => cases h
  | junction c ps m =>
      cases q with
      | junction d qs m' =>
          rw [equate] at h
          split at h
          next => exact covers_of_equateMembers h
          next => cases h
      | _ => cases h
  | implies p o m =>
      cases q with
      | implies q r m' =>
          obtain ⟨xs, ys, hxs, hys, rfl⟩ := both_eq_some h
          have hfirst := covers_of_equate (p := p) (q := q) hxs
          have hrest := covers_of_equate (p := o) (q := r) hys
          exact hfirst.append hrest
      | _ => cases h
  | iff p o m =>
      cases q with
      | iff q r m' =>
          obtain ⟨xs, ys, hxs, hys, rfl⟩ := both_eq_some h
          have hfirst := covers_of_equate (p := p) (q := q) hxs
          have hrest := covers_of_equate (p := o) (q := r) hys
          exact hfirst.append hrest
      | _ => cases h
  | quantified k v s p m =>
      cases q with
      | quantified l w t q m' =>
          rw [equate] at h
          split at h
          next =>
            obtain ⟨xs, ys, hxs, hys, rfl⟩ := both_eq_some h
            have hdomain := covers_of_equateDomain hxs
            have hbody := covers_of_equate (p := p) (q := q) hys
            exact hdomain.append ⟨hbody.left.body, hbody.right.body⟩
          next => cases h
      | _ => cases h
  | contradiction m =>
      cases q with
      | contradiction m' =>
          cases h
          exact .nil
      | _ => cases h

theorem covers_of_equateMembers {b : Binders} {ps qs : List Proposition} {es : List Equation}
    (h : equateMembers b ps qs = some es) :
    Covers b (fun x => Proposition.containsAny (.var x) ps) (fun x => Proposition.bindsAny x ps)
      (fun x => Proposition.containsAny (.var x) qs) (fun x => Proposition.bindsAny x qs) es := by
  cases ps with
  | nil =>
      cases qs with
      | nil =>
          cases h
          exact .nil
      | cons q qs => cases h
  | cons p ps =>
      cases qs with
      | nil => cases h
      | cons q qs =>
          obtain ⟨xs, ys, hxs, hys, rfl⟩ := both_eq_some h
          exact (covers_of_equate hxs).append (covers_of_equateMembers hys)

end

end Covers

end Unify

end Entailment
