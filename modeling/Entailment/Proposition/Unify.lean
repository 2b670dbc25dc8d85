import Entailment.Proposition.Substitution

/-!
# Unification

Two propositions are compared part by part, and variables that may be bound are given values that
make the two sides agree.  When both sides are such variables, the right-hand one is bound.
Variables bound by quantifiers match only their counterparts in the same place, and never escape in
a binding.

With no variable to bind, unification is equality up to the names of bound variables.
-/

namespace Entailment

/-- The variables that unification may give values to. -/
inductive Bindable where
  | nothing
  | anything
  | only (vs : List Variable)
deriving Repr

/-- An empty list of variables restricts nothing. -/
def Bindable.ofList : List Variable → Bindable
  | [] => .anything
  | vs => .only vs

def Bindable.allows : Bindable → Variable → Bool
  | .nothing, _ => false
  | .anything, _ => true
  | .only vs, v => vs.contains v

/-- The variables bound around the two sides, innermost first. -/
structure Binders where
  left : List Variable
  right : List Variable
deriving Repr

namespace Binders

def empty : Binders := ⟨[], []⟩

def push (b : Binders) (l r : Variable) : Binders := ⟨l :: b.left, r :: b.right⟩

/-- How far out a term's binder is among those given, if the term is a bound variable. -/
def depth? (vs : List Variable) : Term → Option Nat
  | .var v => vs.findIdx? (· == v)
  | _ => none

end Binders

namespace Unify

/-- Gives `v` the value `t`, unless it has another value, would occur in its own value, or the value
mentions a variable bound around it. -/
def bind (binders : Binders) (σ : Substitution) (v : Variable) (t : Term) : Option Substitution :=
  if t = .var v then some σ
  else
    match σ.find? v with
    | some existing => if existing = t then some σ else none
    | none =>
      if (Term.var v).occursIn t then none
      else if (binders.left ++ binders.right).any fun b => (Term.var b).occursIn t then none
      else some (σ ++ [(v, t)])

/-- Unifies two terms of which at least one is not an application. -/
def leaf (allowed : Bindable) (binders : Binders) (σ : Substitution) (lhs rhs : Term) :
    Option Substitution :=
  match Binders.depth? binders.left lhs, Binders.depth? binders.right rhs with
  | none, none =>
    match lhs, rhs with
    | .var l, .var r =>
      if allowed.allows r then bind binders σ r lhs
      else if allowed.allows l then bind binders σ l rhs
      else if l = r then some σ else none
    | lhs, .var r => if allowed.allows r then bind binders σ r lhs else none
    | .var l, rhs => if allowed.allows l then bind binders σ l rhs else none
    | lhs, rhs => if lhs = rhs then some σ else none
  | l, r => if l = r then some σ else none

mutual

def term (allowed : Bindable) (binders : Binders) (σ : Substitution) :
    Term → Term → Option Substitution
  | .app f as, .app g bs => if f = g then terms allowed binders σ as bs else none
  | lhs, rhs => leaf allowed binders σ lhs rhs

def terms (allowed : Bindable) (binders : Binders) (σ : Substitution) :
    List Term → List Term → Option Substitution
  | [], [] => some σ
  | a :: as, b :: bs =>
    match term allowed binders σ a b with
    | some τ => terms allowed binders τ as bs
    | none => none
  | _, _ => none

end

/-- Domains unify when both are there or both are absent. -/
def domain (allowed : Bindable) (binders : Binders) (σ : Substitution) :
    Option Term → Option Term → Option Substitution
  | none, none => some σ
  | some s, some t => term allowed binders σ s t
  | _, _ => none

mutual

def proposition (allowed : Bindable) (binders : Binders) (σ : Substitution) :
    Proposition → Proposition → Option Substitution
  | .relation n as _, .relation m bs _ => if n = m then terms allowed binders σ as bs else none
  | .not p _, .not q _ => proposition allowed binders σ p q
  | .junction c ps _, .junction d qs _ => if c = d then members allowed binders σ ps qs else none
  | .implies a b _, .implies c d _ =>
    match proposition allowed binders σ a c with
    | some τ => proposition allowed binders τ b d
    | none => none
  | .iff a b _, .iff c d _ =>
    match proposition allowed binders σ a c with
    | some τ => proposition allowed binders τ b d
    | none => none
  | .quantified q v s p _, .quantified r w t o _ =>
    if q = r then
      match domain allowed binders σ s t with
      | some τ => proposition allowed (binders.push v w) τ p o
      | none => none
    else none
  | .contradiction _, .contradiction _ => some σ
  | _, _ => none

def members (allowed : Bindable) (binders : Binders) (σ : Substitution) :
    List Proposition → List Proposition → Option Substitution
  | [], [] => some σ
  | p :: ps, q :: qs =>
    match proposition allowed binders σ p q with
    | some τ => members allowed binders τ ps qs
    | none => none
  | _, _ => none

end

end Unify

/-- Unifies two terms over the given variables, or over all of them if none are given. -/
def Term.unify? (lhs rhs : Term) (vs : List Variable) : Option Substitution :=
  Unify.term (.ofList vs) .empty [] lhs rhs

namespace Proposition

/-- Unifies two propositions over the given variables, or over all free ones if none are given.  The
right-hand side is the pattern. -/
def unify? (lhs rhs : Proposition) (vs : List Variable) : Option Substitution :=
  Unify.proposition (.ofList vs) .empty [] lhs rhs

/-- Equality up to the renaming of bound variables. -/
def equivalent (lhs rhs : Proposition) : Bool :=
  (Unify.proposition .nothing .empty [] lhs rhs).isSome

end Proposition

end Entailment
