import Entailment.Proposition.Basic

/-!
# Equality and occurrence

Structural equality of propositions, and which variables and terms occur in them.  Equality compares
quantified propositions by their domains and bodies alone, so the bound variables themselves may
differ while the bodies still have to mention the same ones.
-/

namespace Entailment.Proposition

mutual

/-- Structural equality, up to marks and the identity of bound variables. -/
def equal : Proposition → Proposition → Bool
  | .relation n as _, .relation m bs _ => n == m && as == bs
  | .not p _, .not q _ => equal p q
  | .junction c ps _, .junction d qs _ => c == d && equalList ps qs
  | .implies a b _, .implies c d _ => equal a c && equal b d
  | .iff a b _, .iff c d _ => equal a c && equal b d
  | .quantified q _ s p _, .quantified r _ t o _ => q == r && s == t && equal p o
  | .contradiction _, .contradiction _ => true
  | _, _ => false

def equalList : List Proposition → List Proposition → Bool
  | [], [] => true
  | p :: ps, q :: qs => equal p q && equalList ps qs
  | _, _ => false

end

/-- The position of the first member of a list that equals `p`. -/
def indexIn? (p : Proposition) (ps : List Proposition) : Option Nat := ps.findIdx? (equal p)

mutual

/-- Whether a term occurs free.  Inside a quantifier, a term that mentions the bound variable does
not; the domain lies outside. -/
def contains (t : Term) : Proposition → Bool
  | .relation _ args _ => args.any t.occursIn
  | .not p _ => contains t p
  | .junction _ ps _ => containsAny t ps
  | .implies a b _ | .iff a b _ => contains t a || contains t b
  | .quantified _ v domain p _ =>
    domain.any t.occursIn || (!(Term.var v).occursIn t && contains t p)
  | .contradiction _ => false

def containsAny (t : Term) : List Proposition → Bool
  | [] => false
  | p :: ps => contains t p || containsAny t ps

end

/-- Extends `seen` by those variables of `vs` that are neither bound nor there already. -/
def addUnbound (bound seen vs : List Variable) : List Variable :=
  vs.foldl (fun acc v => if v ∈ bound ∨ v ∈ acc then acc else acc ++ [v]) seen

mutual

/-- Extends `seen` by the free variables of a proposition under binders of `bound`. -/
def addFree (bound seen : List Variable) : Proposition → List Variable
  | .relation _ args _ => args.foldl (fun acc t => addUnbound bound acc t.vars) seen
  | .not p _ => addFree bound seen p
  | .junction _ ps _ => addFreeList bound seen ps
  | .implies a b _ | .iff a b _ => addFree bound (addFree bound seen a) b
  | .quantified _ v domain p _ =>
    addFree (v :: bound) (domain.elim seen fun set => addUnbound bound seen set.vars) p
  | .contradiction _ => seen

def addFreeList (bound seen : List Variable) : List Proposition → List Variable
  | [] => seen
  | p :: ps => addFreeList bound (addFree bound seen p) ps

end

/-- The free variables, in the order of their first occurrence. -/
def freeVariables (p : Proposition) : List Variable := addFree [] [] p

mutual

/-- Whether some quantifier in a proposition binds `v`. -/
def binds (v : Variable) : Proposition → Bool
  | .relation _ _ _ | .contradiction _ => false
  | .not p _ => binds v p
  | .junction _ ps _ => bindsAny v ps
  | .implies a b _ | .iff a b _ => binds v a || binds v b
  | .quantified _ w _ p _ => w == v || binds v p

def bindsAny (v : Variable) : List Proposition → Bool
  | [] => false
  | p :: ps => binds v p || bindsAny v ps

end

@[simp] theorem containsAny_eq_any (t : Term) (ps : List Proposition) :
    containsAny t ps = ps.any (contains t) := by
  induction ps with
  | nil => rfl
  | cons p ps ih => simp [containsAny, ih]

@[simp] theorem addFreeList_eq_foldl (bound seen : List Variable) (ps : List Proposition) :
    addFreeList bound seen ps = ps.foldl (addFree bound) seen := by
  induction ps generalizing seen with
  | nil => rfl
  | cons p ps ih => simp [addFreeList, ih]

@[simp] theorem bindsAny_eq_any (v : Variable) (ps : List Proposition) :
    bindsAny v ps = ps.any (binds v) := by
  induction ps with
  | nil => rfl
  | cons p ps ih => simp [bindsAny, ih]

end Entailment.Proposition
