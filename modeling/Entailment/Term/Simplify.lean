import Entailment.Term.Polynomial

/-!
# Simplification

Terms built from sums, differences and products are normalised into a sum of products.  Two terms
are compared by normalising their difference: if that is a constant, it settles how they relate
under every interpretation of their atoms, and otherwise nothing is concluded.
-/

namespace Entailment

/-- The heads that arithmetic interprets. -/
inductive Arithmetic where
  | sum | difference | product
deriving DecidableEq, Repr

def Arithmetic.ofHead? : String → Option Arithmetic
  | "+" => some .sum
  | "-" => some .difference
  | "*" => some .product
  | _ => none

/-- Combines operands from left to right.  The difference of a single operand is its negation. -/
def Arithmetic.combine (op : Arithmetic) (first : Polynomial) (rest : List Polynomial) :
    Polynomial :=
  match op, rest with
  | .difference, [] => Polynomial.zero.sub first
  | .sum, rest => rest.foldl Polynomial.add first
  | .difference, rest => rest.foldl Polynomial.sub first
  | .product, rest => rest.foldl Polynomial.mul first

namespace Term

mutual

/-- Normalises the arithmetic of a term, also inside uninterpreted applications. -/
def simplify : Term → Term
  | .app head args =>
    match Arithmetic.ofHead? head with
    | none => .app head (simplifyList args)
    | some op =>
      match toPolynomials args with
      | [] => .app head []
      | first :: rest => (op.combine first rest).toTerm
  | t => t

def simplifyList : List Term → List Term
  | [] => []
  | t :: ts => simplify t :: simplifyList ts

/-- A term as a polynomial; anything that is not arithmetic is an atom. -/
def toPolynomial : Term → Polynomial
  | .num n => .constant n
  | .app head args =>
    match Arithmetic.ofHead? head with
    | none => .ofAtom (.ofTerm (.app head (simplifyList args)))
    | some op =>
      match toPolynomials args with
      | [] => .ofAtom (.ofTerm (.app head []))
      | first :: rest => op.combine first rest
  | .var v => .ofAtom (.ofTerm (.var v))
  | .const name => .ofAtom (.ofTerm (.const name))

def toPolynomials : List Term → List Polynomial
  | [] => []
  | t :: ts => toPolynomial t :: toPolynomials ts

end

/-- The difference of two terms, if arithmetic alone shows it to be the same everywhere. -/
def difference? (lhs rhs : Term) : Option Int :=
  if lhs = rhs then some 0 else (lhs.toPolynomial.sub rhs.toPolynomial).constant?

/-- Whether two terms are always equal or never, if arithmetic can tell. -/
def decideEqual (lhs rhs : Term) : Option Bool := (difference? lhs rhs).map (· == 0)

/-- How two terms are ordered everywhere, if arithmetic can tell. -/
def decideOrder (lhs rhs : Term) : Option Ordering := (difference? lhs rhs).map (compare · 0)

end Term

end Entailment
