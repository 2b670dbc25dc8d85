import Entailment.Term.Basic
import Entailment.Term.Quicksort

/-!
# Polynomials over atoms

Arithmetic is normalised by reading a term as a sum of products of atoms.  An atom is a term that
arithmetic cannot look into, identified by a textual key.  In a reduced polynomial no coefficient is
zero, the atoms of every monomial are sorted by key, and no two monomials have the same keys.  The
operations below keep polynomials reduced and leave monomials in the order in which they arose; only
`Polynomial.toTerm` sorts them, so that equal polynomials give the same term.
-/

namespace Entailment

namespace Term

mutual

/-- The text that identifies a term.  Variables go by their number, since names may be shared. -/
def key : Term → String
  | .var v => "$" ++ toString v.id
  | .const name => name
  | .num n => toString n
  | .app head args => head ++ "(" ++ ",".intercalate (keyList args) ++ ")"

def keyList : List Term → List String
  | [] => []
  | t :: ts => key t :: keyList ts

end

@[simp] theorem keyList_eq_map (ts : List Term) : keyList ts = ts.map key := by
  induction ts with
  | nil => rfl
  | cons t ts ih => simp [keyList, ih]

end Term

/-- A term that arithmetic treats as a whole. -/
structure Atom where
  key : String
  term : Term
deriving Repr, Inhabited, DecidableEq

def Atom.ofTerm (t : Term) : Atom := ⟨t.key, t⟩

structure Monomial where
  coefficient : Int
  atoms : List Atom
deriving Repr, Inhabited, DecidableEq

namespace Monomial

/-- The monomial with these atoms, put in the order of their keys. -/
def ofAtoms (coefficient : Int) (atoms : List Atom) : Monomial :=
  ⟨coefficient, Quicksort.sort (fun a b => decide (a.key < b.key)) atoms⟩

def keys (m : Monomial) : List String := m.atoms.map Atom.key

def mul (m n : Monomial) : Monomial := ofAtoms (m.coefficient * n.coefficient) (m.atoms ++ n.atoms)

def neg (m : Monomial) : Monomial := { m with coefficient := -m.coefficient }

/-- The product as a term.  A coefficient of one is left out unless nothing else is there. -/
def toTerm (m : Monomial) : Term :=
  let atoms := m.atoms.map Atom.term
  match (if atoms.isEmpty || m.coefficient != 1 then .num m.coefficient :: atoms else atoms) with
  | [t] => t
  | factors => .app "*" factors

end Monomial

/-- A sum of monomials. -/
structure Polynomial where
  monomials : List Monomial
deriving Repr, Inhabited, DecidableEq

namespace Polynomial

def zero : Polynomial := ⟨[]⟩

def constant (n : Int) : Polynomial := if n = 0 then zero else ⟨[.ofAtoms n []]⟩

def ofAtom (a : Atom) : Polynomial := ⟨[.ofAtoms 1 [a]]⟩

/-- Adds a monomial to the first one with the same keys, which goes away if the two cancel out; with
no such monomial it goes to the end. -/
def insert (m : Monomial) : List Monomial → List Monomial
  | [] => [m]
  | n :: rest =>
    if n.keys = m.keys then
      let sum := n.coefficient + m.coefficient
      if sum = 0 then rest else { n with coefficient := sum } :: rest
    else n :: insert m rest

def add (p q : Polynomial) : Polynomial := ⟨q.monomials.foldl (fun ms m => insert m ms) p.monomials⟩

def sub (p q : Polynomial) : Polynomial :=
  ⟨q.monomials.foldl (fun ms m => insert m.neg ms) p.monomials⟩

def mul (p q : Polynomial) : Polynomial :=
  ⟨p.monomials.foldl (fun acc m => q.monomials.foldl (fun ms n => insert (m.mul n) ms) acc) []⟩

/-- The value of a polynomial without atoms. -/
def constant? (p : Polynomial) : Option Int :=
  match p.monomials with
  | [] => some 0
  | [⟨n, []⟩] => some n
  | _ => none

/-- The lexicographic order of lists of keys. -/
def keysLE : List String → List String → Bool
  | [], _ => true
  | _ :: _, [] => false
  | a :: as, b :: bs => if a = b then keysLE as bs else decide (a ≤ b)

/-- The sum as a term, its monomials in the lexicographic order of their keys. -/
def toTerm (p : Polynomial) : Term :=
  match p.constant? with
  | some n => .num n
  | none =>
    match (p.monomials.mergeSort fun a b => keysLE a.keys b.keys).map Monomial.toTerm with
    | [t] => t
    | summands => .app "+" summands

end Polynomial

end Entailment
