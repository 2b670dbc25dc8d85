import Entailment.Proposition.Basic

/-!
# Orders

A family of five relations that belong together: equality, a strict and a non-strict relation in one
direction, and the same two in the other.  Chains are built from such a family, and each of its
members has a converse.
-/

namespace Entailment

structure Order where
  equal : String
  less : String
  lessEqual : String
  greater : String
  greaterEqual : String
deriving DecidableEq, Repr

inductive Direction where
  | level | ascending | descending
deriving DecidableEq, Repr

/-- What one relation contributes to a chain. -/
structure Link where
  direction : Direction
  strict : Bool
deriving DecidableEq, Repr

namespace Order

def numeric : Order :=
  ⟨Relation.equal.name, Relation.less.name, Relation.lessEqual.name, Relation.greater.name,
    Relation.greaterEqual.name⟩

/-- Inclusion of sets. -/
def subset : Order :=
  ⟨Relation.equal.name, Relation.properSubset.name, Relation.subset.name,
    Relation.properSuperset.name, Relation.superset.name⟩

/-- The part a relation plays in the family.  If two members share a name, the first one counts. -/
def classify (o : Order) (name : String) : Option Link :=
  if name = o.equal then some ⟨.level, false⟩
  else if name = o.less then some ⟨.ascending, true⟩
  else if name = o.lessEqual then some ⟨.ascending, false⟩
  else if name = o.greater then some ⟨.descending, true⟩
  else if name = o.greaterEqual then some ⟨.descending, false⟩
  else none

/-- The relation that holds when the two sides are swapped. -/
def flip? (o : Order) (name : String) : Option String :=
  if name = o.equal then some o.equal
  else if name = o.less then some o.greater
  else if name = o.lessEqual then some o.greaterEqual
  else if name = o.greater then some o.less
  else if name = o.greaterEqual then some o.lessEqual
  else none

end Order

end Entailment
