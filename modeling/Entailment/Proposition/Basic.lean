import Entailment.Term.Basic

/-!
# Propositions

A proposition is a relation between terms, a connective of propositions, a quantified proposition,
or a contradiction.  A quantifier may range over a set, its domain.

Every node carries a mark.  A marked node is not merely some statement: it is the statement of one
particular entry in the ledger of a session, so a session can tell whether that very node is proven,
also when it is met again as a part of another proposition.  Marks never affect what a proposition
says, and nothing in this module or beside it looks at them except `Proposition.mark?` and
`Proposition.strip`.
-/

namespace Entailment

/-- The position of an entry in the ledger of a session. -/
structure FactId where
  index : Nat
deriving DecidableEq, Repr, Inhabited

/-- The connectives that take any number of propositions from two up.  An exclusive disjunction
holds when exactly one of its members does. -/
inductive Connective where
  | and | or | exor
deriving DecidableEq, Repr, Inhabited

inductive Quantifier where
  | all | exist
deriving DecidableEq, Repr, Inhabited

inductive Proposition where
  | relation (name : String) (args : List Term) (mark : Option FactId := none)
  | not (body : Proposition) (mark : Option FactId := none)
  | junction (connective : Connective) (members : List Proposition) (mark : Option FactId := none)
  | implies (antecedent consequent : Proposition) (mark : Option FactId := none)
  | iff (left right : Proposition) (mark : Option FactId := none)
  | quantified (quantifier : Quantifier) (bound : Variable) (domain : Option Term)
      (body : Proposition) (mark : Option FactId := none)
  | contradiction (mark : Option FactId := none)
deriving Repr, Inhabited

/-- The forms a proposition can take.  Quantifiers with and without a domain count as different. -/
inductive Kind where
  | relation | not | and | or | exor | implies | iff | all | allIn | exist | existIn | contradiction
deriving DecidableEq, Repr, Inhabited

namespace Kind

def text : Kind → String
  | .relation => "relation"
  | .not => "not"
  | .and => "and"
  | .or => "or"
  | .exor => "exor"
  | .implies => "implies"
  | .iff => "iff"
  | .all => "forall"
  | .allIn => "forall-in-set"
  | .exist => "exists"
  | .existIn => "exists-in-set"
  | .contradiction => "contradiction"

def isQuantifier : Kind → Bool
  | .all | .allIn | .exist | .existIn => true
  | _ => false

def isJunction : Kind → Bool
  | .and | .or | .exor => true
  | _ => false

end Kind

def Connective.kind : Connective → Kind
  | .and => .and
  | .or => .or
  | .exor => .exor

def Quantifier.kind : Quantifier → Option Term → Kind
  | .all, none => .all
  | .all, some _ => .allIn
  | .exist, none => .exist
  | .exist, some _ => .existIn

/-- The relations that have a symbol of their own. -/
inductive Relation where
  | equal | notEqual | less | lessEqual | greater | greaterEqual | element
  | properSubset | subset | properSuperset | superset
deriving DecidableEq, Repr, Inhabited

/-- The name under which a relation stands in propositions. -/
def Relation.name : Relation → String
  | .equal => "="
  | .notEqual => "≠"
  | .less => "<"
  | .lessEqual => "<="
  | .greater => ">"
  | .greaterEqual => ">="
  | .element => "∈"
  | .properSubset => "⊂"
  | .subset => "⊆"
  | .properSuperset => "⊃"
  | .superset => "⊇"

def Relation.all : List Relation :=
  [.equal, .notEqual, .less, .lessEqual, .greater, .greaterEqual, .element, .properSubset, .subset,
    .properSuperset, .superset]

def Relation.ofName? (name : String) : Option Relation := Relation.all.find? (·.name == name)

namespace Proposition

def kind : Proposition → Kind
  | .relation _ _ _ => .relation
  | .not _ _ => .not
  | .junction c _ _ => c.kind
  | .implies _ _ _ => .implies
  | .iff _ _ _ => .iff
  | .quantified q _ domain _ _ => q.kind domain
  | .contradiction _ => .contradiction

/-- The ledger entry whose statement this node is. -/
def mark? : Proposition → Option FactId
  | .relation _ _ mark | .not _ mark | .junction _ _ mark | .implies _ _ mark | .iff _ _ mark
  | .quantified _ _ _ _ mark | .contradiction mark => mark

/-- The same proposition with another mark.  Marks of its parts stay. -/
def withMark (mark : Option FactId) : Proposition → Proposition
  | .relation name args _ => .relation name args mark
  | .not body _ => .not body mark
  | .junction c members _ => .junction c members mark
  | .implies a b _ => .implies a b mark
  | .iff a b _ => .iff a b mark
  | .quantified q v domain body _ => .quantified q v domain body mark
  | .contradiction _ => .contradiction mark

/-- A copy that is only a statement. -/
def strip (p : Proposition) : Proposition := p.withMark none

/-- The immediate parts of a proposition. -/
def children : Proposition → List Proposition
  | .relation _ _ _ | .contradiction _ => []
  | .not body _ | .quantified _ _ _ body _ => [body]
  | .junction _ members _ => members
  | .implies a b _ | .iff a b _ => [a, b]

/-- The name of a relation, and nothing for other propositions. -/
def name : Proposition → String
  | .relation name _ _ => name
  | _ => ""

/-- The two sides of a binary relation. -/
def sides? : Proposition → Option (Term × Term)
  | .relation _ [lhs, rhs] _ => some (lhs, rhs)
  | _ => none

def isBinary (p : Proposition) : Bool := p.sides?.isSome

/-- Whether this is the binary relation of the given name. -/
def isRelation (name : String) : Proposition → Bool
  | .relation other [_, _] _ => other == name
  | _ => false

def rel (r : Relation) (lhs rhs : Term) : Proposition := .relation r.name [lhs, rhs]

/-- A non-empty conjunction, where a single proposition stands for itself. -/
def conjunction (first : Proposition) : List Proposition → Proposition
  | [] => first
  | rest => .junction .and (first :: rest)

/-- A non-empty disjunction, where a single proposition stands for itself. -/
def disjunction (first : Proposition) : List Proposition → Proposition
  | [] => first
  | rest => .junction .or (first :: rest)

/-- What a quantifier says of its variable once the domain is spelled out: membership as a premise
under "for all", and as a first conjunct under "there is".  Other propositions are left alone. -/
def body : Proposition → Proposition
  | .quantified .all v (some set) inner _ => .implies (rel .element (.var v) set) inner
  | .quantified .exist v (some set) inner _ => .junction .and [rel .element (.var v) set, inner]
  | .quantified _ _ none inner _ => inner
  | p => p

end Proposition

end Entailment
