/-!
# Proof scripts

A script declares variables and postulates, derives further facts by explicit steps, and lists goals
that are left to search.  All statements and terms in it are texts, which are read only when the
script runs, since what a name means depends on where it stands.

A step takes exactly one of four forms: it introduces a variable, assumes a statement, applies a
rule, or opens a scope for steps of its own.  Nothing here enforces that; `Script.problems` does.
-/

namespace Entailment

namespace Script

/-- A statement that holds unconditionally, and the name by which steps refer to it. -/
structure Postulate where
  name : String := ""
  statement : String := ""
deriving DecidableEq, Repr

/-- A statement that search should derive, or should fail to derive. -/
structure Goal where
  statement : String := ""
  /-- The depth of the search, or zero if the script decides. -/
  depth : Nat := 0
  refute : Bool := false
deriving DecidableEq, Repr

/-- What a step tells about itself.  An empty text stands for an attribute that is not given. -/
structure Attributes where
  /-- The name for what the step derives. -/
  name : String := ""
  /-- The name of a variable to introduce. -/
  introduces : String := ""
  /-- A statement to assume. -/
  assumes : String := ""
  /-- The name of a rule to apply. -/
  rule : String := ""
  /-- The names of the premises that the rule is applied to. -/
  premises : List String := []
  /-- The term that the rule instantiates or generalises. -/
  term : String := ""
  /-- The name of the variable that takes the place of a witness. -/
  binds : String := ""
  /-- The relation that a chain establishes. -/
  relation : String := ""
  /-- The statement that the step is expected to derive. -/
  proves : String := ""
  /-- Whether the enclosing scope exports what is derived. -/
  concludes : Bool := false
deriving DecidableEq, Repr

/-- A step, with the steps in the scope that it opens. -/
inductive Step where
  | mk (attributes : Attributes) (inner : List Step)
deriving Repr

/-- What a step can be. -/
inductive Form where
  | introduce | assume | apply | nest
deriving DecidableEq, Repr

/-- The word that gives a step its form. -/
def Form.key : Form → String
  | .introduce => "let"
  | .assume => "assume"
  | .apply => "rule"
  | .nest => "context"

namespace Step

def attributes : Step → Attributes
  | .mk a _ => a

def inner : Step → List Step
  | .mk _ inner => inner

/-- Whether what makes up a form is given. -/
def has (s : Step) : Form → Bool
  | .introduce => s.attributes.introduces != ""
  | .assume => s.attributes.assumes != ""
  | .apply => s.attributes.rule != ""
  | .nest => !s.inner.isEmpty

/-- All forms that a step takes. -/
def forms (s : Step) : List Form := [.introduce, .assume, .apply, .nest].filter s.has

theorem mem_forms {s : Step} {f : Form} : f ∈ s.forms ↔ s.has f := by
  cases f <;> simp [forms]

/-- How a step is referred to in messages. -/
def label (s : Step) : String :=
  if s.attributes.name = "" then "(unnamed)" else "\"" ++ s.attributes.name ++ "\""

end Step

end Script

structure Script where
  name : String := ""
  /-- The depth of search for goals that give none, or zero for the usual depth. -/
  depth : Nat := 0
  /-- The name of the order that chains and converses are about. -/
  order : String := ""
  /-- Variables that may be referred to by name. -/
  declares : List String := []
  postulates : List Script.Postulate := []
  steps : List Script.Step := []
  goals : List Script.Goal := []
deriving Repr

end Entailment
