import Entailment.Document.Fit
import Entailment.Script.Basic

/-!
# Scripts as documents

How a document is understood as a script.  A postulate or a goal may be given as a mere text.
Entries that mean nothing are an error in a script and in its steps, but do no harm in a postulate
or a goal.
-/

namespace Entailment

namespace Script

open Document

section Statements

variable {α : Type}

/-- A statement is taken as it stands, whatever the text would mean elsewhere, and a mapping is
looked at on its own.  One that is tagged as null is held to the rules of what is around it. -/
def statementOr (ofText : String → α) (assign? : α → String → Option (Node → Fit α)) (blank : α)
    (n : Node) : Fit (Option α) :=
  Fit.visit n fun
    | .scalar s => do
      if s.isNull then return none
      if s.tag = some Tag.null then failure
      return some (ofText s.text)
    | .mapping entries tag =>
      if tag = some Tag.null then Node.Form.ofEntries ⟨assign?, true⟩ blank (.mapping entries tag)
      else Fit.anew (Node.record ⟨assign?, false⟩ blank (.mapping entries tag))
    | _ => failure

end Statements

/-- Where a null stands, the default is left. -/
def given {α : Type} [Inhabited α] (fit : Fit (Option α)) : Fit α := do return (← fit).getD default

def Postulate.assign? (f : Postulate) : String → Option (Node → Fit Postulate)
  | "name" => some fun value => return { f with name := ← given value.text }
  | "prop" => some fun value => return { f with statement := ← given value.text }
  | _ => none

def Postulate.ofNode : Node → Fit (Option Postulate) :=
  statementOr (fun statement => { statement }) Postulate.assign? {}

def Goal.assign? (g : Goal) : String → Option (Node → Fit Goal)
  | "prove" => some fun value => return { g with statement := ← given value.text }
  | "depth" => some fun value => return { g with depth := ← given value.natural }
  | "refute" => some fun value => return { g with refute := ← given value.flag }
  | _ => none

def Goal.ofNode : Node → Fit (Option Goal) :=
  statementOr (fun statement => { statement }) Goal.assign? {}

def Attributes.assign? (a : Attributes) : String → Option (Node → Fit Attributes)
  | "name" => some fun value => return { a with name := ← given value.text }
  | "let" => some fun value => return { a with introduces := ← given value.text }
  | "assume" => some fun value => return { a with assumes := ← given value.text }
  | "rule" => some fun value => return { a with rule := ← given value.text }
  | "premises" => some fun value => return { a with premises := ← value.list Node.text }
  | "term" => some fun value => return { a with term := ← given value.text }
  | "bind" => some fun value => return { a with binds := ← given value.text }
  | "relation" => some fun value => return { a with relation := ← given value.text }
  | "proves" => some fun value => return { a with proves := ← given value.text }
  | "conclude" => some fun value => return { a with concludes := ← given value.flag }
  | _ => none

/-- A step whose scopes nest no deeper than given. -/
def Step.ofNode : Nat → Node → Fit (Option Step)
  | 0, _ => failure
  | depth + 1, n =>
    let assign? (s : Step) (name : String) : Option (Node → Fit Step) :=
      if name = Form.nest.key then
        some fun value => return .mk s.attributes (← value.list (Step.ofNode depth))
      else
        (s.attributes.assign? name).map fun set value => return .mk (← set value) s.inner
    n.record ⟨assign?, true⟩ (.mk {} [])

/-- Sets the field of a script with this name. -/
def assign? (s : Script) : String → Option (Node → Fit Script)
  | "name" => some fun value => return { s with name := ← given value.text }
  | "depth" => some fun value => return { s with depth := ← given value.natural }
  | "order" => some fun value => return { s with order := ← given value.text }
  | "variables" => some fun value => return { s with declares := ← value.list Node.text }
  | "axioms" => some fun value => return { s with postulates := ← value.list Postulate.ofNode }
  | "steps" => some fun value => do
    let depth := (← read).bound
    return { s with steps := ← value.list (Step.ofNode depth) }
  | "goals" => some fun value => return { s with goals := ← value.list Goal.ofNode }
  | _ => none

end Script

/-- The script that a document holds. -/
def Script.ofContent? (c : Document.Content) : Option Script :=
  (Document.Fit.run? (Document.Node.record ⟨Script.assign?, true⟩ {}) c).map (·.getD {})

end Entailment
