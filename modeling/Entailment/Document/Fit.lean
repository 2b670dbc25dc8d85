import Entailment.Document.Node

/-!
# Fitting documents

The functions here fit a node to what is wanted in its place.  A null stands for nothing being said,
so it fits everywhere and leaves the default; apart from that, a node that has another shape than is
wanted does not fit.

A reference stands for the node that it refers to.  It must not be met again while that node is
looked at, and a document in which almost everything is seen through references is refused, for a
short text could otherwise take very long.
-/

namespace Entailment.Document

/-- How many nodes have been looked at. -/
structure Effort where
  visits : Nat := 0
  /-- Those among them that were seen through references. -/
  shared : Nat := 0
deriving Repr

/-- Whether too much is seen through references.  Up to 99 of 100 visits may be, but only 10 of 100
if there are very many. -/
def Effort.isExcessive (e : Effort) : Bool :=
  let (low, high) := (400000, 4000000)
  let allowed := 99 * (high - low) - 89 * (min e.visits high - low)
  100 < e.shared && 1000 < e.visits && e.visits * allowed < 100 * (high - low) * e.shared

/-- What nodes are looked at with. -/
structure Outlook where
  /-- The nodes that have names. -/
  named : Array Node := #[]
  /-- How deep nodes can nest. -/
  bound : Nat
  /-- The references that are being seen through. -/
  through : List Nat := []

/-- Something that is found in nodes, unless they do not fit. -/
abbrev Fit := ReaderT Outlook (StateT Effort Option)

namespace Fit

/-- Counts a visit. -/
def count : Fit Unit := do
  let isShared := !(← read).through.isEmpty
  modify fun e => ⟨e.visits + 1, if isShared then e.shared + 1 else e.shared⟩
  if (← get).isExcessive then failure

/-- Looks at a node, or at what it refers to. -/
def visit {α : Type} (n : Node) (look : Node → Fit α) : Fit α := do
  count
  match n with
  | .reference number _ place =>
    let outlook ← read
    if outlook.through.contains number then failure
    let some target := outlook.named[place]? | failure
    withReader (fun o => { o with through := number :: o.through }) do
      count
      look target
  | n => look n

/-- Looks at nodes as if nothing had been looked at before. -/
def anew {α : Type} (fit : Fit α) : Fit α := do
  let before ← get
  set ({} : Effort)
  let a ← withReader (fun o => { o with through := [] }) fit
  set before
  return a

/-- Fits a whole document. -/
def run? {α : Type} (fit : Node → Fit α) (c : Content) : Option α :=
  ((fit c.root).run { named := c.named, bound := c.bound }).run { visits := 1 } |>.map (·.1)

end Fit

namespace Node

section Scalars

/-- Looks at a scalar that is not null. -/
def scalarWith {α : Type} (look : Scalar → Value → Option α) (n : Node) : Fit (Option α) :=
  Fit.visit n fun
    | .scalar s => do
      match s.value? with
      | none => failure
      | some .null => return none
      | some value =>
        let some a := look s value | failure
        return some a
    | _ => failure

/-- Any scalar can be taken for its text. -/
def text : Node → Fit (Option String) :=
  scalarWith fun s value =>
    match value with
    | .text text => some text
    | _ => some s.text

/-- Numbers from zero to the greatest one of 64 bits. -/
def natural : Node → Fit (Option Nat) :=
  scalarWith fun _ value =>
    match value with
    | .integer n => if 0 ≤ n ∧ isWord n.toNat then some n.toNat else none
    | .real x => x.word?
    | _ => none

/-- Words that are understood as truth values where one is wanted, even in quotes. -/
def flagOfWord? (s : String) : Option Bool :=
  if ["y", "Y", "yes", "Yes", "YES", "on", "On", "ON"].contains s then some true
  else if ["n", "N", "no", "No", "NO", "off", "Off", "OFF"].contains s then some false
  else none

def flag : Node → Fit (Option Bool) :=
  scalarWith fun _ value =>
    match value with
    | .flag b => some b
    | .text text => flagOfWord? text
    | _ => none

end Scalars

/-- The items of a sequence.  Nulls among them are left out. -/
def list {α : Type} (item : Node → Fit (Option α)) (n : Node) : Fit (List α) :=
  Fit.visit n fun
    | .scalar s => if s.isNull then return [] else failure
    | .sequence items _ => items.filterMapM item
    | _ => failure

section Keys

/-- What makes two keys of a mapping the same. -/
inductive Key where
  | text (s : String)
  | sequence
  | mapping
  | reference (name : String)
deriving DecidableEq, Repr

/-- Keys are told apart by their text alone. -/
def toKey : Node → Key
  | .scalar s => .text s.text
  | .sequence _ _ => .sequence
  | .mapping _ _ => .mapping
  | .reference _ name _ => .reference name

def isMerge : Node → Bool
  | .scalar s => s.isMerge
  | _ => false

end Keys

/-- How a record is filled in. -/
structure Form (α : Type) where
  /-- Sets the field of this name, if there is one. -/
  assign? : α → String → Option (Node → Fit α)
  /-- Whether there must not be entries for other fields. -/
  isStrict : Bool

/-- A record that is being filled in. -/
structure Filling (α : Type) where
  record : α
  /-- The names that need not be looked at any more, if entries come from another mapping. -/
  settled : Option (List String)
  /-- The fields that were set from this mapping. -/
  done : List String := []

namespace Form

/-- Fills in one entry.  Null is no name. -/
def enter {α : Type} (form : Form α) (f : Filling α) (entry : Node × Node) : Fit (Filling α) := do
  if entry.1.isMerge then return f
  let some name ← entry.1.text | return f
  if f.settled.any (·.contains name) then return f
  let f := { f with settled := f.settled.map (name :: ·) }
  match form.assign? f.record name with
  | some set =>
    if f.done.contains name then failure
    return { f with record := ← set entry.2, done := name :: f.done }
  | none => if form.isStrict then failure else return f

/-- The names of entries, which those of another mapping do not replace. -/
def names (entries : List (Node × Node)) : Fit (List String) :=
  entries.filterMapM fun (key, _) => key.text

/-- Fills in the entries of a mapping, and then those of the mappings that it takes further entries
from.  No two keys may be the same.  Tells which names are settled then. -/
def fill {α : Type} (form : Form α) :
    Nat → α → Option (List String) → List (Node × Node) → Fit (α × Option (List String))
  | 0, _, _, _ => failure
  | n + 1, record, settled, entries => do
    if ¬(entries.map (·.1.toKey)).Nodup then failure
    let f ← entries.foldlM form.enter { record, settled }
    match entries.find? (·.1.isMerge) with
    | none => return (f.record, f.settled)
    | some (_, source) =>
      let names ← match f.settled with
        | some names => pure names
        | none => names entries
      let sources := match source with
        | .sequence items _ => items
        | source => [source]
      let (record, names) ← sources.foldlM (fun (record, names) source => Fit.visit source fun
        | .mapping entries _ => fill form n record names entries
        | _ => failure) (f.record, some names)
      return (record, if settled.isSome then names else none)

/-- Fills in a record from a mapping that is being looked at. -/
def ofEntries {α : Type} (form : Form α) (blank : α) : Node → Fit (Option α)
  | .scalar s => if s.isNull then return none else failure
  | .mapping entries _ => do
    let (record, _) ← form.fill (← read).bound blank none entries
    return some record
  | _ => failure

end Form

def record {α : Type} (form : Form α) (blank : α) (n : Node) : Fit (Option α) :=
  Fit.visit n (form.ofEntries blank)

end Node

end Entailment.Document
