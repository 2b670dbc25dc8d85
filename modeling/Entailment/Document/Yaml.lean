import Entailment.Document.Layout
import Entailment.Document.Node

/-!
# YAML

Reads the first document of a text: what its tokens say about the nodes it is made of.  What follows
the document matters only as far as it has to be looked at to see where the document ends.  The
number of tokens bounds how deep nodes can nest, and that bound is what recursion goes down on.
-/

namespace Entailment.Document

/-- What is still to be read, and what has been given a name so far. -/
structure Reading where
  tokens : List Token
  /-- The places of named nodes, the latest first. -/
  places : List (String × Nat) := []
  /-- The named nodes.  One that is still being read is empty. -/
  named : Array Node := #[]
  /-- The number of references. -/
  references : Nat := 0
  /-- What abbreviations in tags stand for. -/
  abbreviations : List (String × String) := [("!", "!"), ("!!", Tag.common)]

abbrev Parse := StateT Reading Option

namespace Parse

/-- The next token. -/
def peek : Parse Token := do (← get).tokens.head?

/-- Passes over the next token. -/
def drop : Parse Unit := modify fun r => { r with tokens := r.tokens.tail }

section Names

/-- Refers to the last node of this name, which may still be open. -/
def reference (name : String) : Parse Node := do
  let r ← get
  let place ← r.places.lookup name
  set { r with references := r.references + 1 }
  return .reference r.references name place

/-- Gives a name to the node that begins, and tells its place. -/
def beginNamed (name : String) : Parse Nat := do
  let r ← get
  let place := r.named.size
  set { r with places := (name, place) :: r.places, named := r.named.push .empty }
  return place

/-- The node in a place is complete. -/
def completeNamed (place : Nat) (n : Node) : Parse Unit :=
  modify fun r => { r with named := r.named.setIfInBounds place n }

end Names

/-- The short form of a tag that is given by a handle and what follows it. -/
def fullTag (handle suffix : String) : Parse String := do
  if handle = "" then return Tag.shorten suffix
  let full ← (← get).abbreviations.lookup handle
  return Tag.shorten (full ++ suffix)

/-- The name and tag of a node, in either order.  A mere exclamation mark is no tag. -/
def properties : Parse (Option String × Option String) := do
  let anchor : Parse (Option String) := do
    let .anchor name ← peek | return none
    drop
    return some name
  let tag : Parse (Option String) := do
    let .tag handle suffix ← peek | return none
    drop
    return some (← fullTag handle suffix)
  match ← anchor with
  | some name => return (some name, ← tag)
  | none =>
    match ← tag with
    | some tag => return (← anchor, some tag)
    | none => return (none, none)

/-- Where a node can stand. -/
inductive Place where
  | item
  /-- A value, in which a sequence need not be indented. -/
  | value
  | bracket
deriving DecidableEq, Repr

mutual

/-- A node of any kind. -/
def node (place : Place) : Nat → Parse Node
  | 0 => failure
  | n + 1 => do
    if let .reference name ← peek then
      drop
      return ← reference name
    let (name, tag) ← properties
    let hasProperties : Bool := name.isSome || tag.isSome
    let tag := tag.filter (· ≠ "!")
    match name with
    | none => content place hasProperties tag n
    | some name =>
      let named ← beginNamed name
      let node ← content place hasProperties tag n
      completeNamed named node
      return node

/-- What a node holds.  It may be nothing if the node has properties. -/
def content (place : Place) (hasProperties : Bool) (tag : Option String) : Nat → Parse Node
  | 0 => failure
  | n + 1 => do
    match ← peek with
    | .entry =>
      if place = .value then return .sequence (← looseItems n) tag
      if hasProperties then return .scalar ⟨"", false, tag⟩
      failure
    | .scalar text plain =>
      drop
      return .scalar ⟨text, !plain, tag⟩
    | .openBracket =>
      drop
      return .sequence (← bracketItems true n) tag
    | .openBrace =>
      drop
      return .mapping (← braceEntries true n) tag
    | t =>
      if t = .blockSequence ∧ place ≠ .bracket then
        drop
        return .sequence (← blockItems n) tag
      if t = .blockMapping ∧ place ≠ .bracket then
        drop
        return .mapping (← blockEntries n) tag
      if hasProperties then return .scalar ⟨"", false, tag⟩
      failure

/-- A node, or an empty scalar in front of one of the given tokens. -/
def nodeUnless (stops : List Token) (place : Place) : Nat → Parse Node
  | 0 => failure
  | n + 1 => do
    if stops.contains (← peek) then return .empty
    node place n

/-- The items of a sequence to the end of its indentation. -/
def blockItems : Nat → Parse (List Node)
  | 0 => failure
  | n + 1 => do
    match ← peek with
    | .entry =>
      drop
      let item ← nodeUnless [.entry, .blockEnd] .item n
      return item :: (← blockItems n)
    | .blockEnd =>
      drop
      return []
    | _ => failure

/-- The items of a sequence that is not indented. -/
def looseItems : Nat → Parse (List Node)
  | 0 => failure
  | n + 1 => do
    match ← peek with
    | .entry =>
      drop
      let item ← nodeUnless [.entry, .key, .value, .blockEnd] .item n
      return item :: (← looseItems n)
    | _ => return []

/-- The value of an entry, which may be left out with its colon or after it. -/
def valueUnless (stops : List Token) (place : Place) : Nat → Parse Node
  | 0 => failure
  | n + 1 => do
    match ← peek with
    | .value =>
      drop
      nodeUnless stops place n
    | _ => return .empty

/-- The entries of a mapping to the end of its indentation. -/
def blockEntries : Nat → Parse (List (Node × Node))
  | 0 => failure
  | n + 1 => do
    match ← peek with
    | .key =>
      drop
      let key ← nodeUnless [.key, .value, .blockEnd] .value n
      let value ← valueUnless [.key, .value, .blockEnd] .value n
      return (key, value) :: (← blockEntries n)
    | .blockEnd =>
      drop
      return []
    | _ => failure

/-- The items up to the closing bracket.  A key makes an item a mapping with a single entry; it
cannot be left out. -/
def bracketItems (first : Bool) : Nat → Parse (List Node)
  | 0 => failure
  | n + 1 => do
    if !first ∧ (← peek) = .comma then drop
    else if !first ∧ (← peek) ≠ .closeBracket then failure
    match ← peek with
    | .closeBracket =>
      drop
      return []
    | .key =>
      drop
      let stops := [Token.value, .comma, .closeBracket]
      if stops.contains (← peek) then
        drop
        let value ← valueUnless [.comma, .closeBracket] .bracket n
        return .mapping [(.empty, value)] none :: (← bracketItems false n)
      let key ← node .bracket n
      let value ← valueUnless [.comma, .closeBracket] .bracket n
      return .mapping [(key, value)] none :: (← bracketItems false n)
    | _ =>
      let item ← node .bracket n
      return item :: (← bracketItems false n)

/-- The entries up to the closing brace.  A node that is no key has no value. -/
def braceEntries (first : Bool) : Nat → Parse (List (Node × Node))
  | 0 => failure
  | n + 1 => do
    if !first ∧ (← peek) = .comma then drop
    else if !first ∧ (← peek) ≠ .closeBrace then failure
    match ← peek with
    | .closeBrace =>
      drop
      return []
    | .key =>
      drop
      let key ← nodeUnless [.value, .comma, .closeBrace] .bracket n
      let value ← valueUnless [.comma, .closeBrace] .bracket n
      return (key, value) :: (← braceEntries false n)
    | _ =>
      let key ← node .bracket n
      return (key, .empty) :: (← braceEntries false n)

end

/-- Reads directives.  The version can be given once, and so can an abbreviation. -/
def directives (versioned : Bool) (given : List (String × String)) : Nat → Parse Unit
  | 0 => failure
  | n + 1 => do
    match ← peek with
    | .version major minor =>
      if versioned ∨ (major, minor) ≠ (1, 1) then failure
      drop
      directives true given n
    | .abbreviation handle full =>
      if (given.lookup handle).isSome then failure
      drop
      directives versioned ((handle, full) :: given) n
    | _ => modify fun r => { r with abbreviations := given ++ r.abbreviations }

/-- The first document.  One that is marked as such may be empty.  Something has to follow it, if
only the end of the text. -/
def document (n : Nat) : Parse Node := do
  let root ← match ← peek with
    | .textEnd => failure
    | .version _ _ | .abbreviation _ _ | .documentStart =>
      directives false [] n
      let .documentStart ← peek | failure
      drop
      match ← peek with
      | .version _ _ | .abbreviation _ _ | .documentStart | .documentEnd | .textEnd =>
        pure .empty
      | _ => node .item n
    | _ => node .item n
  let _ ← peek
  return root

end Parse

/-- Reads the first document of a text. -/
def ofText? (text : String) : Option Content :=
  let tokens := tokens text.toList
  ((Parse.document (4 * tokens.length + 8)).run { tokens }).map fun (root, r) =>
    { root, named := r.named }

end Entailment.Document
