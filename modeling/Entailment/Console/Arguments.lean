import Entailment.Document.Digits

/-!
# Arguments

How the words of a command line are understood.  Options may stand anywhere among the other words,
up to a double dash.  A long option takes its value after an equals sign or from the next word;
short ones can be run together.  A switch needs no value.
-/

namespace Entailment.Console

/-- What the value of an option has to be. -/
inductive OptionKind where
  | switch | number | text
deriving DecidableEq, Repr

structure OptionSpec where
  name : String
  short : Option Char
  kind : OptionKind
deriving Repr

/-- Options that were given, with their values. -/
abbrev Settings := List (String × String)

def flagValue? (s : String) : Option Bool :=
  if ["1", "t", "T", "TRUE", "true", "True"].contains s then some true
  else if ["0", "f", "F", "FALSE", "false", "False"].contains s then some false
  else none

def numberValue? (s : String) : Option Nat :=
  (Document.separatedNumber? s.toList).filter Document.isWord

def OptionKind.accepts : OptionKind → String → Bool
  | .switch, value => (flagValue? value).isSome
  | .number, value => (numberValue? value).isSome
  | .text, _ => true

namespace Settings

/-- The values given for an option, in order. -/
def values (s : Settings) (name : String) : List String :=
  s.filterMap fun (key, value) => if key = name then some value else none

/-- The last value of a switch, or what it is by default. -/
def flag (s : Settings) (name : String) (default : Bool) : Bool :=
  ((s.values name).getLast?.bind flagValue?).getD default

/-- The last value of a number, or zero. -/
def number (s : Settings) (name : String) : Nat :=
  ((s.values name).getLast?.bind numberValue?).getD 0

end Settings

namespace OptionSpec

def named? (specs : List OptionSpec) (name : String) : Option OptionSpec :=
  specs.find? (·.name == name)

def shortNamed? (specs : List OptionSpec) (c : Char) : Option OptionSpec :=
  specs.find? (·.short == some c)

end OptionSpec

/-- Options that a word settles, and the option that still needs a value from the next word. -/
structure Word where
  settings : Settings := []
  pending : Option OptionSpec := none

/-- What begins the options of a test run.  They are for the one who tests and mean nothing here. -/
def testing : List Char := "test.".toList

/-- Reads short options that are run together.  One that takes a value takes all that follows. -/
def shortOptions? (specs : List OptionSpec) : List Char → Option Word
  | [] => some {}
  | c :: cs => do
    if testing.isPrefixOf (c :: cs) then return {}
    let spec ← OptionSpec.shortNamed? specs c
    match spec.kind, cs with
    | _, '=' :: v :: value => some { settings := [(spec.name, String.ofList (v :: value))] }
    | .switch, cs =>
      let word ← shortOptions? specs cs
      some { word with settings := (spec.name, "true") :: word.settings }
    | _, [] => some { pending := some spec }
    | _, value => some { settings := [(spec.name, String.ofList value)] }

/-- Reads a long option. -/
def longOption? (specs : List OptionSpec) (cs : List Char) : Option Word := do
  let (name, value) := cs.span (· ≠ '=')
  let spec ← OptionSpec.named? specs (String.ofList name)
  match value, spec.kind with
  | _ :: value, _ => some { settings := [(spec.name, String.ofList value)] }
  | [], .switch => some { settings := [(spec.name, "true")] }
  | [], _ => some { pending := some spec }

/-- Settings all of whose values are fit for their options. -/
def accepted? (specs : List OptionSpec) (settings : Settings) : Option Settings :=
  let fits (name value : String) : Bool :=
    (OptionSpec.named? specs name).any (·.kind.accepts value)
  if settings.all fun (name, value) => fits name value then some settings else none

/-- The options and the other words of a command line.  There is none if an option is not known,
lacks its value, or has one that it cannot have. -/
def arguments? (specs : List OptionSpec) : List String → Option (Settings × List String)
  | [] => some ([], [])
  | s :: rest =>
    let continue? (word : Option Word) : Option (Settings × List String) := do
      let word ← word
      match word.pending, rest with
      | none, rest =>
        let given ← accepted? specs word.settings
        let (settings, words) ← arguments? specs rest
        return (given ++ settings, words)
      | some spec, value :: rest =>
        let given ← accepted? specs (word.settings ++ [(spec.name, value)])
        let (settings, words) ← arguments? specs rest
        return (given ++ settings, words)
      | some _, [] => none
    match s.toList with
    | ['-', '-'] => some ([], rest)
    | '-' :: '-' :: cs => continue? (longOption? specs cs)
    | '-' :: c :: cs => continue? (shortOptions? specs (c :: cs))
    | _ => do
      let (settings, words) ← arguments? specs rest
      return (settings, s :: words)

/-- Whether a word is an option that takes the next word for its value.  What is not known is taken
to do so. -/
def takesNext (specs : List OptionSpec) (s : String) : Bool :=
  match s.toList with
  | '-' :: '-' :: name =>
    !name.contains '=' && !(OptionSpec.named? specs (String.ofList name)).any (·.kind == .switch)
  | ['-', c] => c ≠ '=' && !(OptionSpec.shortNamed? specs c).any (·.kind == .switch)
  | _ => false

/-- Finds the word that names a command, given the options that can stand before it.  It comes with
all other words. -/
def command? (specs : List OptionSpec) : List String → Option (String × List String)
  | [] => none
  | "--" :: _ => none
  | s :: rest =>
    if takesNext specs s then
      match rest with
      | value :: word :: rest => do
        let (name, others) ← command? specs (word :: rest)
        return (name, s :: value :: others)
      | _ => none
    else if s = "" ∨ s.startsWith "-" then do
      let (name, others) ← command? specs rest
      return (name, s :: others)
    else some (s, rest)

end Entailment.Console
