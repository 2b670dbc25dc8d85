import Entailment.Console.Arguments
import Entailment.Console.Summary
import Entailment.Script.Load

/-!
# Commands

What can be asked for on the command line: to check proof scripts, to show how texts are read, and
to list the rules.  Commands are functions from the files they are given to what they print and the
code they exit with.  That code is 0 if all is well, 1 if a goal does not come out as expected or
the command line is not understood, and 2 if something cannot be checked or read at all.
-/

namespace Entailment.Console

structure Result where
  out : String := ""
  code : Nat := 0
deriving DecidableEq, Repr

/-- What keeps a command from doing its work. -/
inductive Trouble where
  | missing (file : String)
  | rejected (file : String) (cause : Script.Rejection)
  | faulty (file : String) (cause : Script.Fault)
  | unreadable (d : Diagnostic)
  | malformed (cause : Malformed)
  | declaredTwice (name : String)
deriving Repr

namespace Trouble

/-- What is said about it, if anything. -/
def message : Trouble → Option String
  | .missing _ => none
  | .rejected file cause => cause.message.map fun m => s!"{file}: {m}"
  | .faulty _ (.malformed cause) => some cause.message
  | .faulty file cause => some s!"{file}: {cause.message}"
  | .unreadable d => some d.message
  | .malformed cause => some cause.message
  | .declaredTwice name => some s!"variable {name} declared twice"

/-- A text that cannot be read is shown with the place that is wrong; nothing else is printed. -/
def report : Trouble → String
  | .unreadable d => d.report
  | .faulty _ cause =>
    match cause.root with
    | .unreadable d => d.report
    | _ => ""
  | _ => ""

end Trouble

/-- The last part of a path, without what follows its last dot. -/
def stem (path : String) : String :=
  let base := (path.toList.reverse.takeWhile (· ≠ '/')).reverse
  match base.reverse.dropWhile (· ≠ '.') with
  | [] => String.ofList base
  | _ :: rest => String.ofList rest.reverse

/-- Runs the script in a file.  A script without a name is called after its file. -/
def check (file text : String) (depth : Nat) : Except Trouble Script.Outcome :=
  match Script.ofText text with
  | .error cause => .error (.rejected file cause)
  | .ok script =>
    let script := if script.name = "" then { script with name := stem file } else script
    match script.run depth with
    | .ok outcome => .ok outcome
    | .error cause => .error (.faulty file cause)

/-- How texts are to be read and shown. -/
structure Reading where
  declares : List String := []
  term : Bool := false
  markup : Bool := false
deriving Repr

/-- Declares variables, numbered from a given number on. -/
def declare : Environment → Nat → List String → Except Trouble (Environment × Nat)
  | env, fresh, [] => .ok (env, fresh)
  | env, fresh, name :: rest =>
    match env.declare? ⟨fresh, name⟩ with
    | some env => declare env (fresh + 1) rest
    | none => .error (.declaredTwice name)

/-- The line that shows what was read. -/
def shown {α : Type} (source : Source) (text : α → String) :
    Except Unreadable α → Except Trouble String
  | .ok a => .ok (text a ++ "\n")
  | .error (.complaint span c) => .error (.unreadable (source.diagnose span c))
  | .error (.malformed cause) => .error (.malformed cause)

/-- Reads a text, and shows how it was understood. -/
def Reading.display (reading : Reading) (source : Source) : Except Trouble String :=
  match declare [] 1 reading.declares with
  | .error trouble => .error trouble
  | .ok (env, fresh) =>
    if reading.term then shown source Term.render (source.term env fresh).1
    else
      shown source (if reading.markup then Proposition.markup else Proposition.render)
        (source.proposition env fresh).1

/-- What a command line asks for. -/
inductive Request where
  | help
  | rules
  | check (files : List String) (depth : Nat) (traces escapes : Bool)
  | read (texts : List String) (reading : Reading)
deriving Repr

namespace Request

/-- Options of all commands. -/
def common : List OptionSpec := [⟨"verbose", some 'v', .switch⟩, ⟨"ansi-escapes", none, .switch⟩]

/-- Options that stand before any command. -/
def leading : List OptionSpec := ⟨"version", none, .switch⟩ :: common

def helpOption : OptionSpec := ⟨"help", some 'h', .switch⟩

def checkOptions : List OptionSpec :=
  [helpOption, ⟨"depth", some 'd', .number⟩, ⟨"trace", some 't', .switch⟩] ++ common

def readOptions : List OptionSpec :=
  [helpOption, ⟨"var", none, .text⟩, ⟨"term", none, .switch⟩, ⟨"latex", none, .switch⟩] ++ common

/-- Understands the words of a command line. -/
def ofArguments? (args : List String) : Option Request := do
  let unlessHelp (settings : Settings) (request : Request) : Request :=
    if settings.flag "help" false then .help else request
  match command? leading args with
  | none =>
    let _ ← arguments? (helpOption :: leading) args
    return .help
  | some ("check", others) =>
    let (settings, files) ← arguments? checkOptions others
    return unlessHelp settings <|
      .check files (settings.number "depth") (settings.flag "trace" false)
        (settings.flag "ansi-escapes" true)
  | some ("parse", others) =>
    let (settings, texts) ← arguments? readOptions others
    return unlessHelp settings <| .read texts
      { declares := settings.values "var"
        term := settings.flag "term" false
        markup := settings.flag "latex" false }
  | some ("rules", others) =>
    let (settings, _) ← arguments? (helpOption :: common) others
    return unlessHelp settings .rules
  | some ("help", others) | some ("completion", others) =>
    let _ ← arguments? (helpOption :: common) others
    return .help
  | some _ => none

/-- The files that have to be read to do what was asked for. -/
def files : Request → List String
  | .check files _ _ _ => files
  | _ => []

/-- Checks files one after the other, up to the first that is in trouble. -/
def checkAll (palette : Palette) (traces : Bool) (depth : Nat) (contents : String → Option String) :
    List String → Result
  | [] => {}
  | file :: rest =>
    let checked : Except Trouble Script.Outcome := match contents file with
      | some text => Console.check file text depth
      | none => .error (.missing file)
    match checked with
    | .error trouble => { out := trouble.report, code := 2 }
    | .ok outcome =>
      let others := checkAll palette traces depth contents rest
      { out := outcome.render palette traces ++ others.out
        code := if others.code = 0 ∧ !outcome.isExpected then 1 else others.code }

/-- Shows texts one after the other, up to the first that is in trouble.  Texts are counted from the
given number on. -/
def readAll (reading : Reading) : Nat → List String → Result
  | _, [] => {}
  | number, text :: rest =>
    match reading.display (.ofString s!"arg {number}" text) with
    | .error trouble => { out := trouble.report, code := 2 }
    | .ok shown =>
      let others := readAll reading (number + 1) rest
      { others with out := shown ++ others.out }

/-- Does what was asked for, given the contents of files and whether output goes to a terminal. -/
def perform (contents : String → Option String) (terminal : Bool) : Request → Result
  | .help => {}
  | .rules => { out := ruleListing }
  | .check [] _ _ _ => { code := 1 }
  | .check files depth traces escapes =>
    checkAll ⟨terminal && escapes⟩ traces depth contents files
  | .read [] _ => { code := 1 }
  | .read texts reading => readAll reading 1 texts

end Request

/-- The files that a command line is about. -/
def filesOf (args : List String) : List String :=
  ((Request.ofArguments? args).map Request.files).getD []

/-- The command line as a whole. -/
def run (args : List String) (contents : String → Option String) (terminal : Bool) : Result :=
  match Request.ofArguments? args with
  | some request => request.perform contents terminal
  | none => { code := 1 }

end Entailment.Console
