/-!
# Scanning

Scanners are descriptions of how much text to accept.  A lexer cuts a text into lexemes by applying
the first of its rules that accepts anything, over and over, and stops where none does.  The end of
the text can be accepted too, once, as a lexeme of no length.
-/

namespace Entailment

inductive Scanner where
  /-- Exactly these characters. -/
  | word (text : List Char)
  /-- One character between two bounds. -/
  | within (low high : Char)
  /-- As many repetitions as there are. -/
  | many (inner : Scanner)
  /-- The first alternative that accepts anything. -/
  | oneOf (alternatives : List Scanner)
  /-- One scanner, then another, which may accept nothing. -/
  | andThen (first second : Scanner)
  /-- The end of the text, which counts as one character. -/
  | ending
deriving Repr, Inhabited

namespace Scanner

/-- Adds up what `accept` takes in a row, for at most `n` times and not beyond the end. -/
def repeated (accept : List Char → Nat) : Nat → List Char → Nat
  | 0, _ | _, [] => 0
  | n + 1, text =>
    match accept text with
    | 0 => 0
    | k => k + repeated accept n (text.drop k)

mutual

/-- The number of characters accepted at the beginning of a text, or zero for none. -/
def accept : Scanner → List Char → Nat
  | .word w, text => if w.isPrefixOf text then w.length else 0
  | .within _ _, [] => 0
  | .within low high, c :: _ => if low ≤ c ∧ c ≤ high then 1 else 0
  | .many inner, text => repeated (accept inner) text.length text
  | .oneOf alternatives, text => acceptFirst alternatives text
  | .andThen first second, text =>
    match accept first text with
    | 0 => 0
    | k => k + accept second (text.drop k)
  | .ending, [] => 1
  | .ending, _ :: _ => 0

def acceptFirst : List Scanner → List Char → Nat
  | [], _ => 0
  | s :: rest, text =>
    match accept s text with
    | 0 => acceptFirst rest text
    | k => k

end

end Scanner

/-- A scanner, and what the text it accepts is. -/
structure LexRule (κ : Type) where
  scanner : Scanner
  kind : κ
deriving Repr

structure Lexeme (κ : Type) where
  kind : κ
  start : Nat
  stop : Nat
deriving Repr, DecidableEq

/-- The lexemes of a text, where lexing stopped, and how many characters were left. -/
structure Lexing (κ : Type) where
  lexemes : List (Lexeme κ)
  index : Nat
  remaining : Nat
deriving Repr

namespace LexRule

variable {κ : Type}

/-- The first rule that accepts anything, with how much it accepts. -/
def first? (rules : List (LexRule κ)) (text : List Char) : Option (κ × Nat) :=
  rules.findSome? fun r =>
    match r.scanner.accept text with
    | 0 => none
    | n => some (r.kind, n)

/-- Cuts a text that starts at `index` into lexemes. -/
def lexFrom (rules : List (LexRule κ)) (index : Nat) (text : List Char) : Lexing κ :=
  match first? rules text, text with
  | none, text => ⟨[], index, text.length⟩
  | some (kind, _), [] => ⟨[⟨kind, index, index⟩], index + 1, 0⟩
  | some (kind, n), c :: rest =>
    let stop := index + min n (c :: rest).length
    let tail := lexFrom rules stop (rest.drop (n - 1))
    { tail with lexemes := ⟨kind, index, stop⟩ :: tail.lexemes }
termination_by text.length

def lex (rules : List (LexRule κ)) (text : List Char) : Lexing κ := lexFrom rules 0 text

end LexRule

end Entailment
