/-!
# Source text

Named pieces of text, positions in them, and complaints about them.  All positions count characters
from the beginning of the text, and a span includes its start but not its end.
-/

namespace Entailment

structure Span where
  start : Int
  stop : Int
deriving DecidableEq, Repr, Inhabited

namespace Span

/-- The span between two positions, which have to be in order. -/
def ofBounds? (start stop : Int) : Option Span := if start ≤ stop then some ⟨start, stop⟩ else none

def length (s : Span) : Int := s.stop - s.start

end Span

structure Source where
  name : String
  text : List Char
deriving Repr

def Source.ofString (name text : String) : Source := ⟨name, text.toList⟩

/-- One line of a text, without the newline at its end.  Lines are counted from one. -/
structure Line where
  number : Nat
  start : Nat
  text : List Char
deriving DecidableEq, Repr

/-- Walks on to a position.  `passed` is what of the current line has been passed, backwards, and
`rest` what is still ahead at index `i`.  From the position on, the line goes to the next newline. -/
def Line.seek (position : Int) (i number start : Nat) (passed : List Char) : List Char → Line
  | [] => ⟨number, start, passed.reverse⟩
  | c :: rest =>
    if (i : Int) = position then
      ⟨number, start, passed.reverse ++ (c :: rest).takeWhile (· ≠ '\n')⟩
    else if c = '\n' then seek position (i + 1) (number + 1) (i + 1) [] rest
    else seek position (i + 1) number start (c :: passed) rest

/-- The line a span starts on.  What starts beyond the text is on the last line. -/
def Source.lineOf (source : Source) (span : Span) : Line :=
  Line.seek span.start 0 1 0 [] source.text

/-- A complaint about part of a text. -/
structure Diagnostic where
  source : Source
  span : Span
  complaint : String
deriving Repr

namespace Diagnostic

def line (d : Diagnostic) : Line := d.source.lineOf d.span

def message (d : Diagnostic) : String :=
  s!"{d.source.name}:{d.span.start}:{d.span.stop}:{d.complaint}"

/-- The complaint for people: where it is, the line, and marks under the text concerned. -/
def report (d : Diagnostic) : String :=
  let indent := (d.span.start - d.line.start).toNat
  let marks := max 1 d.span.length.toNat
  s!"{d.source.name}:{d.line.number}: {d.complaint}\n" ++ String.ofList d.line.text ++ "\n"
    ++ String.ofList (List.replicate indent ' ' ++ List.replicate marks '^') ++ "\n"

end Diagnostic

end Entailment
