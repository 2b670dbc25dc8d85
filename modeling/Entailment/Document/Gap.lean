import Entailment.Document.Cursor

/-!
# Gaps

A scalar may run over several lines.  Blanks around a line end do not belong to it then; a single
line end counts as a space, and of several ones all but the first are kept.  Line ends that are more
than that are kept in any case.
-/

namespace Entailment.Document

/-- Blanks and line ends that have been passed inside a scalar. -/
inductive Gap where
  | none
  | blanks (cs : List Char)
  /-- The first line end, if it was not left out, and those that follow it. -/
  | lines (first : Option Char) (further : List Char)
deriving Repr

namespace Gap

def addBlank (c : Char) : Gap → Gap
  | .none => .blanks [c]
  | .blanks cs => .blanks (cs ++ [c])
  | g => g

def addBreak (c : Char) : Gap → Gap
  | .lines first further => .lines first (further ++ [breakText c])
  | _ => .lines (some (breakText c)) []

/-- What a gap contributes to the scalar. -/
def text : Gap → List Char
  | .none => []
  | .blanks cs => cs
  | .lines (some '\n') [] => [' ']
  | .lines (some '\n') further => further
  | .lines first further => first.toList ++ further

/-- A scalar, in reverse, with a gap after it. -/
def after (g : Gap) (seen : List Char) : List Char := g.text.reverse ++ seen

def isEmpty : Gap → Bool
  | .none => true
  | _ => false

/-- Whether a line ended. -/
def isBreak : Gap → Bool
  | .lines _ _ => true
  | _ => false

end Gap

end Entailment.Document
