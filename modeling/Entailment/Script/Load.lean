import Entailment.Document.Yaml
import Entailment.Script.Decode
import Entailment.Script.Problem

/-!
# Loading scripts

A script is loaded from a document that fits it and has no problems.
-/

namespace Entailment

/-- Why a document is not accepted as a script. -/
inductive Script.Rejection where
  /-- It is no document, or does not have the shape of a script. -/
  | misfit
  /-- It is a script with problems. -/
  | problems (first : Script.Problem) (rest : List Script.Problem)
deriving Repr

/-- The problems, one a line.  A misfit is not described any further. -/
def Script.Rejection.message : Script.Rejection → Option String
  | .misfit => none
  | .problems first rest => some ("\n".intercalate ((first :: rest).map Script.Problem.message))

/-- Accepts a script that has no problems. -/
def Script.check (script : Script) : Except Script.Rejection Script :=
  match script.problems with
  | [] => .ok script
  | first :: rest => .error (.problems first rest)

def Script.load (c : Document.Content) : Except Script.Rejection Script :=
  match Script.ofContent? c with
  | some script => script.check
  | none => .error .misfit

/-- Loads a script from the text of a document. -/
def Script.ofText (text : String) : Except Script.Rejection Script :=
  match Document.ofText? text with
  | some content => Script.load content
  | none => .error .misfit

end Entailment
