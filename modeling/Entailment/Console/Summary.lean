import Entailment.Console.Style
import Entailment.Script.Run

/-!
# Summaries

What people are shown of a script that was run: a verdict for every goal, its derivation if they ask
for it, and how many goals came out as expected.
-/

namespace Entailment

open Script

/-- How a goal came out, highlighted by whether that is good news. -/
def Script.Report.verdict (palette : Palette) (r : Report) : String :=
  match r.flaw, r.isProven, r.refute with
  | some _, _, _ => palette.failure "[unsound]"
  | none, true, false => palette.success "[proven]"
  | none, false, true => palette.success "[refuted]"
  | none, true, true => palette.failure "[unexpectedly proven]"
  | none, false, false => palette.warning "[not proven]"

/-- The derivation of a goal, indented below it.  One that failed its audit is not shown. -/
def Script.Report.derivation (r : Report) : List String :=
  match r.flaw, r.trace with
  | none, some t => t.lines "    "
  | _, _ => []

def Script.Report.lines (palette : Palette) (traces : Bool) (r : Report) : List String :=
  (r.verdict palette ++ " " ++ palette.emphasis r.goal.render)
    :: if traces then r.derivation else []

def Script.Outcome.lines (palette : Palette) (traces : Bool) (o : Outcome) : List String :=
  let passed := (o.reports.filter Report.isExpected).length
  let total := s!"{o.name}: {passed}/{o.reports.length} goal(s) as expected"
  o.reports.flatMap (Report.lines palette traces)
    ++ [if o.isExpected then palette.success total else palette.failure total]

/-- Lines as one text, each of them ended. -/
def unlines (lines : List String) : String := String.join (lines.map (· ++ "\n"))

def Script.Outcome.render (palette : Palette) (traces : Bool) (o : Outcome) : String :=
  unlines (o.lines palette traces)

/-- The list of all rules, in which those that steps can apply are marked. -/
def ruleListing : String :=
  unlines (Rule.all.map fun r => (if isApplicable r then "* " else "  ") ++ r.name)

end Entailment
