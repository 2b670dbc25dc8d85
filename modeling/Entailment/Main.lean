import Entailment.Console.Command

/-!
# The program

Hands the command line and the files it names to `Entailment.Console.run`, and prints what comes
back.
-/

namespace Entailment

/-- The contents of a file, unless it cannot be read. -/
def contentsOf? (file : String) : IO (Option String) := do
  try return some (← IO.FS.readFile file)
  catch _ => return none

end Entailment

open Entailment in
def main (args : List String) : IO UInt32 := do
  let files ← (Console.filesOf args).mapM fun file => do return (file, ← contentsOf? file)
  let out ← IO.getStdout
  let result := Console.run args (fun file => (files.lookup file).join) (← out.isTty)
  out.putStr result.out
  out.flush
  return result.code.toUInt32
