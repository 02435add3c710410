import Lookahead.Command.Basic

/-!
The program: looks at the files that the command line names, and prints what comes of them.
-/

namespace Lookahead

/-- What a path leads to on this machine. -/
def lookAt (path : String) : IO Place := do
  try
    if ← (← IO.FS.realPath path).isDir then return .directory
    return .file (← IO.FS.readBinFile path).toList
  catch
    | .inappropriateType .. => return .notDirectory
    | _ => return .missing

end Lookahead

open Lookahead

def main (arguments : List String) : IO UInt32 := do
  let found ← (Command.wanted arguments).mapM fun path => return (path, ← lookAt path)
  let outcome := Command.run (fun path => (found.lookup path).getD .missing) arguments
  IO.print outcome.output
  match outcome with
  | .error failure => IO.eprint failure.line
  | .ok _ => pure ()
  return outcome.status.toUInt32
