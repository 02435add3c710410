import Lookahead.Diagnostic
import Lookahead.Token.Basic

/-!
The events that scanning and parsing put into a log.
-/

namespace Lookahead

inductive Event where
  | noMatch (error : LexError)
  | scanFinished (tokens bytes : Nat)
  | recorded (diagnostic : Diagnostic)
  | suppressed (message : String) (sinceLast : Nat)
  | parseFinished (start : String) (consumed diagnostics : Nat)
deriving DecidableEq

namespace Event

inductive Level where
  | debug
  | trace
deriving DecidableEq

instance : Named Level where
  all := [.debug, .trace]
  name
    | .debug => "DEBUG"
    | .trace => "TRACE"

def level : Event → Level
  | recorded _ | suppressed .. => .trace
  | _ => .debug

/-- A suppressed complaint is logged under its own wording. -/
def message : Event → String
  | noMatch _ => "no pattern matches"
  | scanFinished .. => "scan finished"
  | recorded _ => "diagnostic recorded"
  | suppressed message _ => message
  | parseFinished .. => "parse finished"

end Event

end Lookahead
