import Lookahead.Text.Position

/-!
Diagnostics: complaints about the order of tokens, each placed at the token that was looked at.
-/

namespace Lookahead

/-- Which kind of rule complains. -/
inductive Code where
  | expected
  | invalidProduction
  | forbidden
deriving DecidableEq

instance : Named Code where
  all := [.expected, .invalidProduction, .forbidden]
  name
    | .expected => "expected"
    | .invalidProduction => "invalid-production"
    | .forbidden => "forbidden"

structure Diagnostic where
  code : Code
  message : String
  position : Position
deriving DecidableEq

def Diagnostic.text (d : Diagnostic) : String :=
  s!"{d.message} at line {d.position.line}, col {d.position.column}."

end Lookahead
