import Lookahead.Language.Basic

/-!
Structured reports: an analysis as a tree of records and lists, which the data formats then write.
-/

namespace Lookahead

/-- Records keep the order of their fields. -/
inductive Document where
  | flag (b : Bool)
  | count (n : Nat)
  | text (s : String)
  | list (items : List Document)
  | record (fields : List (String × Document))

namespace Document

def ofPosition (p : Position) : List (String × Document) :=
  [("line", .count p.line), ("column", .count p.column)]

def ofToken (t : Token.Record) : Document :=
  .record ([("kind", .text t.kind), ("lexeme", .text t.lexeme)] ++ ofPosition t.position)

def ofDiagnostic (d : Diagnostic) : Document :=
  .record ([("code", .text (name d.code)), ("message", .text d.message)] ++ ofPosition d.position)

end Document

/-- The field of tokens is there only if they are to be shown. -/
def Analysis.document (a : Analysis) (showTokens : Bool) : Document :=
  .record (
    [("language", .text (name a.language)), ("accepted", .flag a.accepted)] ++
    (if showTokens then [("tokens", .list (a.tokens.map .ofToken))] else []) ++
    [("diagnostics", .list (a.diagnostics.map .ofDiagnostic))])

end Lookahead
