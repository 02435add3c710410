import Lookahead.Report.Json
import Lookahead.Report.Yaml

/-!
Reports of an analysis: as plain text, the tokens on one line and the diagnostics one a line, or as a
structured document.
-/

namespace Lookahead

inductive OutputFormat where
  | text
  | json
  | yaml
deriving DecidableEq

instance : Named OutputFormat where
  all := [.text, .json, .yaml]
  name
    | .text => "text"
    | .json => "json"
    | .yaml => "yaml"

namespace Report

def tokenLine (tokens : List Token.Record) : String :=
  " ".intercalate (tokens.map Token.Record.display)

def diagnosticLine (d : Diagnostic) : String := s!"- {d.text}\n"

def parserSection (diagnostics : List Diagnostic) : String :=
  s!"Parser output:\nFound {diagnostics.length} errors.\n" ++
    String.join (diagnostics.map diagnosticLine)

def scannerSection (tokens : List Token.Record) : String :=
  s!"Scanner output:\n{tokenLine tokens}\n\n"

def text (a : Analysis) (showTokens : Bool) : String :=
  (if showTokens then scannerSection a.tokens else "") ++ parserSection a.diagnostics

end Report

def Analysis.render (a : Analysis) (format : OutputFormat) (showTokens : Bool) : String :=
  match format with
  | .text => Report.text a showTokens
  | .json => String.ofList (Json.text (a.document showTokens))
  | .yaml => String.ofList (Yaml.text (a.document showTokens))

end Lookahead
