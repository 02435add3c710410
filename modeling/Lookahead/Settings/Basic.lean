import Lookahead.Report.Basic
import Lookahead.Settings.Toml

/-!
Settings: which language to analyze and how to report on it. They come from layers: built-in values,
then files in their order, then single keys in theirs, in whatever order these were given.
-/

namespace Lookahead

structure Settings where
  language : Language
  counting : LineCounting
  format : OutputFormat
  showTokens : Bool
deriving DecidableEq

/-- Why no settings come of the layers: a key that is no path, a file that is not there, a file that
cannot be read, or values of the wrong sort. -/
inductive ConfigError where
  | pathParse
  | foreign
  | fileParse
  | invalid
deriving DecidableEq

instance : Named ConfigError where
  all := [.pathParse, .foreign, .fileParse, .invalid]
  name
    | .pathParse => "PathParse"
    | .foreign => "Foreign"
    | .fileParse => "FileParse"
    | .invalid => "Invalid"

namespace Settings

/-- A file has no text if it does not exist. -/
inductive Layer where
  | file (required : Bool) (text : Option String)
  | key (path : String) (v : Value)

def defaults : Value :=
  .table [
    ("analysis", .table [
      ("language", .text "imperative"), ("line_counting", .text "non-blank")]),
    ("output", .table [("format", .text "text"), ("show_tokens", .flag true)])]

/-- A choice is written as its name in any case, also as the only key of a table. -/
def choice? (α : Type) [Named α] : Value → Option α
  | .text s => find s
  | .table [(key, _)] => find key
  | _ => none
where
  find (s : String) : Option α := (Named.all : List α).find? fun a => lower (name a) == lower s

def flag? : Value → Option Bool
  | .flag b => some b
  | .integer n => some (n != 0)
  | .float isZero => some !isZero
  | .text s =>
    if lower s ∈ ["1", "true", "on", "yes"] then some true
    else if lower s ∈ ["0", "false", "off", "no"] then some false
    else none
  | .list _ | .table _ => none

def ofValue? (v : Value) : Option Settings := do
  let analysis ← v.get? "analysis"
  let output ← v.get? "output"
  return {
    language := ← (analysis.get? "language").bind (choice? Language)
    counting := ← (analysis.get? "line_counting").bind (choice? LineCounting)
    format := ← (output.get? "format").bind (choice? OutputFormat)
    showTokens := ← (output.get? "show_tokens").bind flag? }

/-- The text of a file without the byte order mark that it may begin with. -/
def unmarked (text : String) : String :=
  match text.toList with
  | '\ufeff' :: s => String.ofList s
  | _ => text

/-- The entries of a file layer; a file that may be missing has none then. -/
def readFile (required : Bool) (text : Option String) :
    Except ConfigError (List (String × Value)) :=
  match text with
  | none => if required then .error .foreign else .ok []
  | some text =>
    match Toml.read? (unmarked text) with
    | some entries => .ok entries
    | none => .error .fileParse

def readKey (path : String) (v : Value) : Except ConfigError (List String × Value) :=
  match path? path with
  | some keys => .ok (keys, v)
  | none => .error .pathParse

def Layer.key? : Layer → Option (Except ConfigError (List String × Value))
  | .key path v => some (readKey path v)
  | .file .. => none

def Layer.file? : Layer → Option (Except ConfigError (List (String × Value)))
  | .file required text => some (readFile required text)
  | .key .. => none

/-- A key that is no path is found before any file is read, and what is wrong with a file before the
values are looked at. -/
def build (layers : List Layer) : Except ConfigError Settings := do
  let keys ← (layers.filterMap Layer.key?).mapM id
  let files ← (layers.filterMap Layer.file?).mapM id
  let v := keys.foldl (fun v k => v.putAt k.1 k.2) (files.foldl Value.overlay defaults)
  match ofValue? v with
  | some s => return s
  | none => throw .invalid

end Settings

end Lookahead
