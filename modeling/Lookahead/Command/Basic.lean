import Lookahead.Command.Arguments
import Lookahead.Command.Folder
import Lookahead.Settings.Basic

/-!
The command line: what a request prints and the status it exits with. The settings are built first,
then the source is read, and then it is analyzed.
-/

namespace Lookahead.Command

/-- Why a command comes to nothing. -/
inductive Failure where
  | usage
  | config (error : ConfigError)
  | unreadable (path : String) (cause : String)
  | lexical (error : LexError)
  | endless
deriving DecidableEq

namespace Failure

def configMessage : ConfigError → String
  | .pathParse => "a key is not a path"
  | .foreign => "the configuration file was not found"
  | .fileParse => "the configuration file is not valid TOML"
  | .invalid => "the configuration holds a value of the wrong sort"

def message : Failure → String
  | usage =>
    "usage: labparse check|tokens <path> [options], labparse list-languages, labparse --version"
  | config error => configMessage error
  | unreadable path cause => s!"cannot read {path}: {cause}"
  | lexical error => error.message
  | endless => "the analysis does not end"

/-- The line that is written to standard error. -/
def line (f : Failure) : String := s!"Error: {f.message}\n"

end Failure

/-- What a command prints, and whether the source was accepted. -/
structure Answer where
  output : String
  accepted : Bool := true
deriving DecidableEq

abbrev Outcome := Except Failure Answer

namespace Outcome

/-- 0 if the source is accepted, 1 if something is wrong with it, 2 if it could not be analyzed. -/
def status : Outcome → Nat
  | .ok a => if a.accepted then 0 else 1
  | .error _ => 2

def output : Outcome → String
  | .ok a => a.output
  | .error _ => ""

end Outcome

def version : String := "labparse 0.1.0\n"

def languageLine (l : Language) : String := s!"  {name l}\n    {l.description}\n"

def languageList : String :=
  "Available languages:\n\n" ++ String.join ((Named.all : List Language).map languageLine)

/-- The file that is read where no other is named. -/
def localConfig : String := "labparse.toml"

/-- A configuration file is found also without the end of its name. -/
def configPaths (path : String) : List String := [path, path ++ ".toml"]

/-- A configuration file that is not valid UTF-8 is read with replacement characters. -/
def configFile? (find : String → Place) (path : String) : Option String :=
  (configPaths path).findSome? fun path =>
    match find path with
    | .file bytes => some (Utf8.lossy bytes)
    | _ => none

def fileLayer (find : String → Place) : Option String → Settings.Layer
  | some path => .file true (configFile? find path)
  | none => .file false (configFile? find localConfig)

def optionLayers (o : Options) : List Settings.Layer :=
  (o.language.map fun l => .key "analysis.language" (.text (name l))).toList ++
  (o.counting.map fun k => .key "analysis.line_counting" (.text (name k))).toList ++
  (o.format.map fun f => .key "output.format" (.text (name f))).toList ++
  (if o.noTokens then [.key "output.show_tokens" (.flag false)] else [])

def settings (find : String → Place) (o : Options) : Except Failure Settings :=
  (Settings.build (fileLayer find o.config :: optionLayers o)).mapError .config

/-- The text of a source file. -/
def source (find : String → Place) (path : String) : Except Failure String :=
  match find path with
  | .file bytes =>
    match Utf8.strict? bytes with
    | some text => .ok text
    | none => .error (.unreadable path "stream did not contain valid UTF-8")
  | .directory => .error (.unreadable path "Is a directory (os error 21)")
  | .missing => .error (.unreadable path "No such file or directory (os error 2)")
  | .notDirectory => .error (.unreadable path "Not a directory (os error 20)")

def check (find : String → Place) (path : String) (o : Options) : Outcome := do
  let s ← settings find o
  let text ← source find path
  match s.language.analyze? s.counting text with
  | none => throw .endless
  | some (.error error) => throw (.lexical error)
  | some (.ok a) => return { output := a.render s.format s.showTokens, accepted := a.accepted }

def tokenLine (t : Token.Record) : String := s!"{t.position.display}\t{Token.Record.display t}\n"

def tokens (find : String → Place) (path : String) (o : Options) : Outcome := do
  let s ← settings find o
  let text ← source find path
  match s.language.tokenize s.counting text with
  | .error error => throw (.lexical error)
  | .ok ts => return { output := String.join (ts.map tokenLine) }

/-- What a request comes to, where `find` says what a path leads to. -/
def answer (find : String → Place) : Request → Outcome
  | .version => .ok { output := version }
  | .listLanguages => .ok { output := languageList }
  | .check path o => check find path o
  | .tokens path o => tokens find path o

/-- What a command line comes to. -/
def run (find : String → Place) (arguments : List String) : Outcome :=
  match Request.ofArguments? arguments with
  | none => .error .usage
  | some request => answer find request

/-- The paths that a command line may have to look at. -/
def wanted (arguments : List String) : List String :=
  match Request.ofArguments? arguments with
  | some (.check path o) | some (.tokens path o) =>
    path :: configPaths (o.config.getD localConfig)
  | _ => []

end Lookahead.Command
