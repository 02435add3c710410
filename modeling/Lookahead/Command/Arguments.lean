import Lookahead.Report.Basic

/-!
Arguments of the command line: which command is asked for, and with which options. An option stands
at most once; its value follows it, after an equals sign or as the next argument.
-/

namespace Lookahead.Command

/-- The options of a command, of which `tokens` knows only the first three. -/
inductive Switch where
  | language
  | config
  | lineCounting
  | format
  | noTokens
deriving DecidableEq

/-- What the options given so far say. -/
structure Options where
  language : Option Language := none
  config : Option String := none
  counting : Option LineCounting := none
  format : Option OutputFormat := none
  noTokens : Bool := false
deriving DecidableEq

inductive Request where
  | version
  | listLanguages
  | check (path : String) (options : Options)
  | tokens (path : String) (options : Options)
deriving DecidableEq

/-- Whether a command shows a report, and so has options for it. -/
abbrev Reports := Bool

def long? (reports : Reports) (name : List Char) : Option Switch :=
  match String.ofList name with
  | "language" => some .language
  | "config" => some .config
  | "line-counting" => some .lineCounting
  | "format" => if reports then some .format else none
  | "no-tokens" => if reports then some .noTokens else none
  | _ => none

def short? (reports : Reports) (c : Char) : Option Switch :=
  if c = 'l' then some .language
  else if c = 'c' then some .config
  else if c = 'f' && reports then some .format
  else none

/-- Gives an option that takes a value. No value is empty. -/
def Options.give? (o : Options) (option : Switch) (text : String) : Option Options :=
  match option with
  | .language =>
    if o.language.isSome then none
    else (Named.ofName? text).map fun l => { o with language := some l }
  | .config =>
    if o.config.isSome || text.isEmpty then none else some { o with config := some text }
  | .lineCounting =>
    if o.counting.isSome then none
    else (Named.ofName? text).map fun k => { o with counting := some k }
  | .format =>
    if o.format.isSome then none
    else (Named.ofName? text).map fun f => { o with format := some f }
  | .noTokens => none

/-- An argument as it is read before the options are over. -/
inductive Shape where
  | endOfOptions
  | long (name : List Char) (value : Option String)
  | short (letter : Char) (value : Option String)
  | operand (text : String)

/-- A single dash is no option. An equals sign between a letter and its value is left out. -/
def shape (text : String) : Shape :=
  match text.toList with
  | ['-', '-'] => .endOfOptions
  | '-' :: '-' :: name =>
    match name.dropWhile (· != '=') with
    | [] => .long name none
    | _ :: value => .long (name.takeWhile (· != '=')) (some (String.ofList value))
  | ['-', c] => .short c none
  | '-' :: c :: '=' :: value => .short c (some (String.ofList value))
  | '-' :: c :: value => .short c (some (String.ofList value))
  | _ => .operand text

/-- What has been read of the arguments of a command. -/
structure Draft where
  path : Option String := none
  options : Options := {}
  awaiting : Option Switch := none
  operandsOnly : Bool := false

def Draft.operand? (d : Draft) (text : String) : Option Draft :=
  if d.path.isSome || text.isEmpty then none else some { d with path := some text }

def Draft.option? (d : Draft) (option : Switch) (value : Option String) : Option Draft :=
  match option, value with
  | .noTokens, some _ => none
  | .noTokens, none =>
    if d.options.noTokens then none
    else some { d with options := { d.options with noTokens := true } }
  | option, none => some { d with awaiting := some option }
  | option, some value => (d.options.give? option value).map fun options => { d with options }

/-- Reads one argument more. The value of an option cannot look like an option. -/
def Draft.read? (reports : Reports) (d : Draft) (text : String) : Option Draft :=
  if d.operandsOnly then d.operand? text
  else
    match shape text, d.awaiting with
    | .operand text, some option =>
      (d.options.give? option text).map fun options => { d with options, awaiting := none }
    | _, some _ => none
    | .operand text, none => d.operand? text
    | .endOfOptions, none => some { d with operandsOnly := true }
    | .long name value, none => (long? reports name).bind (d.option? · value)
    | .short letter value, none => (short? reports letter).bind (d.option? · value)

/-- The path and the options that arguments give. -/
def read? (reports : Reports) (arguments : List String) : Option (String × Options) :=
  match arguments.foldlM (Draft.read? reports) {} with
  | some { path := some path, options, awaiting := none, .. } => some (path, options)
  | _ => none

/-- The request that a command line makes, if it is well formed. -/
def Request.ofArguments? : List String → Option Request
  | [] => none
  | "list-languages" :: rest => if rest = [] ∨ rest = ["--"] then some .listLanguages else none
  | "check" :: rest => (read? true rest).map fun r => .check r.1 r.2
  | "tokens" :: rest => (read? false rest).map fun r => .tokens r.1 r.2
  | first :: _ =>
    if first = "--version" ∨ "-V".toList.isPrefixOf first.toList then some .version else none

end Lookahead.Command
