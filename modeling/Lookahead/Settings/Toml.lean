import Lookahead.Settings.Toml.Scalar

/-!
Reading of TOML documents. A reader takes something from the front of a text and returns what is left.
Tables under construction remember how they came about, because that decides what may still be added
to them.
-/

namespace Lookahead.Settings.Toml

/-! ### Keys -/

def isBareKeyChar (c : Char) : Bool := c.isAlphanum || c = '_' || c = '-'

def simpleKey? : List Char → Option (String × List Char)
  | '"' :: s => (basicString? s).map fun r => (String.ofList r.1, r.2)
  | '\'' :: s => (literalString? s).map fun r => (String.ofList r.1, r.2)
  | s =>
    let key := s.takeWhile isBareKeyChar
    if key.isEmpty then none else some (String.ofList key, s.dropWhile isBareKeyChar)

/-- Keys with dots between them, and blanks around the dots. -/
def key? : Nat → List Char → Option (List String × List Char)
  | 0, _ => none
  | n + 1, s =>
    match simpleKey? (skipBlanks s) with
    | none => none
    | some (key, s) =>
      match skipBlanks s with
      | '.' :: s => (key? n s).map fun r => (key :: r.1, r.2)
      | s => some ([key], s)

/-! ### Tables under construction -/

/-- A table is opened by a header of its own, by the header of a table in it, or by a dotted key. -/
inductive Origin where
  | header
  | implicit
  | dotted
deriving DecidableEq

/-- A value is closed; tables and lists of tables can still grow. -/
inductive Node where
  | value (v : Value)
  | table (origin : Origin) (entries : List (String × Node))
  | tables (done : List (List (String × Node))) (last : List (String × Node))

abbrev Entries := List (String × Node)

def setEntry (key : String) (node : Node) : Entries → Entries
  | [] => [(key, node)]
  | e :: entries => if e.1 = key then (key, node) :: entries else e :: setEntry key node entries

/-- Opens the table of a header. -/
def openTable : List String → Entries → Option Entries
  | [], _ => none
  | [key], entries =>
    match entries.lookup key with
    | none => some (setEntry key (.table .header []) entries)
    | some (.table .implicit inner) => some (setEntry key (.table .header inner) entries)
    | some _ => none
  | key :: path, entries =>
    match entries.lookup key with
    | none => (openTable path []).map fun inner => setEntry key (.table .implicit inner) entries
    | some (.table origin inner) =>
      (openTable path inner).map fun inner => setEntry key (.table origin inner) entries
    | some (.tables done last) =>
      (openTable path last).map fun last => setEntry key (.tables done last) entries
    | some (.value _) => none

/-- Begins the next table of a list of tables. -/
def openListed : List String → Entries → Option Entries
  | [], _ => none
  | [key], entries =>
    match entries.lookup key with
    | none => some (setEntry key (.tables [] []) entries)
    | some (.tables done last) => some (setEntry key (.tables (done ++ [last]) []) entries)
    | some _ => none
  | key :: path, entries =>
    match entries.lookup key with
    | none => (openListed path []).map fun inner => setEntry key (.table .implicit inner) entries
    | some (.table origin inner) =>
      (openListed path inner).map fun inner => setEntry key (.table origin inner) entries
    | some (.tables done last) =>
      (openListed path last).map fun last => setEntry key (.tables done last) entries
    | some (.value _) => none

/-- Adds a value under a dotted key. Tables with a header are closed to dotted keys, and the table
that takes the value has to be one that a dotted key opened. -/
def addDotted (v : Value) : List String → Origin → Entries → Option Entries
  | [], _, _ => none
  | [key], origin, entries =>
    match origin, entries.lookup key with
    | .dotted, none => some (setEntry key (.value v) entries)
    | _, _ => none
  | key :: path, _, entries =>
    match entries.lookup key with
    | none =>
      (addDotted v path .dotted []).map fun inner => setEntry key (.table .dotted inner) entries
    | some (.table .header _) => none
    | some (.table origin inner) =>
      (addDotted v path origin inner).map fun inner => setEntry key (.table origin inner) entries
    | some _ => none

/-- Adds a value to the table that is open now. -/
def addValue (v : Value) (key : List String) (entries : Entries) : Option Entries :=
  addDotted v key .dotted entries

/-- Applies a change to the table that a header has opened. -/
def changeAt (change : Entries → Option Entries) : List String → Entries → Option Entries
  | [], entries => change entries
  | key :: path, entries =>
    match entries.lookup key with
    | some (.table origin inner) =>
      (changeAt change path inner).map fun inner => setEntry key (.table origin inner) entries
    | some (.tables done last) =>
      (changeAt change path last).map fun last => setEntry key (.tables done last) entries
    | _ => none

mutual

def Node.settle : Node → Value
  | .value v => v
  | .table _ entries => .table (settleAll entries)
  | .tables done last => .list (settleTables done ++ [.table (settleAll last)])

def settleEntry : String × Node → String × Value
  | (key, node) => (key, node.settle)

def settleAll : List (String × Node) → List (String × Value)
  | [] => []
  | e :: entries => settleEntry e :: settleAll entries

def settleTables : List (List (String × Node)) → List Value
  | [] => []
  | t :: tables => .table (settleAll t) :: settleTables tables

end

/-! ### Values -/

mutual

/-- A value; each unit of fuel goes with a character taken or a bracket opened. -/
def value? : Nat → List Char → Option (Value × List Char)
  | 0, _ => none
  | n + 1, s =>
    match s with
    | '"' :: _ | '\'' :: _ => (string? s).map fun r => (.text (String.ofList r.1), r.2)
    | '[' :: s => items? n [] s
    | '\x7b' :: s =>
      match skipBlanks s with
      | '\x7d' :: s => some (.table [], s)
      | s => inlineEntries? n [] s
    | s => plain? s

/-- The items of a list, the last of which may be followed by a comma. -/
def items? : Nat → List Value → List Char → Option (Value × List Char)
  | 0, _, _ => none
  | n + 1, items, s =>
    match skipLines s.length s with
    | ']' :: s => some (.list items.reverse, s)
    | s =>
      match value? n s with
      | none => none
      | some (v, s) =>
        match skipLines s.length s with
        | ',' :: s => items? n (v :: items) s
        | ']' :: s => some (.list (v :: items).reverse, s)
        | _ => none

/-- The entries of a table written on one line, the last of which is followed by no comma. -/
def inlineEntries? : Nat → Entries → List Char → Option (Value × List Char)
  | 0, _, _ => none
  | n + 1, entries, s =>
    match key? n s with
    | some (key, '=' :: s) =>
      match value? n (skipBlanks s) with
      | none => none
      | some (v, s) =>
        match addValue v key entries with
        | none => none
        | some entries =>
          match skipBlanks s with
          | ',' :: s => inlineEntries? n entries s
          | '\x7d' :: s => some (.table (settleAll entries), s)
          | _ => none
    | _ => none

end

/-! ### Documents -/

/-- A document read up to some line: its tables, and the header that is in force. -/
structure Draft where
  entries : Entries := []
  header : List String := []

def header? (n : Nat) (d : Draft) (s : List Char) : Option (Draft × List Char) :=
  match s with
  | '[' :: s =>
    match key? n s with
    | some (path, ']' :: ']' :: s) =>
      (openListed path d.entries).map fun entries => ({ entries, header := path }, s)
    | _ => none
  | s =>
    match key? n s with
    | some (path, ']' :: s) =>
      (openTable path d.entries).map fun entries => ({ entries, header := path }, s)
    | _ => none

def assignment? (n : Nat) (d : Draft) (s : List Char) : Option (Draft × List Char) :=
  match key? n s with
  | some (key, '=' :: s) =>
    match value? n (skipBlanks s) with
    | none => none
    | some (v, s) =>
      (changeAt (addValue v key) d.header d.entries).map fun entries => ({ d with entries }, s)
  | _ => none

/-- Reads headers and assignments, one a line. -/
def document? (fuel : Nat) : Nat → Draft → List Char → Option Draft
  | 0, _, _ => none
  | n + 1, d, s =>
    match skipLines s.length s with
    | [] => some d
    | s =>
      match (match s with
        | '[' :: s => header? fuel d s
        | s => assignment? fuel d s) with
      | none => none
      | some (d, s) =>
        match endOfLine? s with
        | none => none
        | some s => document? fuel n d s

/-- The entries of a document, which may begin with a byte order mark. -/
def read? (text : String) : Option (List (String × Value)) :=
  let s :=
    match text.toList with
    | '\ufeff' :: s => s
    | s => s
  (document? (2 * s.length + 2) (s.length + 1) {} s).map fun d => settleAll d.entries

end Lookahead.Settings.Toml
