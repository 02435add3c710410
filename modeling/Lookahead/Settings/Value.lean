/-!
Values of settings: a tree of tables, in which layers are put over one another. Keys are the same key
if they differ only in case.
-/

namespace Lookahead.Settings

/-- Of a number with a fraction or an exponent only whether it is zero is kept. -/
inductive Value where
  | text (s : String)
  | flag (b : Bool)
  | integer (n : Int)
  | float (isZero : Bool)
  | list (items : List Value)
  | table (entries : List (String × Value))

/-- The lower case of a character as far as a letter of ASCII comes of it. The Kelvin sign is the one
character beyond ASCII of which that is true. -/
def lowerChar (c : Char) : Char := if c = '\u212a' then 'k' else c.toLower

def lower (s : String) : String := s.map lowerChar

/-- Puts a value under a key, in the place of the one that was there. -/
def insert (key : String) (v : Value) : List (String × Value) → List (String × Value)
  | [] => [(key, v)]
  | e :: entries => if e.1 = key then (key, v) :: entries else e :: insert key v entries

namespace Value

/-- What is not a table has no entries. -/
def entries : Value → List (String × Value)
  | table es => es
  | _ => []

def get? (v : Value) (key : String) : Option Value := v.entries.lookup key

mutual

/-- Puts a value under a key of a table. Tables are merged entry by entry. -/
def put (root : Value) (key : String) : Value → Value
  | table incoming =>
    table (insert (lower key) (putAll ((root.get? (lower key)).getD (table [])) incoming)
      root.entries)
  | v => table (insert (lower key) v root.entries)

def putEntry (root : Value) : String × Value → Value
  | (key, v) => put root key v

def putAll (root : Value) : List (String × Value) → Value
  | [] => root
  | e :: incoming => putAll (putEntry root e) incoming

end

/-- Puts a value at the end of a path. What lies on the way and is no table becomes one. -/
def putAt (root : Value) : List String → Value → Value
  | [], _ => root
  | [key], v => put root key v
  | key :: path, v =>
    table (insert (lower key) (putAt ((root.get? (lower key)).getD (table [])) path v) root.entries)

end Value

def isKeyChar (c : Char) : Bool := c.isAlphanum || c = ' ' || c = '_' || c = '-'

/-- A path is written as keys with dots between them. -/
def path? (text : String) : Option (List String) :=
  let keys := (text.toList.splitOn '.').map String.ofList
  if keys.all fun k => !k.isEmpty && k.toList.all isKeyChar then some keys else none

/-- Puts the entries of a file under its keys, of which the outermost may be written as paths. -/
def Value.overlay (root : Value) (file : List (String × Value)) : Value :=
  file.foldl (fun root e => root.putAt ((path? e.1).getD [e.1]) e.2) root

end Lookahead.Settings
