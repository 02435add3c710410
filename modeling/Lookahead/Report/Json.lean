import Lookahead.Report.Document

/-!
JSON text, each item and field on a line of its own, two blanks deeper than what holds it.
-/

namespace Lookahead.Json

/-- Quotation marks, backslashes and control characters are escaped, and nothing else. -/
def escape (c : Char) : List Char :=
  if c = '"' then ['\\', '"']
  else if c = '\\' then ['\\', '\\']
  else if c = '\n' then ['\\', 'n']
  else if c = '\r' then ['\\', 'r']
  else if c = '\t' then ['\\', 't']
  else if c = '\x08' then ['\\', 'b']
  else if c = '\x0c' then ['\\', 'f']
  else if c.toNat < 32 then
    ['\\', 'u', '0', '0', Nat.digitChar (c.toNat / 16), Nat.digitChar (c.toNat % 16)]
  else [c]

def quote (s : String) : List Char := '"' :: s.toList.flatMap escape ++ ['"']

def newline (depth : Nat) : List Char := '\n' :: List.replicate (2 * depth) ' '

def digits (n : Nat) : List Char := Nat.toDigits 10 n

def flag (b : Bool) : List Char := if b then ['t', 'r', 'u', 'e'] else ['f', 'a', 'l', 's', 'e']

mutual

/-- A document whose first line is already indented, `depth` levels down. -/
def write (depth : Nat) : Document → List Char
  | .flag b => flag b
  | .count n => digits n
  | .text s => quote s
  | .list [] => ['[', ']']
  | .list (d :: items) =>
    '[' :: newline (depth + 1) ++ write (depth + 1) d ++ writeItems (depth + 1) items ++
      newline depth ++ [']']
  | .record [] => ['\x7b', '\x7d']
  | .record (f :: fields) =>
    '\x7b' :: newline (depth + 1) ++ writeField (depth + 1) f ++ writeFields (depth + 1) fields ++
      newline depth ++ ['\x7d']

def writeItems (depth : Nat) : List Document → List Char
  | [] => []
  | d :: items => ',' :: newline depth ++ write depth d ++ writeItems depth items

def writeField (depth : Nat) : String × Document → List Char
  | (key, d) => quote key ++ ':' :: ' ' :: write depth d

def writeFields (depth : Nat) : List (String × Document) → List Char
  | [] => []
  | f :: fields => ',' :: newline depth ++ writeField depth f ++ writeFields depth fields

end

def text (d : Document) : List Char := write 0 d ++ ['\n']

end Lookahead.Json
