import Lookahead.Report.Document

/-!
YAML text in block style. Items stand under the first letter of the key that holds them, and a string
is put between single quotes where it would otherwise be read as something else.
-/

namespace Lookahead.Yaml

/-- The least number that is too large for a double, rounding to nearest. -/
def doubleLimit : Nat := Nat.pow 2 1024 - Nat.pow 2 970

/-- Whether `mantissa · 10 ^ exponent / 10 ^ places` rounds to a finite double. -/
def isFinite (mantissa places exponent : Nat) : Bool :=
  mantissa == 0 ||
    (exponent < places + 310 && mantissa * Nat.pow 10 exponent < doubleLimit * Nat.pow 10 places)

def value (base : Nat) (digits : List Char) : Nat :=
  digits.foldl (fun n c => n * base + (c.toNat - '0'.toNat)) 0

def isBit (c : Char) : Bool := c = '0' || c = '1'

/-- Digits, perhaps a fraction, and perhaps an exponent. -/
def readsAsDecimal (s : List Char) : Bool :=
  let whole := s.takeWhile Char.isDigit
  let rest := s.dropWhile Char.isDigit
  let (fraction, rest) :=
    match rest with
    | '.' :: r => (some (r.takeWhile Char.isDigit), r.dropWhile Char.isDigit)
    | _ => (none, rest)
  let (exponent, rest) :=
    match rest with
    | 'e' :: r => (some (r.takeWhile Char.isDigit), r.dropWhile Char.isDigit)
    | _ => (none, rest)
  rest.isEmpty && !whole.isEmpty && fraction != some [] && exponent != some [] &&
    isFinite (value 10 (whole ++ fraction.getD [])) (fraction.getD []).length
      (value 10 (exponent.getD []))

/-- Whole numbers in base two have up to 128 digits. -/
def readsAsBinary : List Char → Bool
  | '0' :: 'b' :: bits => !bits.isEmpty && bits.all isBit && value 2 bits < Nat.pow 2 128
  | _ => false

def words : List String :=
  ["null", "Null", "NULL", "true", "True", "TRUE", "false", "False", "FALSE"]

/-- Characters that a plain string may not begin with. -/
def indicators : List Char :=
  ['!', '&', '*', '>', '[', ']', '\x7b', '\x7d', '|', '#', ',', '%', '@', '"', '\'', '\x60']

def beginsWithIndicator : List Char → Bool
  | [] => true
  | ['-'] => true
  | c :: _ => c ∈ indicators

def needsQuotes (s : String) : Bool :=
  s ∈ words || beginsWithIndicator s.toList || readsAsDecimal s.toList || readsAsBinary s.toList

def quoteChar (c : Char) : List Char := if c = '\'' then ['\'', '\''] else [c]

def scalar (s : String) : List Char :=
  if needsQuotes s then '\'' :: s.toList.flatMap quoteChar ++ ['\''] else s.toList

def indentation (depth : Nat) : List Char := List.replicate depth ' '

mutual

/-- A document whose first line is already indented by `depth` blanks, with its line ends. -/
def write (depth : Nat) : Document → List Char
  | .flag b => (if b then ['t', 'r', 'u', 'e'] else ['f', 'a', 'l', 's', 'e']) ++ ['\n']
  | .count n => Nat.toDigits 10 n ++ ['\n']
  | .text s => scalar s ++ ['\n']
  | .list [] => ['[', ']', '\n']
  | .list (d :: items) => '-' :: ' ' :: write (depth + 2) d ++ writeItems depth items
  | .record [] => ['\x7b', '\x7d', '\n']
  | .record (f :: fields) => writeField depth f ++ writeFields depth fields

def writeItems (depth : Nat) : List Document → List Char
  | [] => []
  | d :: items =>
    indentation depth ++ '-' :: ' ' :: write (depth + 2) d ++ writeItems depth items

/-- What goes over several lines begins below its key. -/
def writeField (depth : Nat) : String × Document → List Char
  | (key, d) =>
    let lead :=
      match d with
      | .list (_ :: _) => '\n' :: indentation depth
      | .record (_ :: _) => '\n' :: indentation (depth + 2)
      | _ => [' ']
    let depth :=
      match d with
      | .record (_ :: _) => depth + 2
      | _ => depth
    scalar key ++ ':' :: lead ++ write depth d

def writeFields (depth : Nat) : List (String × Document) → List Char
  | [] => []
  | f :: fields => indentation depth ++ writeField depth f ++ writeFields depth fields

end

def text (d : Document) : List Char := write 0 d

end Lookahead.Yaml
