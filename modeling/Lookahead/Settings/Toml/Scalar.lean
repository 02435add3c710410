import Lookahead.Settings.Value

/-!
The parts of TOML without entries of their own: blanks, comments, strings, numbers and dates.
-/

namespace Lookahead.Settings.Toml

/-! ### Blanks, comments and ends of lines -/

def isBlank (c : Char) : Bool := c = ' ' || c = '\t'

def isControl (c : Char) : Bool := (c.toNat < 32 && c != '\t') || c.toNat = 127

def skipBlanks (s : List Char) : List Char := s.dropWhile isBlank

/-- A comment goes to the end of its line and holds no control characters. -/
def skipComment : List Char → List Char
  | '#' :: s => s.dropWhile (!isControl ·)
  | s => s

def newline? : List Char → Option (List Char)
  | '\n' :: s => some s
  | '\r' :: '\n' :: s => some s
  | _ => none

/-- What may follow an expression on its line. -/
def endOfLine? (s : List Char) : Option (List Char) :=
  match skipComment (skipBlanks s) with
  | [] => some []
  | s => newline? s

/-- Blanks, comments and line ends; every round but the last takes a line end. -/
def skipLines : Nat → List Char → List Char
  | 0, s => skipComment (skipBlanks s)
  | n + 1, s =>
    let s := skipComment (skipBlanks s)
    match newline? s with
    | some s => skipLines n s
    | none => s

/-! ### Strings -/

def hexDigit? (c : Char) : Option Nat :=
  if c.isDigit then some (c.toNat - '0'.toNat)
  else if 'a' ≤ c && c ≤ 'f' then some (c.toNat - 'a'.toNat + 10)
  else if 'A' ≤ c && c ≤ 'F' then some (c.toNat - 'A'.toNat + 10)
  else none

def hexValue? (digits : List Char) : Option Nat :=
  digits.foldlM (fun n c => (hexDigit? c).map (n * 16 + ·)) 0

/-- The character with a code given in hexadecimal digits, which may not be half of a pair. -/
def coded? (digits : List Char) : Option Char :=
  (hexValue? digits).bind fun n => if n.isValidChar then some (Char.ofNat n) else none

def shortEscape? (c : Char) : Option Char :=
  if c = 'b' then some '\x08' else if c = 't' then some '\t' else if c = 'n' then some '\n'
  else if c = 'f' then some '\x0c' else if c = 'r' then some '\r' else if c = '"' then some '"'
  else if c = '\\' then some '\\' else none

/-- The character written behind a backslash. -/
def escape? : List Char → Option (Char × List Char)
  | 'u' :: s => (coded? (s.take 4)).bind fun c => if s.length < 4 then none else some (c, s.drop 4)
  | 'U' :: s => (coded? (s.take 8)).bind fun c => if s.length < 8 then none else some (c, s.drop 8)
  | c :: s => (shortEscape? c).map (·, s)
  | [] => none

def basicFrom? : Nat → List Char → Option (List Char × List Char)
  | 0, _ => none
  | n + 1, s =>
    match s with
    | '"' :: s => some ([], s)
    | '\\' :: s => do
      let (c, s) ← escape? s
      let (cs, s) ← basicFrom? n s
      return (c :: cs, s)
    | c :: s => if isControl c then none else (basicFrom? n s).map fun r => (c :: r.1, r.2)
    | [] => none

/-- A string on one line, after its opening quotation mark. -/
def basicString? (s : List Char) : Option (List Char × List Char) := basicFrom? (s.length + 1) s

def literalString? : List Char → Option (List Char × List Char)
  | '\'' :: s => some ([], s)
  | c :: s => if isControl c then none else (literalString? s).map fun r => (c :: r.1, r.2)
  | [] => none

def isSpace (c : Char) : Bool := isBlank c || c = '\n' || c = '\r'

/-- A backslash at the end of a line takes the line end and all space after it away. -/
def continuation? (s : List Char) : Option (List Char) :=
  (newline? (skipBlanks s)).map (·.dropWhile isSpace)

/-- A string over several lines, after its opening marks. Up to two marks may stand before the
closing three. -/
def longFrom? (mark : Char) (escapes : Bool) : Nat → List Char → Option (List Char × List Char)
  | 0, _ => none
  | n + 1, s =>
    let marks := (s.takeWhile (· = mark)).length
    if 3 ≤ marks then
      let kept := min (marks - 3) 2
      some (List.replicate kept mark, s.drop (kept + 3))
    else
      match newline? s, s with
      | some s, _ => (longFrom? mark escapes n s).map fun r => ('\n' :: r.1, r.2)
      | none, c :: s =>
        if escapes && c = '\\' then
          match continuation? s with
          | some s => longFrom? mark escapes n s
          | none => do
            let (c, s) ← escape? s
            let (cs, s) ← longFrom? mark escapes n s
            return (c :: cs, s)
        else if isControl c then none
        else (longFrom? mark escapes n s).map fun r => (c :: r.1, r.2)
      | none, [] => none

/-- A string of any of the four sorts. A line end right after three opening marks does not count. -/
def string? (s : List Char) : Option (List Char × List Char) :=
  match s with
  | '"' :: '"' :: '"' :: s => longFrom? '"' true (s.length + 1) ((newline? s).getD s)
  | '\'' :: '\'' :: '\'' :: s => longFrom? '\'' false (s.length + 1) ((newline? s).getD s)
  | '"' :: s => basicString? s
  | '\'' :: s => literalString? s
  | _ => none

/-! ### Numbers -/

/-- Digits in which single underscores may stand between two digits, without the underscores. -/
def grouped? (isDigit : Char → Bool) : List Char → Option (List Char)
  | [] => none
  | [c] => if isDigit c then some [c] else none
  | c :: '_' :: s => if isDigit c then (grouped? isDigit s).map (c :: ·) else none
  | c :: s => if isDigit c then (grouped? isDigit s).map (c :: ·) else none

def digitValue (c : Char) : Nat := (hexDigit? c).getD 0

def inBase (base : Nat) (digits : List Char) : Nat :=
  digits.foldl (fun n c => n * base + digitValue c) 0

def unsigned : List Char → Bool × List Char
  | '-' :: s => (true, s)
  | '+' :: s => (false, s)
  | s => (false, s)

/-- Digits without a needless zero in front. -/
def wholeDigits? (s : List Char) : Option (List Char) :=
  match s with
  | '0' :: _ :: _ => none
  | s => grouped? Char.isDigit s

def integerOf? (negative : Bool) (n : Nat) : Option Value :=
  if negative then if n ≤ Nat.pow 2 63 then some (.integer (-n)) else none
  else if n < Nat.pow 2 63 then some (.integer n) else none

def isBit (c : Char) : Bool := c = '0' || c = '1'

def isHexDigit (c : Char) : Bool := (hexDigit? c).isSome

def isOctal (c : Char) : Bool := '0' ≤ c && c ≤ '7'

def integer? (s : List Char) : Option Value :=
  match s with
  | '0' :: 'x' :: s => (grouped? isHexDigit s).bind (integerOf? false <| inBase 16 ·)
  | '0' :: 'o' :: s => (grouped? isOctal s).bind (integerOf? false <| inBase 8 ·)
  | '0' :: 'b' :: s => (grouped? isBit s).bind (integerOf? false <| inBase 2 ·)
  | s =>
    let (negative, s) := unsigned s
    (wholeDigits? s).bind (integerOf? negative <| inBase 10 ·)

def isExponentSign (c : Char) : Bool := c = 'e' || c = 'E'

/-- Half of the least positive double is `2 ^ (-1075)`, and what does not exceed it rounds to zero. -/
def roundsToZero (mantissa : Nat) (exponent : Int) : Bool :=
  mantissa == 0 ||
    (exponent < 0 &&
      (Nat.log2 mantissa + 1100 < exponent.natAbs ||
        mantissa * Nat.pow 2 1075 ≤ Nat.pow 10 exponent.natAbs))

/-- What is not below this bound rounds to an infinity. -/
def roundsToInfinity (mantissa : Nat) (exponent : Int) : Bool :=
  mantissa != 0 &&
    (if exponent < 0 then
      exponent.natAbs < Nat.log2 mantissa + 1 &&
        (Nat.pow 2 1024 - Nat.pow 2 970) * Nat.pow 10 exponent.natAbs ≤ mantissa
    else 310 ≤ exponent || Nat.pow 2 1024 - Nat.pow 2 970 ≤ mantissa * Nat.pow 10 exponent.natAbs)

/-- A number with a fraction, an exponent or both. No number written so may be infinite, except a
negative one. -/
def float? (s : List Char) : Option Value :=
  let (negative, s) := unsigned s
  if s = ['i', 'n', 'f'] || s = ['n', 'a', 'n'] then some (.float false)
  else do
    let before := s.takeWhile (!isExponentSign ·)
    let whole ← wholeDigits? (before.takeWhile (· != '.'))
    let fraction ←
      match before.dropWhile (· != '.') with
      | [] => some []
      | _ :: f => grouped? Char.isDigit f
    let exponent ←
      match s.dropWhile (!isExponentSign ·) with
      | [] => if fraction.isEmpty then none else some (0 : Int)
      | _ :: e =>
        let (down, e) := unsigned e
        (grouped? Char.isDigit e).map fun e => if down then -(inBase 10 e : Int) else inBase 10 e
    let mantissa := inBase 10 (whole ++ fraction)
    let exponent := exponent - fraction.length
    if !negative && roundsToInfinity mantissa exponent then none
    else some (.float (roundsToZero mantissa exponent))

/-! ### Dates and times -/

def twoDigits? : List Char → Option (Nat × List Char)
  | a :: b :: s => if a.isDigit && b.isDigit then some (inBase 10 [a, b], s) else none
  | _ => none

def isLeap (year : Nat) : Bool := year % 4 = 0 && (year % 100 != 0 || year % 400 = 0)

def daysIn (year month : Nat) : Nat :=
  if month = 2 then if isLeap year then 29 else 28
  else if month ∈ [4, 6, 9, 11] then 30 else 31

/-- The text after a date. -/
def date? (s : List Char) : Option (List Char) := do
  let (century, s) ← twoDigits? s
  let (years, s) ← twoDigits? s
  let (month, s) ← match s with | '-' :: s => twoDigits? s | _ => none
  let (day, s) ← match s with | '-' :: s => twoDigits? s | _ => none
  if 1 ≤ month ∧ month ≤ 12 ∧ 1 ≤ day ∧ day ≤ daysIn (century * 100 + years) month then some s
  else none

/-- The text after a time of day. -/
def time? (s : List Char) : Option (List Char) := do
  let (hour, s) ← twoDigits? s
  let (minute, s) ← match s with | ':' :: s => twoDigits? s | _ => none
  let (second, s) ← match s with | ':' :: s => twoDigits? s | _ => none
  if 24 ≤ hour ∨ 60 ≤ minute ∨ 60 < second then none
  else
    match s with
    | '.' :: c :: s => if c.isDigit then some (s.dropWhile Char.isDigit) else none
    | s => some s

def isZone (s : List Char) : Bool :=
  match s with
  | [] | ['Z'] | ['z'] => true
  | c :: s =>
    (c = '+' || c = '-') &&
      match twoDigits? s with
      | some (hour, ':' :: s) =>
        match twoDigits? s with
        | some (minute, []) => hour < 24 && minute < 60
        | _ => false
      | _ => false

def isMoment (s : List Char) : Bool :=
  match date? s with
  | some [] => true
  | some (c :: s) => (c = 'T' || c = 't' || c = ' ') && (time? s).any isZone
  | none => time? s = some []

/-! ### Values without brackets or quotation marks -/

def isPlainChar (c : Char) : Bool :=
  c.isAlphanum || c = '+' || c = '-' || c = '_' || c = '.' || c = ':'

/-- A word, and a time that follows a date after a blank. -/
def plainText (s : List Char) : List Char :=
  let word := s.takeWhile isPlainChar
  match s.drop word.length with
  | ' ' :: rest =>
    let dated := word ++ ' ' :: rest.takeWhile isPlainChar
    if isMoment word && isMoment dated then dated else word
  | _ => word

def plainValue? (s : List Char) : Option Value :=
  if s = ['t', 'r', 'u', 'e'] then some (.flag true)
  else if s = ['f', 'a', 'l', 's', 'e'] then some (.flag false)
  else if isMoment s then some (.text (String.ofList s))
  else (integer? s).or (float? s)

def plain? (s : List Char) : Option (Value × List Char) :=
  let word := plainText s
  (plainValue? word).map (·, s.drop word.length)

end Lookahead.Settings.Toml
