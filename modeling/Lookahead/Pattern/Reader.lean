import Lookahead.Pattern.Basic

/-!
The written form of patterns: literal characters, `.`, classes in square brackets, escapes, groups,
`|`, the anchors `^` and `$`, and the repetitions `*`, `+`, `?` and counts in braces, each of them
lazy where a `?` follows. A text is cut into lexemes, which are then gathered on a stack with one
frame for each group that is open.
-/

namespace Lookahead.Pattern

/-- A repetition as written: at least so many rounds and perhaps at most so many. -/
structure Count where
  least : Nat
  most : Option Nat
deriving DecidableEq

/-- An `opening` is that of a numbered group, until `unnumbered` follows. -/
inductive Lexeme where
  | set (s : CharSet)
  | textStart
  | textEnd
  | opening
  | unnumbered
  | closing
  | bar
  | question
  | count (c : Count)
deriving DecidableEq

/-- The character that a backslash in front of `c` stands for. Angle brackets are kept free. -/
def escaped? (c : Char) : Option Char :=
  if c = 'n' then some '\n' else if c = 't' then some '\t' else if c = 'r' then some '\r'
  else if c.toNat < 128 && !c.isAlphanum && c != '<' && c != '>' then some c else none

def digit? (c : Char) : Option Nat :=
  if c.isDigit then some (c.toNat - '0'.toNat) else none

/-- A class of which a part has been read. -/
structure ClassPart where
  negated : Bool
  ranges : List (Char × Char) := []

namespace ClassPart

def add (p : ClassPart) (c : Char) : ClassPart := { p with ranges := (c, c) :: p.ranges }

/-- Adds the character read last, unless it has become the end of a range. -/
def addLast (p : ClassPart) (last : Option Char) : ClassPart := last.elim p p.add

def set (p : ClassPart) : CharSet :=
  if p.negated then (CharSet.ofRanges p.ranges).complement else .ofRanges p.ranges

end ClassPart

/-- Where in a written pattern the next character stands. In a class, `last` is the character that a
following `-` would make the lower end of a range. -/
inductive Mode where
  | plain
  | escape
  | group
  | groupKind
  | classOpen
  | classFirst (part : ClassPart)
  | classItem (part : ClassPart) (last : Option Char)
  | classEscape (part : ClassPart)
  | classDash (part : ClassPart) (last : Option Char)
  | rangeEscape (part : ClassPart) (low : Char)
  | least (n : Option Nat)
  | most (least : Nat) (n : Option Nat)

/-- The mode that follows and the lexeme that is completed, if there is one. -/
abbrev Step := Option (Mode × Option Lexeme)

def plainStep (c : Char) : Step :=
  if c = '\\' then some (.escape, none)
  else if c = '[' then some (.classOpen, none)
  else if c = '\x7b' then some (.least none, none)
  else if c = '(' then some (.group, some .opening)
  else if c = ')' then some (.plain, some .closing)
  else if c = '|' then some (.plain, some .bar)
  else if c = '^' then some (.plain, some .textStart)
  else if c = '$' then some (.plain, some .textEnd)
  else if c = '?' then some (.plain, some .question)
  else if c = '*' then some (.plain, some (.count ⟨0, none⟩))
  else if c = '+' then some (.plain, some (.count ⟨1, none⟩))
  else if c = '.' then some (.plain, some (.set .anyOfLine))
  else some (.plain, some (.set (.singleton c)))

/-- Classes do not nest, and two equal signs of set arithmetic in a row are not read. -/
def itemStep (part : ClassPart) (last : Option Char) (c : Char) : Step :=
  if c = ']' then some (.plain, some (.set (part.addLast last).set))
  else if c = '[' then none
  else if c = '\\' then some (.classEscape (part.addLast last), none)
  else if c = '-' then some (.classDash part last, none)
  else if last = some c && (c = '&' || c = '~') then none
  else some (.classItem (part.addLast last) (some c), none)

/-- At the head of a class `-` and `]` stand for themselves. -/
def firstStep (part : ClassPart) (c : Char) : Step :=
  if c = '-' then some (.classFirst (part.add c), none)
  else if c = ']' && part.ranges.isEmpty then some (.classItem (part.add c) none, none)
  else itemStep part none c

/-- The lower end of a range may not lie above the upper one. -/
def rangeStep (part : ClassPart) (low high : Char) : Step :=
  if low ≤ high then some (.classItem { part with ranges := (low, high) :: part.ranges } none, none)
  else none

/-- After a `-`, which stands for itself before the end of the class and where no range can begin. -/
def dashStep (part : ClassPart) (last : Option Char) (c : Char) : Step :=
  if c = ']' then itemStep (part.addLast last) (some '-') c
  else if c = '-' then none
  else
    match last with
    | none => itemStep part (some '-') c
    | some low =>
      if c = '\\' then some (.rangeEscape part low, none)
      else rangeStep part low c

def digitStep (n : Option Nat) (c : Char) (next : Option Nat → Mode) : Step :=
  (digit? c).map fun d => (next (some (n.getD 0 * 10 + d)), none)

def leastStep (n : Option Nat) (c : Char) : Step :=
  match n with
  | none => digitStep none c .least
  | some n =>
    if c = '\x7d' then some (.plain, some (.count ⟨n, some n⟩))
    else if c = ',' then some (.most n none, none)
    else digitStep (some n) c .least

def mostStep (least : Nat) (n : Option Nat) (c : Char) : Step :=
  if c = '\x7d' then
    if n.all (least ≤ ·) then some (.plain, some (.count ⟨least, n⟩)) else none
  else digitStep n c (.most least)

def step : Mode → Char → Step
  | .plain, c => plainStep c
  | .escape, c => (escaped? c).map fun x => (.plain, some (.set (.singleton x)))
  | .group, c => if c = '?' then some (.groupKind, none) else plainStep c
  | .groupKind, c => if c = ':' then some (.plain, some .unnumbered) else none
  | .classOpen, c =>
    if c = '^' then some (.classFirst { negated := true }, none)
    else firstStep { negated := false } c
  | .classFirst part, c => firstStep part c
  | .classItem part last, c => itemStep part last c
  | .classEscape part, c => (escaped? c).map fun x => (.classItem part (some x), none)
  | .classDash part last, c => dashStep part last c
  | .rangeEscape part low, c => (escaped? c).bind (rangeStep part low)
  | .least n, c => leastStep n c
  | .most least n, c => mostStep least n c

/-- Cuts a written pattern into lexemes. A text may end only between two of them. -/
def lexemes? : Mode → List Char → Option (List Lexeme)
  | .plain, [] => some []
  | _, [] => none
  | mode, c :: text =>
    match step mode c with
    | none => none
    | some (mode, lexeme) => (lexemes? mode text).map (lexeme.toList ++ ·)

/-- A group under way, newest pieces first. The last piece waits for the sign that would make its
repetition lazy. -/
structure Frame where
  number : Option Nat := none
  branches : List Pattern := []
  pieces : List Pattern := []
  last : Option (Pattern × Option Count) := none

namespace Frame

def settle : Pattern × Option Count → Pattern
  | (p, none) => p
  | (p, some c) => rounds true c.least c.most p

def allPieces (f : Frame) : List Pattern :=
  match f.last with
  | none => f.pieces
  | some l => settle l :: f.pieces

def push (f : Frame) (p : Pattern) : Frame :=
  { f with pieces := f.allPieces, last := some (p, none) }

def branch (f : Frame) : Frame :=
  { number := f.number, branches := sequence f.allPieces.reverse :: f.branches }

def pattern (f : Frame) : Pattern :=
  match f.branch.branches with
  | [p] => p
  | branches => choice branches.reverse

/-- The pattern of a group that is closed. -/
def grouped (f : Frame) : Pattern := f.number.elim f.pattern fun n => group n f.pattern

def count? (f : Frame) (c : Count) : Option Frame :=
  f.last.map fun l => { f with last := some (settle l, some c) }

/-- A question mark makes the repetition before it lazy, and is a repetition elsewhere. -/
def question? (f : Frame) : Option Frame :=
  f.last.map fun
    | (p, none) => { f with last := some (p, some ⟨0, some 1⟩) }
    | (p, some c) => { f with last := some (rounds false c.least c.most p, none) }

end Frame

/-- A pattern of which a part has been read: the innermost group, those around it, and how many groups
have been opened. -/
structure Draft where
  inner : Frame := {}
  outer : List Frame := []
  groups : Nat := 0

namespace Draft

def push (d : Draft) (p : Pattern) : Draft := { d with inner := d.inner.push p }

def opened (d : Draft) : Draft :=
  { inner := { number := some d.groups }, outer := d.inner :: d.outer, groups := d.groups + 1 }

def closed? (d : Draft) : Option Draft :=
  match d.outer with
  | [] => none
  | f :: outer => some { d with inner := f.push d.inner.grouped, outer }

/-- Takes one lexeme into the innermost group; the others wait for it to be closed. -/
def gather (d : Draft) : Lexeme → Option Draft
  | .set s => some (d.push (ofSet s))
  | .textStart => some (d.push textStart)
  | .textEnd => some (d.push textEnd)
  | .opening => some d.opened
  | .unnumbered => some { d with inner := { d.inner with number := none } }
  | .closing => d.closed?
  | .bar => some { d with inner := d.inner.branch }
  | .question => d.inner.question?.map fun inner => { d with inner }
  | .count c => (d.inner.count? c).map fun inner => { d with inner }

end Draft

/-- The pattern that a text writes, if it writes one. -/
def read? (text : List Char) : Option Pattern :=
  match (lexemes? .plain text).bind (·.foldlM Draft.gather {}) with
  | some { inner, outer := [], .. } => some inner.pattern
  | _ => none

end Lookahead.Pattern
