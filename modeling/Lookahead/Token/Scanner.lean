import Lookahead.Pattern.Table
import Lookahead.Event

/-!
Scanners: token streams over the pieces that a pattern table cuts from a text. Each pull passes over
the pieces to be ignored and delivers the next one as a token. A stream ends with the end token or
with a lexical error, and delivers nothing after it.
-/

namespace Lookahead

/-- The state of a stream: the pieces to come, what of the text belongs to no piece, and how far the
pieces delivered or passed over have led. -/
structure Scanner (κ : Type) where
  pieces : List (κ × List Char)
  left : List Char
  offset : Nat := 0
  index : LineIndex := {}
  emitted : Nat := 0
  finished : Bool := false

/-- What one pull delivers and what it logs. -/
structure Pull (κ : Type) where
  item : Item κ
  events : List Event

namespace Scanner

variable {κ : Type}

def ofText (table : PatternTable κ) (text : List Char) : Scanner κ :=
  { pieces := (table.cut text).1, left := (table.cut text).2 }

/-- From here on positions follow another way of counting, also for the text already read. -/
def recount (s : Scanner κ) (counting : LineCounting) : Scanner κ :=
  { s with index := s.index.recount counting }

/-- The state behind the first piece. -/
def skip (s : Scanner κ) (lexeme : List Char) : Scanner κ :=
  { s with
    pieces := s.pieces.tail
    offset := s.offset + utf8Length lexeme
    index := s.index.advance lexeme }

def pullError (s : Scanner κ) : Pull κ × Scanner κ :=
  let error : LexError := ⟨s.index.position, s.offset⟩
  (⟨.error error, [.noMatch error, .scanFinished s.emitted s.offset]⟩,
    { s with finished := true })

variable [TokenKind κ]

def pullEnd (s : Scanner κ) : Pull κ × Scanner κ :=
  (⟨.ok (.endOfInput s.index.position), [.scanFinished (s.emitted + 1) s.offset]⟩,
    { s with emitted := s.emitted + 1, finished := true })

/-- A stream without pieces ends well if they made up the whole text. -/
def pullLast (s : Scanner κ) : Pull κ × Scanner κ :=
  if s.left.isEmpty then s.pullEnd else s.pullError

/-- The first piece as a token, placed by its last character. -/
def pullToken (s : Scanner κ) (kind : κ) (lexeme : List Char) : Pull κ × Scanner κ :=
  let s := s.skip lexeme
  (⟨.ok ⟨kind, String.ofList lexeme, s.index.position⟩, []⟩, { s with emitted := s.emitted + 1 })

variable [DecidableEq κ]

def pullFrom : List (κ × List Char) → Scanner κ → Pull κ × Scanner κ
  | [], s => s.pullLast
  | (kind, lexeme) :: pieces, s =>
    if kind = TokenKind.ignore then pullFrom pieces (s.skip lexeme) else s.pullToken kind lexeme

/-- The next delivery, until the stream has ended. -/
def next? (s : Scanner κ) : Option (Pull κ × Scanner κ) :=
  if s.finished then none else some (pullFrom s.pieces s)

def drainFrom : List (κ × List Char) → Scanner κ → List (Pull κ) × Scanner κ
  | [], s => ([s.pullLast.1], s.pullLast.2)
  | (kind, lexeme) :: pieces, s =>
    if kind = TokenKind.ignore then drainFrom pieces (s.skip lexeme)
    else
      let (pull, s) := s.pullToken kind lexeme
      let (pulls, s) := drainFrom pieces s
      (pull :: pulls, s)

/-- All that is still delivered, and the state at the end. -/
def drain (s : Scanner κ) : List (Pull κ) × Scanner κ :=
  if s.finished then ([], s) else drainFrom s.pieces s

end Scanner

end Lookahead
