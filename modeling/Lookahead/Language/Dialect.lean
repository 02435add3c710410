import Lookahead.Run.Parser

/-!
Dialects: a pattern table and a grammar over one set of kinds, and what they make of a text. A text
can be checked while it is scanned or scanned to its end first.
-/

namespace Lookahead

structure Dialect (κ : Type) where
  table : PatternTable κ
  grammar : Grammar κ

/-- The deliveries of a stream up to the first lexical error, which then stands for all of them. -/
def tokensOf {κ : Type} (items : List (Item κ)) : Except LexError (List (Token κ)) :=
  items.mapM id

namespace Dialect

variable {κ : Type} [DecidableEq κ] [TokenKind κ]

def parser (d : Dialect κ) : Parser κ := { grammar := d.grammar }

def scanner (d : Dialect κ) (counting : LineCounting) (source : String) : Scanner κ :=
  (Scanner.ofText d.table source.toList).recount counting

def pulls (d : Dialect κ) (counting : LineCounting) (source : String) : List (Pull κ) :=
  (d.scanner counting source).drain.1

def items (d : Dialect κ) (counting : LineCounting) (source : String) : List (Item κ) :=
  (d.pulls counting source).map (·.item)

def tokens (d : Dialect κ) (counting : LineCounting) (source : String) :
    Except LexError (List (Token κ)) :=
  tokensOf (d.items counting source)

/-- The events of scanning a text to its end. -/
def scanEvents (d : Dialect κ) (counting : LineCounting) (source : String) : List Event :=
  (d.pulls counting source).flatMap (·.events)

/-- Parses a text while it is scanned. -/
def check? (d : Dialect κ) (counting : LineCounting) (source : String) :
    Option (Except LexError (List Diagnostic)) :=
  d.parser.parse? (d.items counting source)

def checkEvents? (d : Dialect κ) (counting : LineCounting) (source : String) :
    Option (List Event) :=
  d.parser.events? (d.pulls counting source)

/-- Scans a text to its end and then parses its tokens. -/
def analyze? (d : Dialect κ) (counting : LineCounting) (source : String) :
    Option (Except LexError (List (Token κ) × List Diagnostic)) :=
  match d.tokens counting source with
  | .error error => some (.error error)
  | .ok tokens => (d.parser.parseTokens? tokens).map fun diagnostics => .ok (tokens, diagnostics)

/-- All scanner events come first, and the parser has none if a lexical error ends the scan. -/
def analyzeEvents? (d : Dialect κ) (counting : LineCounting) (source : String) :
    Option (List Event) :=
  match d.tokens counting source with
  | .error _ => some (d.scanEvents counting source)
  | .ok tokens =>
    (d.parser.events? (tokens.map fun t => ⟨.ok t, []⟩)).map (d.scanEvents counting source ++ ·)

end Dialect

end Lookahead
