import Lookahead.Text.Position

/-!
Tokens: classified pieces of a text, placed by the position of their last character.
-/

namespace Lookahead

/-- The kinds of token of one language, among them the end of the text and what is passed over. -/
class TokenKind (κ : Type) extends Named κ where
  eof : κ
  ignore : κ

structure Token (κ : Type) where
  kind : κ
  lexeme : String
  position : Position
deriving DecidableEq

/-- A token that has forgotten its language: the kind is kept as its name. -/
abbrev Token.Record := Token String

namespace Token

variable {κ : Type} [TokenKind κ]

def endOfInput (p : Position) : Token κ := ⟨TokenKind.eof, "", p⟩

def isEnd [DecidableEq κ] (t : Token κ) : Bool := t.kind = TokenKind.eof

def record (t : Token κ) : Record := ⟨name t.kind, t.lexeme, t.position⟩

def Record.display (t : Record) : String := t.kind ++ "(" ++ t.lexeme ++ ")"

def display (t : Token κ) : String := Record.display t.record

end Token

/-- No pattern takes anything of the text from `offset` on, counted in bytes of UTF-8. -/
structure LexError where
  position : Position
  offset : Nat
deriving DecidableEq

def LexError.message (e : LexError) : String :=
  s!"Unexpected token, line {e.position.line}, column {e.position.column}."

/-- What a token stream delivers. -/
abbrev Item (κ : Type) := Except LexError (Token κ)

end Lookahead
