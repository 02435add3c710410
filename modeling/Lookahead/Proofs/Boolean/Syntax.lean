import Lookahead.Language.Boolean
import Lookahead.Proofs.Ebnf

/-!
The syntax of the boolean language in extended Backus–Naur form.
-/

namespace Lookahead.Boolean

open Ebnf

inductive Symbol where
  | program
  | statement
  | expression
  | assignTail
  | orTail
  | xorTail
  | andTail
  | relationalTail
  | unary

def syntaxOf : Symbol → Ebnf Kind Symbol
  | .program =>
    option (symbol .statement ++ many (token .terminator ++ option (symbol .statement)))
  | .statement => token .identifier ++ token .assign ++ symbol .expression
  | .expression => symbol .unary ++ symbol .assignTail
  | .assignTail => symbol .orTail ++ many (token .assign ++ symbol .unary ++ symbol .orTail)
  | .orTail => symbol .xorTail ++ many (token .or ++ symbol .unary ++ symbol .xorTail)
  | .xorTail => symbol .andTail ++ many (token .xor ++ symbol .unary ++ symbol .andTail)
  | .andTail =>
    symbol .relationalTail ++ many (token .and ++ symbol .unary ++ symbol .relationalTail)
  | .relationalTail => many (token .relOp ++ symbol .unary)
  | .unary =>
    token .identifier ||| token .number |||
      token .parBegin ++ symbol .expression ++ token .parEnd ||| token .not ++ symbol .expression

/-- The kinds can be derived as a program. -/
def Sentence (kinds : List Kind) : Prop := Derives syntaxOf (.symbol .program) kinds []

end Lookahead.Boolean
