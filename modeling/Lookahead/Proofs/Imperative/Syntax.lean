import Lookahead.Language.Imperative
import Lookahead.Proofs.Ebnf

/-!
The syntax of the imperative language in extended Backus–Naur form.
-/

namespace Lookahead.Imperative

open Ebnf

inductive Symbol where
  | program
  | statement
  | constInit
  | varInit
  | varAssign
  | arrayInit
  | doWhile
  | block
  | expression
  | assignTail
  | orTail
  | andTail
  | equalityTail
  | relationalTail
  | additiveTail
  | multiplicativeTail
  | unary
  | primary

/-- A minus, in front of an operand or between two, is not to be followed by another one. -/
def syntaxOf : Symbol → Ebnf Kind Symbol
  | .program => many (symbol .statement)
  | .statement =>
    symbol .constInit ++ token .terminator ||| symbol .varInit ++ token .terminator |||
      symbol .varAssign ++ token .terminator ||| symbol .doWhile ++ token .terminator
  | .constInit => token .const ++ symbol .primary ++ token .assign ++ token .number
  | .varInit =>
    token .var ++ token .identifier ++ token .assign ++ (symbol .expression ||| symbol .arrayInit)
  | .varAssign => symbol .primary ++ token .assign ++ (symbol .expression ||| symbol .arrayInit)
  | .arrayInit => token .indexerBegin ++ token .indexerEnd
  | .doWhile =>
    token .doWord ++ symbol .block ++ token .whileWord ++ token .parBegin ++ symbol .expression ++
      token .parEnd
  | .block => token .blockBegin ++ many (symbol .statement) ++ token .blockEnd
  | .expression => symbol .unary ++ symbol .assignTail
  | .assignTail => symbol .orTail ++ many (token .assign ++ symbol .unary ++ symbol .orTail)
  | .orTail => symbol .andTail ++ many (token .or ++ symbol .unary ++ symbol .andTail)
  | .andTail => symbol .equalityTail ++ many (token .and ++ symbol .unary ++ symbol .equalityTail)
  | .equalityTail =>
    symbol .relationalTail ++
      many ((token .eq ||| token .ne) ++ symbol .unary ++ symbol .relationalTail)
  | .relationalTail =>
    symbol .additiveTail ++ many (token .relOp ++ symbol .unary ++ symbol .additiveTail)
  | .additiveTail =>
    symbol .multiplicativeTail ++
      many ((token .add ||| token .sub) ++ notBefore .sub ++ symbol .unary ++
        symbol .multiplicativeTail)
  | .multiplicativeTail => many ((token .mul ||| token .div) ++ symbol .unary)
  | .unary =>
    option (token .sub ++ notBefore .sub) ++
      (symbol .primary ||| token .number |||
        token .parBegin ++ symbol .expression ++ token .parEnd ||| token .not ++ symbol .expression)
  | .primary =>
    token .identifier ++ option (token .indexerBegin ++ symbol .expression ++ token .indexerEnd)

/-- The kinds can be derived as a program. -/
def Sentence (kinds : List Kind) : Prop := Derives syntaxOf (.symbol .program) kinds []

end Lookahead.Imperative
