import Lookahead.Grammar.Basic
import Lookahead.Pattern.Table
import Lookahead.Token.Basic

/-!
The boolean language: statements separated by `;`, each an assignment of an expression of `not`,
`and`, `xor`, `or` and relational operators over names, numbers and parentheses. A number may go on
with hexadecimal digits.
-/

namespace Lookahead.Boolean

inductive Kind where
  | eof
  | ignore
  | identifier
  | number
  | relOp
  | and
  | or
  | xor
  | not
  | assign
  | terminator
  | parBegin
  | parEnd
deriving DecidableEq

namespace Kind

def text : Kind → String
  | eof => "Eof"
  | ignore => "Ignore"
  | identifier => "Identifier"
  | number => "Number"
  | relOp => "RelOp"
  | and => "And"
  | or => "Or"
  | xor => "Xor"
  | not => "Not"
  | assign => "Assign"
  | terminator => "Terminator"
  | parBegin => "ParBegin"
  | parEnd => "ParEnd"

instance : TokenKind Kind where
  all := [eof, ignore, identifier, number, relOp, and, or, xor, not, assign, terminator, parBegin,
    parEnd]
  name := text
  eof := eof
  ignore := ignore

end Kind

open Kind

/-- The words stand before the names, so that a name cannot begin with one. -/
def patterns : List (Kind × String) := [
  (ignore, "[ \\r\\n\\t]+"),
  (or, "or"),
  (xor, "xor"),
  (and, "and"),
  (not, "not"),
  (terminator, ";"),
  (identifier, "[A-Za-z_][A-Za-z0-9_]*"),
  (number, "[0-9][0-9a-f]*"),
  (parBegin, "\\("),
  (parEnd, "\\)"),
  (relOp, ">=|<=|>|<"),
  (assign, ":=")]

def table : PatternTable Kind :=
  (PatternTable.ofEntries patterns).toOption.get (by decide)

/-- A statement may be missing after a `;`, so one at the end is allowed. -/
def productions : List (Production Kind) := [
  ⟨"program", [
    .optional [identifier] [
      .call "statement",
      .loop [terminator] [.advance, .optional [identifier] [.call "statement"]]]]⟩,
  ⟨"statement", [.expect identifier, .expect assign, .call "expression"]⟩,
  ⟨"expression", [.call "unary", .call "assign_tail"]⟩,
  .operatorTail "assign_tail" [assign] "unary" "or_tail",
  .operatorTail "or_tail" [or] "unary" "xor_tail",
  .operatorTail "xor_tail" [xor] "unary" "and_tail",
  .operatorTail "and_tail" [and] "unary" "relational_tail",
  ⟨"relational_tail", [.loop [relOp] [.advance, .call "unary"]]⟩,
  ⟨"unary", [
    .choice "Unary" [
      ([identifier, number], [.advance]),
      ([parBegin], [.advance, .call "expression", .expect parEnd]),
      ([not], [.advance, .call "expression"])]]⟩]

def grammar : Grammar Kind where
  start := "program"
  productions := productions
  names_nodup := by decide
  start_mem := by decide
  calls_mem := by decide

end Lookahead.Boolean
