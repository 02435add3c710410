import Lookahead.Grammar.Basic
import Lookahead.Pattern.Table
import Lookahead.Token.Basic

/-!
The imperative language: constants, variables, assignments, `do … while` loops, indexing and empty
arrays, every statement ended by `;`. A name is a single letter, so two letters are two names.
-/

namespace Lookahead.Imperative

inductive Kind where
  | eof
  | ignore
  | const
  | var
  | doWord
  | whileWord
  | or
  | and
  | not
  | terminator
  | identifier
  | number
  | blockBegin
  | blockEnd
  | indexerBegin
  | indexerEnd
  | parBegin
  | parEnd
  | relOp
  | eq
  | ne
  | assign
  | add
  | sub
  | mul
  | div
deriving DecidableEq

namespace Kind

def text : Kind → String
  | eof => "Eof"
  | ignore => "Ignore"
  | const => "Const"
  | var => "Var"
  | doWord => "Do"
  | whileWord => "While"
  | or => "Or"
  | and => "And"
  | not => "Not"
  | terminator => "Terminator"
  | identifier => "Identifier"
  | number => "Number"
  | blockBegin => "BlockBegin"
  | blockEnd => "BlockEnd"
  | indexerBegin => "IndexerBegin"
  | indexerEnd => "IndexerEnd"
  | parBegin => "ParBegin"
  | parEnd => "ParEnd"
  | relOp => "RelOp"
  | eq => "Eq"
  | ne => "Ne"
  | assign => "Assign"
  | add => "Add"
  | sub => "Sub"
  | mul => "Mul"
  | div => "Div"

instance : TokenKind Kind where
  all := [eof, ignore, const, var, doWord, whileWord, or, and, not, terminator, identifier, number,
    blockBegin, blockEnd, indexerBegin, indexerEnd, parBegin, parEnd, relOp, eq, ne, assign, add,
    sub, mul, div]
  name := text
  eof := eof
  ignore := ignore

end Kind

open Kind

/-- The words stand before the letters, so that they are found also at the start of a longer word,
and `!` stands before `!=`, which is therefore never taken. -/
def patterns : List (Kind × String) := [
  (ignore, "[ \\r\\n\\t]+"),
  (const, "const"),
  (var, "var"),
  (doWord, "do"),
  (whileWord, "while"),
  (or, "\\|\\|"),
  (and, "&&"),
  (not, "!"),
  (terminator, ";"),
  (identifier, "[A-Za-z_]"),
  (number, "(?:[1-9][0-9]*|0)\\.[0-9]+|[1-9][0-9]*|0"),
  (blockBegin, "\\\x7b"),
  (blockEnd, "\\\x7d"),
  (indexerBegin, "\\["),
  (indexerEnd, "\\]"),
  (parBegin, "\\("),
  (parEnd, "\\)"),
  (relOp, ">=|<=|>|<"),
  (eq, "=="),
  (ne, "!="),
  (assign, ":="),
  (add, "\\+"),
  (sub, "-"),
  (mul, "\\*"),
  (div, "/")]

def table : PatternTable Kind :=
  (PatternTable.ofEntries patterns).toOption.get (by decide)

def statementStart : List Kind := [identifier, const, var, doWord]

def expressionStart : List Kind := [identifier, not, number, sub, parBegin]

def doubleNegation : String := "Unexpected double negation '-'"

/-- What stands to the right of an assignment: an expression or an empty array. -/
def initializer (name : String) : Rule Kind :=
  .choice name [
    (expressionStart, [.call "expression"]),
    ([indexerBegin], [.call "array_init"])]

def noDoubleNegation : Rule Kind := .forbid [sub] doubleNegation

def productions : List (Production Kind) := [
  ⟨"program", [.loop statementStart [.call "statement"]]⟩,
  ⟨"statement", [
    .choice "Statement" [
      ([const], [.call "const_init", .expect terminator]),
      ([var], [.call "var_init", .expect terminator]),
      ([identifier], [.call "var_assign", .expect terminator]),
      ([doWord], [.call "do_while", .expect terminator])]]⟩,
  ⟨"const_init", [.expect const, .call "primary", .expect assign, .expect number]⟩,
  ⟨"var_init", [
    .expect var, .expect identifier, .expect assign, initializer "Var initialization"]⟩,
  ⟨"var_assign", [.call "primary", .expect assign, initializer "Var assignment"]⟩,
  ⟨"array_init", [.expect indexerBegin, .expect indexerEnd]⟩,
  ⟨"do_while", [
    .expect doWord, .call "block", .expect whileWord, .expect parBegin, .call "expression",
    .expect parEnd]⟩,
  ⟨"block", [
    .expect blockBegin, .loop statementStart [.call "statement"], .expect blockEnd]⟩,
  ⟨"expression", [.call "unary", .call "assign_tail"]⟩,
  .operatorTail "assign_tail" [assign] "unary" "or_tail",
  .operatorTail "or_tail" [or] "unary" "and_tail",
  .operatorTail "and_tail" [and] "unary" "equality_tail",
  .operatorTail "equality_tail" [eq, ne] "unary" "relational_tail",
  .operatorTail "relational_tail" [relOp] "unary" "additive_tail",
  ⟨"additive_tail", [
    .call "multiplicative_tail",
    .loop [add, sub] [
      .advance, noDoubleNegation, .call "unary", .call "multiplicative_tail"]]⟩,
  ⟨"multiplicative_tail", [.loop [mul, div] [.advance, .call "unary"]]⟩,
  ⟨"unary", [
    .optional [sub] [.advance, noDoubleNegation],
    .choice "Unary" [
      ([identifier], [.call "primary"]),
      ([number], [.advance]),
      ([parBegin], [.advance, .call "expression", .expect parEnd]),
      ([not], [.advance, .call "expression"])]]⟩,
  ⟨"primary", [.expect identifier, .optional [indexerBegin] [.call "indexer"]]⟩,
  ⟨"indexer", [.expect indexerBegin, .call "expression", .expect indexerEnd]⟩]

def grammar : Grammar Kind where
  start := "program"
  productions := productions
  names_nodup := by decide
  start_mem := by decide
  calls_mem := by decide

end Lookahead.Imperative
