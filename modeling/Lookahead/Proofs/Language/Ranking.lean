import Lookahead.Language.Basic
import Lookahead.Proofs.Run.Termination

/-!
Both languages are parsed to an end on every stream that has one, in particular on what is scanned
from a text.
-/

namespace Lookahead

namespace Imperative

open Kind

/-- From the tightest operands up to the program. A block is entered only behind its word. -/
def ranking : Ranking Kind where
  rank := [
    "indexer", "primary", "unary", "multiplicative_tail", "additive_tail", "relational_tail",
    "equality_tail", "and_tail", "or_tail", "assign_tail", "expression", "array_init", "const_init",
    "var_init", "var_assign", "do_while", "statement", "block", "program"].idxOf
  entry
    | "indexer" => some [indexerBegin]
    | "const_init" => some [const]
    | "var_init" => some [var]
    | "do_while" => some [doWord]
    | _ => none

theorem ranked : grammar.Ranked ranking := by decide

end Imperative

namespace Boolean

def ranking : Ranking Kind where
  rank := [
    "unary", "relational_tail", "and_tail", "xor_tail", "or_tail", "assign_tail", "expression",
    "statement", "program"].idxOf
  entry _ := none

theorem ranked : grammar.Ranked ranking := by decide

end Boolean

namespace Language

/-- The kinds of token that a language has. -/
def Kind : Language → Type
  | imperative => Imperative.Kind
  | boolean => Boolean.Kind

instance : (l : Language) → DecidableEq l.Kind
  | imperative => inferInstanceAs (DecidableEq Imperative.Kind)
  | boolean => inferInstanceAs (DecidableEq Boolean.Kind)

instance : (l : Language) → TokenKind l.Kind
  | imperative => inferInstanceAs (TokenKind Imperative.Kind)
  | boolean => inferInstanceAs (TokenKind Boolean.Kind)

def dialect : (l : Language) → Dialect l.Kind
  | imperative => Imperative.dialect
  | boolean => Boolean.dialect

theorem exists_ranked (l : Language) : ∃ r, l.dialect.grammar.Ranked r := by
  cases l with
  | imperative => exact ⟨Imperative.ranking, Imperative.ranked⟩
  | boolean => exact ⟨Boolean.ranking, Boolean.ranked⟩

end Language

end Lookahead
