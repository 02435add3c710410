import Lookahead.Proofs.Language.Streaming
import Lookahead.Proofs.Run.Cutoff

/-!
Which streams are parsed to an end. All are that have an end token or a lexical error in them.
Without either, a parse can stay at the last token forever: at the word of a loop, a negation or a
parenthesis, which is then taken again and again.
-/

namespace Lookahead

namespace Parser

variable {κ : Type} [DecidableEq κ] [TokenKind κ]

/-- Every stream that ends somewhere is parsed to an end. -/
structure HeedsEnd (p : Parser κ) : Prop where
  parse : ∀ items, (∃ item ∈ items, Item.IsEnd item) → ∃ result, p.parse? items = some result
  parseTokens : ∀ tokens, (∃ token ∈ tokens, token.kind = TokenKind.eof) →
    ∃ diagnostics, p.parseTokens? tokens = some diagnostics

theorem heedsEnd_of_ranked {p : Parser κ} {r : Ranking κ} (hr : p.grammar.Ranked r) :
    p.HeedsEnd where
  parse items h := by
    obtain ⟨t, ht⟩ := exists_run?_eq_some hr h
    exact ⟨t.result, by rw [parse?, ht, Option.map_some]⟩
  parseTokens tokens h := by
    obtain ⟨token, hmem, hk⟩ := h
    obtain ⟨t, ht⟩ := exists_run?_eq_some hr ⟨.ok token, List.mem_map_of_mem hmem, hk⟩
    exact ⟨t.diagnostics, by rw [parseTokens?, ht, Option.map_some]⟩

end Parser

theorem Dialect.checked_and_analyzed {κ : Type} [DecidableEq κ] [TokenKind κ] {d : Dialect κ}
    {r : Ranking κ} (hr : d.grammar.Ranked r) (l : Language) (counting : LineCounting)
    (source : String) :
    (∃ result, d.check? counting source = some result) ∧
      ∃ result, (d.analyze? counting source).map (·.map l.report) = some result := by
  rcases d.agrees hr l counting source with ⟨error, -, hc, ha⟩ | ⟨records, diagnostics, -, hc, ha⟩
  · exact ⟨⟨_, hc⟩, _, ha⟩
  · exact ⟨⟨_, hc⟩, _, ha⟩

/-- Both languages are parsed to an end on every stream that has one, so every text is checked and
analysed to an end. -/
theorem Language.parses_ending_streams (l : Language) :
    l.dialect.parser.HeedsEnd ∧ ∀ (counting : LineCounting) (source : String),
      (∃ result, l.check? counting source = some result) ∧
        ∃ result, l.analyze? counting source = some result := by
  obtain ⟨r, hr⟩ := l.exists_ranked
  refine ⟨Parser.heedsEnd_of_ranked hr, fun counting source ↦ ?_⟩
  cases l with
  | imperative => exact Dialect.checked_and_analyzed hr .imperative counting source
  | boolean => exact Dialect.checked_and_analyzed hr .boolean counting source

/-- A lexical error in the middle of a loop, and an end token before a parenthesis. -/
theorem parses_interrupted_loop :
    (∃ result, Imperative.dialect.parser.parse? [.ok ⟨.doWord, "do", ⟨1, 2⟩⟩,
      .error ⟨⟨1, 3⟩, 2⟩, .ok ⟨.doWord, "do", ⟨1, 5⟩⟩] = some result) ∧
    ∃ diagnostics, Boolean.dialect.parser.parseTokens? [⟨.identifier, "a", ⟨1, 1⟩⟩,
      .endOfInput ⟨1, 2⟩, ⟨.parBegin, "(", ⟨1, 3⟩⟩] = some diagnostics := by
  constructor
  · exact (Language.parses_ending_streams .imperative).1.parse _ ⟨_, .tail _ (.head _), trivial⟩
  · exact (Language.parses_ending_streams .boolean).1.parseTokens _ ⟨_, .tail _ (.head _), rfl⟩

/-! ### Tokens without an end token -/

namespace Imperative

open Kind

/-- Ranks at a standstill. An index is followed only from a bracket on, which no operand begins
with, so that there the order of the two is turned round. -/
def standingRank (k : Kind) : String → Nat :=
  let operands := [
    "unary", "multiplicative_tail", "additive_tail", "relational_tail", "equality_tail", "and_tail",
    "or_tail", "assign_tail", "expression", "indexer"]
  let statements := [
    "array_init", "const_init", "var_init", "var_assign", "statement", "block", "do_while",
    "program"]
  if k = indexerBegin then (operands ++ "primary" :: statements).idxOf
  else ("primary" :: operands ++ statements).idxOf

theorem endlessAt : grammar.EndlessAt [doWord, not, parBegin] where
  eof := by decide
  traps := by
    have hdo : grammar.Traps doWord ["statement", "do_while", "block"] := by decide +kernel
    have hnot : grammar.Traps not ["expression", "unary"] := by decide +kernel
    have hpar : grammar.Traps parBegin ["expression", "unary"] := by decide +kernel
    intro k hk
    simp only [List.mem_cons, List.not_mem_nil, or_false] at hk
    rcases hk with rfl | rfl | rfl
    · exact ⟨_, hdo⟩
    · exact ⟨_, hnot⟩
    · exact ⟨_, hpar⟩
  descends k hk := by
    refine ⟨standingRank k, ?_⟩
    revert hk
    cases k <;> decide +kernel

end Imperative

namespace Boolean

open Kind

theorem endlessAt : grammar.EndlessAt [Kind.not, parBegin] where
  eof := by decide
  traps := by
    have hnot : grammar.Traps Kind.not ["expression", "unary"] := by decide +kernel
    have hpar : grammar.Traps parBegin ["expression", "unary"] := by decide +kernel
    intro k hk
    simp only [List.mem_cons, List.not_mem_nil, or_false] at hk
    rcases hk with rfl | rfl
    · exact ⟨_, hnot⟩
    · exact ⟨_, hpar⟩
  descends k hk := by
    refine ⟨ranking.rank, ?_⟩
    revert hk
    cases k <;> decide +kernel

end Boolean

namespace Language

/-- The kinds of token that open what may begin with the same kind again. -/
def openers : (l : Language) → List l.Kind
  | imperative => [Imperative.Kind.doWord, Imperative.Kind.not, Imperative.Kind.parBegin]
  | boolean => [Boolean.Kind.not, Boolean.Kind.parBegin]

theorem endlessAt_openers (l : Language) : l.dialect.grammar.EndlessAt l.openers := by
  cases l with
  | imperative => exact Imperative.endlessAt
  | boolean => exact Boolean.endlessAt

/-- Tokens with no end token among them are parsed to an end, unless the last of them is an opener
and would be taken if an end token stood behind it. -/
theorem stays_at_openers (l : Language) (tokens : List (Token l.Kind)) (last : Token l.Kind)
    (htokens : ∀ t ∈ tokens, t.kind ≠ TokenKind.eof) (hlast : last.kind = TokenKind.eof) :
    (l.dialect.parser.parseTokens? tokens = none ↔ l.dialect.parser.Endless (tokens.map .ok)) ∧
      (l.dialect.parser.Endless (tokens.map .ok) ↔
        (∃ token ∈ tokens.getLast?, token.kind ∈ l.openers) ∧
          ∃ t ∈ l.dialect.parser.run? ((tokens ++ [last]).map .ok),
            tokens.length < t.consumed) := by
  obtain ⟨r, hr⟩ := l.exists_ranked
  constructor
  · rw [Parser.parseTokens?, Option.map_eq_none_iff, Parser.run?_eq_none_iff]
  · exact Parser.endless_iff hr l.endlessAt_openers htokens hlast

/-- The word `do` alone, and the text `a := not`. -/
theorem stays_at_word_and_negation :
    Imperative.dialect.parser.Endless [.ok ⟨.doWord, "do", ⟨1, 2⟩⟩] ∧
      Boolean.dialect.parser.Endless [.ok ⟨.identifier, "a", ⟨1, 1⟩⟩, .ok ⟨.assign, ":=", ⟨1, 4⟩⟩,
        .ok ⟨.not, "not", ⟨1, 8⟩⟩] := by
  constructor
  · refine (stays_at_openers .imperative [⟨Imperative.Kind.doWord, "do", ⟨1, 2⟩⟩]
      (.endOfInput ⟨1, 3⟩) (by decide) rfl).2.2 ⟨⟨_, rfl, by decide⟩, ?_⟩
    decide +kernel
  · refine (stays_at_openers .boolean [⟨Boolean.Kind.identifier, "a", ⟨1, 1⟩⟩,
      ⟨Boolean.Kind.assign, ":=", ⟨1, 4⟩⟩, ⟨Boolean.Kind.not, "not", ⟨1, 8⟩⟩]
      (.endOfInput ⟨1, 9⟩) (by decide) rfl).2.2 ⟨⟨_, rfl, by decide⟩, ?_⟩
    decide +kernel

end Language

theorem not_all_parsed_without_end :
    ¬ (∀ tokens : List (Token Imperative.Kind), (∀ t ∈ tokens, t.kind ≠ .eof) →
      ∃ diagnostics, Imperative.dialect.parser.parseTokens? tokens = some diagnostics) ∧
    ¬ ∀ tokens : List (Token Boolean.Kind), (∀ t ∈ tokens, t.kind ≠ .eof) →
      ∃ diagnostics, Boolean.dialect.parser.parseTokens? tokens = some diagnostics := by
  constructor
  · intro h
    obtain ⟨diagnostics, hd⟩ := h [⟨.doWord, "do", ⟨1, 2⟩⟩] (by decide)
    have hdo : Imperative.dialect.parser.parseTokens? [⟨.doWord, "do", ⟨1, 2⟩⟩] = none := by
      decide +kernel
    rw [hdo] at hd
    cases hd
  · intro h
    obtain ⟨diagnostics, hd⟩ := h [⟨.identifier, "a", ⟨1, 1⟩⟩, ⟨.assign, ":=", ⟨1, 4⟩⟩,
      ⟨.not, "not", ⟨1, 8⟩⟩] (by decide)
    have hnot : Boolean.dialect.parser.parseTokens? [⟨.identifier, "a", ⟨1, 1⟩⟩,
        ⟨.assign, ":=", ⟨1, 4⟩⟩, ⟨.not, "not", ⟨1, 8⟩⟩] = none := by
      decide +kernel
    rw [hnot] at hd
    cases hd

end Lookahead
