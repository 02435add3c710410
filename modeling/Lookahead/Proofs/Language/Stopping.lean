import Lookahead.Proofs.Language.Scanning
import Lookahead.Proofs.Run.Stopping

/-!
Where the parse of a text stops. A program is left at the first token that goes on with it nowhere,
also where there is more text behind, so a text is parsed to its end only up to such a token.
-/

namespace Lookahead

open Lookahead.Parser

namespace Imperative

open Kind

variable {tokens : List (Token Kind)} {last : Token Kind} {s u : State Kind}

/-- Whole statements lead from one token to another. -/
def Statements : State Kind → State Kind → Prop :=
  dialect.parser.Rounds statementStart [.call "statement"]

/-- With what a program goes on. -/
def proceeds (_ : Nat) : List Kind := statementStart

theorem statements_of_follows (h : dialect.parser.Follows [.call dialect.parser.grammar.start] s u)
    (hs : s.Reads (tokens ++ [last])) (hc : s.consumed = 1)
    (htokens : ∀ t ∈ tokens, t.kind ≠ TokenKind.eof) (hlast : last.kind = TokenKind.eof) :
    Statements s u ∧ u.current.kind ∉ proceeds (u.consumed - 1) := by
  have htakes : ∀ k ∈ statementStart, grammar.takes k 8 [.call "statement"] = true := by decide
  rw [follows_call rfl] at h
  obtain ⟨v, hv, h⟩ := h
  rw [follows_nil.1 h]
  exact rounds_of_follows hv hs (by omega) (hlast ▸ htokens) (hlast ▸ by decide) htakes

end Imperative

namespace Boolean

open Kind

variable {tokens : List (Token Kind)} {last : Token Kind} {s u : State Kind}

/-- What stands behind a statement: a terminator, which another statement may follow. -/
abbrev moreRules : List (Rule Kind) := [.advance, .optional [identifier] [.call "statement"]]

/-- Whole statements with terminators between them lead from one token to another. -/
inductive Statements (s u : State Kind) : Prop
  | none (hu : u = s)
  | some {v : State Kind} (hk : s.current.kind = identifier)
      (hfirst : dialect.parser.Follows [.call "statement"] s v)
      (hmore : dialect.parser.Rounds [terminator] moreRules v u)

/-- With what a program begins and, behind its first statement, goes on. -/
def proceeds (n : Nat) : List Kind := if n = 0 then [identifier] else [terminator]

theorem statements_of_follows (h : dialect.parser.Follows [.call dialect.parser.grammar.start] s u)
    (hs : s.Reads (tokens ++ [last])) (hc : s.consumed = 1)
    (htokens : ∀ t ∈ tokens, t.kind ≠ TokenKind.eof) (hlast : last.kind = TokenKind.eof) :
    Statements s u ∧ u.current.kind ∉ proceeds (u.consumed - 1) := by
  have hstatement : ∀ k ∈ [identifier], grammar.takes k 8 [.call "statement"] = true := by decide
  have hround : ∀ k ∈ [terminator], grammar.takes k 8 moreRules = true := by decide
  rw [follows_call rfl] at h
  obtain ⟨w, hw, h⟩ := h
  rw [follows_nil.1 h]
  by_cases hk : s.current.kind ∈ [identifier]
  · obtain ⟨x, hx, hw⟩ := (follows_optional_of_sees (decide_eq_true hk)).1 hw
    rw [← follows_nil.1 hw] at hx
    obtain ⟨v, hv, hloop⟩ := hx.exists_between
    have hlt := hv.consumed_lt hs (by omega) (hlast ▸ htokens) (hlast ▸ by decide) hk hstatement
    obtain ⟨hrounds, hstop⟩ := rounds_of_follows hloop (hv.reads hs) (by omega) (hlast ▸ htokens)
      (hlast ▸ by decide) hround
    have hgrow := hloop.consumed_le
    refine ⟨.some (List.mem_singleton.mp hk) hv hrounds, ?_⟩
    rwa [proceeds, if_neg (by omega)]
  · rw [follows_optional_of_not_sees (fun h ↦ hk (of_decide_eq_true h))] at hw
    rw [follows_nil.1 hw]
    refine ⟨.none rfl, ?_⟩
    rwa [hc, proceeds, if_pos rfl]

end Boolean

namespace Language

/-- Whole statements of a language lead from one token to another. -/
def Statements : (l : Language) → State l.Kind → State l.Kind → Prop
  | imperative => Imperative.Statements
  | boolean => Boolean.Statements

/-- With what a program of a language goes on behind so many tokens, where a statement may begin. -/
def proceeds : (l : Language) → Nat → List l.Kind
  | imperative => Imperative.proceeds
  | boolean => Boolean.proceeds

theorem statements_of_follows {l : Language} {tokens : List (Token l.Kind)} {last : Token l.Kind}
    {s u : State l.Kind} (h : l.dialect.parser.Follows [.call l.dialect.parser.grammar.start] s u)
    (hs : s.Reads (tokens ++ [last])) (hc : s.consumed = 1)
    (htokens : ∀ t ∈ tokens, t.kind ≠ TokenKind.eof) (hlast : last.kind = TokenKind.eof) :
    l.Statements s u ∧ u.current.kind ∉ l.proceeds (u.consumed - 1) := by
  cases l with
  | imperative => exact Imperative.statements_of_follows h hs hc htokens hlast
  | boolean => exact Boolean.statements_of_follows h hs hc htokens hlast

variable {l : Language} {counting : LineCounting} {source : String}

/-- A text that is made of words is parsed statement by statement up to a token with which the program
cannot go on. If this is the end token, all tokens have been taken; otherwise the parse complains
there that the end was expected, and what is behind is not parsed. -/
theorem stops_between_statements {records : List Token.Record}
    (h : l.tokenize counting source = .ok records) :
    ∃ (tokens : List (Token l.Kind)) (u t : State l.Kind), tokens.map Token.record = records ∧
      l.dialect.items counting source = tokens.map .ok ∧
      l.dialect.parser.run? (l.dialect.items counting source) = some t ∧
      l.check? counting source = some (.ok t.diagnostics) ∧
      l.Statements (State.ofItems (tokens.map .ok)).advance u ∧
      State.Stops tokens l.proceeds u t := by
  obtain ⟨spots, hscans, rfl⟩ := exists_scans_of_tokenize_ok h
  obtain ⟨t, ht, hcheck⟩ := exists_run?_of_scans hscans counting
  have hitems := dialect_items_of_scans hscans counting
  have hspots : ∀ token ∈ spots.map (Spot.token counting), token.kind ≠ TokenKind.eof := by
    intro token htoken
    obtain ⟨s, hs, rfl⟩ := List.mem_map.mp htoken
    obtain ⟨rest, -, htakes⟩ := hscans.exists_takes hs
    exact (htakes.clean l.skipsBlanks).1
  obtain ⟨hstart, hone⟩ := reads_start (spots.map (Spot.token counting))
    (Token.endOfInput (counting.place source.toList))
  have hrun := ht
  rw [hitems] at hrun
  obtain ⟨u, hu, rfl⟩ := run?_eq_some_iff.1 hrun
  obtain ⟨hwhole, hstop⟩ := statements_of_follows hu hstart hone hspots rfl
  have hgrow := hu.consumed_le
  refine ⟨_, u, _, ?_, hitems, ht, hcheck, hwhole,
    stops_of_reads hspots rfl (hu.reads hstart) (by omega) hstop⟩
  rw [List.map_append, List.map_map, List.map_singleton, record_endOfInput]
  rfl

/-- A semicolon alone, which begins no statement. -/
theorem tokenize_semicolon : tokenize .imperative .nonBlank ";" =
    .ok [⟨"Terminator", ";", ⟨1, 1⟩⟩, ⟨"Eof", "", ⟨1, 1⟩⟩] := by decide +kernel

theorem stops_at_semicolon : ∃ (tokens : List (Token Imperative.Kind))
    (u t : State Imperative.Kind),
    tokens.map Token.record = [⟨"Terminator", ";", ⟨1, 1⟩⟩, ⟨"Eof", "", ⟨1, 1⟩⟩] ∧
    imperative.dialect.items .nonBlank ";" = tokens.map .ok ∧
    imperative.dialect.parser.run? (imperative.dialect.items .nonBlank ";") = some t ∧
    imperative.check? .nonBlank ";" = some (.ok t.diagnostics) ∧
    imperative.Statements (State.ofItems (tokens.map .ok)).advance u ∧
    State.Stops tokens imperative.proceeds u t :=
  stops_between_statements tokenize_semicolon

/-- The end token of a text is not always taken. -/
theorem not_all_taken : ¬ ∀ (l : Language) (counting : LineCounting) (source : String)
    (records : List Token.Record), l.tokenize counting source = .ok records →
    ∃ t, l.dialect.parser.run? (l.dialect.items counting source) = some t ∧
      t.consumed = records.length := by
  intro h
  obtain ⟨t, ht, hconsumed⟩ := h _ _ _ _ tokenize_semicolon
  have hone : (imperative.dialect.parser.run? (imperative.dialect.items .nonBlank ";")).map
      State.consumed = some 1 := by decide +kernel
  rw [ht, Option.map_some, hconsumed] at hone
  contradiction

end Language

end Lookahead
