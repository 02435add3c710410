import Lookahead.Proofs.Language.Ranking
import Lookahead.Proofs.Run.Failure

/-!
Checking a text while it is scanned and scanning it to its end first come to the same.
-/

namespace Lookahead

variable {κ : Type} [DecidableEq κ] [TokenKind κ]

namespace Scanner

theorem exists_isEnd_drainFrom (pieces : List (κ × List Char)) (s : Scanner κ) :
    ∃ pull ∈ (drainFrom pieces s).1, Item.IsEnd pull.item := by
  induction pieces generalizing s with
  | nil =>
    refine ⟨_, List.mem_singleton_self _, ?_⟩
    unfold pullLast
    split
    · rfl
    · trivial
  | cons piece pieces ih =>
    obtain ⟨kind, lexeme⟩ := piece
    unfold drainFrom
    split
    · exact ih _
    · obtain ⟨pull, hp, he⟩ := ih (s.pullToken kind lexeme).2
      exact ⟨pull, List.mem_cons_of_mem _ hp, he⟩

end Scanner

namespace Dialect

theorem exists_isEnd_items (d : Dialect κ) (counting : LineCounting) (source : String) :
    ∃ item ∈ d.items counting source, Item.IsEnd item := by
  obtain ⟨pull, hp, he⟩ := Scanner.exists_isEnd_drainFrom (d.scanner counting source).pieces
    (d.scanner counting source)
  exact ⟨pull.item, List.mem_map_of_mem hp, he⟩

theorem agrees {d : Dialect κ} {r : Ranking κ} (hr : d.grammar.Ranked r) (l : Language)
    (counting : LineCounting) (source : String) :
    (∃ error, (d.tokens counting source).map (·.map Token.record) = .error error ∧
      d.check? counting source = some (.error error) ∧
      (d.analyze? counting source).map (·.map l.report) = some (.error error)) ∨
    ∃ records diagnostics,
      (d.tokens counting source).map (·.map Token.record) = .ok records ∧
      d.check? counting source = some (.ok diagnostics) ∧
      (d.analyze? counting source).map (·.map l.report) = some (.ok ⟨l, records, diagnostics⟩) := by
  have hends := d.exists_isEnd_items counting source
  obtain ⟨t, ht⟩ := Parser.exists_run?_eq_some (p := d.parser) hr hends
  have hf := Parser.failure_of_run? ht
  cases he : firstError (d.items counting source) with
  | some error =>
    have hd : d.tokens counting source = .error error := tokensOf_eq_error he
    refine .inl ⟨error, ?_, ?_, ?_⟩
    · simp [hd, Except.map]
    · simp [check?, Parser.parse?, ht, State.result, hf, he]
    · simp [analyze?, hd, Except.map]
  | none =>
    obtain ⟨tokens, hi, htokens⟩ := exists_tokensOf_eq_ok he
    have hd : d.tokens counting source = .ok tokens := hi
    refine .inr ⟨tokens.map Token.record, t.diagnostics, ?_, ?_, ?_⟩
    · simp [hd, Except.map]
    · simp [check?, Parser.parse?, ht, State.result, hf, he]
    · simp [analyze?, hd, Parser.parseTokens?, htokens, ht, Except.map, Language.report]

end Dialect

namespace Language

/-- A text either has a lexical error, which scanning, checking and analysing it all answer, or it
has tokens and diagnostics on which all three agree. -/
theorem streamed_eq_collected (l : Language) (counting : LineCounting) (source : String) :
    (∃ error, l.tokenize counting source = .error error ∧
      l.check? counting source = some (.error error) ∧
      l.analyze? counting source = some (.error error)) ∨
    ∃ records diagnostics, l.tokenize counting source = .ok records ∧
      l.check? counting source = some (.ok diagnostics) ∧
      l.analyze? counting source = some (.ok ⟨l, records, diagnostics⟩) := by
  cases l with
  | imperative => exact Dialect.agrees Imperative.ranked .imperative counting source
  | boolean => exact Dialect.agrees Boolean.ranked .boolean counting source

end Language

end Lookahead
