import Lookahead.Proofs.Boolean.Recognition
import Lookahead.Proofs.Imperative.Recognition

/-!
In both languages the first complaint comes as early as it can.
-/

namespace Lookahead

/-- Tokens that are no program are complained about at the first of them with which no program can
begin any more, and silence means that this is the first or the second. -/
theorem complains_at_shortest :
    (∀ (tokens : List (Token Imperative.Kind)) (last : Token Imperative.Kind),
      (∀ t ∈ tokens, t.kind ≠ .eof) → last.kind = .eof →
      ¬ Imperative.Sentence (tokens.map Token.kind) →
      ∃ k t r,
        FirstComplaint Imperative.dialect.parser Imperative.Sentence (tokens ++ [last]) k t r) ∧
    (∀ (tokens : List (Token Boolean.Kind)) (last : Token Boolean.Kind),
      (∀ t ∈ tokens, t.kind ≠ .eof) → last.kind = .eof →
      ¬ Boolean.Sentence (tokens.map Token.kind) →
      ∃ k t r, FirstComplaint Boolean.dialect.parser Boolean.Sentence (tokens ++ [last]) k t r) :=
  ⟨fun _ _ ht hl ↦ Imperative.recognizes.exists_firstComplaint ht hl,
    fun _ _ ht hl ↦ Boolean.recognizes.exists_firstComplaint ht hl⟩

/-- The text `a := )` in both languages. -/
theorem complains_at_parenthesis :
    (∃ k t r, FirstComplaint Imperative.dialect.parser Imperative.Sentence
      [⟨.identifier, "a", ⟨1, 1⟩⟩, ⟨.assign, ":=", ⟨1, 4⟩⟩, ⟨.parEnd, ")", ⟨1, 6⟩⟩,
        .endOfInput ⟨1, 7⟩] k t r) ∧
    (∃ k t r, FirstComplaint Boolean.dialect.parser Boolean.Sentence
      [⟨.identifier, "a", ⟨1, 1⟩⟩, ⟨.assign, ":=", ⟨1, 4⟩⟩, ⟨.parEnd, ")", ⟨1, 6⟩⟩,
        .endOfInput ⟨1, 7⟩] k t r) := by
  constructor
  · exact complains_at_shortest.1 [⟨.identifier, "a", ⟨1, 1⟩⟩, ⟨.assign, ":=", ⟨1, 4⟩⟩,
      ⟨.parEnd, ")", ⟨1, 6⟩⟩] (.endOfInput ⟨1, 7⟩) (by decide) rfl (by decide)
  · exact complains_at_shortest.2 [⟨.identifier, "a", ⟨1, 1⟩⟩, ⟨.assign, ":=", ⟨1, 4⟩⟩,
      ⟨.parEnd, ")", ⟨1, 6⟩⟩] (.endOfInput ⟨1, 7⟩) (by decide) rfl (by decide)

end Lookahead
