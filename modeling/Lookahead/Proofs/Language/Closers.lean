import Lookahead.Proofs.Boolean.Closers
import Lookahead.Proofs.Imperative.Closers

/-!
What a single missing closer costs in both languages: one diagnostic, at the token at which the closer
is missed.
-/

namespace Lookahead.Language

/-- Wherever the end of a statement, a parenthesis or a block is left out of an imperative program, or
the end of a parenthesis out of a boolean one, there is one diagnostic: that it is expected at the token
at which it is missed. -/
theorem missing_closer_costs_one :
    (∀ (before after : List (Token Imperative.Kind)) (closer last : Token Imperative.Kind),
      Imperative.Sentence ((before ++ closer :: after).map Token.kind) → last.kind = .eof →
      closer.kind ∈ Imperative.closers →
      ∃ mid found rest, after ++ [last] = mid ++ found :: rest ∧
        Imperative.Missed closer.kind (before.map Token.kind) (mid.map Token.kind) found.kind ∧
        Imperative.dialect.parser.Says (before ++ after ++ [last])
          (missDiagnostic closer.kind found)) ∧
    (∀ (before after : List (Token Boolean.Kind)) (closer last : Token Boolean.Kind),
      Boolean.Sentence ((before ++ closer :: after).map Token.kind) → last.kind = .eof →
      closer.kind = .parEnd →
      ∃ mid found rest, after ++ [last] = mid ++ found :: rest ∧
        Boolean.Missed (mid.map Token.kind) found.kind ∧
        Boolean.dialect.parser.Says (before ++ after ++ [last])
          (missDiagnostic .parEnd found)) :=
  ⟨fun _ _ _ _ hs hl hc ↦ Imperative.exists_missed hs hl hc,
    fun _ _ _ _ hs hl hc ↦ Boolean.exists_missed hs hl hc⟩

/-- The text `a[(b` as tokens. -/
def openIndex : List (Token Imperative.Kind) := [
  ⟨.identifier, "a", ⟨1, 1⟩⟩, ⟨.indexerBegin, "[", ⟨1, 2⟩⟩, ⟨.parBegin, "(", ⟨1, 3⟩⟩,
  ⟨.identifier, "b", ⟨1, 4⟩⟩]

/-- The text `]:=1;` as tokens, where it stands behind `a[(b)`. -/
def behindIndex : List (Token Imperative.Kind) := [
  ⟨.indexerEnd, "]", ⟨1, 6⟩⟩, ⟨.assign, ":=", ⟨1, 8⟩⟩, ⟨.number, "1", ⟨1, 9⟩⟩,
  ⟨.terminator, ";", ⟨1, 10⟩⟩]

/-- The text `a:=(b` as tokens. -/
def openOperand : List (Token Boolean.Kind) := [
  ⟨.identifier, "a", ⟨1, 1⟩⟩, ⟨.assign, ":=", ⟨1, 3⟩⟩, ⟨.parBegin, "(", ⟨1, 4⟩⟩,
  ⟨.identifier, "b", ⟨1, 5⟩⟩]

theorem missing_closer_in_samples :
    (∃ mid found rest, behindIndex ++ [.endOfInput ⟨1, 10⟩] = mid ++ found :: rest ∧
      Imperative.Missed .parEnd (openIndex.map Token.kind) (mid.map Token.kind) found.kind ∧
      Imperative.dialect.parser.Says (openIndex ++ behindIndex ++ [.endOfInput ⟨1, 10⟩])
        (missDiagnostic .parEnd found)) ∧
    ∃ mid found rest, [] ++ [.endOfInput ⟨1, 6⟩] = mid ++ found :: rest ∧
      Boolean.Missed (mid.map Token.kind) found.kind ∧
      Boolean.dialect.parser.Says (openOperand ++ [] ++ [.endOfInput ⟨1, 6⟩])
        (missDiagnostic .parEnd found) := by
  obtain ⟨himperative, hboolean⟩ := missing_closer_costs_one
  exact ⟨himperative openIndex behindIndex ⟨.parEnd, ")", ⟨1, 5⟩⟩ _ (by decide) rfl (by decide),
    hboolean openOperand [] ⟨.parEnd, ")", ⟨1, 6⟩⟩ _ (by decide) rfl rfl⟩

end Lookahead.Language
