import Lookahead.Proofs.Imperative.Derivation
import Lookahead.Proofs.Imperative.Parsing
import Lookahead.Proofs.Language.Ranking
import Lookahead.Proofs.Predictor.Recognition

/-!
The imperative language is recognized with one token of lookahead.
-/

namespace Lookahead.Imperative

open Kind

theorem recognizes : Recognizes dialect.parser predictor Sentence where
  ends h := Parser.exists_run?_eq_some ranked h
  leads _ _ := leads_program
  accepts_iff := accepts_iff
  completable hrun := by
    have hstart : Predictor.Chained Phrase.below predictor.start := ⟨⟨_, rfl, by decide⟩, trivial⟩
    exact productive.exists_run_eq_nil (productive.run hstart hrun)
  admits _ h := decide_eq_true h

instance : DecidablePred Sentence := fun _ ↦ decidable_of_iff _ recognizes.sentence_iff.symm

/-- A run over some tokens and an end token passes all of them without a complaint if and only if
their kinds are a program, and then there is nothing wrong with them. -/
theorem passes_iff_program (tokens : List (Token Kind)) (last : Token Kind)
    (ht : ∀ t ∈ tokens, t.kind ≠ eof) (hl : last.kind = eof) :
    ∃ t, dialect.parser.run? ((tokens ++ [last]).map .ok) = some t ∧
      (t.raises = [] ∧ t.consumed = tokens.length + 1 ↔ Sentence (tokens.map Token.kind)) ∧
      (Sentence (tokens.map Token.kind) →
        dialect.parser.parse? ((tokens ++ [last]).map .ok) = some (.ok []) ∧
          dialect.parser.parseTokens? (tokens ++ [last]) = some []) :=
  recognizes.exists_run?_iff ht hl

/-- The text `a := -1 + !b;` as tokens. -/
def negatedSum : List (Token Kind) := [
  ⟨identifier, "a", ⟨1, 1⟩⟩, ⟨assign, ":=", ⟨1, 4⟩⟩, ⟨sub, "-", ⟨1, 6⟩⟩, ⟨number, "1", ⟨1, 7⟩⟩,
  ⟨add, "+", ⟨1, 9⟩⟩, ⟨.not, "!", ⟨1, 11⟩⟩, ⟨identifier, "b", ⟨1, 12⟩⟩, ⟨terminator, ";", ⟨1, 13⟩⟩]

theorem passes_negatedSum :
    ∃ t, dialect.parser.run? ((negatedSum ++ [Token.endOfInput ⟨1, 14⟩]).map .ok) = some t ∧
      t.raises = [] ∧ t.consumed = 9 ∧
      dialect.parser.parse? ((negatedSum ++ [Token.endOfInput ⟨1, 14⟩]).map .ok) =
        some (.ok []) := by
  obtain ⟨t, hrun, hiff, hparse⟩ :=
    passes_iff_program negatedSum (.endOfInput ⟨1, 14⟩) (by decide) rfl
  have hs : Sentence (negatedSum.map Token.kind) := by decide
  obtain ⟨hr, hc⟩ := hiff.2 hs
  exact ⟨t, hrun, hr, hc, (hparse hs).1⟩

end Lookahead.Imperative
