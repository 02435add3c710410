import Lookahead.Proofs.Boolean.Derivation
import Lookahead.Proofs.Boolean.Parsing
import Lookahead.Proofs.Language.Ranking
import Lookahead.Proofs.Predictor.Recognition

/-!
The boolean language is recognized with one token of lookahead.
-/

namespace Lookahead.Boolean

open Kind Ebnf

theorem recognizes : Recognizes dialect.parser predictor Sentence where
  ends h := Parser.exists_run?_eq_some ranked h
  leads _ _ := leads_program
  accepts_iff := accepts_iff
  completable hrun := by
    have hstart : Predictor.Chained Phrase.below predictor.start := ⟨⟨_, rfl, by decide⟩, trivial⟩
    exact productive.exists_run_eq_nil (productive.run hstart hrun)
  admits _ h := decide_eq_true h

instance : DecidablePred Sentence := fun _ ↦ decidable_of_iff _ recognizes.sentence_iff.symm

/-! ### Terminators between programs -/

theorem derives_terminators {ks : List Kind} (h : Sentence ks) (n : Nat) :
    Derives syntaxOf Phrase.further (List.replicate (n + 1) terminator ++ ks) [] := by
  induction n with
  | zero =>
    rcases derives_option.1 (derives_symbol.1 h) with rfl | h
    · exact .more (.sequence (.token _ _) (.absent _ _)) (.stop _ _)
    · obtain ⟨m, hs, hm⟩ := derives_append.1 h
      exact .more (.sequence (.token _ _) (.present hs)) hm
  | succ n ih => exact .more (.sequence (.token _ _) (.absent _ _)) ih

/-- Two programs with terminators between them are a program, if the first is not empty. -/
theorem sentence_terminators {ks ks' : List Kind} (h : Sentence ks) (hne : ks ≠ [])
    (h' : Sentence ks') (n : Nat) :
    Sentence (ks ++ (List.replicate (n + 1) terminator ++ ks')) := by
  rcases derives_option.1 (derives_symbol.1 h) with rfl | hd
  · exact absurd rfl hne
  · have hi : Ignores terminator (.symbol .statement ++ Phrase.further) :=
      ⟨trivial, trivial, trivial⟩
    have hrest : ∀ j, j ≠ terminator → ([] : List Kind).head? ≠ some j →
        (List.replicate (n + 1) terminator ++ ks').head? ≠ some j := by
      intro j hj _
      simpa [List.replicate_succ] using hj.symm
    obtain ⟨w, hw, hd⟩ := hd.replace_rest (ignores terminator) hi hrest
    rw [List.append_nil] at hw
    subst hw
    obtain ⟨m, hs, hm⟩ := derives_append.1 hd
    exact .symbol (.present (.sequence hs (hm.many_append (derives_terminators h' n))))

/-- A run over some tokens and an end token passes all of them without a complaint if and only if
their kinds are a program, and then there is nothing wrong with them. It may go on behind any number
of terminators. -/
theorem passes_iff_assignments (tokens : List (Token Kind)) (last : Token Kind)
    (ht : ∀ t ∈ tokens, t.kind ≠ eof) (hl : last.kind = eof) :
    (∃ t, dialect.parser.run? ((tokens ++ [last]).map .ok) = some t ∧
      (t.raises = [] ∧ t.consumed = tokens.length + 1 ↔ Sentence (tokens.map Token.kind)) ∧
      (Sentence (tokens.map Token.kind) →
        dialect.parser.parse? ((tokens ++ [last]).map .ok) = some (.ok []) ∧
          dialect.parser.parseTokens? (tokens ++ [last]) = some [])) ∧
      ∀ n ks, Sentence (tokens.map Token.kind) → tokens ≠ [] → Sentence ks →
        Sentence (tokens.map Token.kind ++ (List.replicate (n + 1) terminator ++ ks)) := by
  refine ⟨recognizes.exists_run?_iff ht hl, fun n ks hs hne hks ↦ ?_⟩
  exact sentence_terminators hs (by simpa using hne) hks n

/-- The text `a := not b or 1;;` as tokens. -/
def negatedUnion : List (Token Kind) := [
  ⟨identifier, "a", ⟨1, 1⟩⟩, ⟨assign, ":=", ⟨1, 4⟩⟩, ⟨.not, "not", ⟨1, 8⟩⟩,
  ⟨identifier, "b", ⟨1, 10⟩⟩, ⟨.or, "or", ⟨1, 13⟩⟩, ⟨number, "1", ⟨1, 15⟩⟩,
  ⟨terminator, ";", ⟨1, 16⟩⟩, ⟨terminator, ";", ⟨1, 17⟩⟩]

theorem passes_negatedUnion :
    ∃ t, dialect.parser.run? ((negatedUnion ++ [Token.endOfInput ⟨1, 18⟩]).map .ok) = some t ∧
      t.raises = [] ∧ t.consumed = 9 ∧
      dialect.parser.parse? ((negatedUnion ++ [Token.endOfInput ⟨1, 18⟩]).map .ok) =
        some (.ok []) := by
  obtain ⟨⟨t, hrun, hiff, hparse⟩, -⟩ :=
    passes_iff_assignments negatedUnion (.endOfInput ⟨1, 18⟩) (by decide) rfl
  have hs : Sentence (negatedUnion.map Token.kind) := by decide
  obtain ⟨hr, hc⟩ := hiff.2 hs
  exact ⟨t, hrun, hr, hc, (hparse hs).1⟩

end Lookahead.Boolean
