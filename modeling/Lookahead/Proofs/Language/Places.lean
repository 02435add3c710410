import Lookahead.Proofs.Language.Scanning
import Lookahead.Proofs.Text.Lines

/-!
Where tokens are reported. The place of a token leads back to its lexeme in the lines of the text.
-/

namespace Lookahead

theorem Spot.position_record {κ : Type} [TokenKind κ] (counting : LineCounting) (s : Spot κ) :
    (s.record counting).position = counting.place s.reach := rfl

theorem Spot.lexeme_record {κ : Type} [TokenKind κ] (counting : LineCounting) (s : Spot κ) :
    (s.record counting).lexeme.toList = s.lexeme :=
  String.toList_ofList

namespace Language

variable {l : Language} {counting : LineCounting} {source : String} {records : List Token.Record}

/-- Every token but the end token is read at a spot of the text. -/
theorem exists_spot_of_tokenize_ok (h : l.tokenize counting source = .ok records)
    {r : Token.Record} (hr : r ∈ records) (hend : r.kind ≠ "Eof") :
    ∃ (s : Spot l.Kind) (rest : List Char), r = s.record counting ∧
      source.toList = s.reach ++ rest ∧ l.dialect.table.Takes s.kind s.lexeme rest := by
  obtain ⟨spots, hscans, rfl⟩ := exists_scans_of_tokenize_ok h
  rcases List.mem_append.1 hr with hr | hr
  · obtain ⟨s, hs, rfl⟩ := List.mem_map.1 hr
    obtain ⟨rest, hrest, htakes⟩ := hscans.exists_takes hs
    exact ⟨s, rest, rfl, hrest, htakes⟩
  · rw [List.mem_singleton] at hr
    exact absurd (congrArg Token.kind hr) hend

/-- The line of a token is the number of a line of the text, among all lines or among those that are
not empty, and its lexeme ends at its column there. -/
theorem lexemes_end_at_positions (l : Language) (counting : LineCounting) (source : String)
    (records : List Token.Record) (h : l.tokenize counting source = .ok records) :
    ∀ r ∈ records, r.kind ≠ "Eof" → 0 < r.position.line ∧
      ∃ line ∈ (counting.counted (lines source.toList))[r.position.line - 1]?,
        r.position.column ≤ line.length ∧ r.lexeme.toList <:+ line.take r.position.column := by
  intro r hr hend
  obtain ⟨s, rest, rfl, hrest, htakes⟩ := exists_spot_of_tokenize_ok h hr hend
  have hbreak : '\n' ∉ s.lexeme := htakes.not_mem_of_isBlank l.skipsBlanks rfl
  rw [Spot.position_record, Spot.lexeme_record, hrest]
  exact counting.lexeme_at_place htakes.ne_nil hbreak s.before rest

/-- A number below an empty line and one that holds a carriage return. -/
theorem lexemes_end_at_positions_between_blanks :
    (∃ line ∈ (filled (lines "\nvar x\n\n\r\n 10;".toList))[2]?,
      3 ≤ line.length ∧ ['1', '0'] <:+ line.take 3) ∧
    ∃ line ∈ (lines "\nvar x\n\n\r\n 10;".toList)[4]?,
      3 ≤ line.length ∧ ['1', '0'] <:+ line.take 3 := by
  have hfilled : Language.imperative.tokenize .nonBlank "\nvar x\n\n\r\n 10;" =
      .ok [⟨"Var", "var", ⟨1, 3⟩⟩, ⟨"Identifier", "x", ⟨1, 5⟩⟩, ⟨"Number", "10", ⟨3, 3⟩⟩,
        ⟨"Terminator", ";", ⟨3, 4⟩⟩, endRecord ⟨3, 4⟩] := by decide +kernel
  have hall : Language.imperative.tokenize .physical "\nvar x\n\n\r\n 10;" =
      .ok [⟨"Var", "var", ⟨2, 3⟩⟩, ⟨"Identifier", "x", ⟨2, 5⟩⟩, ⟨"Number", "10", ⟨5, 3⟩⟩,
        ⟨"Terminator", ";", ⟨5, 4⟩⟩, endRecord ⟨5, 4⟩] := by decide +kernel
  have hn := lexemes_end_at_positions _ _ _ _ hfilled ⟨"Number", "10", ⟨3, 3⟩⟩ (by simp) (by simp)
  have hp := lexemes_end_at_positions _ _ _ _ hall ⟨"Number", "10", ⟨5, 3⟩⟩ (by simp) (by simp)
  exact ⟨hn.2, hp.2⟩

end Language

end Lookahead
