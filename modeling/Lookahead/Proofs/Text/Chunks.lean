import Lookahead.Proofs.Text.Order

/-!
A line index led along a text piece by piece. However the text is cut, it ends where the whole text
ends, and on the way it never goes back.
-/

namespace Lookahead

theorem Position.not_before_trans {p q r : Position} (h : ¬ q.Before p) (h' : ¬ r.Before q) :
    ¬ r.Before p := by
  unfold Before at *
  omega

namespace LineIndex

theorem not_before_push (i : LineIndex) (c : Char) :
    ¬ (i.push c).position.Before i.position := by
  obtain ⟨counting, breaks, filledLines, lastFilled, current⟩ := i
  unfold Position.Before push
  dsimp only
  split
  · cases counting with
    | physical => split <;> simp [position]
    | nonBlank =>
      -- the break closes the current line, whose end is then the last one, or changes nothing
      split
      · rename_i hpos
        simp [position, hpos]
      · simp [position]
  · cases counting with
    | physical =>
      simp only [position]
      omega
    | nonBlank =>
      simp only [position, Nat.succ_pos, if_true]
      split
      · dsimp only
        omega
      · split <;> dsimp only <;> omega

theorem not_before_advance (i : LineIndex) (text : List Char) :
    ¬ (i.advance text).position.Before i.position := by
  induction text generalizing i with
  | nil =>
    rw [advance_nil]
    unfold Position.Before
    omega
  | cons c text ih => exact Position.not_before_trans (i.not_before_push c) (ih (i.push c))

theorem advance_flatten (i : LineIndex) (chunks : List (List Char)) :
    i.advance chunks.flatten = chunks.foldl advance i :=
  List.foldl_flatten

/-- After any pieces the position is that of the last character of the text that they make up, and
it is never further up or further to the left than after the first few of them. -/
theorem placed_piece_by_piece (counting : LineCounting) (chunks : List (List Char)) :
    (chunks.foldl advance { counting }).position = counting.place chunks.flatten ∧
      ∀ first, first <+: chunks → ¬ (chunks.foldl advance { counting }).position.Before
        (first.foldl advance { counting }).position := by
  constructor
  · rw [← advance_flatten, position_advance]
  · rintro first ⟨more, rfl⟩
    rw [List.foldl_append, ← advance_flatten _ more]
    exact not_before_advance _ _

/-- Line breaks in a piece of their own leave the position at the end of the line before them. -/
theorem placed_piece_by_piece_at_breaks :
    (["ab;".toList, "\n\n".toList].foldl advance {}).position = ⟨1, 3⟩ ∧
      (["ab;".toList, "\n\n".toList, "c".toList].foldl advance {}).position = ⟨2, 1⟩ ∧
      ¬ (⟨2, 1⟩ : Position).Before ⟨1, 3⟩ := by
  obtain ⟨hplace, hnot⟩ :=
    placed_piece_by_piece .nonBlank ["ab;".toList, "\n\n".toList, "c".toList]
  have hfirst : (["ab;".toList, "\n\n".toList].foldl advance {}).position = ⟨1, 3⟩ := by decide
  have hlast : (["ab;".toList, "\n\n".toList, "c".toList].foldl advance {}).position = ⟨2, 1⟩ :=
    hplace.trans (by decide)
  refine ⟨hfirst, hlast, ?_⟩
  rw [← hfirst, ← hlast]
  exact hnot _ ⟨["c".toList], rfl⟩

end LineIndex

end Lookahead
