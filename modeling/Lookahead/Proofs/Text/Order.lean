import Lookahead.Proofs.Text.Lines

/-!
Places of one text compared. Inside a line a longer part of the text is placed further on, no part
is placed in front of a shorter one that ends inside a line, and of the two ways of counting lines
one counts the empty lines above in addition.
-/

namespace Lookahead

/-- Further up, or further to the left on the same line. -/
def Position.Before (p q : Position) : Prop :=
  p.line < q.line ∨ p.line = q.line ∧ p.column < q.column

namespace Position

variable {p q r : Position}

theorem Before.of_not_before (h : p.Before q) (h' : ¬ r.Before q) : p.Before r := by
  unfold Before at *
  omega

end Position

theorem eq_of_lines_eq_singleton {text line : List Char} (h : lines text = [line]) : text = line := by
  have hlength := length_lines text
  rw [h, List.length_singleton] at hlength
  have hbreak : '\n' ∉ text := List.count_eq_zero.1 (by omega)
  rw [lines_of_not_mem hbreak] at h
  exact List.singleton_inj.1 h

namespace LineCounting

variable {text u v : List Char} {line last last' : List Char} {closed closed' more : List (List Char)}

/-- A text is not placed in front of a line of it that has characters. -/
theorem not_place_before (counting : LineCounting) (hl : line ≠ [])
    (h : lines text = closed ++ line :: more) :
    ¬ (counting.place text).Before ⟨(counting.counted closed).length + 1, line.length⟩ := by
  have hpos := List.length_pos_iff.2 hl
  unfold Position.Before
  cases counting with
  | physical =>
    have hlength := length_lines text
    rw [h, List.length_append, List.length_cons] at hlength
    cases more with
    | nil =>
      have hlast : ((lines text).getLastD []).length = line.length := by
        rw [h, List.getLastD_concat]
      simp only [place, counted, hlast]
      omega
    | cons line' more =>
      rw [List.length_cons] at hlength
      simp only [place, counted]
      omega
  | nonBlank =>
    have hfilled : filled (lines text) = filled closed ++ line :: filled more := by
      rw [h]
      exact (counted_append .nonBlank closed (line :: more)).trans
        (congrArg _ (counted_cons_of_ne_nil .nonBlank hl more))
    cases hmore : filled more with
    | nil =>
      rw [hmore] at hfilled
      simp only [place, counted, hfilled, List.getLast?_concat, List.length_append,
        List.length_singleton]
      omega
    | cons line' more' =>
      rw [hmore] at hfilled
      obtain ⟨final, hfinal⟩ : ∃ final, (filled (lines text)).getLast? = some final :=
        Option.ne_none_iff_exists'.1 (by simp [hfilled])
      have hlength := congrArg List.length hfilled
      simp only [List.length_append, List.length_cons] at hlength
      simp only [place, counted, hfinal]
      omega

/-- Behind a text that ends inside a line nothing is placed in front of it. -/
theorem not_place_append_before (counting : LineCounting) (hl : last ≠ [])
    (hu : lines u = closed ++ [last]) (v : List Char) :
    ¬ (counting.place (u ++ v)).Before (counting.place u) := by
  obtain ⟨first, more, -, huv⟩ := exists_lines_append_of_lines hu v
  have hline := counting.not_place_before (List.append_ne_nil_of_left_ne_nil hl first) huv
  rw [List.length_append] at hline
  rw [counting.place_of_lines hl hu]
  unfold Position.Before at *
  dsimp only at *
  omega

/-- From a text that ends inside a line, a longer one that does so too is placed further on. -/
theorem place_before_place_append (counting : LineCounting) (hl : last ≠ [])
    (hu : lines u = closed ++ [last]) (hl' : last' ≠ []) (huv : lines (u ++ v) = closed' ++ [last'])
    (hv : v ≠ []) : (counting.place u).Before (counting.place (u ++ v)) := by
  obtain ⟨first, more, hfirst, hmeet⟩ := exists_lines_append_of_lines hu v
  rw [counting.place_of_lines hl hu, counting.place_of_lines hl' huv]
  rw [hmeet] at huv
  rcases more.eq_nil_or_concat with rfl | ⟨more, final, rfl⟩
  · obtain ⟨rfl, hlast⟩ := List.append_inj' huv rfl
    cases hlast
    have hpos := List.length_pos_iff.2 (eq_of_lines_eq_singleton hfirst ▸ hv)
    refine .inr ⟨rfl, ?_⟩
    dsimp only
    rw [List.length_append]
    omega
  · have hclosed : closed' = closed ++ (last ++ first) :: more := by
      rw [List.concat_eq_append, ← List.cons_append, ← List.append_assoc] at huv
      exact (List.append_inj' huv rfl).1.symm
    refine .inl ?_
    dsimp only
    rw [hclosed, counted_append,
      counting.counted_cons_of_ne_nil (List.append_ne_nil_of_left_ne_nil hl first),
      List.length_append, List.length_cons]
    omega

end LineCounting

/-! ### The empty lines above -/

/-- How many of the lines above a line of a text are empty. -/
def emptyAbove (text : List Char) (line : Nat) : Nat := ((lines text).take (line - 1)).count []

/-- One place of a text, given by the filled lines and then by all lines. -/
structure Position.Recounted (text : List Char) (p q : Position) : Prop where
  column : p.column = q.column
  line : q.line = p.line + emptyAbove text q.line

theorem length_eq_length_filled_add (ls : List (List Char)) :
    ls.length = (filled ls).length + ls.count [] := by
  rw [filled, ← List.countP_eq_length_filter, ls.length_eq_countP_add_countP (· ≠ []), List.count]
  refine congrArg _ (List.countP_congr fun line _ ↦ ?_)
  simp

/-- A lexeme is on the same column under both countings, and below as many lines as there are filled
ones and empty ones above it. -/
theorem recounted_place {lexeme : List Char} (hne : lexeme ≠ []) (hn : '\n' ∉ lexeme)
    (before after : List Char) :
    Position.Recounted (before ++ lexeme ++ after)
      (LineCounting.nonBlank.place (before ++ lexeme))
      (LineCounting.physical.place (before ++ lexeme)) := by
  obtain ⟨closed, last, hlast, hl, -⟩ := exists_lines_append_lexeme hne hn before
  obtain ⟨first, more, -, hwhole⟩ := exists_lines_append_of_lines hlast after
  have habove : emptyAbove (before ++ lexeme ++ after) (closed.length + 1) = closed.count [] := by
    rw [emptyAbove, hwhole, Nat.add_sub_cancel, List.take_left]
  rw [LineCounting.place_of_lines .nonBlank hl hlast, LineCounting.place_of_lines .physical hl hlast]
  refine ⟨rfl, ?_⟩
  simp only [LineCounting.counted, habove]
  have hlength := length_eq_length_filled_add closed
  omega

end Lookahead
