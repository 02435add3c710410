import Lookahead.Proofs.Text.Position

/-!
Positions and the lines of a longer text. A text that ends inside a line is placed on that line,
also when more text follows, and text on the lines above it moves it down.
-/

namespace Lookahead

variable {text u v : List Char}

theorem lines_append_break (u v : List Char) : lines (u ++ '\n' :: v) = lines u ++ lines v :=
  List.splitOn_append_cons_self u v

theorem lines_of_not_mem (h : '\n' ∉ text) : lines text = [text] := List.splitOn_eq_singleton h

theorem lines_cons_of_ne {c : Char} (hc : c ≠ '\n') {line : List Char} {more : List (List Char)}
    (h : lines text = line :: more) : lines (c :: text) = (c :: line) :: more := by
  unfold lines at h ⊢
  rw [List.splitOn_cons_eq_if_modifyHead, if_neg (by simpa using hc), h, List.modifyHead_cons]

/-- Where two texts meet, the last line of one and the first of the other are one line. -/
theorem exists_lines_append (u v : List Char) :
    ∃ closed last first more, lines u = closed ++ [last] ∧ lines v = first :: more ∧
      lines (u ++ v) = closed ++ (last ++ first) :: more := by
  induction u with
  | nil =>
    obtain ⟨first, more, hv⟩ := List.exists_cons_of_ne_nil (List.splitOn_ne_nil '\n' v)
    exact ⟨[], [], first, more, rfl, hv, hv⟩
  | cons c u ih =>
    obtain ⟨closed, last, first, more, hu, hv, huv⟩ := ih
    by_cases hc : c = '\n'
    · subst hc
      refine ⟨[] :: closed, last, first, more, ?_, hv, ?_⟩
      · rw [List.cons_append, ← hu]
        exact lines_append_break [] u
      · rw [List.cons_append, List.cons_append, ← huv]
        exact lines_append_break [] (u ++ v)
    · cases closed with
      | nil => exact ⟨[], c :: last, first, more, lines_cons_of_ne hc hu, hv, lines_cons_of_ne hc huv⟩
      | cons line closed =>
        exact ⟨(c :: line) :: closed, last, first, more, lines_cons_of_ne hc hu, hv,
          lines_cons_of_ne hc huv⟩

theorem exists_lines_append_of_lines {u last : List Char} {closed : List (List Char)}
    (hu : lines u = closed ++ [last]) (v : List Char) :
    ∃ first more, lines v = first :: more ∧ lines (u ++ v) = closed ++ (last ++ first) :: more := by
  obtain ⟨closed', last', first, more, hu', hv, huv⟩ := exists_lines_append u v
  obtain ⟨rfl, hlast⟩ := List.append_inj' (hu.symm.trans hu') rfl
  cases hlast
  exact ⟨first, more, hv, huv⟩

namespace LineCounting

variable {counting : LineCounting} {closed ls ms : List (List Char)} {last lexeme : List Char}

/-- Those of some lines that have a number. -/
def counted (counting : LineCounting) (ls : List (List Char)) : List (List Char) :=
  match counting with
  | .physical => ls
  | .nonBlank => filled ls

theorem counted_append (counting : LineCounting) (ls ms : List (List Char)) :
    counting.counted (ls ++ ms) = counting.counted ls ++ counting.counted ms := by
  cases counting with
  | physical => rfl
  | nonBlank => exact List.filter_append _ _

theorem counted_cons_of_ne_nil (counting : LineCounting) {line : List Char} (hl : line ≠ [])
    (ls : List (List Char)) : counting.counted (line :: ls) = line :: counting.counted ls := by
  cases counting with
  | physical => rfl
  | nonBlank => simp [counted, filled, hl]

/-- The place of a text that ends inside a line is told by the lines. -/
theorem place_of_lines (counting : LineCounting) (hl : last ≠ [])
    (h : lines text = closed ++ [last]) :
    counting.place text = ⟨(counting.counted closed).length + 1, last.length⟩ := by
  have hpos := List.length_pos_iff.2 hl
  cases counting with
  | physical =>
    have hcount := length_lines text
    rw [h, List.length_append, List.length_singleton] at hcount
    have hmax : max last.length 1 = last.length := Nat.max_eq_left hpos
    simp only [place, counted, h, List.getLastD_concat, hmax]
    rw [← hcount]
  | nonBlank =>
    have hfilled : filled (lines text) = filled closed ++ [last] := by
      rw [h]
      exact (counted_append .nonBlank closed [last]).trans
        (congrArg _ (counted_cons_of_ne_nil .nonBlank hl []))
    simp only [place, counted, hfilled, List.getLast?_concat, List.length_append,
      List.length_singleton]

/-- By how many lines a text moves down what stands below it. -/
def height (counting : LineCounting) (text : List Char) : Nat :=
  match counting with
  | .physical => 1 + text.count '\n'
  | .nonBlank => (filled (lines text)).length

theorem length_counted_lines (counting : LineCounting) (text : List Char) :
    (counting.counted (lines text)).length = counting.height text := by
  cases counting with
  | physical => exact (length_lines text).trans (Nat.add_comm _ _)
  | nonBlank => rfl

end LineCounting

/-! ### Texts that end with a lexeme on one line -/

variable {lexeme : List Char}

theorem exists_lines_append_lexeme (hne : lexeme ≠ []) (hn : '\n' ∉ lexeme) (before : List Char) :
    ∃ closed last, lines (before ++ lexeme) = closed ++ [last] ∧ last ≠ [] ∧ lexeme <:+ last := by
  obtain ⟨closed, last, first, more, -, hfirst, h⟩ := exists_lines_append before lexeme
  rw [lines_of_not_mem hn, List.cons.injEq] at hfirst
  obtain ⟨rfl, rfl⟩ := hfirst
  exact ⟨closed, last ++ lexeme, h, List.append_ne_nil_of_right_ne_nil last hne,
    List.suffix_append last lexeme⟩

namespace LineCounting

/-- The place of a lexeme leads to the line that it ends on and to where it ends there, whatever
follows it. -/
theorem lexeme_at_place (counting : LineCounting) (hne : lexeme ≠ []) (hn : '\n' ∉ lexeme)
    (before after : List Char) :
    0 < (counting.place (before ++ lexeme)).line ∧
      ∃ line ∈ (counting.counted (lines (before ++ lexeme ++ after)))[
          (counting.place (before ++ lexeme)).line - 1]?,
        (counting.place (before ++ lexeme)).column ≤ line.length ∧
          lexeme <:+ line.take (counting.place (before ++ lexeme)).column := by
  obtain ⟨closed, last, hlast, hl, hsuffix⟩ := exists_lines_append_lexeme hne hn before
  obtain ⟨closed', last', first, more, hclosed, -, hwhole⟩ :=
    exists_lines_append (before ++ lexeme) after
  obtain ⟨rfl, hlast'⟩ := List.append_inj' (hlast.symm.trans hclosed) rfl
  cases hlast'
  rw [counting.place_of_lines hl hlast]
  refine ⟨Nat.succ_pos _, last ++ first, ?_, ?_, ?_⟩
  · have hline : last ++ first ≠ [] := List.append_ne_nil_of_left_ne_nil hl _
    rw [hwhole, counted_append, counting.counted_cons_of_ne_nil hline, Nat.add_sub_cancel,
      List.getElem?_append_right (Nat.le_refl _), Nat.sub_self]
    rfl
  · rw [List.length_append]
    exact Nat.le_add_right _ _
  · rwa [List.take_left]

/-- Below another text a lexeme keeps its column, and its line is lower by the height of that text. -/
theorem place_below (counting : LineCounting) (hne : lexeme ≠ []) (hn : '\n' ∉ lexeme)
    (above before : List Char) :
    counting.place (above ++ '\n' :: (before ++ lexeme)) =
      ⟨(counting.place (before ++ lexeme)).line + counting.height above,
        (counting.place (before ++ lexeme)).column⟩ := by
  obtain ⟨closed, last, hlast, hl, -⟩ := exists_lines_append_lexeme hne hn before
  have hbelow : lines (above ++ '\n' :: (before ++ lexeme)) = (lines above ++ closed) ++ [last] := by
    rw [lines_append_break, hlast, List.append_assoc]
  have hline : (counting.counted (lines above ++ closed)).length + 1 =
      (counting.counted closed).length + 1 + counting.height above := by
    rw [counted_append, List.length_append, counting.length_counted_lines]
    omega
  rw [counting.place_of_lines hl hbelow, counting.place_of_lines hl hlast, hline]

end LineCounting

end Lookahead
