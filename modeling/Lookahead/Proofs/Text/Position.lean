import Lookahead.Text.Position

/-!
Positions in closed form. What a line index says of a text can be read off the text, split into
lines.
-/

namespace Lookahead

/-- Never empty: the last line may have no characters. -/
def lines (text : List Char) : List (List Char) := text.splitOn '\n'

def filled (ls : List (List Char)) : List (List Char) := ls.filter (· ≠ [])

/-- The position of the last character of a text. -/
def LineCounting.place (counting : LineCounting) (text : List Char) : Position :=
  match counting with
  | .physical => ⟨text.count '\n' + 1, max ((lines text).getLastD []).length 1⟩
  | .nonBlank =>
    match (filled (lines text)).getLast? with
    | some line => ⟨(filled (lines text)).length, line.length⟩
    | none => ⟨1, 1⟩

namespace LineIndex

/-- The counters are those of some closed lines and of what has been read of the one behind them. -/
structure Counts (i : LineIndex) (closed : List (List Char)) (last : List Char) : Prop where
  breaks : i.breaks = closed.length
  current : i.current = last.length
  filledLines : i.filledLines = (filled closed).length
  lastFilled : ∀ line ∈ (filled closed).getLast?, i.lastFilled = line.length

variable {i : LineIndex} {closed : List (List Char)} {last : List Char}

theorem Counts.close (h : i.Counts closed last) : (i.push '\n').Counts (closed ++ [last]) [] := by
  obtain ⟨hb, hc, hf, hl⟩ := h
  unfold push
  cases last with
  | nil =>
    rw [if_pos rfl, if_neg (by simp [hc])]
    constructor <;> simp_all [filled]
  | cons c last =>
    rw [if_pos rfl, if_pos (by simp [hc])]
    constructor <;> simp_all [filled]

theorem Counts.extend (h : i.Counts closed last) {c : Char} (hc : c ≠ '\n') :
    (i.push c).Counts closed (last ++ [c]) := by
  unfold push
  rw [if_neg hc]
  exact ⟨h.breaks, by simp [h.current], h.filledLines, h.lastFilled⟩

theorem Counts.advance (h : i.Counts closed last) (text : List Char) :
    ∃ closed' last', (i.advance text).Counts closed' last' ∧
      closed' ++ [last'] = closed ++ text.splitOnPPrepend (· == '\n') last.reverse := by
  induction text generalizing i closed last with
  | nil => exact ⟨closed, last, h, by simp⟩
  | cons c text ih =>
    rw [LineIndex.advance, List.foldl_cons]
    by_cases hc : c = '\n'
    · subst hc
      obtain ⟨closed', last', h', hl⟩ := ih h.close
      refine ⟨closed', last', h', ?_⟩
      rw [hl, List.splitOnPPrepend_cons_pos rfl]
      simp
    · obtain ⟨closed', last', h', hl⟩ := ih (h.extend hc)
      refine ⟨closed', last', h', ?_⟩
      rw [hl, List.splitOnPPrepend_cons_neg (by simpa using hc)]
      simp

theorem counts_lines (counting : LineCounting) (text : List Char) :
    ∃ closed last, (LineIndex.advance { counting } text).Counts closed last ∧
      closed ++ [last] = lines text := by
  have h : LineIndex.Counts { counting } [] [] := ⟨rfl, rfl, rfl, by simp [filled]⟩
  obtain ⟨closed, last, hc, hl⟩ := h.advance text
  exact ⟨closed, last, hc, hl⟩

end LineIndex

theorem length_lines (text : List Char) : (lines text).length = text.count '\n' + 1 := by
  unfold lines
  induction text with
  | nil => rfl
  | cons c text ih =>
    rw [List.splitOn_cons_eq_if_modifyHead, List.count_cons]
    split <;> simp [ih]

namespace LineIndex

theorem counting_advance (i : LineIndex) (text : List Char) :
    (i.advance text).counting = i.counting := by
  induction text generalizing i with
  | nil => rfl
  | cons c text ih =>
    have hpush : (i.push c).counting = i.counting := by
      unfold push
      split
      · split <;> rfl
      · rfl
    exact (ih (i.push c)).trans hpush

/-- A line index that was led along a text places its last character by the closed form. -/
theorem position_advance (counting : LineCounting) (text : List Char) :
    (LineIndex.advance { counting } text).position = counting.place text := by
  obtain ⟨closed, last, h, hl⟩ := counts_lines counting text
  have hlength := length_lines text
  unfold position LineCounting.place
  rw [counting_advance]
  rw [← hl] at hlength ⊢
  cases counting with
  | physical =>
    have hbreaks : closed.length = text.count '\n' := by simpa using hlength
    simp [h.breaks, h.current, hbreaks]
  | nonBlank =>
    cases last with
    | cons c last => simp [h.current, h.filledLines, filled]
    | nil =>
      have hfilled : filled (closed ++ [[]]) = filled closed := by simp [filled]
      rw [hfilled]
      dsimp only
      rw [if_neg (by simp [h.current]), h.filledLines]
      cases hlast : (filled closed).getLast? with
      | none => simp [List.getLast?_eq_none_iff.1 hlast]
      | some line =>
        have hpos : 0 < (filled closed).length :=
          List.length_pos_of_mem (List.mem_of_getLast? hlast)
        rw [if_pos hpos, h.lastFilled line hlast]

end LineIndex

end Lookahead
