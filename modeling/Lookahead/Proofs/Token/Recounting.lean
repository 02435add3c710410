import Lookahead.Proofs.Text.Position
import Lookahead.Proofs.Token.Stream

/-!
Changing the counting of lines in the middle of a stream. Each delivery is placed as the counting
chosen last places the text up to the cursor. Apart from positions nothing depends on the choices.
-/

namespace Lookahead

variable {κ : Type}

namespace Item

def position : Item κ → Position
  | .ok token => token.position
  | .error error => error.position

end Item

namespace Scanner

def Operation.counting? : Operation → Option LineCounting
  | .pull => none
  | .recount counting => some counting

/-- The cursor and the line index have been led along the same part of a text, and the pieces to
come make up the other part. -/
structure Reads (text read : List Char) (s : Scanner κ) : Prop where
  split : text = read ++ (joined s.pieces ++ s.left)
  offset : s.offset = utf8Length read
  index : s.index = LineIndex.advance { counting := s.index.counting } read

variable {s : Scanner κ} {text read : List Char} {pieces : List (κ × List Char)}

theorem reads_ofText (table : PatternTable κ) (text : List Char) :
    (ofText table text).Reads text [] where
  split := by simpa [ofText] using (table.divides_cut text).join.symm
  offset := rfl
  index := rfl

theorem Reads.skip {kind : κ} {lexeme : List Char} (h : s.Reads text read)
    (hp : s.pieces = (kind, lexeme) :: pieces) : (s.skip lexeme).Reads text (read ++ lexeme) where
  split := by simp [h.split, hp, Scanner.skip, joined]
  offset := by simp [h.offset, Scanner.skip, utf8Length_append]
  index := by
    simp only [Scanner.skip, LineIndex.counting_advance, LineIndex.advance_append]
    rw [← h.index]

theorem Reads.recount (h : s.Reads text read) (counting : LineCounting) :
    (s.recount counting).Reads text read where
  split := h.split
  offset := h.offset
  index := by
    have hindex := congrArg (·.recount counting) h.index
    rw [LineIndex.recount_advance] at hindex
    exact hindex

variable [TokenKind κ]

theorem pullLast_index (s : Scanner κ) :
    s.pullLast.2.index = s.index ∧ s.pullLast.1.item.position = s.index.position := by
  unfold pullLast
  split <;> exact ⟨rfl, rfl⟩

theorem Reads.pullLast (h : s.Reads text read) : s.pullLast.2.Reads text read := by
  unfold Scanner.pullLast
  split <;> exact ⟨h.split, h.offset, h.index⟩

variable [DecidableEq κ]

/-- A pull is placed where it has led the line index. -/
theorem Reads.pullFrom (h : s.Reads text read) (hp : s.pieces = pieces) :
    ∃ read', (pullFrom pieces s).2.Reads text read' ∧
      (pullFrom pieces s).2.index.counting = s.index.counting ∧
      (pullFrom pieces s).1.item.position = (pullFrom pieces s).2.index.position := by
  induction pieces generalizing s read with
  | nil =>
    obtain ⟨hindex, hposition⟩ := s.pullLast_index
    refine ⟨read, h.pullLast, ?_, ?_⟩
    · exact congrArg (·.counting) hindex
    · exact hposition.trans (congrArg (·.position) hindex.symm)
  | cons piece pieces ih =>
    obtain ⟨kind, lexeme⟩ := piece
    have hskip := h.skip hp
    have hcounting : (s.skip lexeme).index.counting = s.index.counting :=
      s.index.counting_advance lexeme
    unfold Scanner.pullFrom
    split
    · have hpieces : (s.skip lexeme).pieces = pieces := by simp [Scanner.skip, hp]
      obtain ⟨read', hread, hc, hposition⟩ := ih hskip hpieces
      exact ⟨read', hread, hc.trans hcounting, hposition⟩
    · exact ⟨read ++ lexeme, ⟨hskip.split, hskip.offset, hskip.index⟩, hcounting, rfl⟩

theorem Reads.pulled (h : s.Reads text read) :
    ∃ read', s.pulled.Reads text read' ∧ s.pulled.index.counting = s.index.counting ∧
      ∀ item ∈ s.answer, item.position = s.pulled.index.position := by
  cases hf : s.finished with
  | true =>
    rw [pulled_of_finished hf, answer_of_finished hf]
    exact ⟨read, h, rfl, by simp⟩
  | false =>
    have hnext : s.next? = some (Scanner.pullFrom s.pieces s) := by simp [next?, hf]
    obtain ⟨read', hread, hcounting, hposition⟩ := h.pullFrom rfl
    rw [pulled_of_next? hnext, answer_of_next? hnext]
    refine ⟨read', hread, hcounting, ?_⟩
    intro item hitem
    rw [← Option.mem_some.1 hitem]
    exact hposition

/-- Whatever the operations, the line index is one that was led along the text up to the cursor
under the counting chosen last. -/
theorem Reads.after (h : s.Reads text read) (operations : List Operation) :
    ∃ read', (s.after operations).Reads text read' ∧ (s.after operations).index.counting =
      (operations.filterMap Operation.counting?).getLastD s.index.counting := by
  induction operations generalizing s read with
  | nil => exact ⟨read, h, rfl⟩
  | cons operation operations ih =>
    cases operation with
    | pull =>
      obtain ⟨read', hread, hcounting, -⟩ := h.pulled
      obtain ⟨read'', hend, hlast⟩ := ih hread
      rw [hcounting] at hlast
      exact ⟨read'', hend, hlast⟩
    | recount counting =>
      obtain ⟨read', hend, hlast⟩ := ih (h.recount counting)
      refine ⟨read', hend, hlast.trans ?_⟩
      simp only [Operation.counting?, List.filterMap_cons, List.getLastD_cons]
      rfl

/-- What the pulls among some operations are answered with. -/
def answers (s : Scanner κ) : List Operation → List (Option (Item κ))
  | [] => []
  | .pull :: operations => s.answer :: s.pulled.answers operations
  | .recount counting :: operations => (s.recount counting).answers operations

end Scanner

end Lookahead
