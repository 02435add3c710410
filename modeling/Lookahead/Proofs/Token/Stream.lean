import Lookahead.Token.Scanner

/-!
What a scanner delivers, pull by pull: the pieces that the table takes from the text one after
another, apart from those to be ignored, then an end token or a lexical error, and then nothing.
-/

namespace Lookahead

theorem utf8Length_cons (c : Char) (text : List Char) :
    utf8Length (c :: text) = c.utf8Size + utf8Length text := by
  rw [utf8Length, List.foldl_cons, foldl_utf8Size, Nat.zero_add]

theorem length_le_utf8Length (text : List Char) : text.length ≤ utf8Length text := by
  induction text with
  | nil => simp
  | cons c text ih =>
    have hc := c.utf8Size_pos
    rw [utf8Length_cons, List.length_cons]
    omega

variable {κ : Type}

def joined (pieces : List (κ × List Char)) : List Char := (pieces.map (·.2)).flatten

theorem length_le_length_joined {pieces : List (κ × List Char)} (h : ∀ p ∈ pieces, p.2 ≠ []) :
    pieces.length ≤ (joined pieces).length := by
  unfold joined
  induction pieces with
  | nil => simp
  | cons p pieces ih =>
    have hp := List.length_pos_iff.2 (h p List.mem_cons_self)
    have hrest := ih fun q hq ↦ h q (List.mem_cons_of_mem _ hq)
    simp only [List.map_cons, List.flatten_cons, List.length_cons, List.length_append]
    omega

namespace PatternTable

/-- A text is divided into pieces, each of them what the table takes of the text from there on, and
a rest of which it takes nothing. -/
structure Divides (t : PatternTable κ) (text : List Char) (pieces : List (κ × List Char))
    (left : List Char) : Prop where
  join : joined pieces ++ left = text
  taken : ∀ before kind lexeme after, pieces = before ++ (kind, lexeme) :: after →
    t.matchBytes? (lexeme ++ (joined after ++ left)) = some (kind, utf8Length lexeme)
  ne_nil : ∀ p ∈ pieces, p.2 ≠ []
  stuck : t.matchBytes? left = none

variable {t : PatternTable κ} {text left : List Char} {pieces : List (κ × List Char)} {kind : κ}

theorem Divides.cons {n : Nat} (h : t.Divides (text.drop n) pieces left)
    (hm : t.matchPrefix? text = some (kind, n)) :
    t.Divides text ((kind, text.take n) :: pieces) left where
  join := by
    have hjoin := h.join
    simp only [joined, List.map_cons, List.flatten_cons, List.append_assoc] at hjoin ⊢
    rw [hjoin, List.take_append_drop]
  taken := by
    intro before kind' lexeme after hp
    cases before with
    | nil =>
      simp only [List.nil_append, List.cons.injEq, Prod.mk.injEq] at hp
      obtain ⟨⟨rfl, rfl⟩, rfl⟩ := hp
      rw [h.join, List.take_append_drop, matchBytes?, hm, Option.map_some]
    | cons p before =>
      rw [List.cons_append, List.cons.injEq] at hp
      exact h.taken before kind' lexeme after hp.2
  ne_nil := by
    intro p hp
    rcases List.mem_cons.1 hp with rfl | hp
    · have hn := matchPrefix?_bounds hm
      apply List.ne_nil_of_length_pos
      rw [List.length_take]
      omega
    · exact h.ne_nil p hp
  stuck := h.stuck

theorem divides_cut (t : PatternTable κ) (text : List Char) :
    t.Divides text (t.cut text).1 (t.cut text).2 := by
  have stuck {left : List Char} (h : t.matchPrefix? left = none) : t.Divides left [] left :=
    ⟨rfl, by simp, by simp, by rw [matchBytes?, h, Option.map_none]⟩
  fun_induction cut t text with
  | case1 => exact stuck t.matchPrefix?_nil
  | case2 c text h => exact stuck h
  | case3 c text kind n h pieces left hc ih =>
    rw [hc] at ih
    exact ih.cons h

theorem Divides.length_le (h : t.Divides text pieces left) : pieces.length ≤ utf8Length text := by
  have hjoin := congrArg List.length h.join
  have hpieces := length_le_length_joined h.ne_nil
  have hbytes := length_le_utf8Length text
  rw [List.length_append] at hjoin
  omega

end PatternTable

namespace Scanner

variable [TokenKind κ] [DecidableEq κ]

/-- What a pull is answered with: nothing, if the stream has ended. -/
def answer (s : Scanner κ) : Option (Item κ) := s.next?.map (·.1.item)

/-- The state behind a pull. -/
def pulled (s : Scanner κ) : Scanner κ := (s.next?.map (·.2)).getD s

inductive Operation where
  | pull
  | recount (counting : LineCounting)
deriving DecidableEq

def operate (s : Scanner κ) : Operation → Scanner κ
  | .pull => s.pulled
  | .recount counting => s.recount counting

def after (s : Scanner κ) (operations : List Operation) : Scanner κ := operations.foldl operate s

variable {s t : Scanner κ} {p : Pull κ}

theorem answer_of_next? (h : s.next? = some (p, t)) : s.answer = some p.item := by
  rw [answer, h, Option.map_some]

theorem pulled_of_next? (h : s.next? = some (p, t)) : s.pulled = t := by
  rw [pulled, h, Option.map_some, Option.getD_some]

theorem pulled_of_finished (h : s.finished = true) : s.pulled = s := by
  simp [pulled, next?, h]

theorem answer_of_finished (h : s.finished = true) : s.answer = none := by simp [answer, next?, h]

end Scanner

end Lookahead
