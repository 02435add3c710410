import Lookahead.Proofs.Pattern.Literal
import Lookahead.Token.Basic
import Mathlib.Data.List.Basic

/-!
Tables that pass over blanks. Runs of blanks are taken as a whole, no other piece has a blank in it,
and what a piece is does not depend on the text from the next blank on.
-/

namespace Lookahead

def blankChars : List Char := [' ', '\r', '\n', '\t']

def isBlank (c : Char) : Bool := c ∈ blankChars

def blanks : CharSet := .ofRanges (blankChars.map fun c ↦ (c, c))

theorem contains_blanks : blanks.contains = isBlank := by
  funext c
  have hspans : ∀ r ∈ (blankChars.map fun c ↦ (c, c)).map fun r ↦ (rank r.1, rank r.2),
      r.1 ≤ r.2 := by simp
  unfold blanks CharSet.ofRanges CharSet.contains
  rw [CharSet.covers_ofSpans hspans, Bool.eq_iff_iff]
  simp only [CharSet.covers, List.map_map, List.any_map, List.any_eq_true, isBlank,
    decide_eq_true_eq, Function.comp_apply, Bool.and_eq_true]
  constructor
  · rintro ⟨d, hd, hle, hge⟩
    rwa [rank_injective (Nat.le_antisymm hge hle)]
  · intro hc
    exact ⟨c, hc, Nat.le_refl _, Nat.le_refl _⟩

variable {κ : Type} [TokenKind κ]

namespace PatternTable

/-- Blanks come first and are to be ignored, and no other entry takes one or is to be ignored. -/
structure SkipsBlanks (t : PatternTable κ) : Prop where
  first : t.entries.head? = some (TokenKind.ignore, .seq .textStart (.plus true (.take blanks)))
  kinds : ∀ e ∈ t.entries.tail, e.1 ≠ TokenKind.ignore ∧ e.1 ≠ TokenKind.eof
  tracks : ∀ e ∈ t.entries.tail, e.2.anchored ∧ e.2.openEnded ∧ blankChars.all e.2.avoids

variable {t : PatternTable κ} {text u : List Char} {c x : Char} {kind : κ} {n : Nat}

theorem SkipsBlanks.entries_eq (h : t.SkipsBlanks) :
    t.entries = (TokenKind.ignore, .seq .textStart (.plus true (.take blanks))) :: t.entries.tail :=
  List.eq_cons_of_mem_head? h.first

theorem SkipsBlanks.avoids (h : t.SkipsBlanks) {e : κ × Track} (he : e ∈ t.entries.tail)
    (hc : isBlank c) : e.2.avoids c :=
  List.all_eq_true.1 (h.tracks e he).2.2 c (of_decide_eq_true hc)

theorem SkipsBlanks.openEnded (h : t.SkipsBlanks) : t.OpenEnded := by
  unfold OpenEnded
  rw [h.entries_eq]
  intro e he
  rcases List.mem_cons.1 he with rfl | he
  · rfl
  · exact (h.tracks e he).2.1

/-- Either the text begins with a blank, and a run of them is taken, or an entry behind the first
one decides. -/
theorem SkipsBlanks.matchPrefix?_eq (h : t.SkipsBlanks) (text : List Char) :
    t.matchPrefix? text =
      if text.takeWhile isBlank = [] then
        t.entries.tail.findSome? fun e ↦ (e.2.stop? text).map (e.1, ·)
      else some (TokenKind.ignore, (text.takeWhile isBlank).length) := by
  rw [matchPrefix?, h.entries_eq, List.findSome?_cons, Track.stop?_run, contains_blanks,
    List.tail_cons]
  by_cases hnil : text.takeWhile isBlank = []
  · rw [if_pos hnil, if_pos hnil, Option.map_none]
  · rw [if_neg hnil, if_neg hnil, Option.map_some]

theorem SkipsBlanks.matchPrefix?_of_blank (h : t.SkipsBlanks) (hc : isBlank c) (text : List Char) :
    t.matchPrefix? (c :: text) =
      some (TokenKind.ignore, (c :: text.takeWhile isBlank).length) := by
  rw [h.matchPrefix?_eq, List.takeWhile_cons_of_pos hc, if_neg (List.cons_ne_nil _ _)]

/-- What is to be ignored is the run of blanks that the text begins with. -/
theorem SkipsBlanks.take_of_ignore (h : t.SkipsBlanks)
    (hm : t.matchPrefix? text = some (TokenKind.ignore, n)) :
    text.take n = text.takeWhile isBlank := by
  rw [h.matchPrefix?_eq] at hm
  split at hm
  · obtain ⟨e, he, heq⟩ := List.exists_of_findSome?_eq_some hm
    obtain ⟨stop, -, heq⟩ := Option.map_eq_some_iff.1 heq
    exact absurd (congrArg Prod.fst heq) (h.kinds e he).1
  · cases hm
    exact (List.prefix_iff_eq_take.1 (List.takeWhile_prefix isBlank)).symm

/-- A piece that is not to be ignored has no blank in it, and a kind of its own. -/
theorem SkipsBlanks.not_isBlank_of_mem (h : t.SkipsBlanks)
    (hm : t.matchPrefix? text = some (kind, n)) (hk : kind ≠ TokenKind.ignore) :
    kind ≠ TokenKind.eof ∧ ∀ c ∈ text.take n, isBlank c = false := by
  rw [h.matchPrefix?_eq] at hm
  split at hm
  · obtain ⟨e, he, heq⟩ := List.exists_of_findSome?_eq_some hm
    obtain ⟨stop, hstop, heq⟩ := Option.map_eq_some_iff.1 heq
    cases heq
    refine ⟨(h.kinds e he).2, fun c hc ↦ ?_⟩
    obtain ⟨ha, ho, -⟩ := h.tracks e he
    have htaken := Track.avoids_of_mem_take ho ha hstop hc
    by_contra hblank
    rw [h.avoids he (by simpa using hblank)] at htaken
    cases htaken
  · cases hm
    exact absurd rfl hk

/-- From a blank on, a text makes no difference to what is taken before. -/
theorem SkipsBlanks.matchPrefix?_append (h : t.SkipsBlanks) (hx : isBlank x = false)
    (hc : isBlank c) (u v : List Char) :
    t.matchPrefix? (x :: u ++ c :: v) = t.matchPrefix? (x :: u) := by
  have hnil (text : List Char) : (x :: text).takeWhile isBlank = [] :=
    List.takeWhile_cons_of_neg (by simp [hx])
  rw [h.matchPrefix?_eq, h.matchPrefix?_eq, List.cons_append, if_pos (hnil _), if_pos (hnil _),
    ← List.cons_append]
  rw [← List.head?_filterMap, ← List.head?_filterMap]
  refine congrArg List.head? (List.filterMap_congr fun e he ↦ ?_)
  obtain ⟨ha, ho, -⟩ := h.tracks e he
  rw [Track.stop?_append_of_avoids ho ha (h.avoids he hc)]

/-- From a text a piece is taken that is not to be ignored. -/
structure Takes (t : PatternTable κ) (kind : κ) (lexeme rest : List Char) : Prop where
  kind_ne : kind ≠ TokenKind.ignore
  matched : t.matchPrefix? (lexeme ++ rest) = some (kind, lexeme.length)

variable {lexeme rest : List Char}

theorem Takes.ne_nil (h : t.Takes kind lexeme rest) : lexeme ≠ [] :=
  List.ne_nil_of_length_pos (matchPrefix?_bounds h.matched).1

theorem Takes.clean (h : t.Takes kind lexeme rest) (ht : t.SkipsBlanks) :
    kind ≠ TokenKind.eof ∧ ∀ c ∈ lexeme, isBlank c = false := by
  have hclean := ht.not_isBlank_of_mem h.matched h.kind_ne
  rwa [List.take_left] at hclean

theorem Takes.not_mem_of_isBlank (h : t.Takes kind lexeme rest) (ht : t.SkipsBlanks)
    (hc : isBlank c) : c ∉ lexeme := by
  intro hmem
  rw [(h.clean ht).2 c hmem] at hc
  cases hc

/-- A piece is taken also from a text that goes on behind a blank in another way. -/
theorem Takes.append (h : t.Takes kind lexeme rest) (ht : t.SkipsBlanks) (hc : isBlank c)
    (v : List Char) : t.Takes kind lexeme (rest ++ c :: v) where
  kind_ne := h.kind_ne
  matched := by
    obtain ⟨x, u, rfl⟩ := List.exists_cons_of_ne_nil h.ne_nil
    have hx := (h.clean ht).2 x List.mem_cons_self
    rw [← List.append_assoc, List.cons_append, ht.matchPrefix?_append hx hc, ← List.cons_append]
    exact h.matched

/-- A piece is taken again where the text breaks off behind it. -/
theorem Takes.of_append {v : List Char} (h : t.Takes kind lexeme (rest ++ v)) (ht : t.OpenEnded) :
    t.Takes kind lexeme rest where
  kind_ne := h.kind_ne
  matched := by
    have hmatched := h.matched
    rw [← List.append_assoc] at hmatched
    apply matchPrefix?_of_append ht hmatched
    rw [List.length_append]
    exact Nat.le_add_right _ _

theorem Takes.alone (h : t.Takes kind lexeme rest) (ht : t.SkipsBlanks) : t.Takes kind lexeme [] :=
  Takes.of_append h ht.openEnded

end PatternTable

end Lookahead
