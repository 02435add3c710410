import Lookahead.Language.Dialect
import Lookahead.Proofs.Pattern.Blanks
import Lookahead.Proofs.Run.Failure
import Lookahead.Proofs.Token.Recounting
import Mathlib.Data.List.TakeWhile

/-!
Where the tokens of a text stand. A text is read blank by blank and piece by piece, and this reading
can be composed and taken apart as the cutting into whole runs of blanks cannot. What a scanner
delivers is told by it alone.
-/

namespace Lookahead

variable {κ : Type}

/-- A piece that is not ignored, and all of the text in front of it. -/
structure Spot (κ : Type) where
  before : List Char
  kind : κ
  lexeme : List Char

namespace Spot

/-- The same piece with more text in front. -/
def shift (read : List Char) (s : Spot κ) : Spot κ := { s with before := read ++ s.before }

/-- The text up to the end of the piece. -/
def reach (s : Spot κ) : List Char := s.before ++ s.lexeme

def token (counting : LineCounting) (s : Spot κ) : Token κ :=
  ⟨s.kind, String.ofList s.lexeme, counting.place s.reach⟩

@[simp] theorem map_shift_nil (spots : List (Spot κ)) : spots.map (shift []) = spots :=
  List.map_id' spots

@[simp] theorem shift_comp_shift (read read' : List Char) :
    shift (κ := κ) read' ∘ shift read = shift (read' ++ read) := by
  funext s
  simp [shift]

@[simp] theorem reach_shift (s : Spot κ) (read : List Char) :
    (s.shift read).reach = read ++ s.reach := by
  simp [reach, shift]

end Spot

/-- What a scanner delivers last: the end token if the whole text was read, or else an error. -/
def lastItem [TokenKind κ] (counting : LineCounting) (read left : List Char) : Item κ :=
  if left.isEmpty then .ok (.endOfInput (counting.place read))
  else .error ⟨counting.place read, utf8Length read⟩

/-- The pieces that are not to be ignored, with the text in front of them. -/
def spotsOf [TokenKind κ] [DecidableEq κ] : List (κ × List Char) → List (Spot κ)
  | [] => []
  | (kind, lexeme) :: pieces =>
    if kind = TokenKind.ignore then (spotsOf pieces).map (.shift lexeme)
    else ⟨[], kind, lexeme⟩ :: (spotsOf pieces).map (.shift lexeme)

namespace Scanner

variable {s : Scanner κ} {text read : List Char}

theorem Reads.position (h : s.Reads text read) :
    s.index.position = s.index.counting.place read := by
  rw [h.index, LineIndex.position_advance, LineIndex.counting_advance]

variable [TokenKind κ]

theorem Reads.pullLast_item (h : s.Reads text read) :
    s.pullLast.1.item = lastItem s.index.counting read s.left := by
  unfold Scanner.pullLast lastItem
  split
  · exact congrArg (Except.ok ∘ Token.endOfInput) h.position
  · simp only [pullError, h.position, h.offset]

variable [DecidableEq κ]

theorem Reads.items_drainFrom (h : s.Reads text read) {pieces : List (κ × List Char)}
    (hp : s.pieces = pieces) :
    (drainFrom pieces s).1.map (·.item) =
      (spotsOf pieces).map (fun sp ↦ .ok ((sp.shift read).token s.index.counting)) ++
        [lastItem s.index.counting (read ++ joined pieces) s.left] := by
  induction pieces generalizing s read with
  | nil => simp [drainFrom, spotsOf, joined, h.pullLast_item]
  | cons piece pieces ih =>
    obtain ⟨kind, lexeme⟩ := piece
    have hskip := h.skip hp
    have hcounting : (s.skip lexeme).index.counting = s.index.counting :=
      s.index.counting_advance lexeme
    have hjoined : read ++ joined ((kind, lexeme) :: pieces) =
        read ++ lexeme ++ joined pieces := by simp [joined]
    unfold drainFrom spotsOf
    rw [hjoined]
    split
    · rw [ih hskip (by simp [Scanner.skip, hp]), hcounting]
      simp [Spot.shift, Scanner.skip]
    · have hpull : (s.pullToken kind lexeme).2.Reads text (read ++ lexeme) :=
        ⟨hskip.split, hskip.offset, hskip.index⟩
      have hlater := ih hpull (by simp [pullToken, Scanner.skip, hp])
      have hitem : (s.pullToken kind lexeme).1.item =
          .ok ⟨kind, String.ofList lexeme, s.index.counting.place (read ++ lexeme)⟩ := by
        rw [← hcounting, ← hskip.position]
        rfl
      have hindex : (s.pullToken kind lexeme).2.index.counting = s.index.counting := hcounting
      rw [hindex] at hlater
      simp only [List.map_cons, hlater, hitem]
      simp [pullToken, Scanner.skip, Spot.token, Spot.reach, Spot.shift]

end Scanner

namespace PatternTable

variable {t : PatternTable κ} {text : List Char} {kind : κ} {n : Nat}

theorem cut_of_none (h : t.matchPrefix? text = none) : t.cut text = ([], text) := by
  cases text with
  | nil => rw [cut]
  | cons c text =>
    rw [cut]
    split
    · rfl
    · rename_i hm
      rw [h] at hm
      cases hm

theorem cut_of_some (h : t.matchPrefix? text = some (kind, n)) :
    t.cut text =
      ((kind, text.take n) :: (t.cut (text.drop n)).1, (t.cut (text.drop n)).2) := by
  cases text with
  | nil =>
    rw [t.matchPrefix?_nil] at h
    cases h
  | cons c text =>
    rw [cut]
    split
    · rename_i hm
      rw [h] at hm
      cases hm
    · rename_i kind' n' hm
      rw [h] at hm
      cases hm
      rfl

variable [TokenKind κ]

/-- A text is read by passing over its blanks one by one and taking the pieces between them, up to
where nothing can be taken. -/
inductive Scans (t : PatternTable κ) : List Char → List (Spot κ) → List Char → Prop
  | stuck {left : List Char} : t.matchPrefix? left = none → Scans t left [] left
  | blank {c : Char} {text left : List Char} {spots : List (Spot κ)} :
      isBlank c → Scans t text spots left → Scans t (c :: text) (spots.map (.shift [c])) left
  | piece {kind : κ} {lexeme rest left : List Char} {spots : List (Spot κ)} :
      t.Takes kind lexeme rest → Scans t rest spots left →
      Scans t (lexeme ++ rest) (⟨[], kind, lexeme⟩ :: spots.map (.shift lexeme)) left

variable {left : List Char} {spots : List (Spot κ)}

theorem Scans.blanks {w : List Char} (hw : ∀ c ∈ w, isBlank c) (h : t.Scans text spots left) :
    t.Scans (w ++ text) (spots.map (.shift w)) left := by
  induction w with
  | nil => simpa using h
  | cons c w ih =>
    have hlater := ih fun d hd ↦ hw d (List.mem_cons_of_mem c hd)
    simpa using Scans.blank (hw c List.mem_cons_self) hlater

/-- Each spot is where a piece is taken from the text. -/
theorem Scans.exists_takes (h : t.Scans text spots left) {s : Spot κ} (hs : s ∈ spots) :
    ∃ rest, text = s.reach ++ rest ∧ t.Takes s.kind s.lexeme rest := by
  induction h generalizing s with
  | stuck => cases hs
  | blank _ _ ih =>
    obtain ⟨s', hs', rfl⟩ := List.mem_map.1 hs
    obtain ⟨rest, hrest, htakes⟩ := ih hs'
    exact ⟨rest, by rw [Spot.reach_shift, hrest, List.append_assoc, List.singleton_append], htakes⟩
  | piece htakes _ ih =>
    rcases List.mem_cons.1 hs with rfl | hs
    · exact ⟨_, rfl, htakes⟩
    · obtain ⟨s', hs', rfl⟩ := List.mem_map.1 hs
      obtain ⟨rest, hrest, htakes'⟩ := ih hs'
      exact ⟨rest, by rw [Spot.reach_shift, hrest, List.append_assoc], htakes'⟩

/-- Each spot reaches further than the one before it. -/
theorem Scans.pairwise_reach (h : t.Scans text spots left) :
    spots.Pairwise fun s s' ↦ ∃ v, v ≠ [] ∧ s'.reach = s.reach ++ v := by
  have shifted {spots : List (Spot κ)} (read : List Char)
      (h : spots.Pairwise fun s s' ↦ ∃ v, v ≠ [] ∧ s'.reach = s.reach ++ v) :
      (spots.map (Spot.shift read)).Pairwise
        fun s s' ↦ ∃ v, v ≠ [] ∧ s'.reach = s.reach ++ v := by
    refine List.pairwise_map.2 (h.imp fun ⟨v, hv, hreach⟩ ↦ ⟨v, hv, ?_⟩)
    rw [Spot.reach_shift, Spot.reach_shift, hreach, List.append_assoc]
  induction h with
  | stuck => exact .nil
  | blank _ _ ih => exact shifted _ ih
  | @piece kind lexeme rest left spots _ hlater ih =>
    refine List.pairwise_cons.2 ⟨fun s' hs' ↦ ?_, shifted lexeme ih⟩
    obtain ⟨s, hs, rfl⟩ := List.mem_map.1 hs'
    obtain ⟨_, -, htakes⟩ := hlater.exists_takes hs
    exact ⟨s.reach, List.append_ne_nil_of_right_ne_nil _ htakes.ne_nil, Spot.reach_shift s lexeme⟩

/-- What is read of a text are its lexemes and blanks, and the lexemes are all of it that is not
blank. -/
theorem Scans.exists_read (h : t.Scans text spots left) (ht : t.SkipsBlanks) :
    ∃ read, text = read ++ left ∧
      (spots.map Spot.lexeme).flatten = read.filter fun c ↦ !isBlank c := by
  have hshift (read : List Char) : Spot.lexeme (κ := κ) ∘ Spot.shift read = Spot.lexeme := rfl
  induction h with
  | stuck => exact ⟨[], rfl, rfl⟩
  | @blank c text left spots hc _ ih =>
    obtain ⟨read, htext, hread⟩ := ih
    refine ⟨c :: read, by rw [htext, List.cons_append], ?_⟩
    rw [List.map_map, hshift, hread, List.filter_cons_of_neg (by simp [hc])]
  | @piece kind lexeme rest left spots htakes _ ih =>
    obtain ⟨read, htext, hread⟩ := ih
    refine ⟨lexeme ++ read, by rw [htext, List.append_assoc], ?_⟩
    have hclean : lexeme.filter (fun c ↦ !isBlank c) = lexeme :=
      List.filter_eq_self.2 fun c hc ↦ by simp [(htakes.clean ht).2 c hc]
    rw [List.map_cons, List.flatten_cons, List.map_map, hshift, hread, List.filter_append, hclean]

/-- A text that breaks off behind what is read of it is read just as far. -/
theorem Scans.exists_cut (h : t.Scans text spots left) (ht : t.OpenEnded) :
    ∃ read, text = read ++ left ∧ ∀ u v, left = u ++ v → t.Scans (read ++ u) spots u := by
  induction h with
  | stuck hnone =>
    refine ⟨[], rfl, ?_⟩
    rintro u v rfl
    exact .stuck (matchPrefix?_of_append_eq_none ht hnone)
  | @blank c text left spots hc _ ih =>
    obtain ⟨read, rfl, hcut⟩ := ih
    refine ⟨c :: read, rfl, ?_⟩
    intro u v huv
    exact .blank hc (hcut u v huv)
  | @piece kind lexeme rest left spots htakes _ ih =>
    obtain ⟨read, rfl, hcut⟩ := ih
    refine ⟨lexeme ++ read, (List.append_assoc _ _ _).symm, ?_⟩
    intro u v huv
    rw [huv, ← List.append_assoc] at htakes
    rw [List.append_assoc]
    exact .piece (htakes.of_append ht) (hcut u v huv)

variable [DecidableEq κ]

/-- Cutting a text leaves the blanks at its front to themselves. -/
theorem SkipsBlanks.spotsOf_cut (ht : t.SkipsBlanks) (text : List Char) :
    spotsOf (t.cut text).1 =
        (spotsOf (t.cut (text.dropWhile isBlank)).1).map (.shift (text.takeWhile isBlank)) ∧
      (t.cut text).2 = (t.cut (text.dropWhile isBlank)).2 := by
  cases text with
  | nil => simp [cut, spotsOf]
  | cons c text =>
    by_cases hc : isBlank c
    · have hsplit : c :: text = (c :: text.takeWhile isBlank) ++ text.dropWhile isBlank := by
        rw [List.cons_append, List.takeWhile_append_dropWhile]
      have hcut := cut_of_some (ht.matchPrefix?_of_blank hc text)
      rw [hsplit, List.take_left, List.drop_left, ← hsplit] at hcut
      rw [hcut, List.takeWhile_cons_of_pos hc, List.dropWhile_cons_of_pos hc]
      exact ⟨if_pos rfl, rfl⟩
    · rw [List.takeWhile_cons_of_neg hc, List.dropWhile_cons_of_neg hc]
      exact ⟨by simp, rfl⟩

/-- A text can be read in one way only, the one in which it is cut. -/
theorem Scans.eq_cut (h : t.Scans text spots left) (ht : t.SkipsBlanks) :
    spotsOf (t.cut text).1 = spots ∧ (t.cut text).2 = left := by
  induction h with
  | stuck hnone =>
    rw [cut_of_none hnone]
    exact ⟨rfl, rfl⟩
  | @blank c text left spots hc _ ih =>
    obtain ⟨hspots, hleft⟩ := ih
    obtain ⟨hrun, hrunLeft⟩ := ht.spotsOf_cut (c :: text)
    obtain ⟨htail, htailLeft⟩ := ht.spotsOf_cut text
    rw [List.takeWhile_cons_of_pos hc, List.dropWhile_cons_of_pos hc] at hrun
    rw [List.dropWhile_cons_of_pos hc] at hrunLeft
    rw [hrun, hrunLeft, ← htailLeft, ← hspots, htail]
    exact ⟨by simp, hleft⟩
  | @piece kind lexeme rest left spots hpiece _ ih =>
    obtain ⟨hspots, hleft⟩ := ih
    rw [cut_of_some hpiece.matched, List.take_left, List.drop_left, spotsOf,
      if_neg hpiece.kind_ne, hspots]
    exact ⟨rfl, hleft⟩

theorem SkipsBlanks.exists_scans (ht : t.SkipsBlanks) (text : List Char) :
    ∃ spots left, t.Scans text spots left := by
  fun_induction cut t text with
  | case1 => exact ⟨[], [], .stuck t.matchPrefix?_nil⟩
  | case2 c text hnone => exact ⟨[], c :: text, .stuck hnone⟩
  | case3 c text kind n hm _ _ _ ih =>
    obtain ⟨spots, left, hlater⟩ := ih
    have hsplit := List.take_append_drop n (c :: text)
    by_cases hk : kind = TokenKind.ignore
    · subst hk
      have hrun : ∀ d ∈ (c :: text).take n, isBlank d := by
        rw [ht.take_of_ignore hm]
        exact fun d hd ↦ List.mem_takeWhile_imp hd
      have hscans := Scans.blanks hrun hlater
      rw [hsplit] at hscans
      exact ⟨_, _, hscans⟩
    · have htakes : t.Takes kind ((c :: text).take n) ((c :: text).drop n) := by
        refine ⟨hk, ?_⟩
        have hn := matchPrefix?_bounds hm
        rw [hsplit, hm, List.length_take, Nat.min_eq_left hn.2]
      have hscans := Scans.piece htakes hlater
      rw [hsplit] at hscans
      exact ⟨_, _, hscans⟩

end PatternTable

namespace Dialect

variable [TokenKind κ] [DecidableEq κ] {d : Dialect κ} {source : String} {spots : List (Spot κ)}
  {read left : List Char}

/-- What is delivered of a text is told by how it is read. -/
theorem items_of_scans (ht : d.table.SkipsBlanks) (h : d.table.Scans source.toList spots left)
    (hr : source.toList = read ++ left) (counting : LineCounting) :
    d.items counting source =
      spots.map (fun s ↦ .ok (s.token counting)) ++ [lastItem counting read left] := by
  obtain ⟨hspots, hleft⟩ := h.eq_cut ht
  have hread : joined (d.table.cut source.toList).1 = read := by
    have hjoin := (d.table.divides_cut source.toList).join
    rw [hleft] at hjoin
    exact List.append_cancel_right (hjoin.trans hr)
  have hstart := (Scanner.reads_ofText d.table source.toList).recount counting
  have hitems := hstart.items_drainFrom rfl
  rw [← hspots, ← hread, ← hleft]
  exact hitems

end Dialect

end Lookahead
