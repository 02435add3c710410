import Lookahead.Proofs.Token.Spots

/-!
Texts with blanks between them. Each of them is read as it is read alone, so a text may be cut at
blanks, and its lexemes may be written anew with other blanks between them.
-/

namespace Lookahead

variable {κ : Type} [TokenKind κ] {t : PatternTable κ} {u v left : List Char}
  {spots spots' : List (Spot κ)} {c : Char}

namespace PatternTable

/-- A text read to its end does not keep what begins with a blank behind it from being read. -/
theorem Scans.append (h : t.Scans u spots []) (ht : t.SkipsBlanks) (hc : isBlank c)
    (h' : t.Scans (c :: v) spots' left) :
    t.Scans (u ++ c :: v) (spots ++ spots'.map (.shift u)) left := by
  generalize hnil : ([] : List Char) = rest at h
  induction h with
  | stuck =>
    subst hnil
    simpa using h'
  | @blank d u rest spots hd _ ih => simpa using Scans.blank hd (ih hnil)
  | @piece kind lexeme u rest spots htakes _ ih =>
    simpa using Scans.piece (htakes.append ht hc v) (ih hnil)

/-- Where nothing can be taken, nothing can be taken either if a blank and more follow behind. -/
theorem Scans.append_of_ne_nil (h : t.Scans u spots left) (ht : t.SkipsBlanks) (hleft : left ≠ [])
    (hc : isBlank c) (v : List Char) : t.Scans (u ++ c :: v) spots (left ++ c :: v) := by
  induction h with
  | @stuck left hnone =>
    obtain ⟨x, rest, rfl⟩ := List.exists_cons_of_ne_nil hleft
    have hx : isBlank x = false := by
      by_contra hblank
      rw [ht.matchPrefix?_of_blank (by simpa using hblank)] at hnone
      cases hnone
    exact .stuck (by rw [ht.matchPrefix?_append hx hc, hnone])
  | blank hd _ ih => exact .blank hd (ih hleft)
  | piece htakes _ ih =>
    rw [List.append_assoc]
    exact .piece (htakes.append ht hc v) (ih hleft)

/-- Lexemes are read again if there are blanks between any two of them. -/
theorem SkipsBlanks.exists_scans_zipWith (ht : t.SkipsBlanks) {words : List (κ × List Char)}
    {gaps : List (List Char)} (hwords : ∀ w ∈ words, t.Takes w.1 w.2 [])
    (hlength : gaps.length = words.length) (hblank : ∀ g ∈ gaps, ∀ c ∈ g, isBlank c)
    (hgaps : ∀ g ∈ gaps.dropLast, g ≠ []) :
    ∃ spots, t.Scans (List.zipWith (· ++ ·) (words.map Prod.snd) gaps).flatten spots [] ∧
      spots.map (fun s ↦ (s.kind, s.lexeme)) = words := by
  induction words generalizing gaps with
  | nil => exact ⟨[], .stuck (by simpa using t.matchPrefix?_nil), rfl⟩
  | cons word words ih =>
    obtain ⟨kind, lexeme⟩ := word
    obtain ⟨g, gaps, rfl⟩ := List.exists_cons_of_length_eq_add_one hlength
    have hlast : gaps = [] ∨ (g :: gaps).dropLast = g :: gaps.dropLast := by
      cases gaps <;> simp
    have hlater : ∀ g' ∈ gaps.dropLast, g' ≠ [] := by
      rcases hlast with rfl | hlast
      · simp
      · exact fun g' hg' ↦ hgaps g' (hlast ▸ List.mem_cons_of_mem g hg')
    obtain ⟨spots, hscans, hspots⟩ := ih (fun w hw ↦ hwords w (List.mem_cons_of_mem _ hw))
      (Nat.succ.inj hlength) (fun g' hg' ↦ hblank g' (List.mem_cons_of_mem _ hg')) hlater
    have hword := hwords (kind, lexeme) List.mem_cons_self
    have htakes : t.Takes kind lexeme
        (g ++ (List.zipWith (· ++ ·) (words.map Prod.snd) gaps).flatten) := by
      cases g with
      | nil =>
        -- Only the last gap can be empty, and then nothing follows.
        rcases hlast with rfl | hlast
        · simpa using hword
        · exact absurd rfl (hgaps [] (hlast ▸ List.mem_cons_self))
      | cons c g => exact hword.append ht (hblank (c :: g) List.mem_cons_self c List.mem_cons_self) _
    have hbehind := Scans.blanks (hblank g List.mem_cons_self) hscans
    refine ⟨⟨[], kind, lexeme⟩ :: spots.map (.shift (lexeme ++ g)), ?_, ?_⟩
    · simpa using Scans.piece htakes hbehind
    · simpa [Spot.shift, Function.comp_def] using hspots

end PatternTable

end Lookahead
