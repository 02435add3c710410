import Lookahead.Proofs.Language.Scanning

/-!
Where a lexical error stands. The text in front of it is scanned to its end, and wherever the text
breaks off behind it the error is the same.
-/

namespace Lookahead

theorem prefix_of_utf8Length_le {u v text : List Char} (hu : u <+: text) (hv : v <+: text)
    (hle : utf8Length u ≤ utf8Length v) : u <+: v := by
  rcases List.prefix_or_prefix_of_prefix hu hv with h | ⟨rest, rfl⟩
  · exact h
  · cases rest with
    | nil => simp
    | cons c rest =>
      have hc := c.utf8Size_pos
      rw [utf8Length_append, utf8Length_cons] at hle
      omega

namespace Language

variable {l : Language} {counting : LineCounting} {source : String}

/-- The text in front of a lexical error has the tokens that are delivered before the error, and its
end token has the place of the error. No more of the text than this part can be scanned: wherever the
text is cut behind it, the error is the same. -/
theorem error_ends_scannable (l : Language) (counting : LineCounting) (source : String)
    (e : LexError) (h : l.tokenize counting source = .error e) :
    e.offset < utf8Length source.toList ∧
    (∃ read words, read <+: source.toList ∧ utf8Length read = e.offset ∧
      (∀ r ∈ words, r.kind ≠ "Eof") ∧ l.items counting source = words.map .ok ++ [.error e] ∧
      l.tokenize counting (String.ofList read) = .ok (words ++ [endRecord e.position])) ∧
    ∀ cut, cut <+: source.toList → e.offset < utf8Length cut →
      l.tokenize counting (String.ofList cut) = .error e := by
  obtain ⟨spots, read, left, hscans, hleft, hread, rfl⟩ := exists_scans_of_tokenize_error h
  obtain ⟨read', hread', hcut⟩ := hscans.exists_cut l.skipsBlanks.openEnded
  rw [hread] at hread'
  cases List.append_cancel_right hread'
  refine ⟨?_, ?_, ?_⟩
  · obtain ⟨c, rest, rfl⟩ := List.exists_cons_of_ne_nil hleft
    have hc := c.utf8Size_pos
    rw [hread, utf8Length_append, utf8Length_cons]
    dsimp only
    omega
  · refine ⟨read, spots.map (Spot.record counting), ⟨left, hread.symm⟩, rfl, ?_, ?_, ?_⟩
    · intro r hr
      exact (written_of_scans hscans counting r hr).kind_ne
    · rw [items_of_scans hscans hread, if_neg (by simpa using hleft), List.map_map]
      rfl
    · have hpart := hcut [] left rfl
      rw [List.append_nil, ← String.toList_ofList (l := read)] at hpart
      rw [tokenize_of_scans hpart, String.toList_ofList]
  · intro cut hprefix hlt
    rw [hread] at hprefix
    obtain ⟨u, rfl⟩ := prefix_of_utf8Length_le (List.prefix_append read left) hprefix hlt.le
    obtain ⟨v, huv⟩ := (List.prefix_append_right_inj read).1 hprefix
    have hu : u ≠ [] := by
      rintro rfl
      rw [List.append_nil] at hlt
      exact Nat.lt_irrefl _ hlt
    have hpart := hcut u v huv.symm
    rw [← String.toList_ofList (l := read ++ u)] at hpart
    exact tokenize_of_scans_of_ne_nil hpart String.toList_ofList hu counting

/-- An assignment that breaks off at a letter of two bytes, on a line of its own. -/
theorem error_ends_scannable_at_letter :
    (∃ words, (∀ r ∈ words, r.kind ≠ "Eof") ∧
      Language.imperative.items .physical "\nx :=\r\n é = 1" =
        words.map .ok ++ [.error ⟨⟨3, 1⟩, 8⟩] ∧
      Language.imperative.tokenize .physical "\nx :=\r\n " = .ok (words ++ [endRecord ⟨3, 1⟩])) ∧
    Language.imperative.tokenize .physical "\nx :=\r\n é" = .error ⟨⟨3, 1⟩, 8⟩ := by
  have h : Language.imperative.tokenize .physical "\nx :=\r\n é = 1" = .error ⟨⟨3, 1⟩, 8⟩ := by
    decide +kernel
  obtain ⟨-, ⟨read, words, hread, hlength, hkinds, hitems, htokens⟩, hcut⟩ :=
    error_ends_scannable _ _ _ _ h
  have hfront : "\nx :=\r\n ".toList <+: "\nx :=\r\n é = 1".toList := by decide
  have hbytes : utf8Length "\nx :=\r\n ".toList = 8 := by decide
  have hle := prefix_of_utf8Length_le hread hfront (by rw [hlength, hbytes])
  have hge := prefix_of_utf8Length_le hfront hread (by rw [hlength, hbytes])
  cases hle.sublist.antisymm hge.sublist
  rw [String.ofList_toList] at htokens
  refine ⟨⟨words, hkinds, hitems, htokens⟩, ?_⟩
  exact hcut "\nx :=\r\n é".toList (by decide) (by decide)

end Language

end Lookahead
