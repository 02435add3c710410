import Lookahead.Proofs.Language.Scanning
import Lookahead.Proofs.Run.Spacing
import Lookahead.Proofs.Text.Order

/-!
Tokens and diagnostics come in the order of their places. Only the end token can share a place, with
the token in front of it, and no two diagnostics stand as close together as these two.
-/

namespace Lookahead

theorem before_of_add_two_le {κ : Type} {words : List (Token κ)} {last : Token κ}
    (hwords : (words.map (·.position)).Pairwise Position.Before)
    (hlast : ∀ w ∈ words, ¬ last.position.Before w.position) {i j : Nat} {s t : Token κ}
    (hij : i + 2 ≤ j) (hs : (words ++ [last])[i]? = some s) (ht : (words ++ [last])[j]? = some t) :
    s.position.Before t.position := by
  have hbefore : ∀ {m n : Nat} {a b : Token κ}, m < n → words[m]? = some a → words[n]? = some b →
      a.position.Before b.position := by
    intro m n a b hmn ha hb
    obtain ⟨hm, rfl⟩ := List.getElem?_eq_some_iff.1 ha
    obtain ⟨hn, rfl⟩ := List.getElem?_eq_some_iff.1 hb
    exact List.pairwise_iff_getElem.1 (List.pairwise_map.1 hwords) m n hm hn hmn
  have hlength := (List.getElem?_eq_some_iff.1 ht).1
  rw [List.length_append, List.length_singleton] at hlength
  rw [List.getElem?_append_left (by omega)] at hs
  by_cases hj : j < words.length
  · rw [List.getElem?_append_left hj] at ht
    exact hbefore (by omega) hs ht
  · -- Between the two there is a token that the last one is not placed in front of.
    have hj : j = words.length := by omega
    subst hj
    rw [List.getElem?_concat_length] at ht
    cases ht
    have hnext := List.getElem?_eq_getElem (l := words) (i := i + 1) (by omega)
    exact (hbefore (Nat.lt_succ_self i) hs hnext).of_not_before (hlast _ (List.getElem_mem _))

namespace Language

variable {l : Language} {source : String} {spots : List (Spot l.Kind)} {left : List Char}

/-- A spot reaches into a line of the text. -/
theorem exists_lines_reach (h : l.dialect.table.Scans source.toList spots left) {s : Spot l.Kind}
    (hs : s ∈ spots) :
    ∃ closed last rest, lines s.reach = closed ++ [last] ∧ last ≠ [] ∧
      source.toList = s.reach ++ rest := by
  obtain ⟨rest, hrest, htakes⟩ := h.exists_takes hs
  have hbreak : '\n' ∉ s.lexeme := htakes.not_mem_of_isBlank l.skipsBlanks rfl
  obtain ⟨closed, last, hlines, hlast, -⟩ :=
    exists_lines_append_lexeme htakes.ne_nil hbreak s.before
  exact ⟨closed, last, rest, hlines, hlast, hrest⟩

theorem pairwise_place_reach (h : l.dialect.table.Scans source.toList spots left)
    (counting : LineCounting) :
    (spots.map fun s ↦ counting.place s.reach).Pairwise Position.Before := by
  rw [List.pairwise_map]
  apply h.pairwise_reach.imp_of_mem
  intro s s' hs hs' hfurther
  obtain ⟨v, hv, hreach⟩ := hfurther
  obtain ⟨closed, last, -, hlines, hlast, -⟩ := exists_lines_reach h hs
  obtain ⟨closed', last', -, hlines', hlast', -⟩ := exists_lines_reach h hs'
  rw [hreach] at hlines' ⊢
  exact counting.place_before_place_append hlast hlines hlast' hlines' hv

theorem not_place_before_reach (h : l.dialect.table.Scans source.toList spots left)
    (counting : LineCounting) {s : Spot l.Kind} (hs : s ∈ spots) :
    ¬ (counting.place source.toList).Before (counting.place s.reach) := by
  obtain ⟨closed, last, rest, hlines, hlast, hrest⟩ := exists_lines_reach h hs
  rw [hrest]
  exact counting.not_place_append_before hlast hlines rest

/-- Each token of a text is placed behind the one before it, the end token not in front of any, and
each diagnostic behind the one before it. -/
theorem positions_ascend (l : Language) (counting : LineCounting) (source : String)
    (records : List Token.Record) (h : l.tokenize counting source = .ok records) :
    ∃ words p ds, records = words ++ [endRecord p] ∧ (∀ r ∈ words, r.kind ≠ "Eof") ∧
      (words.map (·.position)).Pairwise Position.Before ∧ (∀ r ∈ words, ¬ p.Before r.position) ∧
      l.check? counting source = some (.ok ds) ∧
      (ds.map (·.position)).Pairwise Position.Before := by
  obtain ⟨spots, hscans, rfl⟩ := exists_scans_of_tokenize_ok h
  obtain ⟨t, ht, hcheck⟩ := exists_run?_of_scans hscans counting
  have hwords := pairwise_place_reach hscans counting
  refine ⟨spots.map (Spot.record counting), counting.place source.toList, t.diagnostics, rfl, ?_, ?_,
    ?_, hcheck, ?_⟩
  · intro r hr
    exact (written_of_scans hscans counting r hr).kind_ne
  · rw [List.map_map]
    exact hwords
  · intro r hr
    obtain ⟨s, hs, rfl⟩ := List.mem_map.1 hr
    exact not_place_before_reach hscans counting hs
  · rw [dialect_items_of_scans hscans] at ht
    apply Grammar.pairwise_diagnostics (g := l.dialect.grammar) ht
    intro i j s s' hij hs hs'
    refine before_of_add_two_le ?_ ?_ (by omega) hs hs'
    · rw [List.map_map]
      exact hwords
    · intro w hw
      obtain ⟨s, hs, rfl⟩ := List.mem_map.1 hw
      exact not_place_before_reach hscans counting hs

/-- A diagnostic at an end token that has the place of the number in front of it. -/
theorem positions_ascend_to_shared_end :
    ([⟨1, 3⟩, ⟨1, 5⟩, ⟨1, 8⟩, ⟨1, 10⟩, ⟨2, 1⟩, ⟨2, 4⟩, ⟨2, 6⟩, ⟨2, 7⟩] : List Position).Pairwise
        Position.Before ∧
      ¬ Position.Before ⟨2, 7⟩ ⟨2, 7⟩ ∧
      ∃ ds, Language.imperative.check? .nonBlank "\nvar x := ;\n\nx := (1\n" = some (.ok ds) ∧
        ds.map (·.position) = [⟨1, 10⟩, ⟨2, 7⟩] ∧
        (ds.map (·.position)).Pairwise Position.Before := by
  have htokens : Language.imperative.tokenize .nonBlank "\nvar x := ;\n\nx := (1\n" =
      .ok ([⟨"Var", "var", ⟨1, 3⟩⟩, ⟨"Identifier", "x", ⟨1, 5⟩⟩, ⟨"Assign", ":=", ⟨1, 8⟩⟩,
        ⟨"Terminator", ";", ⟨1, 10⟩⟩, ⟨"Identifier", "x", ⟨2, 1⟩⟩, ⟨"Assign", ":=", ⟨2, 4⟩⟩,
        ⟨"ParBegin", "(", ⟨2, 6⟩⟩, ⟨"Number", "1", ⟨2, 7⟩⟩] ++ [endRecord ⟨2, 7⟩]) := by
    decide +kernel
  have hplaces : (Language.imperative.check? .nonBlank "\nvar x := ;\n\nx := (1\n").map
      (·.map (·.map (·.position))) = some (.ok [⟨1, 10⟩, ⟨2, 7⟩]) := by decide +kernel
  obtain ⟨words, p, ds, hrecords, -, hwords, hend, hcheck, hds⟩ :=
    positions_ascend _ _ _ _ htokens
  obtain ⟨rfl, hlast⟩ := List.append_inj' hrecords rfl
  cases hlast
  rw [hcheck] at hplaces
  refine ⟨hwords, ?_, ds, hcheck, ?_, hds⟩
  · exact hend ⟨"Number", "1", ⟨2, 7⟩⟩ (by simp)
  · simpa [Except.map] using hplaces

end Language

end Lookahead
