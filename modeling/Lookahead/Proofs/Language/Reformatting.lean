import Lookahead.Proofs.Language.Scanning
import Lookahead.Proofs.Run.Placement
import Lookahead.Proofs.Text.Lines
import Lookahead.Proofs.Token.Apart

/-!
Blanks say nothing but where tokens end. Texts with blanks between them are scanned apart from each
other, and a text that is written anew with other blanks has the same tokens and the same complaints.
-/

namespace Lookahead

namespace Token.Record

/-- What a token says besides its place. -/
def word (r : Token.Record) : String × String := (r.kind, r.lexeme)

/-- The same token a number of lines further down. -/
def lowered (n : Nat) (r : Token.Record) : Token.Record :=
  { r with position := ⟨r.position.line + n, r.position.column⟩ }

end Token.Record

namespace Language

variable {l : Language} {counting : LineCounting} {a b w source source' : String}
  {spots spots' : List (Spot l.Kind)} {left : List Char}

theorem scans_append (ha : l.dialect.table.Scans a.toList spots [])
    (hb : l.dialect.table.Scans b.toList spots' left) (hw : w ≠ "")
    (hblank : ∀ c ∈ w.toList, isBlank c) :
    l.dialect.table.Scans (a ++ w ++ b).toList
      (spots ++ spots'.map (.shift (a.toList ++ w.toList))) left := by
  obtain ⟨c, v, hcv⟩ := List.exists_cons_of_ne_nil (mt String.toList_eq_nil_iff.1 hw)
  have hc : isBlank c := hblank c (by simp [hcv])
  have hbehind := PatternTable.Scans.blanks hblank hb
  rw [hcv, List.cons_append] at hbehind
  have hscans := ha.append l.skipsBlanks hc hbehind
  simpa [hcv] using hscans

theorem scans_append_of_ne_nil (ha : l.dialect.table.Scans a.toList spots left) (hleft : left ≠ [])
    (hw : w ≠ "") (hblank : ∀ c ∈ w.toList, isBlank c) (b : String) :
    l.dialect.table.Scans (a ++ w ++ b).toList spots (left ++ (w.toList ++ b.toList)) := by
  obtain ⟨c, v, hcv⟩ := List.exists_cons_of_ne_nil (mt String.toList_eq_nil_iff.1 hw)
  have hc : isBlank c := hblank c (by simp [hcv])
  have hscans := ha.append_of_ne_nil l.skipsBlanks hleft hc (v ++ b.toList)
  simpa [hcv] using hscans

/-- Below a text that ends with a line break, what is read is placed lower by its height. -/
theorem record_shift_break (ha : l.dialect.table.Scans b.toList spots left) {s : Spot l.Kind}
    (hs : s ∈ spots) (counting : LineCounting) (above : List Char) :
    (s.shift (above ++ ['\n'])).record counting =
      (s.record counting).lowered (counting.height above) := by
  obtain ⟨rest, -, htakes⟩ := ha.exists_takes hs
  have hbreak : '\n' ∉ s.lexeme := htakes.not_mem_of_isBlank l.skipsBlanks rfl
  have hplace := counting.place_below htakes.ne_nil hbreak above s.before
  simp only [Spot.record, Spot.token, Token.record, Token.Record.lowered, Spot.reach_shift,
    List.append_assoc, List.singleton_append]
  rw [Spot.reach, hplace]
  rfl

/-- Two texts with blanks between them: the tokens are those of one and then those of the other, and
an error in either is an error of the whole. A single line break moves the tokens behind it down by
the height of the text in front of it. -/
theorem tokenize_append (l : Language) (counting : LineCounting) (a w b : String) (hw : w ≠ "")
    (hblank : ∀ c ∈ w.toList, isBlank c) :
    (∀ ra rb, l.tokenize counting a = .ok ra → l.tokenize counting b = .ok rb →
      ∃ r, l.tokenize counting (a ++ w ++ b) = .ok r ∧
        r.map Token.Record.word = ra.dropLast.map Token.Record.word ++ rb.map Token.Record.word ∧
        (w = "\n" → ∃ p, r = ra.dropLast ++
          rb.dropLast.map (.lowered (counting.height a.toList)) ++ [endRecord p])) ∧
    (∀ e, l.tokenize counting a = .error e → l.tokenize counting (a ++ w ++ b) = .error e) ∧
    ∀ ra e, l.tokenize counting a = .ok ra → l.tokenize counting b = .error e →
      ∃ e', l.tokenize counting (a ++ w ++ b) = .error e' ∧
        e'.offset = utf8Length a.toList + utf8Length w.toList + e.offset := by
  refine ⟨?_, ?_, ?_⟩
  · intro ra rb hra hrb
    obtain ⟨spots, ha, rfl⟩ := exists_scans_of_tokenize_ok hra
    obtain ⟨spots', hb, rfl⟩ := exists_scans_of_tokenize_ok hrb
    refine ⟨_, tokenize_of_scans (scans_append ha hb hw hblank) counting, ?_, ?_⟩
    · simp only [List.map_append, List.map_map, List.dropLast_concat, List.append_assoc]
      rfl
    · rintro rfl
      refine ⟨_, congrArg (· ++ _) ?_⟩
      rw [List.map_append, List.dropLast_concat, List.dropLast_concat, List.map_map, List.map_map]
      refine congrArg _ (List.map_congr_left fun s hs ↦ ?_)
      exact record_shift_break hb hs counting a.toList
  · intro e he
    obtain ⟨spots, read, left, ha, hleft, hread, rfl⟩ := exists_scans_of_tokenize_error he
    have hscans := scans_append_of_ne_nil ha hleft hw hblank b
    have hwhole : (a ++ w ++ b).toList = read ++ (left ++ (w.toList ++ b.toList)) := by
      simp [hread]
    exact tokenize_of_scans_of_ne_nil hscans hwhole (by simp [hleft]) counting
  · intro ra e hra he
    obtain ⟨spots, ha, -⟩ := exists_scans_of_tokenize_ok hra
    obtain ⟨spots', read, left, hb, hleft, hread, rfl⟩ := exists_scans_of_tokenize_error he
    have hwhole : (a ++ w ++ b).toList = (a.toList ++ w.toList ++ read) ++ left := by
      simp [hread]
    refine ⟨_, tokenize_of_scans_of_ne_nil (scans_append ha hb hw hblank) hwhole hleft counting, ?_⟩
    simp only [utf8Length_append]

/-- A line break between two texts, an error in the first and an error in the second. -/
theorem tokenize_append_lines :
    (∃ p, Language.boolean.tokenize .physical ("not\r\n" ++ "\n" ++ "x or 1f") =
      .ok ([⟨"Not", "not", ⟨1, 3⟩⟩, ⟨"Identifier", "x", ⟨3, 1⟩⟩, ⟨"Or", "or", ⟨3, 4⟩⟩,
        ⟨"Number", "1f", ⟨3, 7⟩⟩] ++ [endRecord p])) ∧
    Language.imperative.tokenize .nonBlank ("\n:" ++ " " ++ "=") = .error ⟨⟨1, 1⟩, 1⟩ ∧
    ∃ e, Language.imperative.tokenize .nonBlank ("x\n\n" ++ " \t" ++ "y !=") = .error e ∧
      e.offset = 8 := by
  have hnot : Language.boolean.tokenize .physical "not\r\n" =
      .ok [⟨"Not", "not", ⟨1, 3⟩⟩, endRecord ⟨2, 1⟩] := by decide +kernel
  have hunion : Language.boolean.tokenize .physical "x or 1f" =
      .ok [⟨"Identifier", "x", ⟨1, 1⟩⟩, ⟨"Or", "or", ⟨1, 4⟩⟩, ⟨"Number", "1f", ⟨1, 7⟩⟩,
        endRecord ⟨1, 7⟩] := by decide +kernel
  have hcolon : Language.imperative.tokenize .nonBlank "\n:" = .error ⟨⟨1, 1⟩, 1⟩ := by
    decide +kernel
  have hname : Language.imperative.tokenize .nonBlank "x\n\n" =
      .ok [⟨"Identifier", "x", ⟨1, 1⟩⟩, endRecord ⟨1, 1⟩] := by decide +kernel
  have hne : Language.imperative.tokenize .nonBlank "y !=" = .error ⟨⟨1, 3⟩, 3⟩ := by
    decide +kernel
  refine ⟨?_, ?_, ?_⟩
  · obtain ⟨hok, -, -⟩ :=
      tokenize_append .boolean .physical "not\r\n" "\n" "x or 1f" (by simp)
        (by simp [isBlank, blankChars])
    obtain ⟨r, hr, -, hlines⟩ := hok _ _ hnot hunion
    obtain ⟨p, rfl⟩ := hlines rfl
    exact ⟨p, hr⟩
  · obtain ⟨-, herror, -⟩ :=
      tokenize_append .imperative .nonBlank "\n:" " " "=" (by simp) (by simp [isBlank, blankChars])
    exact herror _ hcolon
  · obtain ⟨-, -, herror⟩ :=
      tokenize_append .imperative .nonBlank "x\n\n" " \t" "y !=" (by simp)
        (by simp [isBlank, blankChars])
    obtain ⟨e, he, hoffset⟩ := herror _ _ hname hne
    exact ⟨e, he, hoffset⟩

/-! ### Lexemes written anew -/

/-- Blanks in front of `n` lexemes and behind each of them. Only behind the last one there may be
none. -/
structure Separators (n : Nat) (lead : String) (gaps : List String) : Prop where
  length : gaps.length = n
  lead : ∀ c ∈ lead.toList, isBlank c
  blank : ∀ g ∈ gaps, ∀ c ∈ g.toList, isBlank c
  ne_empty : ∀ g ∈ gaps.dropLast, g ≠ ""

/-- The lexemes with blanks in front of them and behind each of them. -/
def respaced (lead : String) (lexemes gaps : List String) : String :=
  lead ++ String.join (List.zipWith (· ++ ·) lexemes gaps)

theorem toList_respaced (lead : String) (lexemes gaps : List String) :
    (respaced lead lexemes gaps).toList = lead.toList ++
      (List.zipWith (· ++ ·) (lexemes.map String.toList) (gaps.map String.toList)).flatten := by
  rw [respaced, String.toList_append, String.toList_join, List.zipWith_map, List.flatMap_def,
    List.map_zipWith]
  simp only [String.toList_append]

/-- What was read is read again, whatever the lexemes stood next to before. -/
theorem exists_scans_respaced {lead : String} {gaps : List String}
    (h : l.dialect.table.Scans source.toList spots [])
    (hgaps : Separators spots.length lead gaps) (counting : LineCounting) :
    ∃ spots', l.dialect.table.Scans
        (respaced lead ((spots.map (Spot.record counting)).map (·.lexeme)) gaps).toList spots' [] ∧
      spots'.map (fun s ↦ (s.kind, s.lexeme)) = spots.map fun s ↦ (s.kind, s.lexeme) := by
  have hwords : ∀ w ∈ spots.map fun s ↦ (s.kind, s.lexeme), l.dialect.table.Takes w.1 w.2 [] := by
    intro w hw
    obtain ⟨s, hs, rfl⟩ := List.mem_map.1 hw
    obtain ⟨rest, -, htakes⟩ := h.exists_takes hs
    exact htakes.alone l.skipsBlanks
  have hlength : (gaps.map String.toList).length =
      (spots.map fun s ↦ (s.kind, s.lexeme)).length := by
    rw [List.length_map, List.length_map, hgaps.length]
  have hblank : ∀ g ∈ gaps.map String.toList, ∀ c ∈ g, isBlank c := by
    rw [List.forall_mem_map]
    exact hgaps.blank
  have hne : ∀ g ∈ (gaps.map String.toList).dropLast, g ≠ [] := by
    rw [← List.map_dropLast, List.forall_mem_map]
    exact fun g hg ↦ mt String.toList_eq_nil_iff.1 (hgaps.ne_empty g hg)
  obtain ⟨spots', hscans, hspots⟩ :=
    l.skipsBlanks.exists_scans_zipWith hwords hlength hblank hne
  have hlexemes : ((spots.map (Spot.record counting)).map (·.lexeme)).map String.toList =
      (spots.map fun s ↦ (s.kind, s.lexeme)).map Prod.snd := by
    simp [Function.comp_def, Spot.record, Token.record, Spot.token]
  refine ⟨spots'.map (.shift lead.toList), ?_, ?_⟩
  · rw [toList_respaced, hlexemes]
    exact PatternTable.Scans.blanks hgaps.lead hscans
  · rw [List.map_map]
    exact hspots

/-- Texts in which tokens of the same kinds are read get diagnostics of the same wording. -/
theorem check?_of_scans (h : l.dialect.table.Scans source.toList spots [])
    (h' : l.dialect.table.Scans source'.toList spots' [])
    (hkinds : spots.map Spot.kind = spots'.map Spot.kind) (counting counting' : LineCounting) :
    ∃ ds ds', l.check? counting source = some (.ok ds) ∧
      l.check? counting' source' = some (.ok ds') ∧
      ds.map Diagnostic.wording = ds'.map Diagnostic.wording := by
  obtain ⟨t, ht, hcheck⟩ := exists_run?_of_scans h counting
  obtain ⟨t', ht', hcheck'⟩ := exists_run?_of_scans h' counting'
  rw [dialect_items_of_scans h] at ht
  rw [dialect_items_of_scans h'] at ht'
  have hsame : (spots.map (Spot.token counting) ++
        [Token.endOfInput (counting.place source.toList)]).map Token.kind =
      (spots'.map (Spot.token counting') ++
        [Token.endOfInput (counting'.place source'.toList)]).map Token.kind := by
    rw [List.map_append, List.map_append, List.map_map, List.map_map]
    exact congrArg (· ++ [TokenKind.eof]) hkinds
  obtain ⟨u, hu, hwording⟩ := Parser.run?_of_kinds hsame (by simp) ht
  rw [ht'] at hu
  cases hu
  exact ⟨t.diagnostics, t'.diagnostics, hcheck, hcheck', hwording⟩

/-- Written anew with other blanks, a text has the same tokens and the same complaints. -/
theorem respaced_keeps_words (l : Language) (counting counting' : LineCounting)
    (source lead : String) (gaps : List String) (records : List Token.Record)
    (h : l.tokenize counting source = .ok records)
    (hgaps : Separators records.dropLast.length lead gaps) :
    ∃ records' ds ds',
      l.tokenize counting' (respaced lead (records.dropLast.map (·.lexeme)) gaps) = .ok records' ∧
      records'.map Token.Record.word = records.map Token.Record.word ∧
      l.check? counting source = some (.ok ds) ∧
      l.check? counting' (respaced lead (records.dropLast.map (·.lexeme)) gaps) = some (.ok ds') ∧
      ds'.map Diagnostic.wording = ds.map Diagnostic.wording := by
  obtain ⟨spots, hscans, rfl⟩ := exists_scans_of_tokenize_ok h
  rw [List.dropLast_concat] at hgaps ⊢
  rw [List.length_map] at hgaps
  obtain ⟨spots', hscans', hwords⟩ := exists_scans_respaced hscans hgaps counting
  have hkinds : spots'.map Spot.kind = spots.map Spot.kind := by
    simpa [Function.comp_def] using congrArg (List.map Prod.fst) hwords
  obtain ⟨ds', ds, hds', hds, hwording⟩ := check?_of_scans hscans' hscans hkinds counting' counting
  have hrecords : (spots'.map (Spot.record counting')).map Token.Record.word =
      (spots.map (Spot.record counting)).map Token.Record.word := by
    have hnamed := congrArg (List.map fun w ↦ (name w.1, String.ofList w.2)) hwords
    rw [List.map_map, List.map_map] at hnamed ⊢
    exact hnamed
  refine ⟨_, ds, ds', tokenize_of_scans hscans' counting', ?_, hds, hds', hwording⟩
  rw [List.map_append, List.map_append, hrecords]
  rfl

/-- Words and numbers that stand right next to each other, written apart. -/
theorem respaced_keeps_words_glued :
    ∃ records, Language.imperative.tokenize .physical "\ndo n e\r\n-\t0 0 7" = .ok records ∧
      records.map Token.Record.word = [("Do", "do"), ("Identifier", "n"), ("Identifier", "e"),
        ("Sub", "-"), ("Number", "0"), ("Number", "0"), ("Number", "7"), ("Eof", "")] ∧
      (Language.imperative.check? .physical "\ndo n e\r\n-\t0 0 7").map
          (·.map (·.map Diagnostic.wording)) =
        some (.ok [(.expected, "Expected Terminator but got 'Number'")]) := by
  have hglued : Language.imperative.tokenize .nonBlank "done-007" =
      .ok [⟨"Do", "do", ⟨1, 2⟩⟩, ⟨"Identifier", "n", ⟨1, 3⟩⟩, ⟨"Identifier", "e", ⟨1, 4⟩⟩,
        ⟨"Sub", "-", ⟨1, 5⟩⟩, ⟨"Number", "0", ⟨1, 6⟩⟩, ⟨"Number", "0", ⟨1, 7⟩⟩,
        ⟨"Number", "7", ⟨1, 8⟩⟩, endRecord ⟨1, 8⟩] := by decide +kernel
  have hchecked : (Language.imperative.check? .nonBlank "done-007").map
      (·.map (·.map Diagnostic.wording)) =
        some (.ok [(.expected, "Expected Terminator but got 'Number'")]) := by decide +kernel
  have hgaps : Separators 7 "\n" [" ", " ", "\r\n", "\t", " ", " ", ""] :=
    ⟨rfl, by simp [isBlank, blankChars], by simp [isBlank, blankChars], by simp⟩
  obtain ⟨records, ds, ds', hrecords, hwords, hds, hds', hwording⟩ :=
    respaced_keeps_words .imperative .nonBlank .physical "done-007" "\n"
      [" ", " ", "\r\n", "\t", " ", " ", ""] _ hglued hgaps
  have htext : respaced "\n" ["do", "n", "e", "-", "0", "0", "7"]
      [" ", " ", "\r\n", "\t", " ", " ", ""] = "\ndo n e\r\n-\t0 0 7" := by decide
  refine ⟨records, htext ▸ hrecords, hwords, ?_⟩
  rw [← hchecked, hds, ← htext]
  refine (congrArg _ hds').trans ?_
  simp only [Option.map_some, Except.map, hwording]

end Language

end Lookahead
