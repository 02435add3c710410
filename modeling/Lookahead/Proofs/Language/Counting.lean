import Lookahead.Proofs.Language.Scanning
import Lookahead.Proofs.Run.Placement
import Lookahead.Proofs.Text.Order

/-!
Analyses of one text under the two ways of counting lines. They differ in the lines of tokens and
diagnostics alone, and there by the empty lines above.
-/

namespace Lookahead

/-- The same word at one place of a text, under both ways of counting. Where the text ends they may
disagree in any way. -/
structure Token.Recounted {κ : Type} (text : List Char) (ending : κ) (t t' : Token κ) : Prop where
  kind : t.kind = t'.kind
  lexeme : t.lexeme = t'.lexeme
  place : t.kind ≠ ending → t.position.Recounted text t'.position

namespace Language

variable {l : Language} {counting : LineCounting} {source : String} {spots : List (Spot l.Kind)}
  {read left : List Char}

theorem analyze?_eq (l : Language) (counting : LineCounting) (source : String) :
    l.analyze? counting source = (l.dialect.analyze? counting source).map (·.map l.report) := by
  cases l <;> rfl

theorem analyze?_of_scans_of_ne_nil (h : l.dialect.table.Scans source.toList spots left)
    (hr : source.toList = read ++ left) (hleft : left ≠ []) (counting : LineCounting) :
    l.analyze? counting source = some (.error ⟨counting.place read, utf8Length read⟩) := by
  rw [analyze?_eq, Dialect.analyze?, dialect_tokens_of_scans_of_ne_nil h hr hleft]
  rfl

theorem analyze?_of_run? {tokens : List (Token l.Kind)} {t : State l.Kind}
    (htokens : l.dialect.items counting source = tokens.map .ok)
    (h : l.dialect.parser.run? (l.dialect.items counting source) = some t) :
    l.analyze? counting source = some (.ok ⟨l, tokens.map Token.record, t.diagnostics⟩) := by
  rw [htokens] at h
  rw [analyze?_eq, Dialect.analyze?, Dialect.tokens, htokens, tokensOf_map_ok]
  dsimp only
  rw [Parser.parseTokens?, h]
  rfl

theorem analyze?_of_tokenize_error {error : LexError} (h : l.tokenize counting source = .error error) :
    l.analyze? counting source = some (.error error) := by
  obtain ⟨spots, read, left, hscans, hleft, hread, rfl⟩ := exists_scans_of_tokenize_error h
  exact analyze?_of_scans_of_ne_nil hscans hread hleft counting

theorem exists_analyze?_of_tokenize_ok {records : List Token.Record}
    (h : l.tokenize counting source = .ok records) :
    ∃ diagnostics, l.check? counting source = some (.ok diagnostics) ∧
      l.analyze? counting source = some (.ok ⟨l, records, diagnostics⟩) := by
  obtain ⟨spots, hscans, rfl⟩ := exists_scans_of_tokenize_ok h
  obtain ⟨t, ht, hcheck⟩ := exists_run?_of_scans hscans counting
  refine ⟨t.diagnostics, hcheck, ?_⟩
  rw [analyze?_of_run? (dialect_items_of_scans hscans counting) ht, List.map_append,
    List.map_map, List.map_singleton, record_endOfInput]
  rfl

/-- Analyses of a text by counting its filled lines and by counting all of them, which find the same
words and the same faults at the same places of the text. -/
structure Recounted (l : Language) (source : String) (a a' : Analysis) : Prop where
  tokens : List.Forall₂ (Token.Recounted source.toList "Eof") a.tokens a'.tokens
  wording : a.diagnostics.map Diagnostic.wording = a'.diagnostics.map Diagnostic.wording
  accepted : a.accepted = a'.accepted
  raises : ∃ t t', l.dialect.parser.run? (l.dialect.items .nonBlank source) = some t ∧
    l.dialect.parser.run? (l.dialect.items .physical source) = some t' ∧
    a.diagnostics = t.diagnostics ∧ a'.diagnostics = t'.diagnostics ∧
    List.Forall₂ (Raise.Matches (Token.Recounted source.toList TokenKind.eof))
      (t.raises.filter (·.recorded)) (t'.raises.filter (·.recorded))

theorem recounted_tokens (h : l.dialect.table.Scans source.toList spots []) :
    List.Forall₂ (Token.Recounted source.toList TokenKind.eof)
      (spots.map (Spot.token .nonBlank) ++
        [Token.endOfInput (LineCounting.nonBlank.place source.toList)])
      (spots.map (Spot.token .physical) ++
        [Token.endOfInput (LineCounting.physical.place source.toList)]) := by
  apply List.rel_append
  · rw [List.forall₂_map_left_iff, List.forall₂_map_right_iff, List.forall₂_same]
    intro s hs
    obtain ⟨rest, hrest, htakes⟩ := h.exists_takes hs
    have hbreak : '\n' ∉ s.lexeme := htakes.not_mem_of_isBlank l.skipsBlanks rfl
    refine ⟨rfl, rfl, fun _ ↦ ?_⟩
    rw [hrest]
    exact recounted_place htakes.ne_nil hbreak s.before rest
  · exact .cons ⟨rfl, rfl, fun hne ↦ absurd rfl hne⟩ .nil

theorem recounted_records {tokens tokens' : List (Token l.Kind)} {text : List Char}
    (h : List.Forall₂ (Token.Recounted text TokenKind.eof) tokens tokens') :
    List.Forall₂ (Token.Recounted text "Eof") (tokens.map Token.record)
      (tokens'.map Token.record) := by
  have heof : name (TokenKind.eof : l.Kind) = "Eof" := by cases l <;> rfl
  rw [List.forall₂_map_left_iff, List.forall₂_map_right_iff]
  apply h.imp
  intro t t' ht
  refine ⟨congrArg name ht.kind, ht.lexeme, fun hne ↦ ht.place fun hk ↦ hne ?_⟩
  rw [← heof, ← hk]
  rfl

theorem matches_raises (h : l.dialect.table.Scans source.toList spots []) {t t' : State l.Kind}
    (ht : l.dialect.parser.run? (l.dialect.items .nonBlank source) = some t)
    (ht' : l.dialect.parser.run? (l.dialect.items .physical source) = some t') :
    List.Forall₂ (Raise.Matches (Token.Recounted source.toList TokenKind.eof)) t.raises
      t'.raises := by
  have hitems : List.Forall₂ (Item.Matches (Token.Recounted source.toList TokenKind.eof))
      (l.dialect.items .nonBlank source) (l.dialect.items .physical source) := by
    rw [dialect_items_of_scans h, dialect_items_of_scans h, List.forall₂_map_left_iff,
      List.forall₂_map_right_iff]
    exact (recounted_tokens h).imp fun _ _ htoken ↦ .ok htoken
  have hne : l.dialect.items .nonBlank source ≠ [] := by simp [dialect_items_of_scans h]
  obtain ⟨u, hu, -, hraises⟩ := Parser.run?_matches (fun _ _ htoken ↦ htoken.kind) hitems hne ht
  rw [ht'] at hu
  cases hu
  exact hraises

/-- Whichever ways lines are counted, a text is accepted, faulty or not made of words. -/
theorem analyze?_accepted (l : Language) (source : String) (c c' : LineCounting) :
    (∃ e e', l.analyze? c source = some (.error e) ∧ l.analyze? c' source = some (.error e')) ∨
    ∃ a a', l.analyze? c source = some (.ok a) ∧ l.analyze? c' source = some (.ok a') ∧
      a.accepted = a'.accepted := by
  obtain ⟨spots, left, hscans⟩ := l.skipsBlanks.exists_scans source.toList
  obtain ⟨read, hread, -⟩ := hscans.exists_read l.skipsBlanks
  by_cases hleft : left = []
  · subst hleft
    right
    obtain ⟨t, ht, -⟩ := exists_run?_of_scans hscans .nonBlank
    obtain ⟨t', ht', -⟩ := exists_run?_of_scans hscans .physical
    have hwording := Parser.map_wording_eq (matches_raises hscans ht ht')
    have hempty : t.diagnostics.isEmpty = t'.diagnostics.isEmpty := by
      rw [← List.isEmpty_map (f := Diagnostic.wording), hwording, List.isEmpty_map]
    have hcount (c : LineCounting) : ∃ a, l.analyze? c source = some (.ok a) ∧
        a.accepted = t.diagnostics.isEmpty := by
      cases c with
      | nonBlank => exact ⟨_, analyze?_of_run? (dialect_items_of_scans hscans .nonBlank) ht, rfl⟩
      | physical =>
        exact ⟨_, analyze?_of_run? (dialect_items_of_scans hscans .physical) ht', hempty.symm⟩
    obtain ⟨a, ha, hacc⟩ := hcount c
    obtain ⟨a', ha', hacc'⟩ := hcount c'
    exact ⟨a, a', ha, ha', hacc.trans hacc'.symm⟩
  · left
    exact ⟨_, _, analyze?_of_scans_of_ne_nil hscans hread hleft c,
      analyze?_of_scans_of_ne_nil hscans hread hleft c'⟩

/-- Whichever way lines are counted, a text has an error at the same offset or else the same words
and the same faults, and apart from the end of the text both ways differ by the empty lines above. -/
theorem counting_moves_lines (l : Language) (source : String) :
    (∃ e e', l.analyze? .nonBlank source = some (.error e) ∧
      l.analyze? .physical source = some (.error e') ∧ e.offset = e'.offset) ∨
    ∃ a a', l.analyze? .nonBlank source = some (.ok a) ∧
      l.analyze? .physical source = some (.ok a') ∧ l.Recounted source a a' := by
  obtain ⟨spots, left, hscans⟩ := l.skipsBlanks.exists_scans source.toList
  obtain ⟨read, hread, -⟩ := hscans.exists_read l.skipsBlanks
  by_cases hleft : left = []
  · subst hleft
    right
    obtain ⟨t, ht, -⟩ := exists_run?_of_scans hscans .nonBlank
    obtain ⟨t', ht', -⟩ := exists_run?_of_scans hscans .physical
    have htokens := recounted_tokens hscans
    have hraises := matches_raises hscans ht ht'
    refine ⟨_, _, analyze?_of_run? (dialect_items_of_scans hscans .nonBlank) ht,
      analyze?_of_run? (dialect_items_of_scans hscans .physical) ht', ?_⟩
    have hwording := Parser.map_wording_eq hraises
    have hlength := congrArg List.length hwording
    rw [List.length_map, List.length_map] at hlength
    exact {
      tokens := recounted_records htokens
      wording := hwording
      accepted := by
        rw [Analysis.accepted, Analysis.accepted, Bool.eq_iff_iff]
        rw [List.isEmpty_iff_length_eq_zero, List.isEmpty_iff_length_eq_zero, hlength]
      raises := ⟨t, t', ht, ht', rfl, rfl, Raise.Matches.filter_recorded hraises⟩ }
  · left
    exact ⟨_, _, analyze?_of_scans_of_ne_nil hscans hread hleft .nonBlank,
      analyze?_of_scans_of_ne_nil hscans hread hleft .physical, rfl⟩

end Language

end Lookahead
