import Lookahead.Proofs.Language.Ranking
import Lookahead.Proofs.Token.Spots

/-!
Scanning in both languages. Their tables pass over blanks, so that the tokens of a text are told by
how it is read, and nothing but blanks is lost.
-/

namespace Lookahead

instance decidableEqExcept {ε α : Type} [DecidableEq ε] [DecidableEq α] :
    DecidableEq (Except ε α)
  | .ok a, .ok b => decidable_of_iff (a = b) ⟨congrArg _, Except.ok.inj⟩
  | .error e, .error f => decidable_of_iff (e = f) ⟨congrArg _, Except.error.inj⟩
  | .ok _, .error _ => .isFalse nofun
  | .error _, .ok _ => .isFalse nofun

theorem tokensOf_map_ok {κ : Type} (tokens : List (Token κ)) :
    tokensOf (tokens.map .ok) = .ok tokens := by
  obtain ⟨tokens', h, heq⟩ := exists_tokensOf_eq_ok (firstError_map_ok tokens)
  rw [h, List.map_injective_iff.2 (fun _ _ ↦ Except.ok.inj) heq]

theorem tokensOf_append_error {κ : Type} (tokens : List (Token κ)) (error : LexError) :
    tokensOf (tokens.map .ok ++ [.error error]) = .error error := by
  apply tokensOf_eq_error
  induction tokens with
  | nil => rfl
  | cons token tokens ih => exact ih

namespace PatternTable

/-- What is taken is taken by the first entry of its kind at the latest, and nothing is taken by the
entries before that one. -/
theorem exists_entry_of_matchPrefix? {κ : Type} [DecidableEq κ] {t : PatternTable κ}
    {text : List Char} {kind : κ} {n : Nat} (h : t.matchPrefix? text = some (kind, n)) :
    ∃ e ∈ t.entries, e.1 = kind ∧ e.2.stop? text = some n ∧
      ∀ d ∈ t.entries.takeWhile (·.1 ≠ kind), d.2.stop? text = none := by
  obtain ⟨before, e, after, hsplit, he, hnone⟩ := List.findSome?_eq_some_iff.1 h
  obtain ⟨stop, hstop, heq⟩ := Option.map_eq_some_iff.1 he
  cases heq
  refine ⟨e, by simp [hsplit], rfl, hstop, fun d hd ↦ ?_⟩
  refine Option.map_eq_none_iff.1 (hnone d ?_)
  rw [hsplit, List.takeWhile_append, List.takeWhile_cons_of_neg (by simp)] at hd
  split at hd
  · simpa using hd
  · exact (List.takeWhile_prefix _).subset hd

end PatternTable

namespace Imperative

theorem skipsBlanks : table.SkipsBlanks where
  first := by decide
  kinds := by decide
  tracks := by decide

/-- Wherever `!=` could be taken, `!` is taken before. -/
theorem not_takes_ne (lexeme rest : List Char) : ¬ table.Takes .ne lexeme rest := by
  intro h
  obtain ⟨e, he, hkind, hstop, hbefore⟩ := PatternTable.exists_entry_of_matchPrefix? h.matched
  have hne : ∀ e ∈ table.entries, e.1 = .ne → e.2 = .seq .textStart (.ofText ['!', '=']) := by
    decide
  have hnot : (Kind.not, Track.seq .textStart (.ofText ['!'])) ∈
      table.entries.takeWhile (·.1 ≠ Kind.ne) := by decide
  rw [hne e he hkind, Track.stop?_ofText (by simp)] at hstop
  have hnone := hbefore _ hnot
  rw [Track.stop?_ofText (by simp)] at hnone
  split at hstop
  · rename_i hlonger
    have hshorter : ['!'] <+: lexeme ++ rest := List.IsPrefix.trans (by decide) hlonger
    rw [if_pos hshorter] at hnone
    cases hnone
  · cases hstop

end Imperative

theorem Imperative.name_not_mem (kind : Imperative.Kind) (heof : kind ≠ .eof)
    (hignore : kind ≠ .ignore) (hne : kind ≠ .ne) : name kind ∉ ["Eof", "Ignore", "Ne"] := by
  revert heof hignore hne
  cases kind <;> decide

theorem Boolean.name_not_mem (kind : Boolean.Kind) (heof : kind ≠ .eof) (hignore : kind ≠ .ignore) :
    name kind ∉ ["Eof", "Ignore", "Ne"] := by
  revert heof hignore
  cases kind <;> decide

theorem Boolean.skipsBlanks : table.SkipsBlanks where
  first := by decide
  kinds := by decide
  tracks := by decide

def Spot.record {κ : Type} [TokenKind κ] (counting : LineCounting) (s : Spot κ) : Token.Record :=
  (s.token counting).record

/-- What the scanner of a language delivers of a text. -/
def Language.items (l : Language) (counting : LineCounting) (source : String) :
    List (Except LexError Token.Record) :=
  (l.dialect.items counting source).map (·.map Token.record)

namespace Language

theorem skipsBlanks (l : Language) : l.dialect.table.SkipsBlanks := by
  cases l with
  | imperative => exact Imperative.skipsBlanks
  | boolean => exact Boolean.skipsBlanks

theorem tokenize_eq (l : Language) (counting : LineCounting) (source : String) :
    l.tokenize counting source = (l.dialect.tokens counting source).map (·.map Token.record) := by
  cases l <;> rfl

theorem check?_eq (l : Language) (counting : LineCounting) (source : String) :
    l.check? counting source = l.dialect.check? counting source := by
  cases l <;> rfl

def endRecord (p : Position) : Token.Record := ⟨"Eof", "", p⟩

theorem record_endOfInput (l : Language) (p : Position) :
    (Token.endOfInput p : Token l.Kind).record = endRecord p := by
  cases l <;> rfl

variable {l : Language} {counting : LineCounting} {source : String} {spots : List (Spot l.Kind)}
  {read left : List Char}

theorem items_of_scans (h : l.dialect.table.Scans source.toList spots left)
    (hr : source.toList = read ++ left) (counting : LineCounting) :
    l.items counting source = spots.map (fun s ↦ .ok (s.record counting)) ++
      [if left.isEmpty then .ok (endRecord (counting.place read))
       else .error ⟨counting.place read, utf8Length read⟩] := by
  rw [items, Dialect.items_of_scans l.skipsBlanks h hr counting, List.map_append, List.map_map,
    List.map_singleton]
  unfold lastItem
  split
  · simp only [Except.map, record_endOfInput]
    rfl
  · rfl

/-- A text that is read to its end has the tokens that are read, and an end token. -/
theorem dialect_items_of_scans (h : l.dialect.table.Scans source.toList spots [])
    (counting : LineCounting) :
    l.dialect.items counting source =
      (spots.map (Spot.token counting) ++
        [Token.endOfInput (counting.place source.toList)]).map .ok := by
  rw [Dialect.items_of_scans l.skipsBlanks h (List.append_nil _).symm counting]
  simp [lastItem]

/-- A text that is read to its end is parsed to an end. -/
theorem exists_run?_of_scans (h : l.dialect.table.Scans source.toList spots [])
    (counting : LineCounting) :
    ∃ t, l.dialect.parser.run? (l.dialect.items counting source) = some t ∧
      l.check? counting source = some (.ok t.diagnostics) := by
  obtain ⟨r, hr⟩ := l.exists_ranked
  have hitems := dialect_items_of_scans h counting
  have hend : (.ok (.endOfInput (counting.place source.toList)) : Item l.Kind) ∈
      l.dialect.items counting source := by
    rw [hitems]
    exact List.mem_map_of_mem (List.mem_append_right _ List.mem_cons_self)
  obtain ⟨t, ht⟩ := Parser.exists_run?_eq_some (p := l.dialect.parser) hr ⟨_, hend, rfl⟩
  refine ⟨t, ht, ?_⟩
  rw [hitems] at ht
  rw [check?_eq, Dialect.check?, hitems, Parser.parse?_map_ok ht]

theorem tokenize_of_scans (h : l.dialect.table.Scans source.toList spots [])
    (counting : LineCounting) :
    l.tokenize counting source =
      .ok (spots.map (Spot.record counting) ++ [endRecord (counting.place source.toList)]) := by
  rw [tokenize_eq, Dialect.tokens, dialect_items_of_scans h, tokensOf_map_ok, Except.map,
    List.map_append, List.map_singleton, record_endOfInput, List.map_map]
  rfl

theorem dialect_tokens_of_scans_of_ne_nil (h : l.dialect.table.Scans source.toList spots left)
    (hr : source.toList = read ++ left) (hleft : left ≠ []) (counting : LineCounting) :
    l.dialect.tokens counting source = .error ⟨counting.place read, utf8Length read⟩ := by
  have hitems : l.dialect.items counting source = (spots.map (Spot.token counting)).map .ok ++
      [.error ⟨counting.place read, utf8Length read⟩] := by
    rw [Dialect.items_of_scans l.skipsBlanks h hr counting, List.map_map]
    simp [lastItem, hleft]
  rw [Dialect.tokens, hitems, tokensOf_append_error]

theorem tokenize_of_scans_of_ne_nil (h : l.dialect.table.Scans source.toList spots left)
    (hr : source.toList = read ++ left) (hleft : left ≠ []) (counting : LineCounting) :
    l.tokenize counting source = .error ⟨counting.place read, utf8Length read⟩ := by
  rw [tokenize_eq, dialect_tokens_of_scans_of_ne_nil h hr hleft]
  rfl

theorem exists_scans_of_tokenize_ok {records : List Token.Record}
    (h : l.tokenize counting source = .ok records) :
    ∃ spots, l.dialect.table.Scans source.toList spots [] ∧
      records = spots.map (Spot.record counting) ++ [endRecord (counting.place source.toList)] := by
  obtain ⟨spots, left, hscans⟩ := l.skipsBlanks.exists_scans source.toList
  obtain ⟨read, hread, -⟩ := hscans.exists_read l.skipsBlanks
  by_cases hleft : left = []
  · subst hleft
    rw [tokenize_of_scans hscans] at h
    exact ⟨spots, hscans, (Except.ok.inj h).symm⟩
  · rw [tokenize_of_scans_of_ne_nil hscans hread hleft] at h
    cases h

theorem exists_scans_of_tokenize_error {error : LexError}
    (h : l.tokenize counting source = .error error) :
    ∃ spots read left, l.dialect.table.Scans source.toList spots left ∧ left ≠ [] ∧
      source.toList = read ++ left ∧ error = ⟨counting.place read, utf8Length read⟩ := by
  obtain ⟨spots, left, hscans⟩ := l.skipsBlanks.exists_scans source.toList
  obtain ⟨read, hread, -⟩ := hscans.exists_read l.skipsBlanks
  by_cases hleft : left = []
  · subst hleft
    rw [tokenize_of_scans hscans] at h
    cases h
  · rw [tokenize_of_scans_of_ne_nil hscans hread hleft] at h
    exact ⟨spots, read, left, hscans, hleft, hread, (Except.error.inj h).symm⟩

/-- The kind of a token is not passed over, and neither `!=` nor the end is taken from a text. -/
theorem name_not_mem_of_takes {kind : l.Kind} {lexeme rest : List Char}
    (h : l.dialect.table.Takes kind lexeme rest) : name kind ∉ ["Eof", "Ignore", "Ne"] := by
  have heof := (h.clean l.skipsBlanks).1
  have hignore := h.kind_ne
  cases l with
  | imperative =>
    have hne : kind ≠ Imperative.Kind.ne := by
      rintro rfl
      exact Imperative.not_takes_ne lexeme rest h
    exact Imperative.name_not_mem kind heof hignore hne
  | boolean => exact Boolean.name_not_mem kind heof hignore

end Language

/-- A token that was written: none of the end, of anything passed over or of `!=`, with a lexeme that
is not empty and has no blank in it. -/
structure Token.Record.Written (r : Token.Record) : Prop where
  kind : r.kind ∉ ["Eof", "Ignore", "Ne"]
  ne_empty : r.lexeme ≠ ""
  clean : ∀ c ∈ r.lexeme.toList, isBlank c = false

theorem Token.Record.Written.kind_ne {r : Token.Record} (h : r.Written) : r.kind ≠ "Eof" := by
  intro hkind
  apply h.kind
  rw [hkind]
  exact List.mem_cons_self

namespace Language

variable {l : Language}

theorem written_of_takes {s : Spot l.Kind} {rest : List Char}
    (h : l.dialect.table.Takes s.kind s.lexeme rest) (counting : LineCounting) :
    (s.record counting).Written where
  kind := name_not_mem_of_takes h
  ne_empty := by simpa [Spot.record, Token.record, Spot.token] using h.ne_nil
  clean := by simpa [Spot.record, Token.record, Spot.token] using (h.clean l.skipsBlanks).2

theorem written_of_scans {text left : List Char} {spots : List (Spot l.Kind)}
    (h : l.dialect.table.Scans text spots left) (counting : LineCounting) :
    ∀ r ∈ spots.map (Spot.record counting), r.Written := by
  intro r hr
  obtain ⟨s, hs, rfl⟩ := List.mem_map.1 hr
  obtain ⟨rest, -, htakes⟩ := h.exists_takes hs
  exact written_of_takes htakes counting

theorem flatMap_lexeme_record (spots : List (Spot l.Kind)) (counting : LineCounting) :
    (spots.map (Spot.record counting)).flatMap (·.lexeme.toList) =
      (spots.map Spot.lexeme).flatten := by
  simp [List.flatMap_def, Function.comp_def, Spot.record, Token.record, Spot.token]

/-- The tokens of a text are written tokens and an end token, and written one after another they are
the text without its blanks. If there is an error, so are the tokens delivered before it and the text
in front of it. -/
theorem lexemes_are_text (l : Language) (counting : LineCounting) (source : String) :
    match l.tokenize counting source with
    | .ok records =>
      (∃ words p, records = words ++ [endRecord p] ∧ ∀ r ∈ words, r.Written) ∧
        records.flatMap (·.lexeme.toList) = source.toList.filter fun c ↦ !isBlank c
    | .error error =>
      ∃ (words : List Token.Record) (read left : List Char),
        l.items counting source = words.map .ok ++ [.error error] ∧
        (∀ r ∈ words, r.Written) ∧ source.toList = read ++ left ∧ utf8Length read = error.offset ∧
        words.flatMap (·.lexeme.toList) = read.filter fun c ↦ !isBlank c := by
  obtain ⟨spots, left, hscans⟩ := l.skipsBlanks.exists_scans source.toList
  obtain ⟨read, hread, hlexemes⟩ := hscans.exists_read l.skipsBlanks
  rw [← flatMap_lexeme_record spots counting] at hlexemes
  have hwritten : ∀ r ∈ spots.map (Spot.record counting), r.Written := by
    intro r hr
    obtain ⟨s, hs, rfl⟩ := List.mem_map.1 hr
    obtain ⟨rest, -, htakes⟩ := hscans.exists_takes hs
    exact written_of_takes htakes counting
  by_cases hleft : left = []
  · subst hleft
    rw [List.append_nil] at hread
    rw [tokenize_of_scans hscans]
    refine ⟨⟨_, _, rfl, hwritten⟩, ?_⟩
    rw [List.flatMap_append, hlexemes, hread]
    exact List.append_nil _
  · rw [tokenize_of_scans_of_ne_nil hscans hread hleft]
    refine ⟨spots.map (Spot.record counting), read, left, ?_, hwritten, hread, rfl, hlexemes⟩
    rw [items_of_scans hscans hread, if_neg (by simpa using hleft), List.map_map]
    rfl

end Language

end Lookahead
