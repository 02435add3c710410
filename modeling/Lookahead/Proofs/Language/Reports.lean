import Lookahead.Proofs.Language.Counting
import Lookahead.Proofs.Report.Block
import Lookahead.Proofs.Run.Wording

/-!
Plain reports of both languages, and those in block style. Their kinds, lexemes and messages are
such that a report can be read back although little or nothing in it is escaped.
-/

namespace Lookahead.Language

variable {l : Language} {counting : LineCounting} {source : String} {records : List Token.Record}

theorem plain_name (k : l.Kind) : ∀ c ∈ (name k).toList, isBlank c = false ∧ c ≠ '(' := by
  have hall : (name k).toList.all fun c ↦ !isBlank c && c != '(' := by
    cases l <;> cases k <;> decide
  simpa using hall

theorem plain_complaints : ∀ complaint ∈ l.dialect.grammar.complaints,
    complaint.2.toList.head? = some complaint.1.initial ∧ '\n' ∉ complaint.2.toList := by
  cases l <;> decide

/-- Whatever a grammar says fills one line, and its first letter tells the code. -/
theorem plain_of_says {d : Diagnostic} (h : l.dialect.grammar.Says d.code d.message) : d.Plain := by
  cases h with
  | expected wanted seen hcode hmessage =>
    have hname (k : l.Kind) : '\n' ∉ (name k).toList := fun hmem ↦ by
      cases (plain_name k _ hmem).1
    have htext : s!"Expected {name wanted} but got '{name seen}'".toList = "Expected ".toList ++
        (name wanted).toList ++ " but got '".toList ++ (name seen).toList ++ ['\''] := by
      simp [toString]
    constructor
    · rw [hmessage, htext, hcode]
      rfl
    · rw [hmessage, htext]
      simp [hname]
  | listed hmem =>
    obtain ⟨hinitial, hline⟩ := plain_complaints _ hmem
    exact ⟨hinitial, hline⟩

theorem plain_of_record {r : Token.Record} {k : l.Kind} (hk : r.kind = name k)
    (hlexeme : ∀ c ∈ r.lexeme.toList, isBlank c = false) : r.Plain where
  kind := by
    rw [hk]
    exact plain_name k
  lexeme := hlexeme

/-- An analysis can be read back from its plain report. -/
theorem exists_plain_analysis (h : l.tokenize counting source = .ok records) :
    ∃ diagnostics, l.analyze? counting source = some (.ok ⟨l, records, diagnostics⟩) ∧
      Analysis.Plain ⟨l, records, diagnostics⟩ := by
  obtain ⟨spots, hscans, rfl⟩ := exists_scans_of_tokenize_ok h
  obtain ⟨t, ht, -⟩ := exists_run?_of_scans hscans counting
  have hanalysis := analyze?_of_run? (dialect_items_of_scans hscans counting) ht
  rw [List.map_append, List.map_map, List.map_singleton, record_endOfInput] at hanalysis
  refine ⟨t.diagnostics, hanalysis, ?_, ?_, ?_⟩
  · simp
  · intro r hr
    rcases List.mem_append.1 hr with hr | hr
    · have hwritten := written_of_scans hscans counting r hr
      obtain ⟨s, -, rfl⟩ := List.mem_map.1 hr
      exact plain_of_record rfl hwritten.clean
    · rw [List.mem_singleton.1 hr]
      have heof : name (TokenKind.eof : l.Kind) = "Eof" := by cases l <;> rfl
      exact plain_of_record heof.symm (by simp [endRecord])
  · intro d hd
    obtain ⟨r, hr, rfl⟩ := List.mem_map.1 hd
    exact plain_of_says (Parser.said_of_run? ht r (List.mem_filter.1 hr).1)

/-- Whatever two texts are analysed to, in one language or two, reports of it in block style are the
same only if it is the same. -/
theorem block_reports_lossless {l' : Language} {counting' : LineCounting} {source' : String}
    {records' : List Token.Record} (h : l.tokenize counting source = .ok records)
    (h' : l'.tokenize counting' source' = .ok records') :
    ∃ a a', l.analyze? counting source = some (.ok a) ∧
      l'.analyze? counting' source' = some (.ok a') ∧ a.language = l ∧ a'.language = l' ∧
      a.tokens = records ∧ a'.tokens = records' ∧
      ∀ showTokens, a.render .yaml showTokens = a'.render .yaml showTokens →
        a.Agrees showTokens a' := by
  obtain ⟨diagnostics, hanalysis, hplain⟩ := exists_plain_analysis h
  obtain ⟨diagnostics', hanalysis', hplain'⟩ := exists_plain_analysis h'
  exact ⟨_, _, hanalysis, hanalysis', rfl, rfl, rfl, rfl,
    fun _ hsame ↦ hplain.agrees_of_render_eq hplain' hsame⟩

/-- A tab for a blank makes no difference to the report of a sign without a number. -/
theorem block_reports_lossless_of_tab :
    ∃ a a', imperative.analyze? .nonBlank "x := -;" = some (.ok a) ∧
      imperative.analyze? .physical "x :=\t-;" = some (.ok a') ∧
      a.render .yaml true = a'.render .yaml true ∧ a.Agrees true a' := by
  let words : List Token.Record := [⟨"Identifier", "x", ⟨1, 1⟩⟩, ⟨"Assign", ":=", ⟨1, 4⟩⟩,
    ⟨"Sub", "-", ⟨1, 6⟩⟩, ⟨"Terminator", ";", ⟨1, 7⟩⟩, ⟨"Eof", "", ⟨1, 7⟩⟩]
  have hblank : imperative.tokenize .nonBlank "x := -;" = .ok words := by decide +kernel
  have htab : imperative.tokenize .physical "x :=\t-;" = .ok words := by decide +kernel
  have hsame : imperative.analyze? .nonBlank "x := -;" =
      imperative.analyze? .physical "x :=\t-;" := by decide +kernel
  obtain ⟨a, a', ha, ha', -, -, -, -, hlossless⟩ := block_reports_lossless hblank htab
  have heq : a = a' := by
    rw [ha, ha'] at hsame
    exact Except.ok.inj (Option.some.inj hsame)
  have hrender : a.render .yaml true = a'.render .yaml true := by rw [heq]
  exact ⟨a, a', ha, ha', hrender, hlossless true hrender⟩

end Lookahead.Language
