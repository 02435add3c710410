import Lookahead.Proofs.Language.Scanning
import Lookahead.Proofs.Language.Streaming
import Lookahead.Proofs.Run.Log

/-!
The log of checking a text: what it says about the scan, about the diagnostics and about how far the
parse has come. Main statement: the log of an analysis is the same, with the scan in front.
-/

namespace Lookahead

variable {κ : Type} [DecidableEq κ] [TokenKind κ]

theorem Scanner.exists_pulls_drainFrom (pieces : List (κ × List Char)) (s : Scanner κ) :
    ∃ (tokens : List (Token κ)) (u : Scanner κ),
      (drainFrom pieces s).1 = tokens.map (fun t ↦ ⟨.ok t, []⟩) ++ [u.pullLast.1] ∧
      u.left = s.left ∧ u.offset = s.offset + utf8Length (joined pieces) ∧
      u.emitted = s.emitted + tokens.length := by
  induction pieces generalizing s with
  | nil => exact ⟨[], s, rfl, rfl, rfl, rfl⟩
  | cons piece pieces ih =>
    obtain ⟨kind, lexeme⟩ := piece
    have hjoined : utf8Length (joined ((kind, lexeme) :: pieces)) =
        utf8Length lexeme + utf8Length (joined pieces) := by
      simp [joined, utf8Length_append]
    rw [hjoined, ← Nat.add_assoc]
    unfold drainFrom
    split
    · exact ih (s.skip lexeme)
    · obtain ⟨tokens, u, hpulls, hleft, hoffset, hemitted⟩ := ih (s.pullToken kind lexeme).2
      refine ⟨⟨kind, String.ofList lexeme, (s.skip lexeme).index.position⟩ :: tokens, u, ?_, hleft,
        hoffset, ?_⟩
      · simp only [hpulls]
        rfl
      · rw [hemitted, List.length_cons, Nat.add_comm tokens.length, ← Nat.add_assoc]
        rfl

namespace Dialect

variable {d : Dialect κ} {counting : LineCounting} {source : String}

/-- What is pulled last from the scan of a text in which these tokens are found. -/
def Closes (source : String) (tokens : List (Token κ)) (pull : Pull κ) : Prop :=
  (∃ last, pull = ⟨.ok last, [.scanFinished (tokens.length + 1) (utf8Length source.toList)]⟩) ∨
    ∃ error, pull = ⟨.error error, [.noMatch error, .scanFinished tokens.length error.offset]⟩

theorem exists_pulls (d : Dialect κ) (counting : LineCounting) (source : String) :
    ∃ tokens pull, d.pulls counting source = tokens.map (fun t ↦ ⟨.ok t, []⟩) ++ [pull] ∧
      Closes source tokens pull := by
  obtain ⟨tokens, u, hpulls, hleft, hoffset, hemitted⟩ :=
    Scanner.exists_pulls_drainFrom (d.table.cut source.toList).1 (d.scanner counting source)
  have hjoin := (d.table.divides_cut source.toList).join
  have hleft : u.left = (d.table.cut source.toList).2 := hleft
  have hoffset : u.offset = utf8Length (joined (d.table.cut source.toList).1) := by
    rw [hoffset]
    exact Nat.zero_add _
  have hemitted : u.emitted = tokens.length := by
    rw [hemitted]
    exact Nat.zero_add _
  refine ⟨tokens, u.pullLast.1, hpulls, ?_⟩
  unfold Scanner.pullLast
  split
  · rename_i hnil
    rw [List.isEmpty_iff] at hnil
    rw [← hleft, hnil, List.append_nil] at hjoin
    refine .inl ⟨.endOfInput u.index.position, ?_⟩
    simp only [Scanner.pullEnd, hemitted, hoffset, hjoin]
  · refine .inr ⟨⟨u.index.position, u.offset⟩, ?_⟩
    simp only [Scanner.pullError, hemitted]

omit [DecidableEq κ] [TokenKind κ] in
theorem Closes.unparsed {tokens : List (Token κ)} {pull : Pull κ} (h : Closes source tokens pull) :
    ∀ e ∈ pull.events, e.ofParser = false := by
  intro e he
  rcases h with ⟨last, rfl⟩ | ⟨error, rfl⟩
  · rw [List.mem_singleton.1 he]
    rfl
  · rcases List.mem_cons.1 he with rfl | he
    · rfl
    · rw [List.mem_singleton.1 he]
      rfl

theorem analyzeEvents?_of_items {tokens : List (Token κ)} {t : State κ}
    (hitems : d.items counting source = tokens.map .ok)
    (ht : d.parser.run? (d.items counting source) = some t) :
    d.analyzeEvents? counting source = some (d.scanEvents counting source ++
      (t.raises.map Raise.event ++ [d.parser.finishEvent t])) := by
  have htokens : d.tokens counting source = .ok tokens := by
    rw [Dialect.tokens, hitems, tokensOf_map_ok]
  rw [hitems] at ht
  have hrun : d.parser.run? ((tokens.map fun t ↦ (⟨.ok t, []⟩ : Pull κ)).map (·.item)) = some t := by
    rwa [List.map_map]
  rw [analyzeEvents?, htokens]
  dsimp only
  rw [Parser.events?_eq_log hrun, Option.map_some, Parser.log, Parser.weave_of_silent]
  · rfl
  · simp

end Dialect

namespace Language

theorem checkEvents?_eq (l : Language) (counting : LineCounting) (source : String) :
    l.checkEvents? counting source = l.dialect.checkEvents? counting source := by
  cases l <;> rfl

theorem analyzeEvents?_eq (l : Language) (counting : LineCounting) (source : String) :
    l.analyzeEvents? counting source = l.dialect.analyzeEvents? counting source := by
  cases l <;> rfl

/-- How many tokens are delivered of a text. -/
def delivered (l : Language) (counting : LineCounting) (source : String) : Nat :=
  (l.dialect.items counting source).countP (·.isOk)

/-- What the log of checking a text says, where the run on it ends in `t`. -/
structure Accounts (l : Language) (counting : LineCounting) (source : String) (t : State l.Kind)
    (events : List Event) : Prop where
  finished : ∃ before, events =
    before ++ [.parseFinished l.dialect.grammar.start t.consumed t.diagnostics.length] ∧
    ∀ start consumed diagnostics, .parseFinished start consumed diagnostics ∉ before
  scanned : ∀ records, l.tokenize counting source = .ok records →
    events.filter (fun e ↦ !e.ofParser) =
      [.scanFinished (l.delivered counting source) (utf8Length source.toList)]
  broken : ∀ error, l.tokenize counting source = .error error →
    events.filter (fun e ↦ !e.ofParser) =
      [.noMatch error, .scanFinished (l.delivered counting source) error.offset] ∧
    [.noMatch error, .scanFinished (l.delivered counting source) error.offset] <:+: events
  consumed : t.consumed ≤ l.delivered counting source
  recorded : events.filterMap Event.diagnostic? = t.diagnostics
  suppressed : ∀ message sinceLast, .suppressed message sinceLast ∈ events → sinceLast ≤ 2

variable {l : Language} {counting : LineCounting} {source : String} {tokens : List (Token l.Kind)}
  {pull : Pull l.Kind} {t : State l.Kind}

section

variable (hpulls : l.dialect.pulls counting source = tokens.map (fun t ↦ ⟨.ok t, []⟩) ++ [pull])
include hpulls

theorem items_of_pulls :
    l.dialect.items counting source = tokens.map .ok ++ [pull.item] := by
  rw [Dialect.items, hpulls, List.map_append, List.map_map]
  rfl

theorem flatMap_events_of_pulls :
    (l.dialect.pulls counting source).flatMap (·.events) = pull.events := by
  rw [hpulls, List.flatMap_append]
  simp

theorem unparsed_of_closes (hcloses : Dialect.Closes source tokens pull) :
    Parser.Unparsed ((l.dialect.pulls counting source).map (·.events)) := by
  intro events hmem e he
  have hflat : e ∈ (l.dialect.pulls counting source).flatMap (·.events) := by
    rw [List.flatMap_def]
    exact List.mem_flatten_of_mem hmem he
  rw [flatMap_events_of_pulls hpulls] at hflat
  exact hcloses.unparsed e hflat

theorem length_pulls_of_run?
    (ht : l.dialect.parser.run? (l.dialect.items counting source) = some t) :
    (l.dialect.pulls counting source).length = t.pulls := by
  rw [items_of_pulls hpulls] at ht
  rw [Parser.pulls_eq_of_run? ht, hpulls, List.length_append, List.length_map]
  rfl

/-- The last pull tells whether a text has tokens, and how many are delivered of it. -/
theorem tokenize_of_closes (hcloses : Dialect.Closes source tokens pull) :
    (∃ all : List (Token l.Kind), l.dialect.items counting source = all.map .ok ∧
      l.tokenize counting source = .ok (all.map Token.record) ∧
      pull.events = [.scanFinished (l.delivered counting source) (utf8Length source.toList)]) ∨
    ∃ error, l.dialect.tokens counting source = .error error ∧
      l.tokenize counting source = .error error ∧
      pull.events = [.noMatch error, .scanFinished (l.delivered counting source) error.offset] := by
  have hitems := items_of_pulls hpulls
  have hok : (tokens.map (Except.ok (ε := LexError))).countP (·.isOk) = tokens.length := by
    simp [List.countP_map, Function.comp_def, Except.isOk, Except.toBool]
  rw [tokenize_eq, delivered, Dialect.tokens, hitems, List.countP_append, hok]
  rcases hcloses with ⟨last, rfl⟩ | ⟨error, rfl⟩
  · have hall : tokens.map .ok ++ [Except.ok last] =
        (tokens ++ [last]).map (Except.ok (ε := LexError)) := by simp
    refine .inl ⟨tokens ++ [last], hall, ?_, rfl⟩
    dsimp only
    rw [hall, tokensOf_map_ok]
    rfl
  · refine .inr ⟨error, tokensOf_append_error tokens error, ?_, rfl⟩
    rw [tokensOf_append_error]
    rfl

theorem accounts_of_run? (hcloses : Dialect.Closes source tokens pull)
    (ht : l.dialect.parser.run? (l.dialect.items counting source) = some t) :
    l.Accounts counting source t (l.dialect.parser.log (l.dialect.pulls counting source) t) := by
  have hunparsed := unparsed_of_closes hpulls hcloses
  have hlength := length_pulls_of_run? hpulls ht
  have hscan := Parser.filter_not_ofParser_log (p := l.dialect.parser) hunparsed hlength.le
  rw [flatMap_events_of_pulls hpulls] at hscan
  have hinfix : pull.events <:+: l.dialect.parser.log (l.dialect.pulls counting source) t := by
    have hmem : pull.events ∈ (l.dialect.pulls counting source).map (·.events) := by simp [hpulls]
    have hle : ((l.dialect.pulls counting source).map (·.events)).length ≤
        t.log.reverse.countP Entry.isPulled := by
      rw [List.length_map, List.countP_reverse]
      exact hlength.le
    exact (Parser.infix_weave hle hmem).trans (List.prefix_append _ _).isInfix
  constructor
  · exact ⟨_, rfl, Parser.parseFinished_not_mem_weave hunparsed _⟩
  · intro records hrecords
    rcases tokenize_of_closes hpulls hcloses with ⟨all, -, -, hevents⟩ | ⟨error, -, herror, -⟩
    · rw [hscan, hevents]
    · rw [herror] at hrecords
      cases hrecords
  · intro error herror
    rcases tokenize_of_closes hpulls hcloses with ⟨all, -, hrecords, -⟩ | ⟨error', -, herror', he⟩
    · rw [hrecords] at herror
      cases herror
    · rw [herror'] at herror
      cases herror
      rw [← he]
      exact ⟨hscan, hinfix⟩
  · exact Parser.consumed_le_of_run? ht
  · exact Parser.filterMap_diagnostic?_log hunparsed
  · intro message sinceLast hmem
    obtain ⟨r, hr, hrecorded, rfl⟩ := Parser.exists_raise_of_mem_log hunparsed hmem
    rw [Parser.recorded_eq_of_run? ht r hr] at hrecorded
    exact Nat.not_lt.1 (of_decide_eq_false hrecorded)

end

/-- Checking a text logs the end of the scan and the end of the parse, each once, and the diagnostics
gathered between. Analysing it logs the same with the scan in front, or the scan alone if there is a
lexical error. -/
theorem log_accounts (l : Language) (counting : LineCounting) (source : String) :
    ∃ t events, l.dialect.parser.run? (l.dialect.items counting source) = some t ∧
      l.check? counting source = some t.result ∧
      l.checkEvents? counting source = some events ∧ l.Accounts counting source t events ∧
      (∀ records, l.tokenize counting source = .ok records →
        l.analyzeEvents? counting source =
          some (events.filter (fun e ↦ !e.ofParser) ++ events.filter Event.ofParser)) ∧
      ∀ error, l.tokenize counting source = .error error →
        l.analyzeEvents? counting source = some (events.filter fun e ↦ !e.ofParser) := by
  obtain ⟨tokens, pull, hpulls, hcloses⟩ := l.dialect.exists_pulls counting source
  obtain ⟨r, hr⟩ := l.exists_ranked
  have hends := l.dialect.exists_isEnd_items counting source
  obtain ⟨t, ht⟩ := Parser.exists_run?_eq_some (p := l.dialect.parser) hr hends
  have hunparsed := unparsed_of_closes hpulls hcloses
  have hscan := Parser.filter_not_ofParser_log (p := l.dialect.parser) hunparsed
    (length_pulls_of_run? hpulls ht).le
  refine ⟨t, l.dialect.parser.log (l.dialect.pulls counting source) t, ht, ?_, ?_,
    accounts_of_run? hpulls hcloses ht, ?_, ?_⟩
  · rw [check?_eq, Dialect.check?, Parser.parse?, ht, Option.map_some]
  · rw [checkEvents?_eq, Dialect.checkEvents?]
    exact Parser.events?_eq_log ht
  · intro records hrecords
    rcases tokenize_of_closes hpulls hcloses with ⟨all, hall, -, -⟩ | ⟨error, -, herror, -⟩
    · rw [analyzeEvents?_eq, Dialect.analyzeEvents?_of_items hall ht, hscan,
        Parser.filter_ofParser_log hunparsed]
      rfl
    · rw [herror] at hrecords
      cases hrecords
  · intro error herror
    rcases tokenize_of_closes hpulls hcloses with ⟨all, -, hrecords, -⟩ | ⟨error', htokens, -, -⟩
    · rw [hrecords] at herror
      cases herror
    · rw [analyzeEvents?_eq, Dialect.analyzeEvents?, htokens, hscan]
      rfl

end Language

end Lookahead
