import Lookahead.Proofs.Pattern.Blanks
import Lookahead.Proofs.Report.Lossless
import Lookahead.Proofs.Text.Lines

/-!
Plain reports line by line. Nothing is escaped in them, but a line is either a heading, the tokens or
one diagnostic, and from a line its parts can be told: the tokens have no blanks in them, and the
numbers stand at the end of a diagnostic.
-/

namespace Lookahead

/-! ### Cutting lists in two -/

section Cut

variable {α : Type} {x : α} {u u' v v' : List α}

theorem eq_of_append_cons_eq (h : u ++ x :: v = u' ++ x :: v') (hu : x ∉ u) (hu' : x ∉ u') :
    u = u' ∧ v = v' := by
  induction u generalizing u' with
  | nil =>
    cases u' with
    | nil => exact ⟨rfl, (List.cons.inj h).2⟩
    | cons y u' =>
      obtain ⟨rfl, -⟩ := List.cons.inj h
      exact absurd List.mem_cons_self hu'
  | cons y u ih =>
    cases u' with
    | nil =>
      obtain ⟨rfl, -⟩ := List.cons.inj h
      exact absurd List.mem_cons_self hu
    | cons z u' =>
      obtain ⟨rfl, htail⟩ := List.cons.inj h
      obtain ⟨rfl, rfl⟩ := ih htail (List.not_mem_of_not_mem_cons hu) (List.not_mem_of_not_mem_cons hu')
      exact ⟨rfl, rfl⟩

theorem eq_of_append_cons_eq_of_last (h : u ++ x :: v = u' ++ x :: v') (hv : x ∉ v)
    (hv' : x ∉ v') : u = u' ∧ v = v' := by
  have hreverse : v.reverse ++ x :: u.reverse = v'.reverse ++ x :: u'.reverse := by
    simpa using congrArg List.reverse h
  obtain ⟨h, h'⟩ := eq_of_append_cons_eq hreverse (by simpa using hv) (by simpa using hv')
  exact ⟨List.reverse_inj.1 h', List.reverse_inj.1 h⟩

end Cut

theorem toList_toString (n : Nat) : (toString n).toList = Json.digits n := Nat.toList_repr

theorem digits_injective : Function.Injective Json.digits := by
  intro m n h
  calc m
    _ = Nat.ofDigitChars 10 (Json.digits m) 0 := Nat.ofDigitChars_ten_toDigits.symm
    _ = Nat.ofDigitChars 10 (Json.digits n) 0 := by rw [h]
    _ = n := Nat.ofDigitChars_ten_toDigits

theorem toList_counted (before after : String) (n : Nat) :
    (toString before ++ toString n ++ toString after).toList =
      before.toList ++ Json.digits n ++ after.toList := by
  simp [toString, Json.digits]

theorem not_mem_digits {c : Char} (hc : c.isDigit = false) (n : Nat) : c ∉ Json.digits n := by
  intro hmem
  rw [(Json.digits_digits n).2 c hmem] at hc
  cases hc

theorem toList_filled (before s after : String) :
    (toString before ++ toString s ++ toString after).toList =
      before.toList ++ s.toList ++ after.toList := by
  simp [toString]

/-! ### Diagnostics -/

theorem Diagnostic.toList_text (d : Diagnostic) :
    d.text.toList = (((d.message.toList ++ " at line".toList) ++
      ' ' :: (Json.digits d.position.line ++ [','])) ++ " col".toList) ++
      ' ' :: (Json.digits d.position.column ++ ['.']) := by
  simp [Diagnostic.text, toString, Json.digits]

/-- The numbers are told from the end, so that nothing need be known of the message. -/
theorem Diagnostic.eq_of_text_eq {d d' : Diagnostic} (h : d.text = d'.text) :
    d.message = d'.message ∧ d.position = d'.position := by
  have hblank (n : Nat) {c : Char} (hc : c ≠ ' ') : ' ' ∉ Json.digits n ++ [c] := by
    rw [List.mem_append, List.mem_singleton]
    exact not_or.2 ⟨not_mem_digits rfl n, hc.symm⟩
  have htext := congrArg String.toList h
  rw [d.toList_text, d'.toList_text] at htext
  obtain ⟨code, message, line, column⟩ := d
  obtain ⟨code', message', line', column'⟩ := d'
  obtain ⟨hfront, hcolumn⟩ :=
    eq_of_append_cons_eq_of_last htext (hblank _ (by decide)) (hblank _ (by decide))
  obtain ⟨hmessage, hline⟩ := eq_of_append_cons_eq_of_last (List.append_cancel_right hfront)
    (hblank _ (by decide)) (hblank _ (by decide))
  have hline := digits_injective (List.append_cancel_right hline)
  have hcolumn := digits_injective (List.append_cancel_right hcolumn)
  exact ⟨String.toList_inj.1 (List.append_cancel_right hmessage),
    congrArg₂ Position.mk hline hcolumn⟩

/-- The letter that complaints of one kind begin with. -/
def Code.initial : Code → Char
  | expected => 'E'
  | invalidProduction => 'P'
  | forbidden => 'U'

theorem Code.initial_injective : Function.Injective initial := by
  intro code code'
  cases code <;> cases code' <;> decide

/-- A message that fills one line and tells the code by its first letter. -/
structure Diagnostic.Plain (d : Diagnostic) : Prop where
  initial : d.message.toList.head? = some d.code.initial
  line : '\n' ∉ d.message.toList

namespace Diagnostic.Plain

variable {d d' : Diagnostic}

theorem eq_of_text_eq (h : d.Plain) (h' : d'.Plain) (heq : d.text = d'.text) : d = d' := by
  obtain ⟨hmessage, hposition⟩ := Diagnostic.eq_of_text_eq heq
  have hinitial := h.initial
  rw [hmessage, h'.initial, Option.some.injEq] at hinitial
  have hcode := Code.initial_injective hinitial
  cases d
  cases d'
  simp_all

end Diagnostic.Plain

/-! ### Tokens -/

/-- A token without blanks, of a kind without brackets. -/
structure Token.Record.Plain (t : Token.Record) : Prop where
  kind : ∀ c ∈ t.kind.toList, isBlank c = false ∧ c ≠ '('
  lexeme : ∀ c ∈ t.lexeme.toList, isBlank c = false

namespace Token.Record

namespace Plain

variable {t t' : Token.Record}

end Plain

end Token.Record

/-! ### The lines of a report -/

namespace Report

def itemText (d : Diagnostic) : String := "- " ++ d.text

/-- The lines of a plain report. -/
def lineTexts (a : Analysis) (showTokens : Bool) : List String :=
  (if showTokens then ["Scanner output:", tokenLine a.tokens, ""] else []) ++
    "Parser output:" :: s!"Found {a.diagnostics.length} errors." :: a.diagnostics.map itemText

theorem toList_parserSection (diagnostics : List Diagnostic) :
    (parserSection diagnostics).toList =
      (("Parser output:" :: s!"Found {diagnostics.length} errors." ::
        diagnostics.map itemText).map String.toList).flatMap (· ++ ['\n']) := by
  have hitem (d : Diagnostic) : (diagnosticLine d).toList = (itemText d).toList ++ ['\n'] := by
    simp [diagnosticLine, itemText, toString]
  have hitems : (String.join (diagnostics.map diagnosticLine)).toList =
      ((diagnostics.map itemText).map String.toList).flatMap (· ++ ['\n']) := by
    rw [String.toList_join, List.map_map, List.flatMap_map, List.flatMap_map]
    exact congrArg (List.flatMap · diagnostics) (funext hitem)
  have hheading : "Parser output:\nFound ".toList =
      "Parser output:".toList ++ '\n' :: "Found ".toList := by rfl
  have hending : " errors.\n".toList = " errors.".toList ++ ['\n'] := by rfl
  unfold parserSection
  rw [String.toList_append, toList_counted, hitems, hheading, hending, List.map_cons,
    List.map_cons, toList_counted, List.flatMap_cons, List.flatMap_cons]
  simp only [List.append_assoc, List.cons_append, List.nil_append]

theorem toList_scannerSection (tokens : List Token.Record) :
    (scannerSection tokens).toList =
      (["Scanner output:", tokenLine tokens, ""].map String.toList).flatMap (· ++ ['\n']) := by
  have hheading : "Scanner output:\n".toList = "Scanner output:".toList ++ ['\n'] := by rfl
  have hending : "\n\n".toList = '\n' :: ("".toList ++ ['\n']) := by rfl
  unfold scannerSection
  rw [toList_filled, hheading, hending]
  simp only [List.map_cons, List.map_nil, List.flatMap_cons, List.flatMap_nil, List.append_assoc,
    List.cons_append, List.nil_append]

theorem toList_text (a : Analysis) (showTokens : Bool) :
    (text a showTokens).toList =
      ((lineTexts a showTokens).map String.toList).flatMap (· ++ ['\n']) := by
  rw [text, String.toList_append, toList_parserSection, lineTexts, List.map_append,
    List.flatMap_append]
  cases showTokens with
  | false => rfl
  | true => rw [if_pos rfl, if_pos rfl, toList_scannerSection]

/-! ### Reading a report back -/

end Report

/-- An analysis that can be read back from its plain report. -/
structure Analysis.Plain (a : Analysis) : Prop where
  tokens_ne : a.tokens ≠ []
  tokens : ∀ t ∈ a.tokens, t.Plain
  diagnostics : ∀ d ∈ a.diagnostics, d.Plain

namespace Analysis.Plain

open Report

variable {a a' : Analysis} {showTokens : Bool}

end Analysis.Plain

/-! ### The count -/

/-- What a plain report says of its length, and other reports of acceptance: the line behind the
heading has a number, which is that of the lines with a dash behind it, and it is zero if and only if
the analysis is reported as accepted. -/
structure Analysis.Counts (a : Analysis) (showTokens : Bool) (n : Nat) : Prop where
  lines : ∃ behind, Lookahead.lines (a.render .text showTokens).toList =
    (if showTokens then ["Scanner output:", Report.tokenLine a.tokens, ""] else []).map
      String.toList ++ "Parser output:".toList :: s!"Found {n} errors.".toList :: behind ∧
    behind.countP ("- ".toList <+: ·) = n
  document : n = 0 ↔ ∃ fields, a.document showTokens = .record fields ∧
    ("accepted", .flag true) ∈ fields
  json : n = 0 ↔ ∃ fields, Json.read? (a.render .json showTokens).toList = some (.object fields) ∧
    ("accepted", .boolean true) ∈ fields

end Lookahead
