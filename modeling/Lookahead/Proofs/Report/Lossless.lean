import Lookahead.Proofs.Report.Value
import Lookahead.Report.Basic

/-!
The report of an analysis in JSON is the text of one value on a line of its own, and reading it gives
back everything that the report was made from.
-/

namespace Lookahead

def Document.value : Document → Json.Value
  | .flag b => .boolean b
  | .count n => .number n
  | .text s => .string s
  | .list items => .array (items.map value)
  | .record fields => .object (fields.map fun f ↦ (f.1, f.2.value))
decreasing_by
  · decreasing_tactic
  · rename_i hf
    have hlt := List.sizeOf_lt_of_mem hf
    obtain ⟨key, d⟩ := f
    simp only [Prod.mk.sizeOf_spec] at hlt
    simp only [Document.record.sizeOf_spec]
    omega

namespace Json

/-! ### What is written is in the grammar -/

theorem hexDigit?_digitChar {n : Nat} (hn : n < 16) : hexDigit? (Nat.digitChar n) = some n := by
  revert n
  decide

theorem codeUnit_of_lt {n : Nat} (hn : n < 32) :
    CodeUnit n ['0', '0', Nat.digitChar (n / 16), Nat.digitChar (n % 16)] := by
  have hzero : hexDigit? '0' = some 0 := rfl
  have hhigh : hexDigit? (Nat.digitChar (n / 16)) = some (n / 16) := hexDigit?_digitChar (by omega)
  have hlow : hexDigit? (Nat.digitChar (n % 16)) = some (n % 16) := hexDigit?_digitChar (by omega)
  have hvalue : ((0 * 16 + 0) * 16 + n / 16) * 16 + n % 16 = n := by omega
  have hunit := CodeUnit.mk hzero hzero hhigh hlow
  rwa [hvalue] at hunit

theorem character_escape (c : Char) : Character c (escape c) := by
  unfold escape
  split_ifs with hquote hbackslash hn hr ht hb hf hcontrol
  on_goal 9 => exact .plain (Nat.le_of_not_lt hcontrol) hquote hbackslash
  on_goal 8 =>
    have hcode := Character.unit (codeUnit_of_lt hcontrol) c.valid
    rwa [Char.ofNat_toNat] at hcode
  all_goals
    subst c
    exact .escaped rfl

theorem quotation_quote (s : String) : Quotation s (quote s) := by
  refine .mk (t := s.toList.flatMap escape) ?_
  induction s.toList with
  | nil => exact .nil
  | cons c cs ih => exact .cons (character_escape c) ih

theorem exists_cons_digits {n : Nat} (hn : 0 < n) : ∃ c t, digits n = c :: t ∧ c ≠ '0' := by
  induction n using Nat.strongRecOn with
  | ind n ih =>
    obtain hlt | hle := Nat.lt_or_ge n 10
    · refine ⟨Nat.digitChar n, [], Nat.toDigits_of_lt_base hlt, ?_⟩
      simp only [ne_eq, Nat.digitChar_eq_zero]
      omega
    · obtain ⟨c, t, ht, hc⟩ := ih (n / 10) (by omega) (by omega)
      refine ⟨c, t ++ [Nat.digitChar (n % 10)], ?_, hc⟩
      rw [digits] at ht
      rw [digits, Nat.toDigits_of_base_le (by omega) hle, ht, List.cons_append]

theorem digits_digits (n : Nat) : Digits (digits n) :=
  ⟨Nat.toDigits_ne_nil, fun _ hc ↦ Nat.isDigit_of_mem_toDigits (by decide) (by decide) hc⟩

theorem whole_digits (n : Nat) : Whole (digits n) := by
  obtain rfl | hn := Nat.eq_zero_or_pos n
  · exact .zero
  · have hdigits := digits_digits n
    obtain ⟨c, t, ht, hc⟩ := exists_cons_digits hn
    rw [ht] at hdigits ⊢
    exact .digits hc hdigits

theorem numeral_digits (n : Nat) : Numeral n (digits n) := by
  have hnumeral := Numeral.mk .absent (whole_digits n) .absent .absent
  have hvalue : decimal false (digits n) [] 0 = n := by
    simp [decimal, digits, Nat.ofDigitChars_ten_toDigits]
  simpa [hvalue] using hnumeral

theorem blank_newline (depth : Nat) : Blank (newline depth) := by
  intro c hc
  simp only [newline, List.mem_cons, List.mem_replicate] at hc
  obtain rfl | ⟨-, rfl⟩ := hc <;> rfl

theorem separated_lines {α β : Type} {P : β → List Char → Prop} {f : α → β} {w : α → List Char}
    {a : α} {as : List α} (depth depth' : Nat) (h : ∀ x ∈ a :: as, P (f x) (w x)) :
    Separated P (f a :: as.map f)
      (newline depth ++ w a ++ as.flatMap (fun x ↦ ',' :: newline depth ++ w x) ++
        newline depth') := by
  induction as generalizing a with
  | nil =>
    have hlast := Separated.last (blank_newline depth) (h a (by simp)) (blank_newline depth')
    simpa using hlast
  | cons b as ih =>
    have hfirst : P (f a) (w a) := h a (by simp)
    have hrest := ih (a := b) fun x hx ↦ h x (List.mem_cons_of_mem _ hx)
    have hcons := Separated.cons (blank_newline depth) hfirst blank_nil hrest
    simpa using hcons

theorem writeItems_eq (depth : Nat) (items : List Document) :
    writeItems depth items = items.flatMap fun d ↦ ',' :: newline depth ++ write depth d := by
  induction items with
  | nil => rfl
  | cons d items ih => simp [writeItems, ih]

theorem writeFields_eq (depth : Nat) (fields : List (String × Document)) :
    writeFields depth fields =
      fields.flatMap fun f ↦ ',' :: newline depth ++ writeField depth f := by
  induction fields with
  | nil => rfl
  | cons f fields ih => simp [writeFields, ih]

theorem field_writeField {depth : Nat} {f : String × Document}
    (hf : Spells f.2.value (write depth f.2)) :
    Field Spells (f.1, f.2.value) (writeField depth f) := by
  obtain ⟨key, d⟩ := f
  have hblank : Blank [' '] := by simp [Blank, isBlank]
  have hfield := Field.mk (quotation_quote key) blank_nil hblank hf
  simpa [writeField] using hfield

theorem spells_write (d : Document) (depth : Nat) : Spells d.value (write depth d) := by
  induction d using Document.value.induct generalizing depth with
  | case1 b =>
    cases b with
    | false => simpa [Document.value, write, flag] using Spells.false
    | true => simpa [Document.value, write, flag] using Spells.true
  | case2 n => simpa [Document.value, write] using Spells.number (numeral_digits n)
  | case3 s => simpa [Document.value, write] using Spells.string (quotation_quote s)
  | case4 items ih =>
    rw [Document.value]
    apply Spells.array
    cases items with
    | nil => exact .empty blank_nil
    | cons d items =>
      rw [write, writeItems_eq]
      exact .items (separated_lines _ _ fun x hx ↦ ih x hx _)
  | case5 fields ih =>
    rw [Document.value]
    apply Spells.object
    cases fields with
    | nil => exact .empty blank_nil
    | cons f fields =>
      rw [write, writeFields_eq]
      exact .items (separated_lines _ _ fun x hx ↦ field_writeField (ih x hx _))

theorem read?_text (d : Document) : read? (text d) = some d.value := by
  rw [read?_eq_some_iff]
  exact .mk blank_nil (spells_write d 0) (blank_newline 0)

/-! ### Reports of analyses -/

namespace Value

def ofPosition (p : Position) : List (String × Value) :=
  [("line", .number p.line), ("column", .number p.column)]

def ofToken (t : Token.Record) : Value :=
  .object ([("kind", .string t.kind), ("lexeme", .string t.lexeme)] ++ ofPosition t.position)

def ofDiagnostic (d : Diagnostic) : Value :=
  .object ([("code", .string (name d.code)), ("message", .string d.message)] ++
    ofPosition d.position)

theorem ofToken_injective : Function.Injective ofToken := by
  intro t u h
  obtain ⟨kind, lexeme, line, column⟩ := t
  obtain ⟨kind', lexeme', line', column'⟩ := u
  simpa [ofToken, ofPosition] using h

theorem ofDiagnostic_injective : Function.Injective ofDiagnostic := by
  intro d e h
  obtain ⟨code, message, line, column⟩ := d
  obtain ⟨code', message', line', column'⟩ := e
  obtain ⟨hcode, hrest⟩ : name code = name code' ∧
      message = message' ∧ line = line' ∧ column = column' := by
    simpa [ofDiagnostic, ofPosition] using h
  have hcode' : code = code' := by
    revert hcode
    cases code <;> cases code' <;> decide
  obtain ⟨rfl, rfl, rfl⟩ := hrest
  rw [hcode']

end Value

end Json

namespace Analysis

open Json

/-- What a reader of the report in JSON finds, under the keys in this order. -/
def fields (a : Analysis) (showTokens : Bool) : List (String × Value) :=
  [("language", .string (name a.language)), ("accepted", .boolean (decide (a.diagnostics = [])))] ++
  (if showTokens then [("tokens", .array (a.tokens.map .ofToken))] else []) ++
  [("diagnostics", .array (a.diagnostics.map .ofDiagnostic))]

theorem value_document (a : Analysis) (showTokens : Bool) :
    (a.document showTokens).value = .object (a.fields showTokens) := by
  have htoken : Document.value ∘ Document.ofToken = Value.ofToken := by
    funext t
    simp [Document.ofToken, Document.ofPosition, Document.value, Value.ofToken, Value.ofPosition]
  have hdiagnostic : Document.value ∘ Document.ofDiagnostic = Value.ofDiagnostic := by
    funext d
    simp [Document.ofDiagnostic, Document.ofPosition, Document.value, Value.ofDiagnostic,
      Value.ofPosition]
  have haccepted : a.accepted = decide (a.diagnostics = []) := by
    rw [accepted]
    cases a.diagnostics <;> rfl
  cases showTokens
  all_goals simp [document, fields, Document.value, htoken, hdiagnostic, haccepted]

/-- The analyses agree on what a report tells, with or without the tokens. -/
structure Agrees (showTokens : Bool) (a b : Analysis) : Prop where
  language : a.language = b.language
  accepted : a.accepted = b.accepted
  diagnostics : a.diagnostics = b.diagnostics
  tokens : showTokens = true → a.tokens = b.tokens

theorem agrees_of_fields_eq {a b : Analysis} {showTokens : Bool}
    (h : a.fields showTokens = b.fields showTokens) : Agrees showTokens a b := by
  obtain ⟨hlanguage, htokens, hdiagnostics⟩ : name a.language = name b.language ∧
      (showTokens = true → a.tokens.map Value.ofToken = b.tokens.map Value.ofToken) ∧
      a.diagnostics.map Value.ofDiagnostic = b.diagnostics.map Value.ofDiagnostic := by
    cases showTokens
    all_goals simp_all [fields]
  have hsame : a.diagnostics = b.diagnostics :=
    (List.map_inj_right fun _ _ h ↦ Value.ofDiagnostic_injective h).mp hdiagnostics
  refine ⟨?_, by rw [accepted, accepted, hsame], hsame, fun hshow ↦ ?_⟩
  · revert hlanguage
    cases a.language <;> cases b.language <;> decide
  · exact (List.map_inj_right fun _ _ h ↦ Value.ofToken_injective h).mp (htokens hshow)

theorem eq_of_fields_eq {a b : Analysis} (h : a.fields true = b.fields true) : a = b := by
  obtain ⟨hlanguage, -, hdiagnostics, htokens⟩ := agrees_of_fields_eq h
  obtain ⟨language, tokens, diagnostics⟩ := a
  cases hlanguage
  cases hdiagnostics
  cases htokens rfl
  rfl

theorem read?_render (a : Analysis) (showTokens : Bool) :
    read? (a.render .json showTokens).toList = some (.object (a.fields showTokens)) := by
  rw [render, String.toList_ofList, read?_text, value_document]

theorem json_lossless (a : Analysis) (showTokens : Bool) :
    (∃ body, (a.render .json showTokens).toList = body ++ ['\n'] ∧
      Spells (.object (a.fields showTokens)) body) ∧
    read? (a.render .json showTokens).toList = some (.object (a.fields showTokens)) ∧
    ("tokens" ∈ (a.fields showTokens).map Prod.fst ↔ showTokens = true) ∧
    ∀ b : Analysis, b.render .json true = a.render .json true → b = a := by
  refine ⟨⟨write 0 (a.document showTokens), ?_, ?_⟩, a.read?_render showTokens, ?_, ?_⟩
  · rw [render, String.toList_ofList, text]
  · rw [← value_document]
    exact spells_write _ _
  · cases showTokens
    all_goals simp [fields]
  · intro b h
    have hread := b.read?_render true
    rw [h, a.read?_render, Option.some.injEq, Value.object.injEq] at hread
    exact eq_of_fields_eq hread.symm

end Analysis

end Lookahead
