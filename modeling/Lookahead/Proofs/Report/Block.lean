import Lookahead.Proofs.Report.Plain

/-!
Reports in block style. Nothing in them says where a list ends but that what follows does not go on
with it, and a text is put between quotation marks only where it would be read as something else.
Documents of one form can all the same be told apart, and each from what is written behind it.
-/

namespace Lookahead.Yaml

/-! ### Texts -/

theorem flatMap_quoteChar_injective :
    Function.Injective fun s : List Char ↦ s.flatMap quoteChar := by
  have hhead (c : Char) : ∃ more, quoteChar c = c :: more := by
    unfold quoteChar
    split
    · rename_i hc
      exact ⟨['\''], by rw [hc]⟩
    · exact ⟨[], rfl⟩
  intro s t h
  dsimp only at h
  induction s generalizing t with
  | nil =>
    cases t with
    | nil => rfl
    | cons d t =>
      obtain ⟨more, hd⟩ := hhead d
      simp [hd] at h
  | cons c s ih =>
    obtain ⟨more, hc⟩ := hhead c
    cases t with
    | nil => simp [hc] at h
    | cons d t =>
      obtain ⟨more', hd⟩ := hhead d
      rw [List.flatMap_cons, List.flatMap_cons] at h
      have hcd : c = d := by
        rw [hc, hd] at h
        exact (List.cons.inj h).1
      subst hcd
      rw [ih (List.append_cancel_left h)]

/-- A text without quotation marks around it does not begin with one. -/
theorem ne_quote_cons {s : String} (h : needsQuotes s = false) (rest : List Char) :
    s.toList ≠ '\'' :: rest := by
  intro hs
  have hbegins : beginsWithIndicator s.toList = true := by
    rw [hs]
    cases rest <;> rfl
  simp [needsQuotes, hbegins] at h

theorem scalar_injective : Function.Injective scalar := by
  intro s t h
  unfold scalar at h
  split at h <;> rename_i hs <;> split at h <;> rename_i ht
  · have hquoted := List.append_cancel_right (List.cons.inj h).2
    exact String.toList_inj.1 (flatMap_quoteChar_injective hquoted)
  · exact absurd h.symm (ne_quote_cons (by simpa using ht) _)
  · exact absurd h (ne_quote_cons (by simpa using hs) _)
  · exact String.toList_inj.1 h

theorem not_mem_scalar {c : Char} {s : String} (hc : c ≠ '\'') (hs : c ∉ s.toList) :
    c ∉ scalar s := by
  have hquoted : c ∉ s.toList.flatMap quoteChar := by
    rw [List.mem_flatMap]
    rintro ⟨d, hd, hmem⟩
    unfold quoteChar at hmem
    split at hmem
    · simp [hc] at hmem
    · rw [List.mem_singleton.1 hmem] at hs
      exact hs hd
  unfold scalar
  split
  · simp [hc, hquoted]
  · exact hs

/-! ### What is written -/

section Writing

variable (depth : Nat) (d : Document) (items : List Document) (f : String × Document)
  (fields : List (String × Document))

theorem write_flag (b : Bool) : write depth (.flag b) = Json.flag b ++ ['\n'] := rfl

theorem write_count (n : Nat) : write depth (.count n) = Json.digits n ++ ['\n'] := rfl

theorem write_text (s : String) : write depth (.text s) = scalar s ++ ['\n'] := rfl

theorem write_list_nil : write depth (.list []) = ['[', ']', '\n'] := rfl

theorem write_list_cons : write depth (.list (d :: items)) =
    '-' :: ' ' :: (write (depth + 2) d ++ writeItems depth items) := rfl

theorem write_record_cons : write depth (.record (f :: fields)) =
    writeField depth f ++ writeFields depth fields := rfl

theorem writeItems_cons : writeItems depth (d :: items) =
    indentation depth ++ '-' :: ' ' :: (write (depth + 2) d ++ writeItems depth items) :=
  List.append_assoc ..

theorem writeFields_cons : writeFields depth (f :: fields) =
    indentation depth ++ (writeField depth f ++ writeFields depth fields) :=
  List.append_assoc ..

end Writing

/-! ### What stands behind a block -/

/-- What is behind a list goes on with no item of it, at this depth or deeper. -/
def Closes (depth : Nat) (rest : List Char) : Prop :=
  ∀ n, depth ≤ n → ¬ indentation n ++ ['-'] <+: rest

theorem Closes.deeper {depth depth' : Nat} {rest : List Char} (h : Closes depth rest)
    (hle : depth ≤ depth') : Closes depth' rest :=
  fun n hn ↦ h n (hle.trans hn)

theorem closes_nil (depth : Nat) : Closes depth [] := by
  intro n _ h
  simp at h

/-- The first letter of an indented line tells whether it is an item, and how deep it stands. -/
theorem indentation_prefix {m n : Nat} {c : Char} {rest : List Char} (hmn : m ≤ n)
    (h : indentation n ++ ['-'] <+: indentation m ++ c :: rest) :
    m = n ∧ c = '-' ∨ m < n ∧ c = ' ' := by
  obtain ⟨k, rfl⟩ := Nat.exists_eq_add_of_le hmn
  rw [indentation, indentation, List.replicate_add, List.append_assoc,
    List.prefix_append_right_inj] at h
  cases k with
  | zero =>
    left
    simpa [eq_comm] using h
  | succ k =>
    right
    rw [List.replicate_succ, List.cons_append, List.cons_prefix_cons] at h
    exact ⟨by omega, h.1.symm⟩

theorem closes_item (depth : Nat) (rest : List Char) :
    Closes (depth + 1) (indentation depth ++ '-' :: rest) := by
  intro n hn h
  rcases indentation_prefix (by omega) h with ⟨rfl, -⟩ | ⟨-, hc⟩
  · omega
  · cases hc

theorem closes_key {depth : Nat} {c : Char} {rest : List Char} (hdash : c ≠ '-')
    (hblank : c ≠ ' ') : Closes depth (indentation depth ++ c :: rest) := by
  intro n hn h
  rcases indentation_prefix hn h with ⟨-, hc⟩ | ⟨-, hc⟩
  · exact hdash hc
  · exact hblank hc

/-! ### Documents of one form -/

/-- Documents of this form can be told apart by what is written of them, and from what is behind. -/
def Told (P : Document → Prop) : Prop :=
  ∀ (d d' : Document) (depth : Nat) (u u' : List Char), P d → P d' → Closes depth u →
    Closes depth u' → write depth d ++ u = write depth d' ++ u' → d = d' ∧ u = u'

def IsFlag (d : Document) : Prop := ∃ b, d = .flag b

def IsCount (d : Document) : Prop := ∃ n, d = .count n

/-- A text that fills one line. -/
def IsLine (d : Document) : Prop := ∃ s : String, d = .text s ∧ '\n' ∉ s.toList

def IsList (P : Document → Prop) (d : Document) : Prop :=
  ∃ items, d = .list items ∧ ∀ i ∈ items, P i

/-- Fields with certain keys, each with a value of a certain form. -/
def IsRecord (forms : List (String × (Document → Prop))) (d : Document) : Prop :=
  ∃ fields, d = .record fields ∧ List.Forall₂ (fun form f ↦ f.1 = form.1 ∧ form.2 f.2) forms fields

theorem told_flag : Told IsFlag := by
  intro d d' depth u u' hd hd' _ _ h
  obtain ⟨b, rfl⟩ := hd
  obtain ⟨b', rfl⟩ := hd'
  cases b <;> cases b' <;> simp [write_flag, Json.flag] at h <;> simp [h]

theorem told_count : Told IsCount := by
  intro d d' depth u u' hd hd' _ _ h
  obtain ⟨n, rfl⟩ := hd
  obtain ⟨n', rfl⟩ := hd'
  rw [write_count, write_count, List.append_assoc, List.append_assoc] at h
  obtain ⟨hdigits, hu⟩ := eq_of_append_cons_eq h (not_mem_digits rfl n) (not_mem_digits rfl n')
  exact ⟨congrArg Document.count (digits_injective hdigits), hu⟩

theorem told_line : Told IsLine := by
  intro d d' depth u u' hd hd' _ _ h
  obtain ⟨s, rfl, hs⟩ := hd
  obtain ⟨s', rfl, hs'⟩ := hd'
  rw [write_text, write_text, List.append_assoc, List.append_assoc] at h
  obtain ⟨hscalar, hu⟩ :=
    eq_of_append_cons_eq h (not_mem_scalar (by decide) hs) (not_mem_scalar (by decide) hs')
  exact ⟨congrArg Document.text (scalar_injective hscalar), hu⟩

/-! ### Lists -/

variable {P : Document → Prop} {depth : Nat} {u u' : List Char}

theorem writeItems_cons_append (depth : Nat) (d : Document) (items : List Document)
    (u : List Char) : writeItems depth (d :: items) ++ u = indentation depth ++
      '-' :: ' ' :: (write (depth + 2) d ++ (writeItems depth items ++ u)) := by
  simp only [writeItems_cons, List.append_assoc, List.cons_append]

/-- The first item of a list is already indented. -/
theorem indentation_append_write (depth : Nat) (d : Document) (items : List Document) :
    indentation depth ++ write depth (.list (d :: items)) = writeItems depth (d :: items) := by
  rw [write_list_cons, writeItems_cons]

theorem closes_writeItems (hu : Closes depth u) (items : List Document) :
    Closes (depth + 1) (writeItems depth items ++ u) := by
  cases items with
  | nil => exact hu.deeper (Nat.le_succ depth)
  | cons d items =>
    rw [writeItems_cons_append]
    exact closes_item depth _

theorem writeItems_cons_ne (hu : Closes depth u) (d : Document) (items : List Document)
    (u' : List Char) : u ≠ writeItems depth (d :: items) ++ u' := by
  intro h
  apply hu depth le_rfl
  rw [h, writeItems_cons_append, List.prefix_append_right_inj]
  exact ⟨_, rfl⟩

theorem told_items (hP : Told P) {items items' : List Document} (hitems : ∀ i ∈ items, P i)
    (hitems' : ∀ i ∈ items', P i) (hu : Closes depth u) (hu' : Closes depth u')
    (h : writeItems depth items ++ u = writeItems depth items' ++ u') :
    items = items' ∧ u = u' := by
  induction items generalizing items' with
  | nil =>
    cases items' with
    | nil => exact ⟨rfl, h⟩
    | cons d' items' => exact absurd h (writeItems_cons_ne hu d' items' u')
  | cons d items ih =>
    cases items' with
    | nil => exact absurd h.symm (writeItems_cons_ne hu' d items u)
    | cons d' items' =>
      rw [List.forall_mem_cons] at hitems hitems'
      rw [writeItems_cons_append, writeItems_cons_append, List.append_cancel_left_eq,
        List.cons.injEq, List.cons.injEq] at h
      have hcloses := (closes_writeItems hu items).deeper (Nat.le_succ (depth + 1))
      have hcloses' := (closes_writeItems hu' items').deeper (Nat.le_succ (depth + 1))
      obtain ⟨rfl, hrest⟩ :=
        hP d d' (depth + 2) _ _ hitems.1 hitems'.1 hcloses hcloses' h.2.2
      obtain ⟨rfl, rfl⟩ := ih hitems.2 hitems'.2 hrest
      exact ⟨rfl, rfl⟩

theorem told_list (hP : Told P) : Told (IsList P) := by
  intro d d' depth u u' hd hd' hu hu' h
  obtain ⟨items, rfl, hitems⟩ := hd
  obtain ⟨items', rfl, hitems'⟩ := hd'
  cases items with
  | nil =>
    cases items' with
    | nil => exact ⟨rfl, List.append_cancel_left h⟩
    | cons i' items' => simp [write_list_nil, write_list_cons] at h
  | cons i items =>
    cases items' with
    | nil => simp [write_list_nil, write_list_cons] at h
    | cons i' items' =>
      have hwhole := congrArg (indentation depth ++ ·) h
      simp only [← List.append_assoc, indentation_append_write] at hwhole
      obtain ⟨hsame, hrest⟩ := told_items hP hitems hitems' hu hu' hwhole
      exact ⟨congrArg Document.list hsame, hrest⟩

/-! ### Records -/

/-- How much deeper than its key a value stands on lines of its own, if it takes more than one. -/
def drop? : Document → Option Nat
  | .list (_ :: _) => some 0
  | .record (_ :: _) => some 2
  | _ => none

theorem writeField_of_none {d : Document} (h : drop? d = none) (key : String) :
    writeField depth (key, d) = scalar key ++ ':' :: ' ' :: write depth d := by
  have hassoc : scalar key ++ [':', ' '] ++ write depth d =
      scalar key ++ ':' :: ' ' :: write depth d := List.append_assoc ..
  rw [← hassoc]
  cases d with
  | list items =>
    cases items with
    | nil => rfl
    | cons i items => cases h
  | record fields =>
    cases fields with
    | nil => rfl
    | cons f fields => cases h
  | flag | count | text => rfl

theorem writeField_of_some {d : Document} {k : Nat} (h : drop? d = some k) (key : String) :
    writeField depth (key, d) =
      scalar key ++ ':' :: '\n' :: (indentation (depth + k) ++ write (depth + k) d) := by
  unfold drop? at h
  split at h <;> cases h <;> exact List.append_assoc ..

/-- An item is not a deeper line. -/
theorem write_list_ne (depth : Nat) (i : Document) (items : List Document) (u u' : List Char) :
    indentation depth ++ write depth (.list (i :: items)) ++ u ≠ indentation (depth + 2) ++ u' := by
  intro h
  rw [indentation_append_write, writeItems_cons_append, indentation, indentation,
    List.replicate_add, List.append_assoc, List.append_cancel_left_eq] at h
  simp [List.replicate_succ] at h

theorem drop?_inj {d d' : Document} {k k' : Nat} (hk : drop? d = some k) (hk' : drop? d' = some k')
    (h : indentation (depth + k) ++ write (depth + k) d ++ u =
      indentation (depth + k') ++ write (depth + k') d' ++ u') : k = k' := by
  unfold drop? at hk hk'
  split at hk <;> cases hk <;> split at hk' <;> cases hk'
  · rfl
  · rw [List.append_assoc (indentation (depth + 2))] at h
    exact absurd h (write_list_ne depth _ _ u _)
  · rw [List.append_assoc (indentation (depth + 2))] at h
    exact absurd h.symm (write_list_ne depth _ _ u' _)
  · rfl

theorem told_field (hP : Told P) {key : String} {d d' : Document} (hd : P d) (hd' : P d')
    (hu : Closes depth u) (hu' : Closes depth u')
    (h : writeField depth (key, d) ++ u = writeField depth (key, d') ++ u') : d = d' ∧ u = u' := by
  cases hk : drop? d with
  | none =>
    cases hk' : drop? d' with
    | none =>
      rw [writeField_of_none hk, writeField_of_none hk', List.append_assoc, List.append_assoc] at h
      simp only [List.append_cancel_left_eq, List.cons_append, List.cons.injEq, true_and] at h
      exact hP d d' depth u u' hd hd' hu hu' h
    | some k' =>
      rw [writeField_of_none hk, writeField_of_some hk'] at h
      simp at h
  | some k =>
    cases hk' : drop? d' with
    | none =>
      rw [writeField_of_some hk, writeField_of_none hk'] at h
      simp at h
    | some k' =>
      rw [writeField_of_some hk, writeField_of_some hk', List.append_assoc, List.append_assoc] at h
      simp only [List.append_cancel_left_eq, List.cons_append, List.cons.injEq, true_and] at h
      obtain rfl := drop?_inj hk hk' h
      rw [List.append_assoc, List.append_assoc, List.append_cancel_left_eq] at h
      exact hP d d' (depth + k) u u' hd hd' (hu.deeper (Nat.le_add_right depth k))
        (hu'.deeper (Nat.le_add_right depth k)) h

/-- A key that looks neither like an item nor like a deeper line. -/
def IsKey (key : String) : Prop := (scalar key).head?.any fun c ↦ c != '-' && c != ' '

instance : DecidablePred IsKey := fun _ ↦ inferInstanceAs (Decidable (_ = true))

theorem IsKey.exists_cons {key : String} (h : IsKey key) :
    ∃ c letters, scalar key = c :: letters ∧ c ≠ '-' ∧ c ≠ ' ' := by
  obtain ⟨c, hc, hfirst⟩ := (Option.any_eq_true _ _).1 h
  obtain ⟨letters, hletters⟩ := List.head?_eq_some_iff.1 hc
  exact ⟨c, letters, hletters, by simpa using hfirst⟩

variable {forms : List (String × (Document → Prop))} {fields fields' : List (String × Document)}

theorem closes_writeFields (hkeys : ∀ form ∈ forms, IsKey form.1)
    (h : List.Forall₂ (fun form f ↦ f.1 = form.1 ∧ form.2 f.2) forms fields)
    (hu : Closes depth u) : Closes depth (writeFields depth fields ++ u) := by
  cases h with
  | nil => exact hu
  | @cons form f forms fields hf =>
    obtain ⟨key, d⟩ := f
    obtain ⟨hkey, -⟩ := hf
    obtain ⟨c, letters, hletters, hdash, hblank⟩ := (hkeys form List.mem_cons_self).exists_cons
    rw [← hkey] at hletters
    have hfield : ∃ rest, writeField depth (key, d) = c :: rest := by
      cases hk : drop? d with
      | none => exact ⟨_, by rw [writeField_of_none hk, hletters, List.cons_append]⟩
      | some k => exact ⟨_, by rw [writeField_of_some hk, hletters, List.cons_append]⟩
    obtain ⟨rest, hrest⟩ := hfield
    rw [writeFields_cons, hrest, List.append_assoc, List.append_assoc, List.cons_append]
    exact closes_key hdash hblank

theorem told_fields (hforms : ∀ form ∈ forms, IsKey form.1 ∧ Told form.2)
    (hf : List.Forall₂ (fun form f ↦ f.1 = form.1 ∧ form.2 f.2) forms fields)
    (hf' : List.Forall₂ (fun form f ↦ f.1 = form.1 ∧ form.2 f.2) forms fields')
    (hu : Closes depth u) (hu' : Closes depth u')
    (h : writeFields depth fields ++ u = writeFields depth fields' ++ u') :
    fields = fields' ∧ u = u' := by
  induction hf generalizing fields' with
  | nil =>
    cases hf'
    exact ⟨rfl, h⟩
  | @cons form f forms fields hd hmore ih =>
    cases hf' with
    | @cons _ f' _ fields' hd' hmore' =>
      obtain ⟨key, d⟩ := f
      obtain ⟨key', d'⟩ := f'
      obtain ⟨rfl, hd⟩ := hd
      obtain ⟨rfl, hd'⟩ := hd'
      rw [List.forall_mem_cons] at hforms
      have hkeys : ∀ form ∈ forms, IsKey form.1 := fun form hform ↦ (hforms.2 form hform).1
      simp only [writeFields_cons, List.append_assoc, List.append_cancel_left_eq] at h
      obtain ⟨rfl, hrest⟩ := told_field hforms.1.2 hd hd' (closes_writeFields hkeys hmore hu)
        (closes_writeFields hkeys hmore' hu') h
      obtain ⟨rfl, rfl⟩ := ih hforms.2 hmore' hrest
      exact ⟨rfl, rfl⟩

/-- The first field of a record is already indented. -/
theorem indentation_append_write_record (depth : Nat) (f : String × Document)
    (fields : List (String × Document)) :
    indentation depth ++ write depth (.record (f :: fields)) = writeFields depth (f :: fields) := by
  rw [write_record_cons, writeFields_cons]

theorem told_record (hforms : ∀ form ∈ forms, IsKey form.1 ∧ Told form.2) :
    Told (IsRecord forms) := by
  intro d d' depth u u' hd hd' hu hu' h
  obtain ⟨fields, rfl, hf⟩ := hd
  obtain ⟨fields', rfl, hf'⟩ := hd'
  cases hf with
  | nil =>
    cases hf'
    exact ⟨rfl, List.append_cancel_left h⟩
  | cons hfirst hmore =>
    cases hf' with
    | cons hfirst' hmore' =>
      have hwhole := congrArg (indentation depth ++ ·) h
      simp only [← List.append_assoc, indentation_append_write_record] at hwhole
      obtain ⟨hsame, hrest⟩ :=
        told_fields hforms (.cons hfirst hmore) (.cons hfirst' hmore') hu hu' hwhole
      exact ⟨congrArg Document.record hsame, hrest⟩

/-- Two documents of such a form with one text are the same. -/
theorem Told.eq_of_text_eq (hP : Told P) {d d' : Document} (hd : P d) (hd' : P d')
    (h : text d = text d') : d = d' := by
  have hwritten : write 0 d ++ [] = write 0 d' ++ [] := congrArg (· ++ []) h
  exact (hP d d' 0 [] [] hd hd' (closes_nil 0) (closes_nil 0) hwritten).1

/-! ### Reports -/

def positionForms : List (String × (Document → Prop)) := [("line", IsCount), ("column", IsCount)]

def IsToken : Document → Prop := IsRecord ([("kind", IsLine), ("lexeme", IsLine)] ++ positionForms)

def IsDiagnostic : Document → Prop :=
  IsRecord ([("code", IsLine), ("message", IsLine)] ++ positionForms)

def IsReport (showTokens : Bool) : Document → Prop :=
  IsRecord (
    [("language", IsLine), ("accepted", IsFlag)] ++
    (if showTokens then [("tokens", IsList IsToken)] else []) ++
    [("diagnostics", IsList IsDiagnostic)])

theorem told_report (showTokens : Bool) : Told (IsReport showTokens) := by
  have hkeys : ∀ key ∈ ["kind", "lexeme", "line", "column", "code", "message", "language",
      "accepted", "tokens", "diagnostics"], IsKey key := by decide +kernel
  have htoken : Told IsToken := by
    apply told_record
    simp [positionForms, told_line, told_count, hkeys]
  have hdiagnostic : Told IsDiagnostic := by
    apply told_record
    simp [positionForms, told_line, told_count, hkeys]
  apply told_record
  cases showTokens with
  | false => simp [told_line, told_flag, told_list hdiagnostic, hkeys]
  | true => simp [told_line, told_flag, told_list hdiagnostic, told_list htoken, hkeys]

theorem isToken {t : Token.Record} (h : t.Plain) : IsToken (.ofToken t) := by
  have hkind : '\n' ∉ t.kind.toList := fun hmem ↦ by cases (h.kind _ hmem).1
  have hlexeme : '\n' ∉ t.lexeme.toList := fun hmem ↦ by cases h.lexeme _ hmem
  exact ⟨_, rfl, .cons ⟨rfl, _, rfl, hkind⟩ (.cons ⟨rfl, _, rfl, hlexeme⟩
    (.cons ⟨rfl, _, rfl⟩ (.cons ⟨rfl, _, rfl⟩ .nil)))⟩

theorem isDiagnostic {d : Diagnostic} (h : d.Plain) : IsDiagnostic (.ofDiagnostic d) := by
  have hcode : '\n' ∉ (name d.code).toList := by cases d.code <;> decide
  exact ⟨_, rfl, .cons ⟨rfl, _, rfl, hcode⟩ (.cons ⟨rfl, _, rfl, h.line⟩
    (.cons ⟨rfl, _, rfl⟩ (.cons ⟨rfl, _, rfl⟩ .nil)))⟩

theorem isReport {a : Analysis} (h : a.Plain) (showTokens : Bool) :
    IsReport showTokens (a.document showTokens) := by
  have hlanguage : '\n' ∉ (name a.language).toList := by cases a.language <;> decide
  have htokens : IsList IsToken (.list (a.tokens.map .ofToken)) := by
    refine ⟨_, rfl, fun i hi ↦ ?_⟩
    obtain ⟨t, ht, rfl⟩ := List.mem_map.1 hi
    exact isToken (h.tokens t ht)
  have hdiagnostics : IsList IsDiagnostic (.list (a.diagnostics.map .ofDiagnostic)) := by
    refine ⟨_, rfl, fun i hi ↦ ?_⟩
    obtain ⟨d, hd, rfl⟩ := List.mem_map.1 hi
    exact isDiagnostic (h.diagnostics d hd)
  refine ⟨_, rfl, .cons ⟨rfl, _, rfl, hlanguage⟩ (.cons ⟨rfl, _, rfl⟩ ?_)⟩
  cases showTokens with
  | false => exact .cons ⟨rfl, hdiagnostics⟩ .nil
  | true => exact .cons ⟨rfl, htokens⟩ (.cons ⟨rfl, hdiagnostics⟩ .nil)

end Lookahead.Yaml

namespace Lookahead.Analysis

open Yaml

theorem Plain.agrees_of_render_eq {a b : Analysis} {showTokens : Bool} (ha : a.Plain) (hb : b.Plain)
    (h : a.render .yaml showTokens = b.render .yaml showTokens) : Agrees showTokens a b := by
  have htext : text (a.document showTokens) = text (b.document showTokens) := by
    have hlist := congrArg String.toList h
    rwa [render, render, String.toList_ofList, String.toList_ofList] at hlist
  have hdocument : a.document showTokens = b.document showTokens :=
    (told_report showTokens).eq_of_text_eq (isReport ha showTokens) (isReport hb showTokens) htext
  have hvalue := congrArg Document.value hdocument
  rw [value_document, value_document, Json.Value.object.injEq] at hvalue
  exact agrees_of_fields_eq hvalue

end Lookahead.Analysis
