import Lookahead.Proofs.Report.Number
import Lookahead.Proofs.Report.Quotation

/-!
The values that JSON texts stand for, the texts that stand for them, and a reader that accepts
exactly these texts. Blanks may stand around every value, key and mark of punctuation.
-/

namespace Lookahead.Json

/-- Objects keep the order of their fields, and keys may come up more than once. -/
inductive Value where
  | null
  | boolean (b : Bool)
  | number (q : ℚ)
  | string (s : String)
  | array (items : List Value)
  | object (fields : List (String × Value))

def isBlank (c : Char) : Bool := c = ' ' || c = '\t' || c = '\n' || c = '\r'

def Blank (t : List Char) : Prop := ∀ c ∈ t, isBlank c

theorem blank_nil : Blank [] := by simp [Blank]

section Shapes

variable {α : Type} (P : α → List Char → Prop)

inductive Padded : α → List Char → Prop
  | mk {a b t c} : Blank b → P a t → Blank c → Padded a (b ++ t ++ c)

inductive Separated : List α → List Char → Prop
  | last {a b t c} : Blank b → P a t → Blank c → Separated [a] (b ++ t ++ c)
  | cons {a b t c as u} : Blank b → P a t → Blank c → Separated as u →
      Separated (a :: as) (b ++ t ++ c ++ ',' :: u)

inductive Enclosed (opening closing : Char) : List α → List Char → Prop
  | empty {b} : Blank b → Enclosed opening closing [] (opening :: b ++ [closing])
  | items {as t} : Separated P as t → Enclosed opening closing as (opening :: t ++ [closing])

inductive Field : String × α → List Char → Prop
  | mk {key s b c a t} : Quotation key s → Blank b → Blank c → P a t →
      Field (key, a) (s ++ b ++ ':' :: c ++ t)

end Shapes

inductive Spells : Value → List Char → Prop
  | null : Spells .null ['n', 'u', 'l', 'l']
  | true : Spells (.boolean true) ['t', 'r', 'u', 'e']
  | false : Spells (.boolean false) ['f', 'a', 'l', 's', 'e']
  | number {q t} : Numeral q t → Spells (.number q) t
  | string {s t} : Quotation s t → Spells (.string s) t
  | array {items t} : Enclosed Spells '[' ']' items t → Spells (.array items) t
  | object {fields t} : Enclosed (Field Spells) '\x7b' '\x7d' fields t → Spells (.object fields) t

/-! ### The reader -/

section Readers

variable {α : Type} (read : List Char → Option (α × List Char))

def readPadded? (text : List Char) : Option (α × List Char) := do
  let (a, rest) ← read (text.dropWhile isBlank)
  return (a, rest.dropWhile isBlank)

def readSeparated? (closing : Char) : Nat → List Char → Option (List α × List Char)
  | 0, _ => none
  | fuel + 1, text => do
    let (a, text) ← readPadded? read text
    match text with
    | [] => none
    | c :: rest =>
      if c = closing then return ([a], rest)
      else if c = ',' then
        let (as, rest) ← readSeparated? closing fuel rest
        return (a :: as, rest)
      else none

def readEnclosed? (closing : Char) (text : List Char) : Option (List α × List Char) :=
  match text.dropWhile isBlank with
  | [] => none
  | c :: rest => if c = closing then some ([], rest) else readSeparated? read closing text.length text

def readField? (text : List Char) : Option ((String × α) × List Char) := do
  let (key, text) ← readQuotation? text
  match text.dropWhile isBlank with
  | ':' :: text =>
    let (a, rest) ← read (text.dropWhile isBlank)
    return ((key, a), rest)
  | _ => none

end Readers

/-- Values that are nested to this depth at most. -/
def readValue? : Nat → List Char → Option (Value × List Char)
  | 0, _ => none
  | depth + 1, text => match text with
    | 'n' :: 'u' :: 'l' :: 'l' :: rest => some (.null, rest)
    | 't' :: 'r' :: 'u' :: 'e' :: rest => some (.boolean true, rest)
    | 'f' :: 'a' :: 'l' :: 's' :: 'e' :: rest => some (.boolean false, rest)
    | '"' :: _ => do
      let (s, rest) ← readQuotation? text
      return (.string s, rest)
    | '[' :: text => do
      let (items, rest) ← readEnclosed? (readValue? depth) ']' text
      return (.array items, rest)
    | '\x7b' :: text => do
      let (fields, rest) ← readEnclosed? (readField? (readValue? depth)) '\x7d' text
      return (.object fields, rest)
    | text => do
      let (q, rest) ← readNumeral? text
      return (.number q, rest)

/-- A value nests no deeper than its text is long. -/
def read? (text : List Char) : Option Value :=
  match readPadded? (readValue? text.length) text with
  | some (v, []) => some v
  | _ => none

/-! ### What is written as a value is read as that value -/

/-- Something begins here, so this is neither a blank nor the end of a list. -/
def Opens (c : Char) : Prop := isBlank c = false ∧ c ≠ ']' ∧ c ≠ '\x7d'

instance : DecidablePred Opens := fun c ↦
  inferInstanceAs (Decidable (isBlank c = false ∧ c ≠ ']' ∧ c ≠ '\x7d'))

theorem Opens.ne_of_mem {c closing : Char} (hc : Opens c) (hclosing : closing ∈ [']', '\x7d']) :
    c ≠ closing := by
  obtain ⟨-, hbracket, hbrace⟩ := hc
  simp only [List.mem_cons, List.not_mem_nil, or_false] at hclosing
  obtain rfl | rfl := hclosing
  · exact hbracket
  · exact hbrace

theorem Blank.dropWhile {b rest : List Char} (hb : Blank b) :
    (b ++ rest).dropWhile isBlank = rest.dropWhile isBlank :=
  List.dropWhile_append_of_pos hb

theorem Blank.clear_append {b rest : List Char} (hb : Blank b) (hr : Clear rest) :
    Clear (b ++ rest) := by
  cases b with
  | nil => exact hr
  | cons c b =>
    have hc : isBlank c := hb c (by simp)
    intro d hd
    obtain rfl : c = d := by simpa using hd
    simp only [isBlank, Bool.or_eq_true, decide_eq_true_eq] at hc
    obtain ((rfl | rfl) | rfl) | rfl := hc <;> decide

theorem clear_mark {c : Char} {rest : List Char} (hc : c ∈ [',', ']', '\x7d']) :
    Clear (c :: rest) := by
  intro d hd
  obtain rfl : c = d := by simpa using hd
  simp only [List.mem_cons, List.not_mem_nil, or_false] at hc
  obtain rfl | rfl | rfl := hc <;> decide

theorem dropWhile_mark {c : Char} {rest : List Char} (hc : c ∈ [',', ']', '\x7d']) :
    (c :: rest).dropWhile isBlank = c :: rest := by
  simp only [List.mem_cons, List.not_mem_nil, or_false] at hc
  obtain rfl | rfl | rfl := hc <;> rfl

theorem Separated.first {α : Type} {P : α → List Char → Prop} {as : List α} {t : List Char}
    (ht : Separated P as t) : ∃ a b u v, Blank b ∧ P a u ∧ t = b ++ (u ++ v) := by
  cases ht with
  | last hb ha hc => exact ⟨_, _, _, _, hb, ha, List.append_assoc ..⟩
  | @cons a b u c as v hb ha hc hu =>
    refine ⟨a, b, u, c ++ ',' :: v, hb, ha, ?_⟩
    simp

/-- The reader takes the texts up to some length for what they stand for. -/
structure Reads {α : Type} (read : List Char → Option (α × List Char))
    (P : α → List Char → Prop) (bound : Nat) : Prop where
  opens {a t} : P a t → ∃ c u, t = c :: u ∧ Opens c
  reads {a t rest} : P a t → t.length ≤ bound → Clear rest → read (t ++ rest) = some (a, rest)

namespace Reads

variable {α : Type} {read : List Char → Option (α × List Char)} {P : α → List Char → Prop}
  {bound : Nat} {b t c rest : List Char} {closing : Char}

theorem dropWhile_append {a : α} (h : Reads read P bound) (ht : P a t) :
    (t ++ rest).dropWhile isBlank = t ++ rest := by
  obtain ⟨c, u, rfl, hblank, -⟩ := h.opens ht
  simp [hblank]

theorem padded {a : α} (h : Reads read P bound) (hb : Blank b) (ht : P a t) (hc : Blank c)
    (hbound : t.length ≤ bound) (hclear : Clear rest) (hdrop : rest.dropWhile isBlank = rest) :
    readPadded? read (b ++ (t ++ (c ++ rest))) = some (a, rest) := by
  have hread : read (t ++ (c ++ rest)) = some (a, c ++ rest) :=
    h.reads ht hbound (hc.clear_append hclear)
  simp [readPadded?, hb.dropWhile, hc.dropWhile, h.dropWhile_append ht, hread, hdrop]

theorem separated {as : List α} {fuel : Nat} (h : Reads read P bound)
    (hclosing : closing ∈ [']', '\x7d']) (ht : Separated P as t) (hbound : t.length ≤ bound)
    (hfuel : t.length < fuel) :
    readSeparated? read closing fuel (t ++ closing :: rest) = some (as, rest) := by
  have hmark : closing ∈ [',', ']', '\x7d'] := List.mem_cons_of_mem _ hclosing
  have hcomma : closing ≠ ',' := by
    intro hcomma
    simp [hcomma] at hclosing
  induction ht generalizing fuel with
  | @last a b t c hb ha hc =>
    obtain ⟨fuel, rfl⟩ := Nat.exists_eq_add_one_of_ne_zero (Nat.ne_zero_of_lt hfuel)
    simp only [List.length_append] at hbound
    have hread : readPadded? read (b ++ (t ++ (c ++ closing :: rest))) = some (a, closing :: rest) :=
      h.padded hb ha hc (by omega) (clear_mark hmark) (dropWhile_mark hmark)
    simp [readSeparated?, hread]
  | @cons a b t c as u hb ha hc hu ih =>
    obtain ⟨fuel, rfl⟩ := Nat.exists_eq_add_one_of_ne_zero (Nat.ne_zero_of_lt hfuel)
    simp only [List.length_append, List.length_cons] at hbound hfuel
    have hread : readPadded? read (b ++ (t ++ (c ++ ',' :: (u ++ closing :: rest)))) =
        some (a, ',' :: (u ++ closing :: rest)) :=
      h.padded hb ha hc (by omega) (clear_mark (by simp)) (dropWhile_mark (by simp))
    have hrest : readSeparated? read closing fuel (u ++ closing :: rest) = some (as, rest) :=
      ih (by omega) (by omega)
    simp [readSeparated?, hread, hrest, hcomma.symm]

theorem exists_opens {as : List α} (h : Reads read P bound) (ht : Separated P as t)
    (rest : List Char) :
    ∃ c u, (t ++ rest).dropWhile isBlank = c :: u ∧ Opens c := by
  obtain ⟨a, b, u, v, hb, ha, rfl⟩ := ht.first
  obtain ⟨c, w, rfl, hc⟩ := h.opens ha
  refine ⟨c, w ++ (v ++ rest), ?_, hc⟩
  simp only [List.append_assoc, hb.dropWhile]
  exact h.dropWhile_append ha

theorem enclosed {opening : Char} {as : List α} (h : Reads read P bound)
    (hclosing : closing ∈ [']', '\x7d']) (ht : Enclosed P opening closing as t)
    (hbound : t.length ≤ bound + 1) (rest : List Char) : ∃ u, t = opening :: u ∧
      readEnclosed? read closing (u ++ rest) = some (as, rest) := by
  have hmark : closing ∈ [',', ']', '\x7d'] := List.mem_cons_of_mem _ hclosing
  cases ht with
  | @empty b hb =>
    refine ⟨b ++ [closing], rfl, ?_⟩
    simp [readEnclosed?, hb.dropWhile, dropWhile_mark hmark]
  | @items _ t ht =>
    refine ⟨t ++ [closing], rfl, ?_⟩
    obtain ⟨c, u, hdrop, hc⟩ := h.exists_opens ht (closing :: rest)
    simp only [List.length_append, List.length_cons, List.length_nil] at hbound
    have hread : readSeparated? read closing (t ++ closing :: rest).length (t ++ closing :: rest) =
        some (as, rest) := h.separated hclosing ht (by omega) (by simp)
    simp only [List.length_append, List.length_cons] at hread
    simp [readEnclosed?, hdrop, hc.ne_of_mem hclosing, hread]

theorem field (h : Reads read P bound) : Reads (readField? read) (Field P) bound where
  opens ht := by
    obtain ⟨⟨_⟩, hb, hc, ha⟩ := ht
    exact ⟨_, _, rfl, by decide⟩
  reads {f t rest} ht hbound hclear := by
    obtain @⟨key, s, b, c, a, t, hkey, hb, hc, ha⟩ := ht
    simp only [List.length_append, List.length_cons] at hbound
    have hread : read (t ++ rest) = some (a, rest) := h.reads ha (by omega) hclear
    have hcolon : (':' :: (c ++ (t ++ rest))).dropWhile isBlank = ':' :: (c ++ (t ++ rest)) := rfl
    simp [readField?, readQuotation?_append hkey, hb.dropWhile, hc.dropWhile, hcolon,
      h.dropWhile_append ha, hread]

end Reads

theorem opens_of_isDigit {c : Char} (hc : c.isDigit) : Opens c := by
  refine ⟨?_, ?_, ?_⟩
  · simp only [isBlank, Bool.or_eq_false_iff, decide_eq_false_iff_not]
    refine ⟨⟨⟨?_, ?_⟩, ?_⟩, ?_⟩
    all_goals
      intro hblank
      subst hblank
      contradiction
  all_goals
    intro hmark
    subst hmark
    contradiction

theorem Spells.opens {v : Value} {t : List Char} (ht : Spells v t) :
    ∃ c u, t = c :: u ∧ Opens c := by
  cases ht with
  | null => exact ⟨_, _, rfl, by decide⟩
  | true => exact ⟨_, _, rfl, by decide⟩
  | false => exact ⟨_, _, rfl, by decide⟩
  | number hq =>
    obtain ⟨c, u, rfl, rfl | hc⟩ := hq.exists_cons
    · exact ⟨_, _, rfl, by decide⟩
    · exact ⟨_, _, rfl, opens_of_isDigit hc⟩
  | string hs =>
    obtain ⟨hs⟩ := hs
    exact ⟨_, _, rfl, by decide⟩
  | array hitems =>
    cases hitems
    all_goals exact ⟨_, _, rfl, by decide⟩
  | object hfields =>
    cases hfields
    all_goals exact ⟨_, _, rfl, by decide⟩

theorem readValue?_number {q : ℚ} {t rest : List Char} (depth : Nat) (hq : Numeral q t)
    (hr : Clear rest) : readValue? (depth + 1) (t ++ rest) = some (.number q, rest) := by
  have hread : readNumeral? (t ++ rest) = some (q, rest) := readNumeral?_append hq hr
  obtain ⟨c, u, rfl, hc⟩ := hq.exists_cons
  unfold readValue?
  split
  all_goals simp_all

theorem reads_readValue? (n : Nat) : Reads (readValue? n) Spells n := by
  induction n with
  | zero =>
    refine ⟨Spells.opens, fun ht hbound ↦ ?_⟩
    obtain ⟨c, u, rfl, -⟩ := ht.opens
    simp at hbound
  | succ n ih =>
    refine ⟨Spells.opens, fun {v t rest} ht hbound hclear ↦ ?_⟩
    -- an opening mark takes up a character, so what it encloses may be read one level lower
    cases ht with
    | null => rfl
    | true => rfl
    | false => rfl
    | number hq => exact readValue?_number n hq hclear
    | string hs =>
      have hread : readQuotation? (_ ++ rest) = some (_, rest) := readQuotation?_append hs
      obtain ⟨hs⟩ := hs
      simp only [List.cons_append, List.append_assoc, List.nil_append] at hread
      simp [readValue?, hread]
    | array hitems =>
      obtain ⟨u, rfl, hread⟩ := ih.enclosed (by simp) hitems hbound rest
      simp [readValue?, hread]
    | object hfields =>
      obtain ⟨u, rfl, hread⟩ := ih.field.enclosed (by simp) hfields hbound rest
      simp [readValue?, hread]

/-! ### What is read as a value is written as one -/

theorem exists_blank (text : List Char) : ∃ b, Blank b ∧ text = b ++ text.dropWhile isBlank :=
  ⟨text.takeWhile isBlank, fun _ hc ↦ List.mem_takeWhile_imp hc,
    (List.takeWhile_append_dropWhile ..).symm⟩

def Finds {α : Type} (read : List Char → Option (α × List Char)) (P : α → List Char → Prop) : Prop :=
  ∀ ⦃text a rest⦄, read text = some (a, rest) → ∃ t, P a t ∧ text = t ++ rest

namespace Finds

variable {α : Type} {read : List Char → Option (α × List Char)} {P : α → List Char → Prop}
  {text rest : List Char} {closing : Char}

theorem padded {a : α} (h : Finds read P) (hread : readPadded? read text = some (a, rest)) :
    ∃ b t c, Blank b ∧ P a t ∧ Blank c ∧ text = b ++ t ++ c ++ rest := by
  obtain ⟨⟨a', text'⟩, hfirst, hread⟩ := Option.bind_eq_some_iff.mp hread
  obtain ⟨rfl, rfl⟩ : a' = a ∧ text'.dropWhile isBlank = rest := by simpa using hread
  obtain ⟨b, hb, htext⟩ := exists_blank text
  obtain ⟨c, hc, htext'⟩ := exists_blank text'
  obtain ⟨t, ht, hdrop⟩ := h hfirst
  refine ⟨b, t, c, hb, ht, hc, ?_⟩
  rw [List.append_assoc, ← htext', List.append_assoc, ← hdrop, ← htext]

theorem separated {as : List α} {fuel : Nat} (h : Finds read P)
    (hread : readSeparated? read closing fuel text = some (as, rest)) :
    ∃ t, Separated P as t ∧ text = t ++ closing :: rest := by
  induction fuel generalizing text as with
  | zero => cases hread
  | succ fuel ih =>
    obtain ⟨⟨a, text'⟩, hfirst, hnext⟩ := Option.bind_eq_some_iff.mp hread
    obtain ⟨b, t, c, hb, ht, hc, rfl⟩ := h.padded hfirst
    dsimp only at hnext
    split at hnext
    · cases hnext
    split at hnext
    · rename_i hclosing
      subst hclosing
      obtain ⟨rfl, rfl⟩ : [a] = as ∧ _ = rest := by simpa using hnext
      exact ⟨_, .last hb ht hc, rfl⟩
    split at hnext
    · rename_i hcomma
      subst hcomma
      obtain ⟨⟨as', rest'⟩, hrest, has⟩ := Option.bind_eq_some_iff.mp hnext
      obtain ⟨rfl, rfl⟩ : a :: as' = as ∧ rest' = rest := by simpa using has
      obtain ⟨u, hu, rfl⟩ := ih hrest
      refine ⟨_, .cons hb ht hc hu, ?_⟩
      simp only [List.append_assoc, List.cons_append]
    · cases hnext

theorem enclosed {as : List α} (h : Finds read P) (opening : Char)
    (hread : readEnclosed? read closing text = some (as, rest)) :
    ∃ t, Enclosed P opening closing as t ∧ opening :: text = t ++ rest := by
  unfold readEnclosed? at hread
  split at hread
  · cases hread
  · rename_i c text' hdrop
    split at hread
    · rename_i hclosing
      subst hclosing
      obtain ⟨rfl, rfl⟩ : [] = as ∧ text' = rest := by simpa using hread
      obtain ⟨b, hb, htext⟩ := exists_blank text
      refine ⟨_, .empty hb, ?_⟩
      rw [htext, hdrop]
      simp
    · obtain ⟨t, ht, rfl⟩ := h.separated hread
      refine ⟨_, .items ht, ?_⟩
      simp

theorem field (h : Finds read P) : Finds (readField? read) (Field P) := by
  intro text f rest hread
  obtain ⟨⟨key, text'⟩, hkey, hnext⟩ := Option.bind_eq_some_iff.mp hread
  obtain ⟨s, hs, rfl⟩ := of_readQuotation? hkey
  dsimp only at hnext
  split at hnext
  · rename_i text'' hcolon
    obtain ⟨⟨a, rest'⟩, hvalue, hf⟩ := Option.bind_eq_some_iff.mp hnext
    obtain ⟨rfl, rfl⟩ : (key, a) = f ∧ rest' = rest := by simpa using hf
    obtain ⟨b, hb, htext'⟩ := exists_blank text'
    obtain ⟨c, hc, htext''⟩ := exists_blank text''
    obtain ⟨t, ht, hdrop⟩ := h hvalue
    refine ⟨_, .mk hs hb hc ht, ?_⟩
    rw [htext', hcolon, htext'', hdrop]
    simp
  · cases hnext

end Finds

theorem finds_readValue? (n : Nat) : Finds (readValue? n) Spells := by
  induction n with
  | zero =>
    intro text v rest hread
    cases hread
  | succ n ih =>
    intro text v rest hread
    unfold readValue? at hread
    split at hread
    · obtain ⟨rfl, rfl⟩ : _ = v ∧ _ = rest := by simpa using hread
      exact ⟨_, .null, rfl⟩
    · obtain ⟨rfl, rfl⟩ : _ = v ∧ _ = rest := by simpa using hread
      exact ⟨_, .true, rfl⟩
    · obtain ⟨rfl, rfl⟩ : _ = v ∧ _ = rest := by simpa using hread
      exact ⟨_, .false, rfl⟩
    · obtain ⟨⟨s, rest'⟩, hs, hread⟩ := Option.bind_eq_some_iff.mp hread
      obtain ⟨rfl, rfl⟩ : _ = v ∧ rest' = rest := by simpa using hread
      obtain ⟨t, ht, htext⟩ := of_readQuotation? hs
      exact ⟨t, .string ht, htext⟩
    · obtain ⟨⟨items, rest'⟩, hitems, hread⟩ := Option.bind_eq_some_iff.mp hread
      obtain ⟨rfl, rfl⟩ : _ = v ∧ rest' = rest := by simpa using hread
      obtain ⟨t, ht, htext⟩ := ih.enclosed '[' hitems
      exact ⟨t, .array ht, htext⟩
    · obtain ⟨⟨fields, rest'⟩, hfields, hread⟩ := Option.bind_eq_some_iff.mp hread
      obtain ⟨rfl, rfl⟩ : _ = v ∧ rest' = rest := by simpa using hread
      obtain ⟨t, ht, htext⟩ := ih.field.enclosed '\x7b' hfields
      exact ⟨t, .object ht, htext⟩
    · obtain ⟨⟨q, rest'⟩, hq, hread⟩ := Option.bind_eq_some_iff.mp hread
      obtain ⟨rfl, rfl⟩ : _ = v ∧ rest' = rest := by simpa using hread
      obtain ⟨t, ht, htext⟩ := of_readNumeral? hq
      exact ⟨t, .number ht, htext⟩

/-- The reader accepts what is written as a value between blanks, and nothing else. -/
theorem read?_eq_some_iff {text : List Char} {v : Value} :
    read? text = some v ↔ Padded Spells v text := by
  constructor
  · intro h
    unfold read? at h
    split at h
    · rename_i v' hread
      obtain rfl : v' = v := by simpa using h
      obtain ⟨b, t, c, hb, ht, hc, htext⟩ := (finds_readValue? _).padded hread
      rw [htext, List.append_nil]
      exact .mk hb ht hc
    · cases h
  · intro h
    obtain @⟨b, t, c, hb, ht, hc⟩ := h
    have hlength : t.length ≤ (b ++ t ++ c).length := by
      simp only [List.length_append]
      omega
    have hend : Clear [] := by simp [Clear]
    have hread : readPadded? (readValue? (b ++ t ++ c).length) (b ++ (t ++ (c ++ []))) =
        some (v, []) := (reads_readValue? _).padded hb ht hc hlength hend rfl
    rw [List.append_nil, ← List.append_assoc] at hread
    simp only [read?, hread]

example : read? "[ -1.5E2,\t[\"\\ud83d\\ude00\"] ]\n".toList =
    some (.array [.number (-150), .array [.string "😀"]]) := by cbv

end Lookahead.Json
