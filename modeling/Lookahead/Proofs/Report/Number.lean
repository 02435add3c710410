import Mathlib.Algebra.Field.Rat
import Mathlib.Data.List.TakeWhile
import Lookahead.Report.Json

/-!
Numbers in JSON texts: digits without needless zeros in front, perhaps behind a minus sign, perhaps
followed by a fraction and an exponent.
-/

namespace Lookahead.Json

def Digits (t : List Char) : Prop := t ≠ [] ∧ ∀ c ∈ t, c.isDigit

inductive Sign : Bool → List Char → Prop
  | absent : Sign false []
  | minus : Sign true ['-']

inductive Whole : List Char → Prop
  | zero : Whole ['0']
  | digits {c t} : c ≠ '0' → Digits (c :: t) → Whole (c :: t)

inductive Fraction : List Char → List Char → Prop
  | absent : Fraction [] []
  | digits {t} : Digits t → Fraction t ('.' :: t)

inductive Power : ℤ → List Char → Prop
  | bare {t} : Digits t → Power (Nat.ofDigitChars 10 t 0) t
  | plus {t} : Digits t → Power (Nat.ofDigitChars 10 t 0) ('+' :: t)
  | minus {t} : Digits t → Power (-Nat.ofDigitChars 10 t 0) ('-' :: t)

inductive Exponent : ℤ → List Char → Prop
  | absent : Exponent 0 []
  | lower {n t} : Power n t → Exponent n ('e' :: t)
  | upper {n t} : Power n t → Exponent n ('E' :: t)

def decimal (negative : Bool) (whole fraction : List Char) (exponent : ℤ) : ℚ :=
  (if negative then -1 else 1) * Nat.ofDigitChars 10 (whole ++ fraction) 0 *
    10 ^ (exponent - fraction.length)

inductive Numeral : ℚ → List Char → Prop
  | mk {negative s whole fraction f exponent e} :
    Sign negative s → Whole whole → Fraction fraction f → Exponent exponent e →
      Numeral (decimal negative whole fraction exponent) (s ++ whole ++ f ++ e)

/-! ### The reader -/

def readSign? : List Char → Option (Bool × List Char)
  | '-' :: rest => some (true, rest)
  | text => some (false, text)

def readDigits? (text : List Char) : Option (List Char × List Char) :=
  if text.takeWhile Char.isDigit = [] then none
  else some (text.takeWhile Char.isDigit, text.dropWhile Char.isDigit)

def readWhole? : List Char → Option (List Char × List Char)
  | '0' :: rest => some (['0'], rest)
  | text => readDigits? text

def readFraction? : List Char → Option (List Char × List Char)
  | '.' :: rest => readDigits? rest
  | text => some ([], text)

def readPower? : List Char → Option (ℤ × List Char)
  | '-' :: text => do
    let (t, rest) ← readDigits? text
    return (-Nat.ofDigitChars 10 t 0, rest)
  | '+' :: text => do
    let (t, rest) ← readDigits? text
    return (Nat.ofDigitChars 10 t 0, rest)
  | text => do
    let (t, rest) ← readDigits? text
    return (Nat.ofDigitChars 10 t 0, rest)

def readExponent? : List Char → Option (ℤ × List Char)
  | 'e' :: text => readPower? text
  | 'E' :: text => readPower? text
  | text => some (0, text)

def readNumeral? (text : List Char) : Option (ℚ × List Char) := do
  let (negative, text) ← readSign? text
  let (whole, text) ← readWhole? text
  let (fraction, text) ← readFraction? text
  let (exponent, text) ← readExponent? text
  return (decimal negative whole fraction exponent, text)

/-! ### What is written as a number is read as that number -/

/-- A number that stands in front of this text ends there. -/
def Clear (text : List Char) : Prop :=
  ∀ c ∈ text.head?, c.isDigit = false ∧ c ≠ '.' ∧ c ≠ 'e' ∧ c ≠ 'E'

variable {t text rest : List Char}

theorem readDigits?_append (ht : Digits t) (hr : ∀ c ∈ rest.head?, c.isDigit = false) :
    readDigits? (t ++ rest) = some (t, rest) := by
  obtain ⟨hne, hdigit⟩ := ht
  have htake : rest.takeWhile Char.isDigit = [] := by cases rest <;> simp_all
  have hdrop : rest.dropWhile Char.isDigit = rest := by cases rest <;> simp_all
  simp [readDigits?, List.takeWhile_append_of_pos hdigit, List.dropWhile_append_of_pos hdigit, htake,
    hdrop, hne]

theorem readWhole?_append (ht : Whole t) (hr : ∀ c ∈ rest.head?, c.isDigit = false) :
    readWhole? (t ++ rest) = some (t, rest) := by
  cases ht with
  | zero => rfl
  | digits hzero hdigits =>
    unfold readWhole?
    split
    · simp_all
    · exact readDigits?_append hdigits hr

theorem readFraction?_append {f : List Char} (hf : Fraction f t)
    (hr : ∀ c ∈ rest.head?, c.isDigit = false ∧ c ≠ '.') :
    readFraction? (t ++ rest) = some (f, rest) := by
  cases hf with
  | absent =>
    unfold readFraction?
    split
    · simp_all
    · rfl
  | digits hdigits => exact readDigits?_append hdigits fun c hc ↦ (hr c hc).1

theorem readPower?_append {n : ℤ} (hn : Power n t) (hr : ∀ c ∈ rest.head?, c.isDigit = false) :
    readPower? (t ++ rest) = some (n, rest) := by
  cases hn with
  | bare hdigits =>
    have hread := readDigits?_append hdigits hr
    obtain ⟨hne, hdigit⟩ := hdigits
    unfold readPower?
    split
    · cases t <;> simp_all
    · cases t <;> simp_all
    · simp [hread]
  | plus hdigits => simp [readPower?, readDigits?_append hdigits hr]
  | minus hdigits => simp [readPower?, readDigits?_append hdigits hr]

theorem readExponent?_append {n : ℤ} (hn : Exponent n t) (hr : Clear rest) :
    readExponent? (t ++ rest) = some (n, rest) := by
  cases hn with
  | absent =>
    unfold readExponent?
    split
    · simp_all [Clear]
    · simp_all [Clear]
    · rfl
  | lower hpower => exact readPower?_append hpower fun c hc ↦ (hr c hc).1
  | upper hpower => exact readPower?_append hpower fun c hc ↦ (hr c hc).1

theorem readSign?_append {negative : Bool} (hs : Sign negative t) (hr : rest.head? ≠ some '-') :
    readSign? (t ++ rest) = some (negative, rest) := by
  cases hs with
  | absent =>
    unfold readSign?
    split
    · simp_all
    · rfl
  | minus => rfl

theorem Whole.head {c : Char} (ht : Whole t) (hc : c ∈ (t ++ rest).head?) : c.isDigit := by
  cases ht with
  | zero =>
    obtain rfl : '0' = c := by simpa using hc
    rfl
  | digits hzero hdigits =>
    apply hdigits.2
    simp_all

theorem Numeral.exists_cons {q : ℚ} (ht : Numeral q t) : ∃ c u, t = c :: u ∧ (c = '-' ∨ c.isDigit) := by
  obtain ⟨hs, hw, hf, he⟩ := ht
  cases hs with
  | minus => exact ⟨_, _, rfl, .inl rfl⟩
  | absent =>
    cases hw with
    | zero => exact ⟨_, _, rfl, .inr rfl⟩
    | digits hzero hdigits => exact ⟨_, _, rfl, .inr (hdigits.2 _ (by simp))⟩

theorem Fraction.head {f : List Char} {c : Char} (ht : Fraction f t)
    (hr : ∀ c ∈ rest.head?, c.isDigit = false) (hc : c ∈ (t ++ rest).head?) : c.isDigit = false := by
  cases ht with
  | absent => exact hr c hc
  | digits hdigits =>
    obtain rfl : '.' = c := by simpa using hc
    rfl

theorem Exponent.head {n : ℤ} {c : Char} (ht : Exponent n t) (hr : Clear rest)
    (hc : c ∈ (t ++ rest).head?) : c.isDigit = false ∧ c ≠ '.' := by
  cases ht with
  | absent =>
    obtain ⟨hdigit, hpoint, -⟩ := hr c hc
    exact ⟨hdigit, hpoint⟩
  | lower hpower =>
    obtain rfl : 'e' = c := by simpa using hc
    decide
  | upper hpower =>
    obtain rfl : 'E' = c := by simpa using hc
    decide

theorem readNumeral?_append {q : ℚ} (hq : Numeral q t) (hr : Clear rest) :
    readNumeral? (t ++ rest) = some (q, rest) := by
  obtain @⟨negative, s, whole, fraction, f, exponent, e, hs, hw, hf, he⟩ := hq
  have hexponent : readExponent? (e ++ rest) = some (exponent, rest) := readExponent?_append he hr
  have hfraction : readFraction? (f ++ (e ++ rest)) = some (fraction, e ++ rest) :=
    readFraction?_append hf fun c hc ↦ he.head hr hc
  have hwhole : readWhole? (whole ++ (f ++ (e ++ rest))) = some (whole, f ++ (e ++ rest)) :=
    readWhole?_append hw fun c hc ↦ hf.head (fun c hc ↦ (he.head hr hc).1) hc
  have hsign : readSign? (s ++ (whole ++ (f ++ (e ++ rest)))) =
      some (negative, whole ++ (f ++ (e ++ rest))) := by
    apply readSign?_append hs
    intro hminus
    have hdigit := hw.head hminus
    contradiction
  simp [readNumeral?, hsign, hwhole, hfraction, hexponent]

/-! ### What is read as a number is written as one -/

theorem of_readDigits? (h : readDigits? text = some (t, rest)) : Digits t ∧ text = t ++ rest := by
  unfold readDigits? at h
  split at h
  · cases h
  · rename_i hne
    obtain ⟨rfl, rfl⟩ : text.takeWhile Char.isDigit = t ∧ text.dropWhile Char.isDigit = rest := by
      simpa using h
    refine ⟨⟨hne, fun c hc ↦ List.mem_takeWhile_imp hc⟩, ?_⟩
    rw [List.takeWhile_append_dropWhile]

theorem of_readWhole? (h : readWhole? text = some (t, rest)) : Whole t ∧ text = t ++ rest := by
  unfold readWhole? at h
  split at h
  · obtain ⟨rfl, rfl⟩ : ['0'] = t ∧ _ = rest := by simpa using h
    exact ⟨.zero, rfl⟩
  · rename_i hzero
    obtain ⟨hdigits, rfl⟩ := of_readDigits? h
    obtain ⟨c, t, rfl⟩ := List.exists_cons_of_ne_nil hdigits.1
    refine ⟨.digits ?_ hdigits, rfl⟩
    intro hc
    subst hc
    exact hzero _ rfl

theorem of_readFraction? {f : List Char} (h : readFraction? text = some (f, rest)) :
    ∃ t, Fraction f t ∧ text = t ++ rest := by
  unfold readFraction? at h
  split at h
  · obtain ⟨hdigits, rfl⟩ := of_readDigits? h
    exact ⟨_, .digits hdigits, rfl⟩
  · obtain ⟨rfl, rfl⟩ : [] = f ∧ text = rest := by simpa using h
    exact ⟨_, .absent, rfl⟩

theorem of_readPower? {n : ℤ} (h : readPower? text = some (n, rest)) :
    ∃ t, Power n t ∧ text = t ++ rest := by
  unfold readPower? at h
  split at h
  all_goals
    obtain ⟨⟨t, rest'⟩, hread, hn⟩ := Option.bind_eq_some_iff.mp h
    obtain ⟨hdigits, rfl⟩ := of_readDigits? hread
    obtain ⟨rfl, rfl⟩ : _ = n ∧ rest' = rest := by simpa using hn
  · exact ⟨_, .minus hdigits, rfl⟩
  · exact ⟨_, .plus hdigits, rfl⟩
  · exact ⟨_, .bare hdigits, rfl⟩

theorem of_readExponent? {n : ℤ} (h : readExponent? text = some (n, rest)) :
    ∃ t, Exponent n t ∧ text = t ++ rest := by
  unfold readExponent? at h
  split at h
  · obtain ⟨t, hpower, rfl⟩ := of_readPower? h
    exact ⟨_, .lower hpower, rfl⟩
  · obtain ⟨t, hpower, rfl⟩ := of_readPower? h
    exact ⟨_, .upper hpower, rfl⟩
  · obtain ⟨rfl, rfl⟩ : 0 = n ∧ text = rest := by simpa using h
    exact ⟨_, .absent, rfl⟩

theorem of_readSign? {negative : Bool} (h : readSign? text = some (negative, rest)) :
    ∃ t, Sign negative t ∧ text = t ++ rest := by
  unfold readSign? at h
  split at h
  · obtain ⟨rfl, rfl⟩ : true = negative ∧ _ = rest := by simpa using h
    exact ⟨_, .minus, rfl⟩
  · obtain ⟨rfl, rfl⟩ : false = negative ∧ text = rest := by simpa using h
    exact ⟨_, .absent, rfl⟩

theorem of_readNumeral? {q : ℚ} (h : readNumeral? text = some (q, rest)) :
    ∃ t, Numeral q t ∧ text = t ++ rest := by
  obtain ⟨⟨negative, text₁⟩, hsign, h⟩ := Option.bind_eq_some_iff.mp h
  obtain ⟨⟨whole, text₂⟩, hwhole, h⟩ := Option.bind_eq_some_iff.mp h
  obtain ⟨⟨fraction, text₃⟩, hfraction, h⟩ := Option.bind_eq_some_iff.mp h
  obtain ⟨⟨exponent, text₄⟩, hexponent, h⟩ := Option.bind_eq_some_iff.mp h
  obtain ⟨rfl, rfl⟩ : _ = q ∧ text₄ = rest := by simpa using h
  obtain ⟨s, hs, rfl⟩ := of_readSign? hsign
  obtain ⟨hw, rfl⟩ := of_readWhole? hwhole
  obtain ⟨f, hf, rfl⟩ := of_readFraction? hfraction
  obtain ⟨e, he, rfl⟩ := of_readExponent? hexponent
  refine ⟨_, .mk hs hw hf he, ?_⟩
  simp only [List.append_assoc]

end Lookahead.Json
