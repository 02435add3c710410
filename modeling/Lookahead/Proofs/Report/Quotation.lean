import Lookahead.Report.Json

/-!
Strings in JSON texts: characters between quotation marks, as they are or escaped. An escape is a
character behind a backslash or a unit of UTF-16, and two halves of a pair make up one character.
-/

namespace Lookahead.Json

/-- What a character stands for behind a backslash. -/
def escaped? : Char → Option Char
  | '"' => some '"'
  | '\\' => some '\\'
  | '/' => some '/'
  | 'b' => some '\x08'
  | 'f' => some '\x0c'
  | 'n' => some '\n'
  | 'r' => some '\r'
  | 't' => some '\t'
  | _ => none

def hexDigit? (c : Char) : Option Nat :=
  if c.isDigit then some (c.toNat - 48)
  else if 'a' ≤ c ∧ c ≤ 'f' then some (c.toNat - 87)
  else if 'A' ≤ c ∧ c ≤ 'F' then some (c.toNat - 55)
  else none

/-- The character beyond the first 65536 whose halves these are. -/
def joined? (high low : Nat) : Option Char :=
  if 0xD800 ≤ high ∧ high < 0xDC00 ∧ 0xDC00 ≤ low ∧ low < 0xE000 then
    some (Char.ofNat (0x10000 + (high - 0xD800) * 0x400 + (low - 0xDC00)))
  else none

inductive CodeUnit : Nat → List Char → Prop
  | mk {a b c d k l m n} : hexDigit? a = some k → hexDigit? b = some l → hexDigit? c = some m →
      hexDigit? d = some n → CodeUnit (((k * 16 + l) * 16 + m) * 16 + n) [a, b, c, d]

/-- Half of a pair stands for nothing on its own. -/
inductive Character : Char → List Char → Prop
  | plain {c} : 32 ≤ c.toNat → c ≠ '"' → c ≠ '\\' → Character c [c]
  | escaped {e c} : escaped? e = some c → Character c ['\\', e]
  | unit {n t} : CodeUnit n t → n.isValidChar → Character (Char.ofNat n) ('\\' :: 'u' :: t)
  | pair {high low c t u} : CodeUnit high t → CodeUnit low u → joined? high low = some c →
      Character c ('\\' :: 'u' :: t ++ '\\' :: 'u' :: u)

inductive Characters : List Char → List Char → Prop
  | nil : Characters [] []
  | cons {c cs t u} : Character c t → Characters cs u → Characters (c :: cs) (t ++ u)

inductive Quotation : String → List Char → Prop
  | mk {s t} : Characters s.toList t → Quotation s ('"' :: t ++ ['"'])

/-! ### The reader -/

def readUnit? : List Char → Option (Nat × List Char)
  | a :: b :: c :: d :: rest => do
    let k ← hexDigit? a
    let l ← hexDigit? b
    let m ← hexDigit? c
    let n ← hexDigit? d
    return (((k * 16 + l) * 16 + m) * 16 + n, rest)
  | _ => none

def readLow? (high : Nat) : List Char → Option (Char × List Char)
  | '\\' :: 'u' :: text => do
    let (low, rest) ← readUnit? text
    let c ← joined? high low
    return (c, rest)
  | _ => none

def readCode? (text : List Char) : Option (Char × List Char) := do
  let (n, rest) ← readUnit? text
  if n.isValidChar then return (Char.ofNat n, rest) else readLow? n rest

def readEscape? : List Char → Option (Char × List Char)
  | 'u' :: text => readCode? text
  | e :: rest => do
    let c ← escaped? e
    return (c, rest)
  | [] => none

def readCharacter? : List Char → Option (Char × List Char)
  | '\\' :: text => readEscape? text
  | c :: rest => if 32 ≤ c.toNat ∧ c ≠ '"' then some (c, rest) else none
  | [] => none

def readCharacters? : Nat → List Char → Option (List Char × List Char)
  | 0, _ => none
  | fuel + 1, text => match text with
    | '"' :: rest => some ([], rest)
    | text => do
      let (c, text) ← readCharacter? text
      let (cs, rest) ← readCharacters? fuel text
      return (c :: cs, rest)

def readQuotation? : List Char → Option (String × List Char)
  | '"' :: text => do
    let (cs, rest) ← readCharacters? text.length text
    return (String.ofList cs, rest)
  | _ => none

/-! ### What is written as a string is read as that string -/

variable {t text rest : List Char}

theorem readUnit?_append {n : Nat} (ht : CodeUnit n t) : readUnit? (t ++ rest) = some (n, rest) := by
  obtain ⟨ha, hb, hc, hd⟩ := ht
  simp [readUnit?, ha, hb, hc, hd]

theorem not_isValidChar_of_joined? {high low : Nat} {c : Char} (h : joined? high low = some c) :
    ¬ high.isValidChar := by
  unfold joined? at h
  split at h
  · unfold Nat.isValidChar
    omega
  · cases h

theorem readCharacter?_append {c : Char} (ht : Character c t) :
    readCharacter? (t ++ rest) = some (c, rest) := by
  cases ht with
  | plain hcontrol hquote hbackslash =>
    simp [readCharacter?, hcontrol, hquote]
  | @escaped e _ he =>
    have hu : e ≠ 'u' := by
      intro hu
      subst hu
      cases he
    simp [readCharacter?, readEscape?, he]
  | unit hunit hvalid => simp [readCharacter?, readEscape?, readCode?, readUnit?_append hunit, hvalid]
  | pair hhigh hlow hjoined =>
    have hhalf := not_isValidChar_of_joined? hjoined
    simp [readCharacter?, readEscape?, readCode?, readLow?, readUnit?_append hhigh,
      readUnit?_append hlow, hhalf, hjoined]

theorem Character.exists_cons {c : Char} (ht : Character c t) : ∃ d u, t = d :: u ∧ d ≠ '"' := by
  cases ht with
  | plain hcontrol hquote hbackslash => exact ⟨_, _, rfl, hquote⟩
  | escaped he => exact ⟨_, _, rfl, by decide⟩
  | unit hunit hvalid => exact ⟨_, _, rfl, by decide⟩
  | pair hhigh hlow hjoined => exact ⟨_, _, rfl, by decide⟩

theorem readCharacters?_cons {c d : Char} {cs : List Char} {fuel : Nat} (hd : d ≠ '"')
    (hfirst : readCharacter? (d :: text) = some (c, t))
    (hrest : readCharacters? fuel t = some (cs, rest)) :
    readCharacters? (fuel + 1) (d :: text) = some (c :: cs, rest) := by
  simp [readCharacters?, hfirst, hrest, hd]

theorem readCharacters?_append {cs : List Char} {fuel : Nat} (ht : Characters cs t)
    (hfuel : t.length < fuel) : readCharacters? fuel (t ++ '"' :: rest) = some (cs, rest) := by
  induction ht generalizing fuel with
  | nil =>
    obtain ⟨fuel, rfl⟩ := Nat.exists_eq_add_one_of_ne_zero (Nat.ne_zero_of_lt hfuel)
    rfl
  | @cons c cs t u hc hcs ih =>
    obtain ⟨fuel, rfl⟩ := Nat.exists_eq_add_one_of_ne_zero (Nat.ne_zero_of_lt hfuel)
    have hfirst : readCharacter? (t ++ (u ++ '"' :: rest)) = some (c, u ++ '"' :: rest) :=
      readCharacter?_append hc
    obtain ⟨d, t, rfl, hd⟩ := hc.exists_cons
    rw [List.append_assoc]
    refine readCharacters?_cons hd hfirst (ih ?_)
    simp only [List.cons_append, List.length_cons, List.length_append] at hfuel
    omega

theorem readQuotation?_append {s : String} (ht : Quotation s t) :
    readQuotation? (t ++ rest) = some (s, rest) := by
  obtain @⟨t, ht⟩ := ht
  have hread : readCharacters? (t ++ '"' :: rest).length (t ++ '"' :: rest) =
      some (s.toList, rest) := readCharacters?_append ht (by simp)
  simp only [List.length_append, List.length_cons] at hread
  simp [readQuotation?, hread]

/-! ### What is read as a string is written as one -/

theorem of_readUnit? {n : Nat} (h : readUnit? text = some (n, rest)) :
    ∃ t, CodeUnit n t ∧ text = t ++ rest := by
  unfold readUnit? at h
  split at h
  · obtain ⟨k, ha, h⟩ := Option.bind_eq_some_iff.mp h
    obtain ⟨l, hb, h⟩ := Option.bind_eq_some_iff.mp h
    obtain ⟨m, hc, h⟩ := Option.bind_eq_some_iff.mp h
    obtain ⟨o, hd, h⟩ := Option.bind_eq_some_iff.mp h
    obtain ⟨rfl, rfl⟩ : _ = n ∧ _ = rest := by simpa using h
    exact ⟨_, .mk ha hb hc hd, rfl⟩
  · cases h

theorem of_readLow? {high : Nat} {c : Char} (h : readLow? high text = some (c, rest)) :
    ∃ low t, CodeUnit low t ∧ joined? high low = some c ∧ text = '\\' :: 'u' :: t ++ rest := by
  unfold readLow? at h
  split at h
  · obtain ⟨⟨low, text⟩, hunit, h⟩ := Option.bind_eq_some_iff.mp h
    obtain ⟨d, hjoined, h⟩ := Option.bind_eq_some_iff.mp h
    obtain ⟨rfl, rfl⟩ : d = c ∧ text = rest := by simpa using h
    obtain ⟨t, ht, rfl⟩ := of_readUnit? hunit
    exact ⟨low, t, ht, hjoined, rfl⟩
  · cases h

theorem of_readCode? {c : Char} (h : readCode? text = some (c, rest)) :
    ∃ t, Character c ('\\' :: 'u' :: t) ∧ text = t ++ rest := by
  obtain ⟨⟨n, text'⟩, hunit, hcode⟩ := Option.bind_eq_some_iff.mp h
  obtain ⟨t, ht, rfl⟩ := of_readUnit? hunit
  dsimp only at hcode
  split at hcode
  · rename_i hvalid
    obtain ⟨rfl, rfl⟩ : Char.ofNat n = c ∧ text' = rest := by simpa using hcode
    exact ⟨t, .unit ht hvalid, rfl⟩
  · obtain ⟨low, u, hu, hjoined, rfl⟩ := of_readLow? hcode
    refine ⟨_, .pair ht hu hjoined, ?_⟩
    simp

theorem of_readEscape? {c : Char} (h : readEscape? text = some (c, rest)) :
    ∃ t, Character c ('\\' :: t) ∧ text = t ++ rest := by
  unfold readEscape? at h
  split at h
  · obtain ⟨t, ht, rfl⟩ := of_readCode? h
    exact ⟨_, ht, rfl⟩
  · obtain ⟨d, he, h⟩ := Option.bind_eq_some_iff.mp h
    obtain ⟨rfl, rfl⟩ : d = c ∧ _ = rest := by simpa using h
    exact ⟨_, .escaped he, rfl⟩
  · cases h

theorem of_readCharacter? {c : Char} (h : readCharacter? text = some (c, rest)) :
    ∃ t, Character c t ∧ text = t ++ rest := by
  unfold readCharacter? at h
  split at h
  · obtain ⟨t, ht, rfl⟩ := of_readEscape? h
    exact ⟨_, ht, rfl⟩
  · rename_i hbackslash
    split at h
    · rename_i hplain
      obtain ⟨rfl, rfl⟩ : _ = c ∧ _ = rest := by simpa using h
      exact ⟨_, .plain hplain.1 hplain.2 hbackslash, rfl⟩
    · cases h
  · cases h

theorem of_readCharacters? {cs : List Char} {fuel : Nat}
    (h : readCharacters? fuel text = some (cs, rest)) :
    ∃ t, Characters cs t ∧ text = t ++ '"' :: rest := by
  induction fuel generalizing text cs with
  | zero => cases h
  | succ fuel ih =>
    unfold readCharacters? at h
    split at h
    · obtain ⟨rfl, rfl⟩ : [] = cs ∧ _ = rest := by simpa using h
      exact ⟨_, .nil, rfl⟩
    · obtain ⟨⟨c, text⟩, hfirst, h⟩ := Option.bind_eq_some_iff.mp h
      obtain ⟨⟨ds, rest'⟩, hrest, h⟩ := Option.bind_eq_some_iff.mp h
      obtain ⟨rfl, rfl⟩ : c :: ds = cs ∧ rest' = rest := by simpa using h
      obtain ⟨t, ht, rfl⟩ := of_readCharacter? hfirst
      obtain ⟨u, hu, rfl⟩ := ih hrest
      refine ⟨_, .cons ht hu, ?_⟩
      rw [List.append_assoc]

theorem of_readQuotation? {s : String} (h : readQuotation? text = some (s, rest)) :
    ∃ t, Quotation s t ∧ text = t ++ rest := by
  unfold readQuotation? at h
  split at h
  · obtain ⟨⟨cs, text⟩, hread, h⟩ := Option.bind_eq_some_iff.mp h
    obtain ⟨rfl, rfl⟩ : String.ofList cs = s ∧ text = rest := by simpa using h
    obtain ⟨t, ht, rfl⟩ := of_readCharacters? hread
    refine ⟨_, .mk (t := t) ?_, ?_⟩
    · simpa using ht
    · simp
  · cases h

end Lookahead.Json
