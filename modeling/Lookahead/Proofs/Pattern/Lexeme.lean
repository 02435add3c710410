import Lookahead.Proofs.Pattern.Literal

/-!
Tracks of names, relations and numbers, and how much of a text they take.
-/

namespace Lookahead

/-! ### Ranges of characters -/

theorem rank_le_rank_iff {c d : Char} : rank c ≤ rank d ↔ c ≤ d := by
  have hc := c.valid
  have hd := d.valid
  simp only [UInt32.isValidChar, Nat.isValidChar] at hc hd
  rw [Char.le_def, UInt32.le_iff_toNat_le]
  simp only [rank, Char.toNat]
  split <;> split <;> omega

theorem CharSet.contains_ofRanges {ranges : List (Char × Char)} (h : ∀ r ∈ ranges, r.1 ≤ r.2)
    (c : Char) : (ofRanges ranges).contains c = ranges.any fun r ↦ r.1 ≤ c && c ≤ r.2 := by
  have hspans : ∀ r ∈ ranges.map fun r ↦ (rank r.1, rank r.2), r.1 ≤ r.2 := by
    intro r hr
    obtain ⟨r, hmem, rfl⟩ := List.mem_map.1 hr
    exact rank_le_rank_iff.2 (h r hmem)
  rw [contains, ofRanges, covers_ofSpans hspans, covers, List.any_map]
  simp only [Function.comp_def, rank_le_rank_iff]

theorem isDigit_eq (c : Char) : c.isDigit = ('0' ≤ c && c ≤ '9') := by
  simp [Char.isDigit, Char.le_def]

/-! ### Decimal numbers -/

/-- How much of a text is a point with digits behind it. -/
def fractionLength : List Char → Nat
  | '.' :: rest => if rest.takeWhile Char.isDigit = [] then 0
    else 1 + (rest.takeWhile Char.isDigit).length
  | _ => 0

/-- How many digits of a text belong together. Behind a zero there is none. -/
def wholeLength : List Char → Nat
  | '0' :: _ => 1
  | text => (text.takeWhile Char.isDigit).length

namespace Track

/-! ### Characters -/

/-- A set takes one character. -/
theorem stop?_take (s : CharSet) (x : Char) (rest : List Char) :
    (seq textStart (take s)).stop? (x :: rest) = if s.contains x then some 1 else none := by
  have harrive : Walk.arrive (seq textStart (take s)) ⟨0, []⟩ true none {} = ⟨[0], true, none⟩ := rfl
  rw [stop?_eq_along rfl, harrive, Walk.along, step_start]
  by_cases hx : s.contains x
  · simp [after, hx, Front.accept, Walk.arrive, Walk.along_of_idle]
  · simp [after, hx, Walk.arrive, Walk.along_of_idle]

/-! ### Names -/

/-- A character of one set and then as many as there are of another. -/
def headed (s t : CharSet) : Track := seq (take s) (star true (take t))

theorem step_headed (s t : CharSet) (seeking : Bool) (i : Nat) (stop : Option Nat) (x : Char)
    (rest : List Char) :
    Walk.step (seq textStart (headed s t)) ⟨[2], seeking, stop⟩ i x rest =
      if t.contains x then ⟨[2], false, some (i + 1)⟩ else ⟨[], false, stop⟩ := by
  rw [step_start]
  by_cases hx : t.contains x
  · simp [headed, after, enter, size, Front.pass, Front.both, Front.addTake, Front.accept,
      Walk.arrive, hx]
  · simp [headed, after, size, Walk.arrive, hx]

theorem stop?_headed (s t : CharSet) (x : Char) (rest : List Char) :
    (seq textStart (headed s t)).stop? (x :: rest) =
      if s.contains x then some (1 + (rest.takeWhile t.contains).length) else none := by
  have harrive : Walk.arrive (seq textStart (headed s t)) ⟨0, []⟩ true none {} =
      ⟨[0], true, none⟩ := rfl
  rw [stop?_eq_along rfl, harrive, Walk.along, step_start]
  by_cases hx : s.contains x
  · have hfirst : Walk.arrive (seq textStart (headed s t)) ⟨0 + 1, rest⟩ false none
        (after ⟨0 + 1, rest⟩ x 0 (headed s t) 0 Front.accept {}) = ⟨[2], false, some 1⟩ := by
      simp [headed, after, enter, size, Front.pass, Front.both, Front.addTake, Front.accept,
        Walk.arrive, hx]
    rw [hfirst, stop_along_of_steady (step_headed s t), if_pos hx]
    split
    · rename_i hnil
      rw [hnil, List.length_nil, Nat.add_zero]
    · rfl
  · have hfirst : after ⟨0 + 1, rest⟩ x 0 (headed s t) 0 Front.accept {} = {} := by
      simp [headed, after, size, hx]
    rw [hfirst, if_neg hx]
    exact congrArg Walk.stop (Walk.along_of_idle rfl rfl _ _)

/-! ### Relations -/

/-- An angle bracket, with an equals sign behind it if there is one. -/
def relation : Track :=
  alt (ofText ['>', '=']) (alt (ofText ['<', '=']) (alt (ofText ['>']) (ofText ['<'])))

theorem stop?_relation (x : Char) (rest : List Char) :
    (seq textStart relation).stop? (x :: rest) =
      if x = '>' ∨ x = '<' then some (if rest.head? = some '=' then 2 else 1) else none := by
  have harrive : Walk.arrive (seq textStart relation) ⟨0, []⟩ true none {} =
      ⟨[1, 4, 7, 8], true, none⟩ := rfl
  have hequals (node : Nat) (hnode : node = 2 ∨ node = 5) (i : Nat) (y : Char) (rest : List Char) :
      Walk.step (seq textStart relation) ⟨[node], false, some 1⟩ i y rest =
        ⟨[], false, some (if y = '=' then i + 1 else 1)⟩ := by
    rcases hnode with rfl | rfl
    all_goals
      rw [step_of_start]
      by_cases hy : y = '='
      · simp [relation, ofText, after, size, CharSet.contains_singleton, hy, Front.accept,
          Walk.arrive]
      · simp [relation, ofText, after, size, CharSet.contains_singleton, hy, Ne.symm hy, Walk.arrive]
  have hbehind (node : Nat) (hnode : node = 2 ∨ node = 5) :
      (Walk.along (seq textStart relation) ⟨[node], false, some 1⟩ 1 rest).stop =
        some (if rest.head? = some '=' then 2 else 1) := by
    cases rest with
    | nil => rfl
    | cons y rest =>
      rw [Walk.along, hequals node hnode, Walk.along_of_idle rfl rfl]
      simp
  rw [stop?_eq_along rfl, harrive, Walk.along, step_of_start]
  by_cases hgreater : x = '>'
  · subst hgreater
    exact hbehind 2 (.inl rfl)
  · by_cases hless : x = '<'
    · subst hless
      exact hbehind 5 (.inr rfl)
    · have hfront : [1, 4, 7, 8].foldl
          (fun f m ↦ after ⟨0 + 1, rest⟩ x m relation 0 Front.accept f) {} = {} := by
        simp [relation, ofText, after, size, CharSet.contains_singleton, Ne.symm hgreater,
          Ne.symm hless]
      rw [hfront, if_neg (by simp [hgreater, hless])]
      exact congrArg Walk.stop (Walk.along_of_idle rfl rfl _ _)

/-! ### Numbers -/

def nonzero : CharSet := .ofRanges [('1', '9')]

def digits : CharSet := .ofRanges [('0', '9')]

/-- A zero, or any number of digits of which the first is another one. -/
def whole : Track := alt (headed nonzero digits) (ofText ['0'])

/-- A whole number, with a point and digits behind it if there are any. -/
def decimal : Track := alt (seq whole (seq (ofText ['.']) (plus true (take digits)))) whole

theorem contains_digits : digits.contains = Char.isDigit := by
  funext x
  rw [digits, CharSet.contains_ofRanges (by decide), isDigit_eq]
  simp only [List.any_cons, List.any_nil, Bool.or_false]

theorem contains_nonzero_iff {x : Char} : nonzero.contains x ↔ x.isDigit ∧ x ≠ '0' := by
  have hnonzero : nonzero = ⟨[(49, 57)]⟩ := rfl
  have hdigits : digits = ⟨[(48, 57)]⟩ := rfl
  have hzero : x = '0' ↔ rank x = 48 :=
    ⟨fun h ↦ congrArg rank h, fun h ↦ rank_injective (h.trans (rfl : 48 = rank '0'))⟩
  rw [← contains_digits, hnonzero, hdigits, Ne, hzero]
  simp only [CharSet.contains, CharSet.covers, List.any_cons, List.any_nil, Bool.or_false,
    Bool.and_eq_true, decide_eq_true_eq]
  omega

theorem step_whole (i : Nat) (stop : Option Nat) (x : Char) (rest : List Char) :
    Walk.step (seq textStart decimal) ⟨[4, 6, 12], false, stop⟩ i x rest =
      if x.isDigit then ⟨[4, 6, 12], false, some (i + 1)⟩
      else if x = '.' then ⟨[8], false, stop⟩ else ⟨[], false, stop⟩ := by
  rw [step_of_start]
  by_cases hd : x.isDigit
  · have hp : x ≠ '.' := by
      intro hp
      subst hp
      simp at hd
    simp [decimal, whole, headed, ofText, after, enter, size, Front.pass, Front.both,
      Front.addTake, Front.accept, Walk.arrive, contains_digits, CharSet.contains_singleton, hd, Ne.symm hp]
  · by_cases hp : x = '.'
    · subst hp
      simp [decimal, whole, headed, ofText, after, enter, size, Front.pass, Front.both,
        Front.addTake, Front.accept, Walk.arrive, contains_digits, CharSet.contains_singleton]
    · simp [decimal, whole, headed, ofText, after, size, Walk.arrive, contains_digits,
        CharSet.contains_singleton, hd, hp, Ne.symm hp]

theorem step_point (i : Nat) (stop : Option Nat) (x : Char) (rest : List Char) :
    Walk.step (seq textStart decimal) ⟨[6], false, stop⟩ i x rest =
      if x = '.' then ⟨[8], false, stop⟩ else ⟨[], false, stop⟩ := by
  rw [step_start]
  by_cases hp : x = '.'
  · subst hp
    simp [decimal, whole, headed, ofText, after, enter, size, Front.pass, Front.addTake,
      Walk.arrive, CharSet.contains_singleton]
  · simp [decimal, whole, headed, ofText, after, size, Walk.arrive, CharSet.contains_singleton, hp,
      Ne.symm hp]

theorem step_fraction (seeking : Bool) (i : Nat) (stop : Option Nat) (x : Char)
    (rest : List Char) :
    Walk.step (seq textStart decimal) ⟨[8], seeking, stop⟩ i x rest =
      if x.isDigit then ⟨[8], false, some (i + 1)⟩ else ⟨[], false, stop⟩ := by
  rw [step_start]
  by_cases hd : x.isDigit
  · simp [decimal, whole, headed, ofText, after, enter, size, Front.pass, Front.both,
      Front.addTake, Front.accept, Walk.arrive, contains_digits, hd]
  · simp [decimal, whole, headed, ofText, after, size, Walk.arrive, contains_digits, hd]

/-- While the characters are such that the nodes stay the same, the walk ends where it has come to. -/
theorem along_run {t : Track} {nodes : List Nat} {good : Char → Bool}
    (hstep : ∀ i stop x rest, good x →
      Walk.step t ⟨nodes, false, stop⟩ i x rest = ⟨nodes, false, some (i + 1)⟩)
    (i : Nat) (text : List Char) :
    Walk.along t ⟨nodes, false, some i⟩ i text =
      Walk.along t ⟨nodes, false, some (i + (text.takeWhile good).length)⟩
        (i + (text.takeWhile good).length) (text.dropWhile good) := by
  induction text generalizing i with
  | nil => rfl
  | cons x text ih =>
    by_cases hx : good x
    · rw [List.takeWhile_cons_of_pos hx, List.dropWhile_cons_of_pos hx, Walk.along,
        hstep i _ x text hx, ih, List.length_cons, Nat.add_right_comm, Nat.add_assoc]
    · rw [List.takeWhile_cons_of_neg hx, List.dropWhile_cons_of_neg hx]
      rfl

/-- Behind the digits of a whole number the walk goes on with a point alone. -/
theorem stop_along_whole {nodes : List Nat} {i : Nat} {text : List Char}
    (hstep : ∀ x rest, text = x :: rest →
      Walk.step (seq textStart decimal) ⟨nodes, false, some i⟩ i x rest =
        if x = '.' then ⟨[8], false, some i⟩ else ⟨[], false, some i⟩) :
    (Walk.along (seq textStart decimal) ⟨nodes, false, some i⟩ i text).stop =
      some (i + fractionLength text) := by
  cases text with
  | nil => rfl
  | cons x rest =>
    rw [Walk.along, hstep x rest rfl]
    by_cases hp : x = '.'
    · subst hp
      rw [if_pos rfl, stop_along_of_steady step_fraction, fractionLength]
      split
      · rfl
      · rw [Nat.add_assoc]
    · rw [if_neg hp, Walk.along_of_idle rfl rfl]
      simp [fractionLength, hp]

/-- A number is as many digits as belong together, and the fraction behind them if there is one. -/
theorem stop?_decimal (x : Char) (rest : List Char) :
    (seq textStart decimal).stop? (x :: rest) =
      if x.isDigit then
        some (wholeLength (x :: rest) + fractionLength ((x :: rest).drop (wholeLength (x :: rest))))
      else none := by
  have harrive : Walk.arrive (seq textStart decimal) ⟨0, []⟩ true none {} =
      ⟨[2, 5, 10, 13], true, none⟩ := rfl
  rw [stop?_eq_along rfl, harrive, Walk.along, step_of_start]
  by_cases hzero : x = '0'
  · subst hzero
    have hfirst : Walk.arrive (seq textStart decimal) ⟨0 + 1, rest⟩ false none
        ([2, 5, 10, 13].foldl (fun f m ↦ after ⟨0 + 1, rest⟩ '0' m decimal 0 Front.accept f) {}) =
        ⟨[6], false, some 1⟩ := rfl
    rw [hfirst, stop_along_whole fun y rest _ ↦ step_point 1 (some 1) y rest]
    rfl
  · by_cases hd : x.isDigit
    · have hnonzero : nonzero.contains x := contains_nonzero_iff.2 ⟨hd, hzero⟩
      have hfirst : Walk.arrive (seq textStart decimal) ⟨0 + 1, rest⟩ false none
          ([2, 5, 10, 13].foldl (fun f m ↦ after ⟨0 + 1, rest⟩ x m decimal 0 Front.accept f) {}) =
          ⟨[4, 6, 12], false, some 1⟩ := by
        simp [decimal, whole, headed, ofText, after, enter, size, Front.pass, Front.both,
          Front.addTake, Front.accept, Walk.arrive, CharSet.contains_singleton, hnonzero,
          Ne.symm hzero]
      have hwhole : wholeLength (x :: rest) = 1 + (rest.takeWhile Char.isDigit).length := by
        rw [wholeLength, List.takeWhile_cons_of_pos hd, List.length_cons, Nat.add_comm]
        intro _ h
        exact hzero (List.cons.inj h).1
      have hbehind : (x :: rest).drop (wholeLength (x :: rest)) = rest.dropWhile Char.isDigit := by
        rw [hwhole, Nat.add_comm, List.drop_succ_cons]
        calc rest.drop (rest.takeWhile Char.isDigit).length
          _ = (rest.takeWhile Char.isDigit ++ rest.dropWhile Char.isDigit).drop
              (rest.takeWhile Char.isDigit).length := by rw [List.takeWhile_append_dropWhile]
          _ = rest.dropWhile Char.isDigit := List.drop_left
      rw [hfirst, along_run fun i stop y rest hy ↦ by rw [step_whole, if_pos hy], if_pos hd,
        hbehind, hwhole]
      apply stop_along_whole
      intro y behind hy
      have hnot := List.head?_dropWhile_not Char.isDigit rest
      rw [hy] at hnot
      rw [step_whole, if_neg (by simpa using hnot)]
    · have hnonzero : nonzero.contains x = false := by
        rw [← Bool.not_eq_true, contains_nonzero_iff]
        exact fun h ↦ hd h.1
      have hfront : [2, 5, 10, 13].foldl
          (fun f m ↦ after ⟨0 + 1, rest⟩ x m decimal 0 Front.accept f) {} = {} := by
        simp [decimal, whole, headed, ofText, after, size, CharSet.contains_singleton, hnonzero,
          Ne.symm hzero]
      rw [hfront, if_neg hd]
      exact congrArg Walk.stop (Walk.along_of_idle rfl rfl _ _)

end Track

end Lookahead
