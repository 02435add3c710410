/-!
Sets of characters. A set is kept as spans of ranks in order, with room between neighbours, so that
two ways of writing one set come to the same value.
-/

namespace Lookahead

/-- The characters numbered in their order, without a gap for the halves of surrogate pairs. -/
def rank (c : Char) : Nat := if c.toNat < 0xd800 then c.toNat else c.toNat - 0x800

def lastRank : Nat := 0x10f7ff

/-- The character of a rank. -/
def ofRank (n : Nat) : Char := Char.ofNat (if n < 0xd800 then n else n + 0x800)

/-- The first and the last rank of some neighbouring characters. -/
abbrev Span := Nat × Nat

structure CharSet where
  spans : List Span
deriving DecidableEq

namespace CharSet

def covers (spans : List Span) (n : Nat) : Bool := spans.any fun r => r.1 ≤ n && n ≤ r.2

def contains (s : CharSet) (c : Char) : Bool := covers s.spans (rank c)

/-- Puts a span among others in order, and joins it with those that it meets or touches. -/
def insert (r : Span) : List Span → List Span
  | [] => [r]
  | s :: spans =>
    if r.2 + 1 < s.1 then r :: s :: spans
    else if s.2 + 1 < r.1 then s :: insert r spans
    else insert (min r.1 s.1, max r.2 s.2) spans

/-- What lies between spans in order, from a rank on. -/
def gaps : Nat → List Span → List Span
  | low, [] => if low ≤ lastRank then [(low, lastRank)] else []
  | low, s :: spans => (if low < s.1 then [(low, s.1 - 1)] else []) ++ gaps (s.2 + 1) spans

def ofSpans (spans : List Span) : CharSet := ⟨spans.foldr insert []⟩

def ofRanges (ranges : List (Char × Char)) : CharSet :=
  ofSpans (ranges.map fun r => (rank r.1, rank r.2))

def singleton (c : Char) : CharSet := ⟨[(rank c, rank c)]⟩

def complement (s : CharSet) : CharSet := ⟨gaps 0 s.spans⟩

def union (s t : CharSet) : CharSet := ofSpans (s.spans ++ t.spans)

/-- Every character that does not end a line. -/
def anyOfLine : CharSet := (singleton '\n').complement

/-- The character of a set that has no other. -/
def single? (s : CharSet) : Option Char :=
  match s.spans with
  | [(a, b)] => if a = b then some (ofRank a) else none
  | _ => none

/-- Spans in order from a rank on, with at least one rank between neighbours. -/
def Ordered : Nat → List Span → Prop
  | _, [] => True
  | low, s :: spans => low ≤ s.1 ∧ s.1 ≤ s.2 ∧ Ordered (s.2 + 2) spans

theorem Ordered.of_le {m n : Nat} {spans : List Span} (h : Ordered n spans) (hmn : m ≤ n) :
    Ordered m spans := by
  cases spans with
  | nil => trivial
  | cons s spans => exact ⟨Nat.le_trans hmn h.1, h.2⟩

theorem Ordered.insert {low : Nat} {r : Span} {spans : List Span} (h : Ordered low spans)
    (hl : low ≤ r.1) (hr : r.1 ≤ r.2) : Ordered low (insert r spans) := by
  induction spans generalizing low r with
  | nil => exact ⟨hl, hr, trivial⟩
  | cons s spans ih =>
    obtain ⟨hs, hs', h⟩ := h
    unfold CharSet.insert
    split
    · exact ⟨hl, hr, by omega, hs', h⟩
    · split
      · exact ⟨hs, hs', ih h (by omega) hr⟩
      · exact ih (h.of_le (by omega)) (by simp; omega) (by simp; omega)

theorem Ordered.covers_eq_false {low n : Nat} {spans : List Span} (h : Ordered low spans)
    (hn : n < low) : covers spans n = false := by
  induction spans generalizing low with
  | nil => rfl
  | cons s spans ih =>
    simp only [covers, List.any_cons, Bool.or_eq_false_iff]
    exact ⟨by have := h.1; simp; omega, ih h.2.2 (by have := h.1; have := h.2.1; omega)⟩

theorem covers_insert {low : Nat} {r : Span} {spans : List Span} (h : Ordered low spans)
    (hr : r.1 ≤ r.2) (n : Nat) :
    covers (insert r spans) n = (decide (r.1 ≤ n ∧ n ≤ r.2) || covers spans n) := by
  induction spans generalizing low r with
  | nil => simp [insert, covers]
  | cons s spans ih =>
    obtain ⟨hs, hs', h⟩ := h
    unfold insert
    split
    · simp [covers]
    · split
      · have hi := ih h hr
        simp only [covers, List.any_cons] at hi ⊢
        rw [hi, ← Bool.or_assoc, ← Bool.or_assoc, Bool.or_comm (decide (_ ∧ _))]
      · rw [ih h (by grind)]
        simp only [covers, List.any_cons, ← Bool.or_assoc]
        congr 1
        grind

theorem ordered_ofSpans {spans : List Span} (h : ∀ r ∈ spans, r.1 ≤ r.2) :
    Ordered 0 (ofSpans spans).spans := by
  induction spans with
  | nil => trivial
  | cons r spans ih =>
    exact (ih fun s hs => h s (by simp [hs])).insert (Nat.zero_le _) (h r (by simp))

theorem covers_ofSpans {spans : List Span} (h : ∀ r ∈ spans, r.1 ≤ r.2) (n : Nat) :
    covers (ofSpans spans).spans n = covers spans n := by
  induction spans with
  | nil => rfl
  | cons r spans ih =>
    have h' : ∀ s ∈ spans, s.1 ≤ s.2 := fun s hs => h s (by simp [hs])
    have := covers_insert (ordered_ofSpans h') (h r (by simp)) n
    rw [ih h'] at this
    simpa [covers, ofSpans] using this

theorem covers_append (r s : List Span) (n : Nat) : covers (r ++ s) n = (covers r n || covers s n) :=
  List.any_append

theorem covers_gaps_of_lt {low n : Nat} {spans : List Span} (h : Ordered low spans) (hn : n < low) :
    covers (gaps low spans) n = false := by
  induction spans generalizing low with
  | nil =>
    unfold gaps
    split
    · simp [covers]; omega
    · rfl
  | cons s spans ih =>
    obtain ⟨hs, hs', h⟩ := h
    rw [gaps, covers_append, ih (h.of_le (by omega)) (by omega), Bool.or_false]
    split
    · simp [covers]; omega
    · rfl

/-- What lies in the gaps is what the spans leave out. -/
theorem covers_gaps {low n : Nat} {spans : List Span} (h : Ordered low spans) (hl : low ≤ n)
    (hn : n ≤ lastRank) : covers (gaps low spans) n = !covers spans n := by
  induction spans generalizing low with
  | nil => simp [gaps, covers, Nat.le_trans hl hn, hl, hn]
  | cons s spans ih =>
    obtain ⟨hs, hs', h⟩ := h
    have hg : covers (if low < s.1 then [(low, s.1 - 1)] else []) n = decide (n < s.1) := by
      split <;> grind [covers]
    rw [gaps, covers_append, hg]
    by_cases hn' : s.2 + 1 ≤ n
    · rw [ih (h.of_le (by omega)) hn']
      simp only [covers, List.any_cons, Bool.not_or]
      rw [decide_eq_false (by omega : ¬ n < s.1), decide_eq_false (by omega : ¬ n ≤ s.2)]
      simp
    · rw [covers_gaps_of_lt (h.of_le (by omega)) (by omega), Bool.or_false]
      have hc := h.covers_eq_false (by omega : n < s.2 + 2)
      simp only [covers, List.any_cons] at hc ⊢
      rw [hc]
      by_cases hn'' : n < s.1
      · simp [hn'']
      · simp [hn'']
        omega

theorem rank_le_lastRank (c : Char) : rank c ≤ lastRank := by
  have := c.valid
  unfold rank lastRank
  simp only [UInt32.isValidChar, Nat.isValidChar, Char.toNat] at *
  split <;> omega

theorem contains_complement {spans : List Span} (h : ∀ r ∈ spans, r.1 ≤ r.2) (c : Char) :
    (ofSpans spans).complement.contains c = !(ofSpans spans).contains c :=
  covers_gaps (ordered_ofSpans h) (Nat.zero_le _) (rank_le_lastRank c)

end CharSet

end Lookahead
