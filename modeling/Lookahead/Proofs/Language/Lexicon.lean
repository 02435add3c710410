import Lookahead.Proofs.Language.Scanning
import Lookahead.Proofs.Pattern.Lexeme

/-!
What a text begins with. A lexicon tells it without a pattern: the first character decides between
blanks, words and names, numbers, and everything else, and from there on a text is looked at once.
-/

namespace Lookahead

variable {κ : Type} {listed others : List (κ × String)} {c : Char} {text rest : List Char}

def isLetter (c : Char) : Bool := 'A' ≤ c && c ≤ 'Z' || 'a' ≤ c && c ≤ 'z' || c == '_'

def isNameChar (c : Char) : Bool := isLetter c || c.isDigit

/-- Capital letters are not among the hexadecimal digits. -/
def isHexDigit (c : Char) : Bool := c.isDigit || 'a' ≤ c && c ≤ 'f'

/-- The first listed text that another one begins with, and how long it is. -/
def opening? (listed : List (κ × String)) (text : List Char) : Option (κ × Nat) :=
  (listed.find? fun e ↦ e.2.toList <+: text).map fun e ↦ (e.1, e.2.toList.length)

/-- The pieces of a language. Words stand for themselves whatever follows, and so do symbols, of which
an earlier one comes before a later one. -/
structure Lexicon (κ : Type) where
  words : List (κ × String)
  name : κ
  nameLength : List Char → Nat
  number : κ
  numberLength : List Char → Nat
  symbols : List (κ × String)

/-- The kind of the piece that a text begins with, and how long it is. -/
def Lexicon.piece? [TokenKind κ] (x : Lexicon κ) : List Char → Option (κ × Nat)
  | [] => none
  | c :: rest =>
    if isBlank c then some (TokenKind.ignore, ((c :: rest).takeWhile isBlank).length)
    else if isLetter c then
      (opening? x.words (c :: rest)).or (some (x.name, x.nameLength (c :: rest)))
    else if c.isDigit then some (x.number, x.numberLength (c :: rest))
    else opening? x.symbols (c :: rest)

def relations {κ : Type} (kind : κ) : List (κ × String) :=
  [(kind, ">="), (kind, "<="), (kind, ">"), (kind, "<")]

def Imperative.lexicon : Lexicon Kind where
  words := [(.const, "const"), (.var, "var"), (.doWord, "do"), (.whileWord, "while")]
  name := .identifier
  nameLength _ := 1
  number := .number
  numberLength text := wholeLength text + fractionLength (text.drop (wholeLength text))
  symbols := [(.or, "||"), (.and, "&&"), (.not, "!"), (.terminator, ";"), (.blockBegin, "\x7b"),
    (.blockEnd, "\x7d"), (.indexerBegin, "["), (.indexerEnd, "]"), (.parBegin, "("), (.parEnd, ")")] ++
    relations .relOp ++ [(.eq, "=="), (.assign, ":="), (.add, "+"), (.sub, "-"), (.mul, "*"),
    (.div, "/")]

def Boolean.lexicon : Lexicon Kind where
  words := [(.or, "or"), (.xor, "xor"), (.and, "and"), (.not, "not")]
  name := .identifier
  nameLength text := (text.takeWhile isNameChar).length
  number := .number
  numberLength text := (text.takeWhile isHexDigit).length
  symbols := [(.terminator, ";"), (.parBegin, "("), (.parEnd, ")")] ++ relations .relOp ++
    [(.assign, ":=")]

/-! ### Sets of characters -/

theorem beq_eq_between (c d : Char) : (c == d) = (decide (d ≤ c) && decide (c ≤ d)) := by
  rw [Bool.eq_iff_iff, beq_iff_eq, Bool.and_eq_true, decide_eq_true_eq, decide_eq_true_eq]
  constructor
  · intro h
    subst h
    exact ⟨Char.le_refl _, Char.le_refl _⟩
  · intro h
    exact Char.le_antisymm h.2 h.1

def letters : CharSet := .ofRanges [('A', 'Z'), ('_', '_'), ('a', 'z')]

theorem contains_letters : letters.contains = isLetter := by
  funext c
  rw [letters, CharSet.contains_ofRanges (by decide), isLetter, beq_eq_between]
  simp only [List.any_cons, List.any_nil, Bool.or_false]
  ac_rfl

def nameChars : CharSet := .ofRanges [('0', '9'), ('A', 'Z'), ('_', '_'), ('a', 'z')]

theorem contains_nameChars : nameChars.contains = isNameChar := by
  funext c
  rw [nameChars, CharSet.contains_ofRanges (by decide), isNameChar, isLetter, beq_eq_between,
    isDigit_eq]
  simp only [List.any_cons, List.any_nil, Bool.or_false]
  ac_rfl

def hexDigits : CharSet := .ofRanges [('0', '9'), ('a', 'f')]

theorem contains_hexDigits : hexDigits.contains = isHexDigit := by
  funext c
  rw [hexDigits, CharSet.contains_ofRanges (by decide), isHexDigit, isDigit_eq]
  simp only [List.any_cons, List.any_nil, Bool.or_false]

/-! ### Texts that are written out -/

theorem opening?_append (listed others : List (κ × String)) (text : List Char) :
    opening? (listed ++ others) text = (opening? listed text).or (opening? others text) := by
  rw [opening?, List.find?_append, Option.map_or]
  rfl

/-- All listed texts begin with characters of this kind. -/
def Begin (good : Char → Bool) (listed : List (κ × String)) : Prop :=
  ∀ e ∈ listed, e.2.toList.head?.any good

instance (good : Char → Bool) (listed : List (κ × String)) : Decidable (Begin good listed) :=
  inferInstanceAs (Decidable (∀ e ∈ listed, e.2.toList.head?.any good = true))

theorem Begin.ne_nil {good : Char → Bool} (h : Begin good listed) :
    ∀ e ∈ listed, e.2.toList ≠ [] := by
  intro e he hnil
  have hhead := h e he
  rw [hnil] at hhead
  cases hhead

theorem Begin.opening?_eq_none {good : Char → Bool} (h : Begin good listed) (hc : good c = false) :
    opening? listed (c :: rest) = none := by
  rw [opening?, Option.map_eq_none_iff, List.find?_eq_none]
  intro e he hbegins
  have hhead := h e he
  rw [decide_eq_true_eq] at hbegins
  cases hlist : e.2.toList with
  | nil => exact h.ne_nil e he hlist
  | cons d w =>
    rw [hlist, List.cons_prefix_cons] at hbegins
    obtain ⟨rfl, -⟩ := hbegins
    rw [hlist, List.head?_cons, Option.any_some, hc] at hhead
    cases hhead

/-- Whether a character begins a symbol, if it begins anything and is not a blank. -/
def isOther (c : Char) : Bool := !(isLetter c || c.isDigit)

namespace PatternTable

/-- The first of some entries that takes something of a text. -/
def taken? (entries : List (κ × Track)) (text : List Char) : Option (κ × Nat) :=
  entries.findSome? fun e ↦ (e.2.stop? text).map (e.1, ·)

theorem taken?_append (entries others : List (κ × Track)) (text : List Char) :
    taken? (entries ++ others) text = (taken? entries text).or (taken? others text) :=
  List.findSome?_append

theorem taken?_singleton (kind : κ) (track : Track) (text : List Char) :
    taken? [(kind, track)] text = (track.stop? text).map (kind, ·) := by
  rw [taken?, List.findSome?_cons]
  cases (track.stop? text).map (kind, ·) <;> rfl

/-- Entries that are written out. -/
def literals (listed : List (κ × String)) : List (κ × Track) :=
  listed.map fun e ↦ (e.1, .seq .textStart (.ofText e.2.toList))

theorem taken?_literals {good : Char → Bool} (h : Begin good listed) (text : List Char) :
    taken? (literals listed) text = opening? listed text := by
  induction listed with
  | nil => rfl
  | cons e listed ih =>
    have hlisted : Begin good listed := fun d hd ↦ h d (List.mem_cons_of_mem _ hd)
    rw [literals, List.map_cons, ← List.singleton_append, taken?_append, taken?_singleton,
      ← List.singleton_append, opening?_append, ← ih hlisted,
      Track.stop?_ofText (h.ne_nil e List.mem_cons_self)]
    congr 1
    by_cases hbegins : e.2.toList <+: text
    · simp [opening?, hbegins]
    · simp [opening?, hbegins]

theorem singleton_prefix_iff (d : Char) (text : List Char) : [d] <+: text ↔ text.head? = some d := by
  cases text <;> simp [eq_comm]

/-- The longer ones of the relations come first, so that an equals sign belongs to them. -/
theorem taken?_relation (kind : κ) (c : Char) (rest : List Char) :
    taken? [(kind, .seq .textStart .relation)] (c :: rest) =
      opening? (relations kind) (c :: rest) := by
  have hequal := singleton_prefix_iff '=' rest
  rw [taken?_singleton, Track.stop?_relation]
  by_cases hgreater : c = '>'
  · subst hgreater
    by_cases hhead : rest.head? = some '=' <;>
      simp [opening?, relations, List.cons_prefix_cons, hequal, hhead]
  · by_cases hless : c = '<'
    · subst hless
      by_cases hhead : rest.head? = some '=' <;>
        simp [opening?, relations, List.cons_prefix_cons, hequal, hhead]
    · simp [opening?, relations, List.cons_prefix_cons, hgreater, hless, Ne.symm hgreater,
        Ne.symm hless]

end PatternTable

open PatternTable

/-- The entries behind the one for blanks, in their order: words, symbols, names, numbers and then
other symbols, among them the relations. -/
structure Layout (κ : Type) where
  front : List (κ × String)
  name : Track
  number : Track
  middle : List (κ × String)
  relation : κ
  back : List (κ × String)

def Layout.entries (y : Layout κ) (x : Lexicon κ) : List (κ × Track) :=
  literals x.words ++ (literals y.front ++ ([(x.name, .seq .textStart y.name)] ++
    ([(x.number, .seq .textStart y.number)] ++ (literals y.middle ++
      ([(y.relation, .seq .textStart .relation)] ++ literals y.back)))))

/-- The entries of a table take what a lexicon tells. -/
structure Lexicon.Describes (x : Lexicon κ) (t : PatternTable κ) (y : Layout κ) : Prop where
  entries : t.entries.tail = y.entries x
  name : ∀ c rest, (Track.seq .textStart y.name).stop? (c :: rest) =
    if isLetter c then some (x.nameLength (c :: rest)) else none
  number : ∀ c rest, (Track.seq .textStart y.number).stop? (c :: rest) =
    if c.isDigit then some (x.numberLength (c :: rest)) else none
  words : Begin isLetter x.words
  front : Begin isOther y.front
  middle : Begin isOther y.middle
  back : Begin isOther y.back
  symbols : ∀ text, opening? x.symbols text =
    opening? (y.front ++ (y.middle ++ (relations y.relation ++ y.back))) text

namespace Lexicon.Describes

variable {x : Lexicon κ} {t : PatternTable κ} {y : Layout κ}

theorem taken?_tail (h : x.Describes t y) (c : Char) (rest : List Char) :
    taken? t.entries.tail (c :: rest) =
      (opening? x.words (c :: rest)).or ((opening? y.front (c :: rest)).or
        (((if isLetter c then some (x.nameLength (c :: rest)) else none).map (x.name, ·)).or
          (((if c.isDigit then some (x.numberLength (c :: rest)) else none).map (x.number, ·)).or
            (opening? (y.middle ++ (relations y.relation ++ y.back)) (c :: rest))))) := by
  rw [h.entries]
  simp only [Layout.entries, taken?_append, taken?_relation, taken?_literals h.words,
    taken?_literals h.front, taken?_literals h.middle, taken?_literals h.back, opening?_append]
  simp only [taken?_singleton, h.name, h.number]

/-- What an entry takes is decided by the first character, and for a letter or a symbol by the first
of the listed texts. -/
theorem matchPrefix?_eq [TokenKind κ] (h : x.Describes t y) (ht : t.SkipsBlanks)
    (text : List Char) : t.matchPrefix? text = x.piece? text := by
  cases text with
  | nil => exact matchPrefix?_nil t
  | cons c rest =>
    rw [ht.matchPrefix?_eq]
    by_cases hblank : isBlank c
    · rw [List.takeWhile_cons_of_pos hblank, if_neg (List.cons_ne_nil _ _), piece?,
        if_pos hblank, List.takeWhile_cons_of_pos hblank]
    · rw [List.takeWhile_cons_of_neg hblank, if_pos rfl, piece?, if_neg hblank]
      refine (h.taken?_tail c rest).trans ?_
      by_cases hletter : isLetter c
      · rw [h.front.opening?_eq_none (by simp [isOther, hletter]), if_pos hletter, if_pos hletter]
        rfl
      · rw [h.words.opening?_eq_none (by simpa using hletter), if_neg hletter, if_neg hletter]
        by_cases hdigit : c.isDigit
        · rw [h.front.opening?_eq_none (by simp [isOther, hdigit]), if_pos hdigit, if_pos hdigit]
          rfl
        · rw [if_neg hdigit, if_neg hdigit, h.symbols, opening?_append y.front]
          rfl

end Lexicon.Describes

/-! ### The lexicons of both languages -/

def Imperative.layout : Layout Kind where
  front := [(.or, "||"), (.and, "&&"), (.not, "!"), (.terminator, ";")]
  name := .take letters
  number := .decimal
  middle := [(.blockBegin, "\x7b"), (.blockEnd, "\x7d"), (.indexerBegin, "["), (.indexerEnd, "]"),
    (.parBegin, "("), (.parEnd, ")")]
  relation := .relOp
  back := [(.eq, "=="), (.ne, "!="), (.assign, ":="), (.add, "+"), (.sub, "-"), (.mul, "*"),
    (.div, "/")]

def Boolean.layout : Layout Kind where
  front := [(.terminator, ";")]
  name := .headed letters nameChars
  number := .headed Track.digits hexDigits
  middle := [(.parBegin, "("), (.parEnd, ")")]
  relation := .relOp
  back := [(.assign, ":=")]

/-- A text behind one that it begins with is never found. -/
theorem opening?_shadowed {shadowed earlier : κ × String} {front middle back : List (κ × String)}
    (hmem : earlier ∈ front) (hbegins : earlier.2.toList <+: shadowed.2.toList)
    (text : List Char) :
    opening? (front ++ (middle ++ shadowed :: back)) text =
      opening? (front ++ (middle ++ back)) text := by
  rw [opening?_append, opening?_append front]
  cases hfront : opening? front text with
  | some piece => rfl
  | none =>
    have hnot : ¬ shadowed.2.toList <+: text := by
      intro h
      rw [opening?, Option.map_eq_none_iff, List.find?_eq_none] at hfront
      exact hfront earlier hmem (decide_eq_true (hbegins.trans h))
    have hbehind : opening? (shadowed :: back) text = opening? back text := by
      rw [opening?, List.find?_cons_of_neg (by simpa using hnot)]
      rfl
    rw [opening?_append, opening?_append middle, hbehind]

theorem Imperative.describes : lexicon.Describes table layout where
  entries := by decide
  name c rest := by
    rw [layout, Track.stop?_take, contains_letters]
    rfl
  number := Track.stop?_decimal
  words := by decide
  front := by decide
  middle := by decide
  back := by decide
  symbols text := by
    -- `!=` is behind `!`
    let middle := layout.middle ++ relations .relOp ++ [(.eq, "==")]
    change opening? (layout.front ++ (middle ++ layout.back.drop 2)) text =
      opening? (layout.front ++ (middle ++ (.ne, "!=") :: layout.back.drop 2)) text
    have hmem : (Kind.not, "!") ∈ layout.front := by decide
    rw [opening?_shadowed hmem (by decide)]

theorem Boolean.describes : lexicon.Describes table layout where
  entries := by decide
  name c rest := by
    rw [layout, Track.stop?_headed, contains_letters, contains_nameChars]
    by_cases hc : isLetter c
    · have hname : isNameChar c := by rw [isNameChar, hc, Bool.true_or]
      have hlength : lexicon.nameLength (c :: rest) = (rest.takeWhile isNameChar).length + 1 :=
        congrArg List.length (List.takeWhile_cons_of_pos hname)
      rw [if_pos hc, if_pos hc, hlength, Nat.add_comm]
    · rw [if_neg hc, if_neg hc]
  number c rest := by
    rw [layout, Track.stop?_headed, Track.contains_digits, contains_hexDigits]
    by_cases hc : c.isDigit
    · have hhex : isHexDigit c := by rw [isHexDigit, hc, Bool.true_or]
      have hlength : lexicon.numberLength (c :: rest) = (rest.takeWhile isHexDigit).length + 1 :=
        congrArg List.length (List.takeWhile_cons_of_pos hhex)
      rw [if_pos hc, if_pos hc, hlength, Nat.add_comm]
    · rw [if_neg hc, if_neg hc]
  words := by decide
  front := by decide
  middle := by decide
  back := by decide
  symbols _ := rfl

/-! ### Lengths in bytes -/

def asciiSet (s : CharSet) : Bool := s.spans.all (·.2 < 128)

theorem utf8Size_of_asciiSet {s : CharSet} (hs : asciiSet s) (hc : s.contains c) :
    c.utf8Size = 1 := by
  obtain ⟨span, hspan, hrank⟩ := List.any_eq_true.1 hc
  have hbound := List.all_eq_true.1 hs span hspan
  rw [decide_eq_true_eq] at hbound
  have hsmall : c.toNat < 128 := by
    rw [Bool.and_eq_true, decide_eq_true_eq, decide_eq_true_eq, rank] at hrank
    split at hrank <;> omega
  have hval : c.val ≤ 0x7f := UInt32.le_iff_toNat_le.2 (Nat.le_of_lt_succ hsmall)
  exact if_pos hval

theorem utf8Length_eq_length (h : ∀ c ∈ text, c.utf8Size = 1) : utf8Length text = text.length := by
  induction text with
  | nil => rfl
  | cons c text ih =>
    rw [utf8Length_cons, h c List.mem_cons_self, ih fun d hd ↦ h d (List.mem_cons_of_mem c hd),
      List.length_cons, Nat.add_comm]

/-- Where all characters that are taken are from ASCII, lengths in bytes are lengths in characters. -/
theorem PatternTable.matchBytes?_eq {t : PatternTable κ}
    (h : ∀ e ∈ t.entries, e.2.openEnded ∧ e.2.anchored ∧ e.2.sets.all asciiSet) (text : List Char) :
    t.matchBytes? text = t.matchPrefix? text := by
  rw [matchBytes?]
  cases hm : t.matchPrefix? text with
  | none => rfl
  | some m =>
    obtain ⟨kind, n⟩ := m
    obtain ⟨e, he, htaken⟩ := List.exists_of_findSome?_eq_some hm
    obtain ⟨stop, hstop, heq⟩ := Option.map_eq_some_iff.1 htaken
    obtain ⟨rfl, rfl⟩ := Prod.mk.inj heq
    obtain ⟨ho, ha, hascii⟩ := h e he
    have hsize : ∀ c ∈ text.take stop, c.utf8Size = 1 := by
      intro c hc
      have htaken := Track.avoids_of_mem_take ho ha hstop hc
      obtain ⟨s, hs, hcontains⟩ := List.all_eq_false.1 htaken
      exact utf8Size_of_asciiSet (List.all_eq_true.1 hascii s hs) (by simpa using hcontains)
    rw [Option.map_some, utf8Length_eq_length hsize, List.length_take,
      Nat.min_eq_left (Track.stop?_bounds hstop).2]

namespace Language

def lexicon : (l : Language) → Lexicon l.Kind
  | imperative => Imperative.lexicon
  | boolean => Boolean.lexicon

theorem matchPrefix?_eq_piece? (l : Language) (text : List Char) :
    l.dialect.table.matchPrefix? text = l.lexicon.piece? text := by
  cases l with
  | imperative => exact Imperative.describes.matchPrefix?_eq Imperative.skipsBlanks text
  | boolean => exact Boolean.describes.matchPrefix?_eq Boolean.skipsBlanks text

theorem matchBytes?_eq_matchPrefix? (l : Language) (text : List Char) :
    l.dialect.table.matchBytes? text = l.dialect.table.matchPrefix? text := by
  apply PatternTable.matchBytes?_eq
  cases l <;> decide

/-- The table of a language takes of every text what its lexicon tells, in characters as in bytes, and
a `!=` is never taken as one piece. -/
theorem follows_lexicon :
    (∀ (l : Language) (text : List Char),
      l.dialect.table.matchBytes? text = l.lexicon.piece? text ∧
        l.dialect.table.matchPrefix? text = l.lexicon.piece? text) ∧
    ∀ (text : List Char) (n : Nat), Imperative.table.matchBytes? text ≠ some (.ne, n) := by
  refine ⟨?_, ?_⟩
  · intro l text
    exact ⟨(l.matchBytes?_eq_matchPrefix? text).trans (l.matchPrefix?_eq_piece? text),
      l.matchPrefix?_eq_piece? text⟩
  · intro text n h
    have hm : Imperative.table.matchPrefix? text = some (.ne, n) :=
      (matchBytes?_eq_matchPrefix? imperative text).symm.trans h
    have hlength : (text.take n).length = n :=
      List.length_take_of_le (PatternTable.matchPrefix?_bounds hm).2
    apply Imperative.not_takes_ne (text.take n) (text.drop n)
    refine ⟨by decide, ?_⟩
    rw [List.take_append_drop, hlength]
    exact hm

end Language

end Lookahead
