import Lookahead.Named
import Lookahead.Pattern.Reader
import Lookahead.Pattern.Walk
import Lookahead.Text.Encoding

/-!
Ordered tables of patterns. The first entry that takes a non-empty piece decides, also where a later
entry would take more. Applied again and again, a table cuts a text into pieces.
-/

namespace Lookahead

structure PatternTable (κ : Type) where
  entries : List (κ × Track)
deriving DecidableEq

/-- An entry that writes no pattern, named by the kind it was meant for. -/
structure PatternError where
  kind : String
deriving DecidableEq

def PatternError.message (e : PatternError) : String := "invalid pattern for " ++ e.kind

namespace PatternTable

variable {κ : Type}

/-- The anchor is put in front of the text of an entry, and binds only its first alternative where
that text closes the group around it. -/
def anchor (pattern : String) : List Char := "^(?:".toList ++ pattern.toList ++ [')']

def readEntry [Named κ] (entry : κ × String) : Except PatternError (κ × Track) :=
  match Pattern.read? (anchor entry.2) with
  | some p => .ok (entry.1, p.track)
  | none => .error ⟨name entry.1⟩

/-- Reads the entries in order; the first that cannot be read is the error. -/
def ofEntries [Named κ] (entries : List (κ × String)) : Except PatternError (PatternTable κ) :=
  (entries.mapM readEntry).map PatternTable.mk

def kinds (t : PatternTable κ) : List κ := t.entries.map (·.1)

/-- The kind of the first entry that takes something of the text, and where its match ends. -/
def matchPrefix? (t : PatternTable κ) (text : List Char) : Option (κ × Nat) :=
  t.entries.findSome? fun e => (e.2.stop? text).map (e.1, ·)

/-- The same in bytes of UTF-8. -/
def matchBytes? (t : PatternTable κ) (text : List Char) : Option (κ × Nat) :=
  (t.matchPrefix? text).map fun m => (m.1, utf8Length (text.take m.2))

/-- A match takes something, and lies inside the text. -/
theorem matchPrefix?_bounds {t : PatternTable κ} {text : List Char} {k : κ} {n : Nat}
    (h : t.matchPrefix? text = some (k, n)) : 0 < n ∧ n ≤ text.length := by
  obtain ⟨e, -, he⟩ := List.exists_of_findSome?_eq_some h
  obtain ⟨m, hm, heq⟩ := Option.map_eq_some_iff.1 he
  cases heq
  exact Track.stop?_bounds hm

theorem matchPrefix?_nil (t : PatternTable κ) : t.matchPrefix? [] = none := by
  rw [Option.eq_none_iff_forall_ne_some]
  intro m hm
  have hn := matchPrefix?_bounds hm
  rw [List.length_nil] at hn
  omega

/-- The pieces that the table takes from a text one after another, and what it leaves. -/
def cut (t : PatternTable κ) : List Char → List (κ × List Char) × List Char
  | [] => ([], [])
  | c :: text =>
    match _h : t.matchPrefix? (c :: text) with
    | none => ([], c :: text)
    | some (kind, n) =>
      let (pieces, left) := cut t ((c :: text).drop n)
      ((kind, (c :: text).take n) :: pieces, left)
termination_by text => text.length
decreasing_by
  have := (matchPrefix?_bounds _h).1
  simp only [List.length_drop, List.length_cons]
  omega

theorem flatten_cut (t : PatternTable κ) (text : List Char) :
    ((t.cut text).1.map (·.2)).flatten ++ (t.cut text).2 = text := by
  fun_induction cut t text with
  | case1 => rfl
  | case2 c text h => simp
  | case3 c text kind n h pieces left hc ih =>
    rw [hc] at ih
    simp only [List.map_cons, List.flatten_cons, List.append_assoc, ih, List.take_append_drop]

end PatternTable

end Lookahead
