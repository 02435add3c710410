import Lookahead.Named

/-!
Positions in a text. A line index reads a text once and can say at any moment on which line and in
which column the last character read stands, under either of two ways of counting lines.
-/

namespace Lookahead

/-- Lines and columns are counted from one. -/
structure Position where
  line : Nat
  column : Nat
deriving DecidableEq

def Position.display (p : Position) : String := s!"{p.line}:{p.column}"

/-- Under `nonBlank` a line without characters has no number; under `physical` every line has one. -/
inductive LineCounting where
  | nonBlank
  | physical
deriving DecidableEq

namespace LineCounting

def text : LineCounting → String
  | nonBlank => "non-blank"
  | physical => "physical"

instance : Named LineCounting := ⟨[nonBlank, physical], text⟩

instance : Inhabited LineCounting := ⟨nonBlank⟩

end LineCounting

/-- What has to be remembered of a text to place its last character. Only `\n` ends a line. -/
structure LineIndex where
  counting : LineCounting := default
  breaks : Nat := 0
  filledLines : Nat := 0
  lastFilled : Nat := 0
  current : Nat := 0
deriving DecidableEq

namespace LineIndex

def push (i : LineIndex) (c : Char) : LineIndex :=
  if c = '\n' then
    if 0 < i.current then
      { i with breaks := i.breaks + 1, filledLines := i.filledLines + 1,
               lastFilled := i.current, current := 0 }
    else { i with breaks := i.breaks + 1 }
  else { i with current := i.current + 1 }

def advance (i : LineIndex) (text : List Char) : LineIndex := text.foldl push i

/-- Right after a line break the non-blank rule stays at the end of the last filled line. -/
def position (i : LineIndex) : Position :=
  match i.counting with
  | .physical => ⟨i.breaks + 1, max i.current 1⟩
  | .nonBlank =>
    if 0 < i.current then ⟨i.filledLines + 1, i.current⟩
    else if 0 < i.filledLines then ⟨i.filledLines, i.lastFilled⟩
    else ⟨1, 1⟩

/-- The counters do not depend on the rule, so it can be changed in the middle of a text. -/
def recount (i : LineIndex) (counting : LineCounting) : LineIndex := { i with counting }

theorem advance_nil (i : LineIndex) : i.advance [] = i := rfl

theorem advance_append (i : LineIndex) (s t : List Char) :
    i.advance (s ++ t) = (i.advance s).advance t := List.foldl_append

theorem recount_push (i : LineIndex) (k : LineCounting) (c : Char) :
    (i.push c).recount k = (i.recount k).push c := by
  by_cases hc : c = '\n' <;> by_cases hi : 0 < i.current <;> simp [push, recount, hc, hi]

theorem recount_advance (i : LineIndex) (k : LineCounting) (text : List Char) :
    (i.advance text).recount k = (i.recount k).advance text := by
  induction text generalizing i with
  | nil => rfl
  | cons c text ih => simp only [advance, List.foldl_cons] at ih ⊢; rw [ih, recount_push]

end LineIndex

end Lookahead
