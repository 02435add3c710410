import Lookahead.Pattern.Reader
import Lookahead.Proofs.Pattern.Meaning
import Mathlib.Logic.Function.Basic

/-!
Renumbering groups. As long as different groups keep different numbers, every construction of a pattern
from others gives the same pattern, with its groups renumbered, and what is taken is the same.
-/

namespace Lookahead.Pattern

/-- A pattern whose groups have other numbers. -/
def renumber (f : Nat → Nat) : Pattern → Pattern
  | empty => empty
  | literal text => literal text
  | set s => set s
  | textStart => textStart
  | textEnd => textEnd
  | group n p => group (f n) (p.renumber f)
  | repeated greedy least most p => repeated greedy least most (p.renumber f)
  | seq p q => seq (p.renumber f) (q.renumber f)
  | alt p q => alt (p.renumber f) (q.renumber f)

variable {f : Nat → Nat}

namespace Frame

def renumber (f : Nat → Nat) (frame : Frame) : Frame where
  number := frame.number.map f
  branches := frame.branches.map (Pattern.renumber f)
  pieces := frame.pieces.map (Pattern.renumber f)
  last := frame.last.map fun l ↦ (l.1.renumber f, l.2)

end Frame

end Lookahead.Pattern
