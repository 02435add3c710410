import Lookahead.Pattern.CharSet

/-!
Patterns over characters, in a normal form: neighbouring literals are one, sequences and choices do
not nest, and what all arms of a choice begin with stands once in front of it. So each way to take the
beginning is tried with all the arms before the next one, and `a?a|a?b` takes all of `ab`.
-/

namespace Lookahead

/-- Each group has a number of its own, so that no two of them are equal. -/
inductive Pattern where
  | empty
  | literal (text : List Char)
  | set (s : CharSet)
  | textStart
  | textEnd
  | group (number : Nat) (p : Pattern)
  | repeated (greedy : Bool) (least : Nat) (most : Option Nat) (p : Pattern)
  | seq (p q : Pattern)
  | alt (p q : Pattern)
deriving DecidableEq

namespace Pattern

/-- A set with a single character is a literal. -/
def ofSet (s : CharSet) : Pattern :=
  match s.single? with
  | some c => literal [c]
  | none => set s

/-! ### Sequences -/

def parts : Pattern → List Pattern
  | empty => []
  | seq p q => p :: parts q
  | p => [p]

def ofParts : List Pattern → Pattern
  | [] => empty
  | [p] => p
  | p :: ps => seq p (ofParts ps)

/-- Puts a part in front of others, and joins it to a literal if it is one itself. -/
def prepend : Pattern → List Pattern → List Pattern
  | literal s, literal t :: ps => literal (s ++ t) :: ps
  | p, ps => p :: ps

/-- Patterns one after another. -/
def sequence (ps : List Pattern) : Pattern := ofParts ((ps.flatMap parts).foldr prepend [])

def isSeq : Pattern → Bool
  | seq .. => true
  | _ => false

/-! ### Choices -/

def arms : Pattern → List Pattern
  | alt p q => p :: arms q
  | p => [p]

def ofArms : List Pattern → Pattern
  | [] => empty
  | [p] => p
  | p :: ps => alt p (ofArms ps)

/-- The character that is all a pattern takes. -/
def char? : Pattern → Option Char
  | literal [c] => some c
  | _ => none

def set? : Pattern → Option CharSet
  | set s => some s
  | _ => none

/-- The set that a choice between characters or between sets comes to. -/
def oneSet? (ps : List Pattern) : Option CharSet :=
  match ps.mapM char?, ps.mapM set? with
  | some cs, _ => some (.ofRanges (cs.map fun c => (c, c)))
  | none, some sets => some (sets.foldl .union ⟨[]⟩)
  | none, none => none

/-- The parts that two sequences have in common at the front. -/
def common : List Pattern → List Pattern → List Pattern
  | p :: ps, q :: qs => if p = q then p :: common ps qs else []
  | _, _ => []

/-- The parts that all arms begin with, if all of them are sequences. -/
def beginning : List Pattern → List Pattern
  | [] => []
  | p :: ps => if (p :: ps).all isSeq then ps.foldl (fun ps q => common ps q.parts) p.parts else []

/-- A choice between arms that have no beginning in common. -/
def merge (ps : List Pattern) : Pattern :=
  match oneSet? ps with
  | some s => ofSet s
  | none => ofArms ps

/-- A choice between arms, with the parts that all of them begin with put in front. -/
def factor (ps : List Pattern) : Pattern :=
  match beginning ps with
  | [] => merge ps
  | front =>
    sequence (front ++ [merge ((ps.map fun p => ofParts (p.parts.drop front.length)).flatMap arms)])

/-- One of some patterns, the earlier ones preferred. -/
def choice (ps : List Pattern) : Pattern := factor (ps.flatMap arms)

/-! ### Repetitions -/

/-- Whether a pattern can take nothing at all. -/
def takesNothing : Pattern → Bool
  | empty | textStart | textEnd => true
  | literal _ | set _ => false
  | group _ p => p.takesNothing
  | repeated _ _ most p => most.isSome && p.takesNothing
  | seq p q | alt p q => p.takesNothing && q.takesNothing

/-- Whether a pattern takes something wherever it matches. -/
def takesSomething : Pattern → Bool
  | empty | textStart | textEnd => false
  | literal text => !text.isEmpty
  | set s => !s.spans.isEmpty
  | group _ p => p.takesSomething
  | repeated _ least _ p => 0 < least && p.takesSomething
  | seq p q => p.takesSomething || q.takesSomething
  | alt p q => p.takesSomething && q.takesSomething

/-- From `least` to `most` rounds, without an upper bound where `most` is absent. What takes nothing
is not repeated more than once. -/
def rounds (greedy : Bool) (least : Nat) (most : Option Nat) (p : Pattern) : Pattern :=
  let least := if p.takesNothing then min least 1 else least
  let most := if p.takesNothing then some (min (most.getD 1) 1) else most
  if most = some 0 then empty
  else if least = 1 ∧ most = some 1 then p
  else repeated greedy least most p

end Pattern

end Lookahead
