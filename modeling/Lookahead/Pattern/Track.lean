import Lookahead.Pattern.Basic

/-!
Tracks: patterns laid out to be walked on. The nodes of a track are numbered from the left, and what
is reached from a node without taking a character is found in the order of preference. No node is
passed twice at one place of a text. So a round of a repetition that takes nothing leads nowhere new,
and of two ways through a node only the preferred one is followed.
-/

namespace Lookahead

/-- A place in a text: how many characters stand before it, and those that follow. -/
structure Cursor where
  index : Nat
  rest : List Char
deriving DecidableEq

/-- A `star` decides before each round at one and the same node. A `plus` decides after each round, and
`optional` once. They are greedy where their flag is set and lazy otherwise. -/
inductive Track where
  | done
  | take (s : CharSet)
  | textStart
  | textEnd
  | seq (p q : Track)
  | alt (p q : Track)
  | optional (greedy : Bool) (p : Track)
  | plus (greedy : Bool) (p : Track)
  | star (greedy : Bool) (p : Track)
deriving DecidableEq

/-- What has been found at one place: the nodes passed, those of them that take a character, the
preferred ones last, and whether the end was reached, behind which nothing is looked for. -/
structure Front where
  passed : List Nat := []
  takes : List Nat := []
  accepted : Bool := false
deriving DecidableEq

namespace Front

/-- Goes through a node, unless it was passed before. -/
def pass (n : Nat) (go : Front → Front) (f : Front) : Front :=
  if f.accepted || f.passed.contains n then f else go { f with passed := n :: f.passed }

def addTake (n : Nat) (f : Front) : Front := { f with takes := n :: f.takes }

def accept (f : Front) : Front := { f with accepted := true }

/-- Goes one way and then the other, the first one first where it is preferred. -/
def both (preferFirst : Bool) (first second : Front → Front) (f : Front) : Front :=
  if preferFirst then second (first f) else first (second f)

end Front

namespace Track

/-- The number of nodes. -/
def size : Track → Nat
  | done | textStart | textEnd => 0
  | take _ => 1
  | seq p q => p.size + q.size
  | alt p q => p.size + q.size + 1
  | optional _ p | plus _ p | star _ p => p.size + 1

/-- Goes along a track whose first node is `n`, and at its end goes on as `go` does. A round of a
repetition that ends where it began comes to a node that was passed. -/
def enter (c : Cursor) : Track → Nat → (Front → Front) → Front → Front
  | done, _, go, f => go f
  | take _, n, _, f => Front.pass n (Front.addTake n) f
  | textStart, _, go, f => if c.index = 0 then go f else f
  | textEnd, _, go, f => if c.rest.isEmpty then go f else f
  | seq p q, n, go, f => enter c p n (enter c q (n + p.size) go) f
  | alt p q, n, go, f =>
    Front.pass n (Front.both true (enter c p (n + 1) go) (enter c q (n + 1 + p.size) go)) f
  | optional greedy p, n, go, f => Front.pass n (Front.both greedy (enter c p (n + 1) go) go) f
  | plus greedy p, n, go, f =>
    enter c p (n + 1) (Front.pass n (Front.both greedy (enter c p (n + 1) id) go)) f
  | star greedy p, n, go, f => Front.pass n (Front.both greedy (enter c p (n + 1) id) go) f

/-- Takes the character `x` at the node `m`, if it is one that does, and goes on from behind it. -/
def after (c : Cursor) (x : Char) (m : Nat) : Track → Nat → (Front → Front) → Front → Front
  | done, _, _, f | textStart, _, _, f | textEnd, _, _, f => f
  | take s, n, go, f => if m = n ∧ s.contains x then go f else f
  | seq p q, n, go, f =>
    if m < n + p.size then after c x m p n (enter c q (n + p.size) go) f
    else after c x m q (n + p.size) go f
  | alt p q, n, go, f =>
    if m < n + 1 + p.size then after c x m p (n + 1) go f
    else after c x m q (n + 1 + p.size) go f
  | optional _ p, n, go, f => after c x m p (n + 1) go f
  | plus greedy p, n, go, f | star greedy p, n, go, f =>
    after c x m p (n + 1) (Front.pass n (Front.both greedy (enter c p (n + 1) id) go)) f

/-- A track all of whose ways begin at the start of the text. -/
def anchored : Track → Bool
  | textStart => true
  | seq p _ => p.anchored
  | alt p q => p.anchored && q.anchored
  | plus _ p => p.anchored
  | _ => false

/-! ### Laying out patterns -/

def ofText : List Char → Track
  | [] => done
  | [c] => take (.singleton c)
  | c :: text => seq (take (.singleton c)) (ofText text)

def times (p : Track) : Nat → Track
  | 0 => done
  | 1 => p
  | n + 2 => seq p (times p (n + 1))

def atMost (greedy : Bool) (p : Track) : Nat → Track
  | 0 => done
  | 1 => optional greedy p
  | n + 2 => optional greedy (seq p (atMost greedy p (n + 1)))

/-- Rounds without end. Where a round may take nothing, the first one is decided on apart. -/
def atLeast (greedy productive : Bool) (p : Track) : Nat → Track
  | 0 => if productive then star greedy p else optional greedy (plus greedy p)
  | 1 => plus greedy p
  | n + 2 => seq (times p (n + 1)) (plus greedy p)

/-- Each round has nodes of its own, except for those without end. -/
def repeated (greedy productive : Bool) (least : Nat) (most : Option Nat) (p : Track) : Track :=
  match most with
  | none => atLeast greedy productive p least
  | some most =>
    if most ≤ least then times p least
    else if least = 0 then atMost greedy p most
    else seq (times p least) (atMost greedy p (most - least))

end Track

/-- The track of a pattern. -/
def Pattern.track : Pattern → Track
  | empty => .done
  | literal text => .ofText text
  | set s => .take s
  | textStart => .textStart
  | textEnd => .textEnd
  | group _ p => p.track
  | repeated greedy least most p => .repeated greedy p.takesSomething least most p.track
  | seq p q => .seq p.track q.track
  | alt p q => .alt p.track q.track

end Lookahead
