/-!
Rules of a grammar. A production is a name and a body, and a body is a list of rules that are
followed one after another. Every decision is spelled out as the set of kinds that lead to it.
-/

namespace Lookahead

/-- One step of the body of a production. -/
inductive Rule (κ : Type) where
  /-- Take a token of this kind, or complain. -/
  | expect (kind : κ)
  /-- Take whatever token is next. -/
  | advance
  /-- Follow another production. -/
  | call (name : String)
  /-- Follow the body again and again while the next token is of one of these kinds. -/
  | loop (lookahead : List κ) (body : List (Rule κ))
  /-- Follow the body if the next token is of one of these kinds. -/
  | optional (lookahead : List κ) (body : List (Rule κ))
  /-- Follow the first arm that allows the kind of the next token, or complain under this name. -/
  | choice (name : String) (arms : List (List κ × List (Rule κ)))
  /-- Complain if the next token is of one of these kinds, without taking it. -/
  | forbid (lookahead : List κ) (message : String)

/-- A set of kinds and what is to be followed on them. -/
abbrev Arm (κ : Type) := List κ × List (Rule κ)

structure Production (κ : Type) where
  name : String
  body : List (Rule κ)

variable {κ : Type}

mutual

/-- The productions called by a rule, outermost and leftmost first. -/
def Rule.calls : Rule κ → List String
  | .call name => [name]
  | .loop _ body | .optional _ body => callsOf body
  | .choice _ arms => callsOfArms arms
  | .expect _ | .advance | .forbid .. => []

def callsOf : List (Rule κ) → List String
  | [] => []
  | r :: rules => r.calls ++ callsOf rules

def callsOfArm : Arm κ → List String
  | (_, body) => callsOf body

def callsOfArms : List (Arm κ) → List String
  | [] => []
  | a :: arms => callsOfArm a ++ callsOfArms arms

end

mutual

/-- The number of places that following a rule can come by. -/
def Rule.size : Rule κ → Nat
  | .loop _ body | .optional _ body => sizeOfRules body + 1
  | .choice _ arms => sizeOfArms arms + 1
  | .expect _ | .advance | .call _ | .forbid .. => 1

def sizeOfRules : List (Rule κ) → Nat
  | [] => 1
  | r :: rules => r.size + sizeOfRules rules

def sizeOfArm : Arm κ → Nat
  | (_, body) => sizeOfRules body

def sizeOfArms : List (Arm κ) → Nat
  | [] => 0
  | a :: arms => sizeOfArm a + sizeOfArms arms

end

namespace Production

def calls (p : Production κ) : List String := callsOf p.body

def size (p : Production κ) : Nat := sizeOfRules p.body

/-- One level of a ladder of binary operators: the next tighter level, and then any number of
operators, each with an operand and what the tighter level makes of it. -/
def operatorTail (name : String) (operators : List κ) (operand higher : String) : Production κ :=
  ⟨name, [.call higher, .loop operators [.advance, .call operand, .call higher]]⟩

end Production

end Lookahead
