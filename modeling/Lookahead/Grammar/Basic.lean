import Lookahead.Grammar.Rule

/-!
Grammars: productions of different names, one of them the start, in which every call has a target.
Building a grammar from a list of productions finds the first thing wrong with it.
-/

namespace Lookahead

/-- What keeps a list of productions from being a grammar. -/
inductive GrammarError where
  | duplicateProduction (name : String)
  | undefinedProduction (caller callee : String)
  | missingStart (name : String)
deriving DecidableEq

def GrammarError.message : GrammarError → String
  | duplicateProduction name => s!"production '{name}' is defined more than once"
  | undefinedProduction caller callee =>
    s!"production '{caller}' calls undefined production '{callee}'"
  | missingStart name => s!"start production '{name}' is not defined"

/-- The first name that stands in the list a second time. -/
def firstRepeated : List String → Option String
  | names => go [] names
where
  go (seen : List String) : List String → Option String
    | [] => none
    | n :: names => if n ∈ seen then some n else go (n :: seen) names

theorem firstRepeated_go_eq_none_iff (seen names : List String) :
    firstRepeated.go seen names = none ↔ names.Nodup ∧ ∀ n ∈ names, n ∉ seen := by
  induction names generalizing seen with
  | nil => simp [firstRepeated.go]
  | cons n names ih =>
    unfold firstRepeated.go
    split
    · simp_all
    · rw [ih]
      grind

theorem firstRepeated_eq_none_iff (names : List String) :
    firstRepeated names = none ↔ names.Nodup := by
  rw [firstRepeated, firstRepeated_go_eq_none_iff]
  simp

variable {κ : Type}

def namesOf (productions : List (Production κ)) : List String := productions.map (·.name)

/-- The first call without a target, in the order of the productions and then of the calls. -/
def firstUndefined (productions : List (Production κ)) : Option (String × String) :=
  productions.findSome? fun p =>
    (p.calls.find? (· ∉ namesOf productions)).map (p.name, ·)

theorem firstUndefined_eq_none_iff (productions : List (Production κ)) :
    firstUndefined productions = none ↔
      ∀ p ∈ productions, ∀ c ∈ p.calls, c ∈ namesOf productions := by
  simp [firstUndefined]

structure Grammar (κ : Type) where
  start : String
  productions : List (Production κ)
  names_nodup : (namesOf productions).Nodup
  start_mem : start ∈ namesOf productions
  calls_mem : ∀ p ∈ productions, ∀ c ∈ p.calls, c ∈ namesOf productions

namespace Grammar

/-- A repeated name is found before a missing start, and that before a call without a target. -/
def ofProductions (start : String) (productions : List (Production κ)) :
    Except GrammarError (Grammar κ) :=
  match hn : firstRepeated (namesOf productions) with
  | some name => .error (.duplicateProduction name)
  | none =>
    if hs : start ∈ namesOf productions then
      match hc : firstUndefined productions with
      | some (caller, callee) => .error (.undefinedProduction caller callee)
      | none => .ok {
          start, productions
          names_nodup := (firstRepeated_eq_none_iff _).1 hn
          start_mem := hs
          calls_mem := (firstUndefined_eq_none_iff _).1 hc }
    else .error (.missingStart start)

def production? (g : Grammar κ) (name : String) : Option (Production κ) :=
  g.productions.find? (·.name == name)

def size (g : Grammar κ) : Nat := g.productions.foldr (·.size + ·) 0

end Grammar

end Lookahead
