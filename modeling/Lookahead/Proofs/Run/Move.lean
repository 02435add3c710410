import Lookahead.Run.Following

/-!
A run move by move. What a rule does first is settled by the kind of the lookahead alone, so
positions, lexemes and the record of earlier complaints never decide how a run goes on.
-/

namespace Lookahead

/-- What following a rule begins with. A body is entered before the rules behind it, and `again`
says that the rule itself is one of those if the body consumed something. -/
inductive Move (κ : Type) where
  | pass
  | advance
  | raise (code : Code) (message : String)
  | enter (body : List (Rule κ)) (again : Bool)

namespace Grammar

variable {κ : Type} [DecidableEq κ] [TokenKind κ]

def move (g : Grammar κ) (kind : κ) : Rule κ → Move κ
  | .expect k =>
    if kind = k then .advance else .raise .expected s!"Expected {name k} but got '{name kind}'"
  | .advance => .advance
  | .call callee =>
    match g.production? callee with
    | none => .pass
    | some production => .enter production.body false
  | .loop lookahead body => if kind ∈ lookahead then .enter body true else .pass
  | .optional lookahead body => if kind ∈ lookahead then .enter body false else .pass
  | .choice title arms =>
    match arms.find? fun arm ↦ decide (kind ∈ arm.1) with
    | none => .raise .invalidProduction s!"Production '{title}' is invalid"
    | some arm => .enter arm.2 false
  | .forbid lookahead message => if kind ∈ lookahead then .raise .forbidden message else .pass

end Grammar

namespace Parser

variable {κ : Type} [DecidableEq κ] [TokenKind κ]

/-- The rules that are left to follow when a body that was entered at `s` has led to `t`. -/
def remaining (rule : Rule κ) (rules : List (Rule κ)) (again : Bool) (s t : State κ) :
    List (Rule κ) :=
  if again = true ∧ t.consumed ≠ s.consumed then rule :: rules else rules

/-- Following with one unit of fuel less, as a move directs. -/
def followMove (p : Parser κ) (n : Nat) (rule : Rule κ) (rules : List (Rule κ)) (s : State κ) :
    Move κ → Option (State κ)
  | .pass => p.follow n rules s
  | .advance => p.follow n rules s.advance
  | .raise code message => p.follow n rules (s.raise p.admits code message)
  | .enter body again => (p.follow n body s).bind fun t ↦
    p.follow n (remaining rule rules again s t) t

theorem follow_cons (p : Parser κ) (n : Nat) (rule : Rule κ) (rules : List (Rule κ)) (s : State κ) :
    p.follow (n + 1) (rule :: rules) s =
      p.followMove n rule rules s (p.grammar.move s.current.kind rule) := by
  cases rule with
  | expect k =>
    rw [follow_expect]
    by_cases h : s.current.kind = k <;> simp [Grammar.move, State.expect, h, followMove]
  | advance => rfl
  | call callee =>
    rw [follow_call]
    cases h : p.grammar.production? callee with
    | none => simp [Grammar.move, h, followMove]
    | some production =>
      simp only [Grammar.move, h, followMove, remaining]
      cases p.follow n production.body s <;> simp
  | loop lookahead body =>
    rw [follow_loop]
    by_cases h : s.current.kind ∈ lookahead
    · simp only [Grammar.move, State.sees, h, followMove, remaining, decide_true, if_true]
      cases p.follow n body s with
      | none => rfl
      | some t => by_cases ht : t.consumed = s.consumed <;> simp [ht]
    · simp [Grammar.move, State.sees, h, followMove]
  | optional lookahead body =>
    rw [follow_optional]
    by_cases h : s.current.kind ∈ lookahead
    · simp only [Grammar.move, State.sees, h, followMove, remaining, decide_true, if_true]
      cases p.follow n body s <;> simp
    · simp [Grammar.move, State.sees, h, followMove]
  | choice title arms =>
    rw [follow_choice]
    simp only [State.sees, Grammar.move]
    cases h : arms.find? fun arm ↦ decide (s.current.kind ∈ arm.1) with
    | none => rfl
    | some arm =>
      simp only [followMove, remaining]
      cases p.follow n arm.2 s <;> simp
  | forbid lookahead message =>
    rw [follow_forbid]
    by_cases h : s.current.kind ∈ lookahead <;> simp [Grammar.move, State.sees, h, followMove]

end Parser

end Lookahead
