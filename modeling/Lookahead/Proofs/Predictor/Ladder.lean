import Lookahead.Proofs.Predictor.Reading

/-!
Expressions as they are parsed by a ladder of operators, one production for each level, and as they
are predicted, an operand and then a tail of operations of any level.
-/

namespace Lookahead.Reading

variable {κ σ : Type} [DecidableEq κ] [TokenKind κ] {p : Parser κ} {m : Predictor κ σ}

/-- An expression takes an operand and all operations behind it. -/
def TakesExpression (g : Reading p m) (operand tail : σ) (operators : List κ) (n : Nat) : Prop :=
  ∀ goals c, g.Leads n (g.Expects (.phrase operand :: .phrase tail :: goals) c) [.call "expression"]
    fun s ↦ g.Expects (.phrase tail :: goals) (c + 1) s ∧ s.current.kind ∉ operators

def TakesOperand (g : Reading p m) (operand tail : σ) (n : Nat) : Prop :=
  ∀ goals c, g.Leads n (g.Expects (.phrase operand :: .phrase tail :: goals) c) [.call "unary"]
    (g.Expects (.phrase tail :: goals) (c + 1))

/-- The production takes all operations with these operators. -/
def TakesTail (g : Reading p m) (tail : σ) (name : String) (operators : List κ) (n : Nat) : Prop :=
  ∀ goals c, g.Leads n (g.Expects (.phrase tail :: goals) c) [.call name]
    fun s ↦ g.Expects (.phrase tail :: goals) c s ∧ s.current.kind ∉ operators

variable {g : Reading p m} {operand tail : σ} {operators others : List κ} {name higher : String}
  {goals : List (Goal κ σ)} {c n : Nat}

theorem TakesExpression.succ
    (hp : p.grammar.production? "expression" =
      some ⟨"expression", [.call "unary", .call "assign_tail"]⟩)
    (ho : g.TakesOperand operand tail n) (ht : g.TakesTail tail "assign_tail" operators n) :
    g.TakesExpression operand tail operators (n + 1) := by
  intro goals c
  exact .call hp (leads_cons (ho goals c) (ht goals (c + 1)))

theorem TakesExpression.enclosed {close : κ} (he : g.TakesExpression operand tail operators n)
    (hclose : close ≠ TokenKind.eof) (ht : ∀ k ∉ operators, m.expand tail k = none)
    (ho : m.optional tail = true) :
    g.Leads n (g.Expects (.phrase operand :: .phrase tail :: .token close :: goals) c)
      [.call "expression", .expect close] (g.Expects goals (c + 2)) := by
  refine leads_cons (he _ c) (.before (leads_expect hclose) ?_)
  intro s h
  exact h.1.skip (ht _ h.2) ho

section Level

variable (ho : g.TakesOperand operand tail n) (heof : TokenKind.eof ∉ operators)
  (hk : ∀ k ∈ operators, m.expand tail k = some [.phrase operand, .phrase tail])
include ho heof hk

theorem TakesTail.tightest
    (hp : p.grammar.production? name = some ⟨name, [.loop operators [.advance, .call "unary"]]⟩) :
    g.TakesTail tail name operators n := by
  intro goals c
  have hbody (d : Nat) : g.Leads n
      (fun s ↦ g.Expects (.phrase tail :: goals) d s ∧ s.current.kind ∈ operators)
      [.advance, .call "unary"] (g.Expects (.phrase tail :: goals) (d + 2)) := by
    refine leads_cons (leads_advance heof ?_) (ho goals (d + 1))
    exact fun k hmem ↦ Predictor.step_of_expand (hk k hmem)
  exact leads_call hp (leads_repeat fun d ↦ (hbody d).weaken (Nat.le_succ _))

theorem TakesTail.level (h : g.TakesTail tail higher others n)
    (hp : p.grammar.production? name = some (.operatorTail name operators "unary" higher)) :
    g.TakesTail tail name (operators ++ others) n := by
  intro goals c
  have hbody (d : Nat) : g.Leads n
      (fun s ↦ (g.Expects (.phrase tail :: goals) d s ∧ s.current.kind ∉ others) ∧
        s.current.kind ∈ operators)
      [.advance, .call "unary", .call higher]
      fun s ↦ g.Expects (.phrase tail :: goals) (d + 2) s ∧ s.current.kind ∉ others := by
    have hoperator : g.Leads n
        (fun s ↦ g.Expects (.phrase tail :: goals) d s ∧ s.current.kind ∈ operators)
        [.advance] (g.Expects (.phrase operand :: .phrase tail :: goals) (d + 1)) :=
      leads_advance heof fun k hmem ↦ Predictor.step_of_expand (hk k hmem)
    refine leads_cons (hoperator.before fun s h ↦ ⟨h.1.1, h.2⟩) ?_
    exact leads_cons (ho goals (d + 1)) (h goals (d + 2))
  have hloop := leads_loop (Q := (· ∉ others)) (c := c) fun d ↦
    (hbody d).after fun s h ↦ ⟨h.1.weaken (Nat.le_succ _), h.2⟩
  refine leads_call hp (leads_cons (h goals c) (hloop.after ?_))
  rintro s ⟨⟨hs, hothers⟩, hoperators⟩
  refine ⟨hs, fun hmem ↦ ?_⟩
  exact (List.mem_append.1 hmem).elim hoperators hothers

end Level

end Lookahead.Reading
