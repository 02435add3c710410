import Lookahead.Language.Basic
import Lookahead.Proofs.Boolean.Prediction
import Lookahead.Proofs.Predictor.Ladder

/-!
Where the productions of the boolean language lead: each takes what the predictor expects on top of
its stack, or the first complaint is made where the predictor refuses a token.
-/

namespace Lookahead.Boolean

open Kind Goal Phrase Reading

variable {g : Reading dialect.parser predictor} {n c : Nat} {goals : List (Goal Kind Phrase)}

/-! ### Expressions -/

theorem takesOperand (he : g.TakesExpression operand tail (first tail) n) :
    g.TakesOperand operand tail n := by
  intro goals c
  have hname : g.Leads n
      (fun s ↦ g.Expects (phrase operand :: phrase tail :: goals) c s ∧
        s.current.kind ∈ [identifier, number])
      [.advance] (g.Expects (phrase tail :: goals) (c + 1)) :=
    leads_advance (by decide) (by simp [Predictor.step, predictor, behind])
  have hopen : g.Leads n
      (fun s ↦ g.Expects (phrase operand :: phrase tail :: goals) c s ∧ s.current.kind ∈ [parBegin])
      [.advance, .call "expression", .expect parEnd]
      (g.Expects (phrase tail :: goals) (c + 3)) := by
    refine leads_cons (leads_begin (by decide) rfl) ?_
    exact he.enclosed (by decide) (fun _ ↦ behind_eq_none) rfl
  have hnot : g.Leads n
      (fun s ↦ g.Expects (phrase operand :: phrase tail :: goals) c s ∧ s.current.kind ∈ [Kind.not])
      [.advance, .call "expression"]
      fun s ↦ g.Expects (phrase tail :: goals) (c + 2) s ∧ s.current.kind ∉ first tail :=
    leads_cons (leads_begin (by decide) rfl) (he goals (c + 1))
  refine leads_call rfl (.choice ?_ fun s h hk message ↦ ?_)
  · simp only [List.forall_mem_cons]
    refine ⟨hname, hopen.weaken (by omega), ?_, by simp⟩
    exact hnot.after fun s h ↦ h.1.weaken (by omega)
  · have hfirst : s.current.kind ∉ first operand := by simp_all [first]
    exact h.fails (Predictor.step_of_refuse (behind_eq_none hfirst) rfl) _ message

theorem takesTail_assign (ho : g.TakesOperand operand tail n) :
    g.TakesTail tail "assign_tail" (first tail) n := by
  have relational : g.TakesTail tail "relational_tail" [relOp] n :=
    .tightest ho (by decide) (by decide) rfl
  have and : g.TakesTail tail "and_tail" ([Kind.and] ++ _) n :=
    .level ho (by decide) (by decide) relational rfl
  have xor : g.TakesTail tail "xor_tail" ([Kind.xor] ++ _) n :=
    .level ho (by decide) (by decide) and rfl
  have or : g.TakesTail tail "or_tail" ([Kind.or] ++ _) n :=
    .level ho (by decide) (by decide) xor rfl
  have assign : g.TakesTail tail "assign_tail" ([Kind.assign] ++ _) n :=
    .level ho (by decide) (by decide) or rfl
  exact assign

theorem takesExpression (n : Nat) : g.TakesExpression operand tail (first tail) n := by
  induction n with
  | zero => exact fun _ _ ↦ .zero
  | succ n ih => exact .succ rfl (takesOperand ih) (takesTail_assign (takesOperand ih))

/-! ### Statements -/

theorem leads_statement :
    g.Leads n
      (g.Expects (token identifier :: token assign :: phrase operand :: phrase tail :: goals) c)
      [.call "statement"] (g.Expects goals (c + 3)) := by
  refine leads_call rfl ?_
  refine leads_cons (leads_expect (by decide)) ?_
  refine leads_cons (leads_expect (by decide)) ?_
  refine .after (takesExpression n _ _) ?_
  intro s h
  exact h.1.skip (behind_eq_none h.2) rfl

theorem leads_further :
    g.Leads n (g.Expects (phrase more :: goals) c)
      [.loop [terminator] [.advance, .optional [identifier] [.call "statement"]]]
      (g.Expects goals c) := by
  have hstatement (d : Nat) : g.Leads n (g.Expects (phrase statement :: phrase more :: goals) d)
      [.optional [identifier] [.call "statement"]] (g.Expects (phrase more :: goals) d) := by
    have hbegin : g.Leads n
        (fun s ↦ g.Expects (phrase statement :: phrase more :: goals) d s ∧
          s.current.kind ∈ [identifier])
        [.call "statement"] (g.Expects (phrase more :: goals) (d + 3)) :=
      .before leads_statement fun s h ↦ h.1.expand (List.mem_singleton.1 h.2) rfl
    exact .optional (hbegin.weaken (by omega)) fun s h hk ↦ h.skip (behind_eq_none hk) rfl
  have hbody (d : Nat) : g.Leads n
      (fun s ↦ g.Expects (phrase more :: goals) d s ∧ s.current.kind ∈ [terminator])
      [.advance, .optional [identifier] [.call "statement"]]
      (g.Expects (phrase more :: goals) (d + 1)) :=
    leads_cons (leads_begin (by decide) rfl) (hstatement (d + 1))
  refine (leads_repeat hbody).after ?_
  rintro s ⟨he, hk⟩
  exact he.skip (behind_eq_none hk) rfl

theorem leads_program :
    g.Leads n (g.Expects predictor.start 1) [.call grammar.start] (g.Expects [token eof] 1) := by
  have hbody : g.Leads n (fun s ↦ g.Expects predictor.start 1 s ∧ s.current.kind ∈ [identifier])
      [.call "statement", .loop [terminator] [.advance, .optional [identifier] [.call "statement"]]]
      (g.Expects [token eof] 4) := by
    refine leads_cons (.before leads_statement ?_) leads_further
    intro s h
    exact h.1.expand (List.mem_singleton.1 h.2) rfl
  refine leads_call rfl (.optional (hbody.weaken (by omega)) ?_)
  intro s h hk
  exact h.skip (behind_eq_none hk) rfl

end Lookahead.Boolean
