import Lookahead.Language.Basic
import Lookahead.Proofs.Imperative.Prediction
import Lookahead.Proofs.Predictor.Ladder

/-!
Where the productions of the imperative language lead: each takes what the predictor expects on top
of its stack, or the first complaint is made where the predictor refuses a token.
-/

namespace Lookahead.Imperative

open Kind Goal Phrase Reading

variable {g : Reading dialect.parser predictor} {n c : Nat} {goals : List (Goal Kind Phrase)}

/-! ### Expressions -/

/-- With a minus between two operands, none may stand in front of the second one. -/
theorem step_minus : ∀ k ∈ [sub], predictor.step (phrase (operand false) :: goals) k = none :=
  List.forall_mem_singleton.2 rfl

theorem leads_minus :
    g.Leads n (g.Expects (phrase (operand true) :: goals) c)
      [.optional [sub] [.advance, noDoubleNegation]]
      (g.Expects (phrase (operand false) :: goals) c) := by
  have hbody : g.Leads n
      (fun s ↦ g.Expects (phrase (operand true) :: goals) c s ∧ s.current.kind ∈ [sub])
      [.advance, noDoubleNegation]
      fun s ↦ g.Expects (phrase (operand false) :: goals) (c + 1) s ∧ s.current.kind ∉ [sub] :=
    leads_cons (leads_begin (by decide) rfl) (leads_forbid step_minus)
  refine .optional (hbody.after fun s h ↦ ?_) fun s h hk ↦ ?_
  · exact h.1.weaken (Nat.le_succ _)
  · exact h.congr (step_operand (fun hs ↦ hk (hs ▸ List.mem_singleton_self _)) _ _ _)

section Expression

variable (he : g.TakesExpression (operand true) tail (first tail) n)
include he

theorem leads_enclosed {close : Kind} (hclose : close ≠ eof) :
    g.Leads n (g.Expects (phrase (operand true) :: phrase tail :: token close :: goals) c)
      [.call "expression", .expect close] (g.Expects goals (c + 2)) :=
  he.enclosed hclose (fun _ ↦ behind_eq_none_iff.2) rfl

theorem leads_indexer :
    g.Leads n (fun s ↦ g.Expects (phrase index :: goals) c s ∧ s.current.kind ∈ [indexerBegin])
      [.call "indexer"] (g.Expects goals c) := by
  have hbody : g.Leads n
      (g.Expects (token indexerBegin :: phrase (operand true) :: phrase tail ::
        token indexerEnd :: goals) c)
      [.expect indexerBegin, .call "expression", .expect indexerEnd] (g.Expects goals (c + 3)) :=
    leads_cons (leads_expect (by decide)) (leads_enclosed he (by decide))
  refine leads_call rfl (.before (hbody.weaken (by omega)) ?_)
  intro s h
  exact h.1.expand (List.mem_singleton.1 h.2) rfl

theorem leads_primary :
    g.Leads n (g.Expects (token identifier :: phrase index :: goals) c) [.call "primary"]
      (g.Expects goals (c + 1)) := by
  refine leads_call rfl (leads_cons (leads_expect (by decide)) (.optional (leads_indexer he) ?_))
  intro s h hk
  exact h.skip (behind_eq_none_iff.2 hk) rfl

theorem takesOperand : g.TakesOperand (operand true) tail n := by
  intro goals c
  have hx : predictor.expand (operand false) number = some [] := rfl
  have hnumber : g.Leads n
      (fun s ↦ g.Expects (phrase (operand false) :: phrase tail :: goals) c s ∧
        s.current.kind ∈ [number])
      [.advance] (g.Expects (phrase tail :: goals) (c + 1)) :=
    leads_begin (by decide) hx
  have hopen : g.Leads n
      (fun s ↦ g.Expects (phrase (operand false) :: phrase tail :: goals) c s ∧
        s.current.kind ∈ [parBegin])
      [.advance, .call "expression", .expect parEnd] (g.Expects (phrase tail :: goals) (c + 3)) :=
    leads_cons (leads_begin (by decide) rfl) (leads_enclosed he (by decide))
  have hnot : g.Leads n
      (fun s ↦ g.Expects (phrase (operand false) :: phrase tail :: goals) c s ∧
        s.current.kind ∈ [Kind.not])
      [.advance, .call "expression"]
      fun s ↦ g.Expects (phrase tail :: goals) (c + 2) s ∧ s.current.kind ∉ first tail :=
    leads_cons (leads_begin (by decide) rfl) (he goals (c + 1))
  refine leads_call rfl (leads_cons leads_minus (.choice ?_ fun s h hk message ↦ ?_))
  · simp only [List.forall_mem_cons]
    refine ⟨?_, hnumber, hopen.weaken (by omega), ?_, by simp⟩
    · exact (leads_primary he).before fun s h ↦ h.1.expand (List.mem_singleton.1 h.2) rfl
    · exact hnot.after fun s h ↦ h.1.weaken (by omega)
  · have hfirst : s.current.kind ∉ first (operand false) := by simp_all [first]
    exact h.fails (Predictor.step_of_refuse (behind_eq_none_iff.2 hfirst) rfl) _ message

theorem takesTail_multiplicative : g.TakesTail tail "multiplicative_tail" [mul, div] n :=
  .tightest (takesOperand he) (by decide) (by decide) rfl

theorem takesTail_additive : g.TakesTail tail "additive_tail" ([add, sub] ++ [mul, div]) n := by
  intro goals c
  have hoperator (d : Nat) : g.Leads n
      (fun s ↦ (g.Expects (phrase tail :: goals) d s ∧ s.current.kind ∉ [mul, div]) ∧
        s.current.kind ∈ [add, sub])
      [.advance] (g.Expects (phrase (operand false) :: phrase tail :: goals) (d + 1)) := by
    have hg : ∀ k ∈ [add, sub], predictor.step (phrase tail :: goals) k =
        some (phrase (operand false) :: phrase tail :: goals) := by
      simp [Predictor.step, predictor, behind]
    exact (leads_advance (by decide) hg).before fun s h ↦ ⟨h.1.1, h.2⟩
  have hoperand (d : Nat) : g.Leads n
      (fun s ↦ g.Expects (phrase (operand false) :: phrase tail :: goals) d s ∧
        s.current.kind ∉ [sub])
      [.call "unary"] (g.Expects (phrase tail :: goals) (d + 1)) :=
    (takesOperand he goals d).before fun s h ↦
      h.1.congr (step_operand (fun hs ↦ h.2 (hs ▸ List.mem_singleton_self _)) _ _ _)
  have hbody (d : Nat) : g.Leads n
      (fun s ↦ (g.Expects (phrase tail :: goals) d s ∧ s.current.kind ∉ [mul, div]) ∧
        s.current.kind ∈ [add, sub])
      [.advance, noDoubleNegation, .call "unary", .call "multiplicative_tail"]
      fun s ↦ g.Expects (phrase tail :: goals) (d + 2) s ∧ s.current.kind ∉ [mul, div] := by
    refine leads_cons (hoperator d) ?_
    refine leads_cons (leads_forbid step_minus) ?_
    exact leads_cons (hoperand (d + 1)) (takesTail_multiplicative he _ _)
  have hloop := leads_loop (Q := (· ∉ [mul, div])) (c := c) fun d ↦
    (hbody d).after fun s h ↦ ⟨h.1.weaken (Nat.le_succ _), h.2⟩
  refine leads_call rfl (leads_cons (takesTail_multiplicative he _ _) (hloop.after ?_))
  rintro s ⟨⟨hs, hothers⟩, hoperators⟩
  refine ⟨hs, fun hmem ↦ ?_⟩
  exact (List.mem_append.1 hmem).elim hoperators hothers

theorem takesTail_assign : g.TakesTail tail "assign_tail" (first tail) n := by
  have ho := takesOperand he
  have relational : g.TakesTail tail "relational_tail" ([relOp] ++ _) n :=
    .level ho (by decide) (by decide) (takesTail_additive he) rfl
  have equality : g.TakesTail tail "equality_tail" ([eq, ne] ++ _) n :=
    .level ho (by decide) (by decide) relational rfl
  have and : g.TakesTail tail "and_tail" ([Kind.and] ++ _) n :=
    .level ho (by decide) (by decide) equality rfl
  have or : g.TakesTail tail "or_tail" ([Kind.or] ++ _) n :=
    .level ho (by decide) (by decide) and rfl
  have assign : g.TakesTail tail "assign_tail" ([Kind.assign] ++ _) n :=
    .level ho (by decide) (by decide) or rfl
  exact assign

end Expression

theorem takesExpression (n : Nat) : g.TakesExpression (operand true) tail (first tail) n := by
  induction n with
  | zero => exact fun _ _ ↦ .zero
  | succ n ih => exact .succ rfl (takesOperand ih) (takesTail_assign ih)

/-! ### Statements -/

theorem leads_arrayInit :
    g.Leads n (g.Expects (token indexerBegin :: token indexerEnd :: goals) c) [.call "array_init"]
      (g.Expects goals (c + 2)) :=
  leads_call rfl (leads_cons (leads_expect (by decide)) (leads_expect (by decide)))

theorem leads_value {name : String} :
    g.Leads n (g.Expects (phrase value :: token terminator :: goals) c) [initializer name]
      (g.Expects (token terminator :: goals) c) := by
  refine .choice ?_ fun s h hk message ↦ ?_
  · simp only [List.forall_mem_cons]
    refine ⟨?_, ?_, by simp⟩
    · refine (takesExpression n (token terminator :: goals) c).mono (fun s h ↦ ?_) fun s h ↦ ?_
      · have hoperand : behindOperand true s.current.kind ≠ none :=
          fun hnone ↦ (behind_eq_none_iff (x := operand true)).1 hnone h.2
        exact h.1.congr (step_value hoperand _)
      · exact (h.1.skip (behind_eq_none_iff.2 h.2) rfl).weaken (Nat.le_succ _)
    · refine (leads_arrayInit.weaken (Nat.le_add_right _ _)).before fun s h ↦ ?_
      exact h.1.expand (List.mem_singleton.1 h.2) rfl
  · have hfirst : s.current.kind ∉ first value := by simp_all [first]
    exact h.fails (Predictor.step_of_refuse (behind_eq_none_iff.2 hfirst) rfl) _ message

theorem leads_constInit :
    g.Leads n (g.Expects (token const :: token identifier :: phrase index :: token assign ::
      token number :: token terminator :: goals) c)
      [.call "const_init", .expect terminator] (g.Expects goals (c + 5)) := by
  refine leads_cons (leads_call rfl ?_) (leads_expect (by decide))
  refine leads_cons (leads_expect (by decide)) ?_
  refine leads_cons (leads_primary (takesExpression n)) ?_
  exact leads_cons (leads_expect (by decide)) (leads_expect (by decide))

theorem leads_varInit :
    g.Leads n (g.Expects (token var :: token identifier :: token assign :: phrase value ::
      token terminator :: goals) c)
      [.call "var_init", .expect terminator] (g.Expects goals (c + 4)) := by
  refine leads_cons (leads_call rfl ?_) (leads_expect (by decide))
  refine leads_cons (leads_expect (by decide)) ?_
  refine leads_cons (leads_expect (by decide)) ?_
  exact leads_cons (leads_expect (by decide)) leads_value

theorem leads_varAssign :
    g.Leads n (g.Expects (token identifier :: phrase index :: token assign :: phrase value ::
      token terminator :: goals) c)
      [.call "var_assign", .expect terminator] (g.Expects goals (c + 3)) := by
  refine leads_cons (leads_call rfl ?_) (leads_expect (by decide))
  refine leads_cons (leads_primary (takesExpression n)) ?_
  exact leads_cons (leads_expect (by decide)) leads_value

def TakesStatement (g : Reading dialect.parser predictor) (n : Nat) : Prop :=
  ∀ goals c, g.Leads n
    (fun s ↦ g.Expects (phrase statements :: goals) c s ∧ s.current.kind ∈ statementStart)
    [.call "statement"] (g.Expects (phrase statements :: goals) (c + 1))

theorem leads_statements (hs : TakesStatement g n) :
    g.Leads n (g.Expects (phrase statements :: goals) c) [.loop statementStart [.call "statement"]]
      (g.Expects goals c) := by
  refine (leads_repeat fun d ↦ hs goals d).after ?_
  intro s h
  exact h.1.skip (behind_eq_none_iff.2 h.2) rfl

theorem leads_block (hs : TakesStatement g n) :
    g.Leads n (g.Expects (token blockBegin :: phrase statements :: token blockEnd :: goals) c)
      [.call "block"] (g.Expects goals (c + 2)) := by
  refine leads_call rfl (leads_cons (leads_expect (by decide)) ?_)
  exact leads_cons (leads_statements hs) (leads_expect (by decide))

theorem leads_doWhile (hs : TakesStatement g n) :
    g.Leads n (g.Expects (token doWord :: token blockBegin :: phrase statements :: token blockEnd ::
      token whileWord :: token parBegin :: phrase (operand true) :: phrase tail :: token parEnd ::
      token terminator :: goals) c)
      [.call "do_while", .expect terminator] (g.Expects goals (c + 8)) := by
  refine leads_cons (leads_call rfl ?_) (leads_expect (by decide))
  refine leads_cons (leads_expect (by decide)) ?_
  refine leads_cons (leads_block hs) ?_
  refine leads_cons (leads_expect (by decide)) ?_
  refine leads_cons (leads_expect (by decide)) ?_
  exact leads_enclosed (takesExpression n) (by decide)

theorem takesStatement (n : Nat) : TakesStatement g n := by
  induction n with
  | zero => exact fun _ _ ↦ .zero
  | succ n ih =>
    intro goals c
    refine .call rfl (.choice ?_ fun s h hk message ↦ ?_)
    · simp only [List.forall_mem_cons]
      refine ⟨?_, ?_, ?_, ?_, by simp⟩
      · exact (leads_constInit.weaken (by omega)).before fun s h ↦
          h.1.1.expand (List.mem_singleton.1 h.2) rfl
      · exact (leads_varInit.weaken (by omega)).before fun s h ↦
          h.1.1.expand (List.mem_singleton.1 h.2) rfl
      · exact (leads_varAssign.weaken (by omega)).before fun s h ↦
          h.1.1.expand (List.mem_singleton.1 h.2) rfl
      · exact ((leads_doWhile ih).weaken (by omega)).before fun s h ↦
          h.1.1.expand (List.mem_singleton.1 h.2) rfl
    · simp only [List.forall_mem_cons] at hk
      obtain ⟨hc, hv, hi, hd, -⟩ := hk
      exact absurd h.2 (by simp_all [statementStart])

theorem leads_program :
    g.Leads n (g.Expects predictor.start 1) [.call grammar.start] (g.Expects [token eof] 1) :=
  leads_call rfl (leads_statements (takesStatement n))

end Lookahead.Imperative
