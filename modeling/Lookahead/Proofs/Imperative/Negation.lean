import Lookahead.Proofs.Imperative.Awaiting
import Lookahead.Proofs.Imperative.Recognition

/-!
A minus too many behind a plus or a minus. It is forbidden where it stands and then taken as an
operator or as a sign after all, so that the text goes on as it would without it.
-/

namespace Lookahead.Imperative

open Kind Goal Phrase Lookahead.Parser

variable {k : Kind} {rules : List (Rule Kind)} {goals goals' : List (Goal Kind Phrase)}

/-- A plus or a minus stands on no stack: each is taken for a phrase that may begin with it. -/
def Unsigned (g : Goal Kind Phrase) : Prop := g ≠ token add ∧ g ≠ token sub

instance : DecidablePred Unsigned := fun _ ↦ inferInstanceAs (Decidable (_ ∧ _))

theorem unsigned_of_behind {x : Phrase} {front : List (Goal Kind Phrase)}
    (h : behind x k = some front) : ∀ g ∈ front, Unsigned g := by
  have hoperand {negatable : Bool} {front : List (Goal Kind Phrase)}
      (h : behindOperand negatable k = some front) : ∀ g ∈ front, Unsigned g := by
    cases k with
    | sub =>
      cases negatable <;> cases h
      decide
    | identifier | number | parBegin | not =>
      cases h
      decide
    | _ => cases h
  cases x with
  | operand negatable => exact hoperand h
  | value =>
    by_cases hk : k = indexerBegin
    · subst hk
      cases h
      decide
    · obtain ⟨rest, hrest, rfl⟩ := exists_of_behind_value h hk
      exact List.forall_mem_append.2 ⟨hoperand hrest, by decide⟩
  | statements | tail | index => cases k <;> cases h <;> decide

theorem unsigned_of_run {ks : List Kind} (h : predictor.run predictor.start ks = some goals) :
    ∀ g ∈ goals, Unsigned g := by
  refine Predictor.run_keeps (Q := fun goals ↦ ∀ g ∈ goals, Unsigned g) (fun hg hs ↦ ?_)
    (by decide) h
  exact Predictor.forall_mem_step hs (fun _ hf ↦ unsigned_of_behind hf) hg

/-- Behind a plus or a minus an operand is expected that does not begin with a minus. -/
theorem exists_operand_of_step (hk : k = add ∨ k = sub) (hg : ∀ g ∈ goals, Unsigned g)
    (h : predictor.step goals k = some goals') :
    ∃ rest, goals' = phrase (operand false) :: rest := by
  induction goals with
  | nil => cases h
  | cons g goals ih =>
    obtain ⟨hhead, hgoals⟩ := List.forall_mem_cons.1 hg
    cases g with
    | token j =>
      obtain ⟨rfl, -⟩ := Predictor.step_token_iff.1 h
      obtain rfl | rfl := hk
      · exact absurd rfl hhead.1
      · exact absurd rfl hhead.2
    | phrase x =>
      obtain ⟨front, hf, rfl⟩ | ⟨-, -, h⟩ := Predictor.step_phrase_iff.1 h
      · obtain rfl | rfl := hk
        · cases x <;> cases hf
          exact ⟨_, rfl⟩
        · cases x with
          | operand negatable =>
            cases negatable <;> cases hf
            exact ⟨_, rfl⟩
          | tail | value =>
            cases hf
            exact ⟨_, rfl⟩
          | statements | index => cases hf
      · exact ih hgoals h

/-- A minus where none may stand is forbidden. In front of an operand it also keeps the operand from
being found, within the window, and is then the next operator; behind an operator it is the sign of
the next operand. Either way another operand is expected behind it. -/
theorem Awaits.recovers {minus : Token Kind} {behind : List (Token Kind)}
    (h : Awaits rules (phrase (operand false) :: goals)) (hk : minus.kind = sub)
    (hrun : predictor.run (phrase (operand false) :: goals) (behind.map Token.kind) = some []) :
    Recovers rules minus behind ⟨.forbidden, doubleNegation, minus.position⟩ := by
  intro s hs hlate
  let forbidden := s.raise flatParser.admits .forbidden doubleNegation
  have hforbidden : forbidden.At minus behind := hs.raise ..
  have hrecorded : forbidden.diagnostics =
      s.diagnostics ++ [⟨.forbidden, doubleNegation, minus.position⟩] := by
    have hadmits : flatParser.admits s.sinceLast = true := decide_eq_true hlate
    rw [State.diagnostics_raise, if_pos hadmits, hs.current]
  have hforbid : flatGrammar.move s.current.kind noDoubleNegation =
      .raise .forbidden doubleNegation := by
    rw [hs.current, hk]
    rfl
  have hrest {goals' : List (Goal Kind Phrase)}
      (hstep : predictor.step goals' sub = some (phrase (operand false) :: goals)) :
      predictor.run goals' ((minus :: behind).map Token.kind) = some [] := by
    rw [List.map_cons, hk, Predictor.run_cons_of_step hstep, hrun]
  cases h with
  | @sign rules goals h =>
    let missed := forbidden.raise flatParser.admits .invalidProduction
      "Production 'Unary' is invalid"
    have hmissed : flatGrammar.move forbidden.current.kind bareOperand =
        .raise .invalidProduction "Production 'Unary' is invalid" := by
      rw [hforbidden.current, hk]
      rfl
    refine ⟨rules, phrase tail :: goals, missed, hforbidden.raise .., ?_, h, hrest rfl,
      fun t ht ↦ ?_⟩
    · rw [State.diagnostics_raise, hrecorded]
      exact List.append_nil _
    · exact (follows_of_raise hforbid).2 ((follows_of_raise hmissed).2 ht)
  | @operator rules goals h =>
    refine ⟨_, _, forbidden, hforbidden, hrecorded, .unary h, hrest rfl, fun t ht ↦ ?_⟩
    exact (follows_of_raise hforbid).2 ht

/-- A minus inserted behind a plus or a minus of a program is forbidden there, and that is all that
is complained about. -/
theorem double_negation_costs_one (before after : List (Token Kind)) (op inserted last : Token Kind)
    (hs : Sentence ((before ++ op :: after).map Token.kind)) (hop : op.kind = add ∨ op.kind = sub)
    (hinserted : inserted.kind = sub) (hlast : last.kind = eof) :
    dialect.parser.Says (before ++ op :: inserted :: after ++ [last])
      ⟨.forbidden, "Unexpected double negation '-'", inserted.position⟩ := by
  obtain ⟨outlook, goals, ho, hstep, hrun⟩ := recognizes.exists_outlook hlast hs
  obtain ⟨rest, rfl⟩ := exists_operand_of_step hop (unsigned_of_run ho) hstep
  have hfront : predictor.run predictor.start ((before ++ [op]).map Token.kind) =
      some (phrase (operand false) :: rest) := by
    rw [Predictor.outlook] at ho
    rw [List.map_append, Predictor.run_append, ho, Option.bind_some]
    exact Predictor.run_cons_of_step hstep []
  obtain ⟨left, hleft, hpass⟩ := awaits_start.run hfront
  -- a program does not begin with a sign, so the window is open behind the second token
  have hne : before ≠ [] := by
    rintro rfl
    cases ho
    obtain hop | hop := hop <;> rw [hop] at hstep <;> cases hstep
  have hlong : 2 ≤ (before ++ [op]).length := by
    rw [List.length_append]
    exact Nat.succ_le_succ (List.length_pos_of_ne_nil hne)
  have hsays := (hleft.recovers hinserted hrun).says_once hpass hlong hlast
  rwa [List.append_assoc before] at hsays

/-- The text `a := -1 +-!b;`. -/
theorem double_negation_costs_one_in_sum :
    dialect.parser.Says
      (negatedSum.take 5 ++ ⟨sub, "-", ⟨1, 10⟩⟩ :: negatedSum.drop 5 ++ [.endOfInput ⟨1, 13⟩])
      ⟨.forbidden, "Unexpected double negation '-'", ⟨1, 10⟩⟩ :=
  double_negation_costs_one (negatedSum.take 4) (negatedSum.drop 5) ⟨add, "+", ⟨1, 9⟩⟩
    ⟨sub, "-", ⟨1, 10⟩⟩ (.endOfInput ⟨1, 13⟩) (by decide) (by decide) rfl rfl

end Lookahead.Imperative
