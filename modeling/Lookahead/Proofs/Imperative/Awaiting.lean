import Lookahead.Proofs.Imperative.Prediction
import Lookahead.Proofs.Language.Flat
import Lookahead.Proofs.Predictor.Gap
import Lookahead.Proofs.Run.Passage

/-!
What is left to be followed against what is still expected. With one loop for all operators, the
rules that the imperative parser has still to follow mirror the stack of the predictor, and keep
doing so over every token that the predictor takes.
-/

namespace Lookahead.Imperative

open Kind Goal Phrase Lookahead.Parser

/-- The parser with one loop for all operators. -/
def flatParser : Parser Kind := flatGrammar.parser

def statementLoop : Rule Kind := .loop statementStart [.call "statement"]

/-- An operand behind the minus that may stand in front of it. -/
def bareOperand : Rule Kind := .choice "Unary" [
  ([identifier], [.call "primary"]),
  ([number], [.advance]),
  ([parBegin], [.advance, .call "expression", .expect parEnd]),
  ([.not], [.advance, .call "expression"])]

def optionalIndex : Rule Kind := .optional [indexerBegin] [.call "indexer"]

/-- The rules ask for what stands on the stack. Behind an operand the loop may stand more than once,
as an expression ends where another one does. -/
inductive Awaits : List (Rule Kind) → List (Goal Kind Phrase) → Prop
  | nil : Awaits [] []
  | expect {k rules goals} (h : Awaits rules goals) : Awaits (.expect k :: rules) (token k :: goals)
  | loop {rules goals} (h : Awaits rules goals) :
      Awaits (statementLoop :: rules) (phrase statements :: goals)
  | expression {rules goals} (h : Awaits (flatLoop levels :: rules) (phrase tail :: goals)) :
      Awaits (.call "expression" :: rules) (phrase (operand true) :: phrase tail :: goals)
  | unary {rules goals} (h : Awaits rules (phrase tail :: goals)) :
      Awaits (.call "unary" :: rules) (phrase (operand true) :: phrase tail :: goals)
  | sign {rules goals} (h : Awaits rules (phrase tail :: goals)) :
      Awaits (noDoubleNegation :: bareOperand :: rules)
        (phrase (operand false) :: phrase tail :: goals)
  | operator {rules goals} (h : Awaits rules (phrase tail :: goals)) :
      Awaits (noDoubleNegation :: .call "unary" :: rules)
        (phrase (operand false) :: phrase tail :: goals)
  | operations {rules goals} (h : Awaits rules goals) :
      Awaits (flatLoop levels :: rules) (phrase tail :: goals)
  | again {rules goals} (h : Awaits rules (phrase tail :: goals)) :
      Awaits (flatLoop levels :: rules) (phrase tail :: goals)
  | indexing {rules goals} (h : Awaits rules goals) :
      Awaits (optionalIndex :: rules) (phrase index :: goals)
  | initial {rules goals} (name : String) (h : Awaits rules goals) :
      Awaits (initializer name :: rules) (phrase value :: goals)

/-- With the token of this kind the rules come to ask for what stands on the stack then. -/
def AwaitsBehind (k : Kind) (rules : List (Rule Kind)) (goals : List (Goal Kind Phrase)) : Prop :=
  ∃ left, Awaits left goals ∧ flatParser.Shifts k rules left

variable {k : Kind} {rules : List (Rule Kind)} {goals goals' front : List (Goal Kind Phrase)}

theorem AwaitsBehind.pass {rule : Rule Kind} (hm : flatGrammar.move k rule = .pass)
    (h : AwaitsBehind k rules goals) : AwaitsBehind k (rule :: rules) goals := by
  obtain ⟨left, hleft, hshifts⟩ := h
  exact ⟨left, hleft, .pass hm hshifts⟩

theorem AwaitsBehind.enter {rule : Rule Kind} {body : List (Rule Kind)}
    (hm : flatGrammar.move k rule = .enter body false) (h : AwaitsBehind k (body ++ rules) goals) :
    AwaitsBehind k (rule :: rules) goals := by
  obtain ⟨left, hleft, hshifts⟩ := h
  exact ⟨left, hleft, .enter hm hshifts⟩

/-! ### Operands -/

theorem awaitsBehind_bareOperand {negatable : Bool} (h : Awaits rules (phrase tail :: goals))
    (hk : k ≠ sub) (hf : behindOperand negatable k = some front) :
    AwaitsBehind k (bareOperand :: rules) (front ++ phrase tail :: goals) := by
  cases k with
  | identifier =>
    cases hf
    exact ⟨_, .indexing h, .enter rfl (.enter rfl (.take rfl))⟩
  | number =>
    cases hf
    exact ⟨_, h, .enter rfl (.take rfl)⟩
  | parBegin =>
    cases hf
    exact ⟨_, .expression (.operations (.expect h)), .enter rfl (.take rfl)⟩
  | not =>
    cases hf
    exact ⟨_, .expression (.again h), .enter rfl (.take rfl)⟩
  | sub => exact absurd rfl hk
  | _ => cases hf

theorem awaitsBehind_unary {negatable : Bool} (h : Awaits rules (phrase tail :: goals))
    (hf : behindOperand negatable k = some front) :
    AwaitsBehind k (.call "unary" :: rules) (front ++ phrase tail :: goals) := by
  by_cases hk : k = sub
  · subst hk
    cases negatable with
    | false => cases hf
    | true =>
      cases hf
      exact ⟨_, .sign h, .enter rfl (.enter rfl (.take rfl))⟩
  · refine .enter rfl (.pass ?_ (awaitsBehind_bareOperand h hk hf))
    simp [Grammar.move, hk]

theorem awaitsBehind_expression (h : Awaits (flatLoop levels :: rules) (phrase tail :: goals))
    (hf : behindOperand true k = some front) :
    AwaitsBehind k (.call "expression" :: rules) (front ++ phrase tail :: goals) :=
  .enter rfl (awaitsBehind_unary h hf)

theorem forbids_of_behindOperand (hf : behindOperand false k = some front) :
    flatGrammar.move k noDoubleNegation = .pass ∧ k ≠ sub := by
  have hk : k ≠ sub := by
    rintro rfl
    cases hf
  exact ⟨by simp [Grammar.move, noDoubleNegation, hk], hk⟩

/-- A loop whose body takes the token is entered and stands behind what is left of the body. -/
theorem AwaitsBehind.round {rule : Rule Kind} {body : List (Rule Kind)}
    (hm : flatGrammar.move k rule = .enter body true) (hk : k ≠ eof)
    (htakes : flatGrammar.takes k 5 body = true)
    (h : AwaitsBehind k (body ++ rule :: rules) goals) : AwaitsBehind k (rule :: rules) goals := by
  obtain ⟨left, hleft, hshifts⟩ := h
  exact ⟨left, hleft, .round hm hk htakes hshifts⟩

theorem awaitsBehind_flatLoop (h : Awaits (flatLoop levels :: rules) (phrase tail :: goals))
    (hf : behind tail k = some front) :
    AwaitsBehind k (flatLoop levels :: rules) (front ++ goals) := by
  cases k with
  | add | sub =>
    cases hf
    exact .round rfl (by decide) rfl ⟨_, .operator h, .enter rfl (.take rfl)⟩
  | assign | or | and | eq | ne | relOp | mul | div =>
    cases hf
    exact .round rfl (by decide) rfl ⟨_, .unary h, .enter rfl (.take rfl)⟩
  | _ => cases hf

theorem move_flatLoop (hf : behind tail k = none) :
    flatGrammar.move k (flatLoop levels) = .pass := by
  cases k <;> first | rfl | cases hf

/-! ### Statements -/

theorem follows_primary {s t : State Kind} :
    flatParser.Follows (.call "primary" :: rules) s t ↔
      flatParser.Follows (.expect identifier :: optionalIndex :: rules) s t := by
  have hp : flatGrammar.production? "primary" =
      some ⟨"primary", [.expect identifier, optionalIndex]⟩ := rfl
  exact follows_call_append (p := flatParser) hp

theorem follows_block {s t : State Kind} :
    flatParser.Follows (.call "block" :: rules) s t ↔ flatParser.Follows
      (.expect blockBegin :: statementLoop :: .expect blockEnd :: rules) s t := by
  have hp : flatGrammar.production? "block" =
      some ⟨"block", [.expect blockBegin, statementLoop, .expect blockEnd]⟩ := rfl
  exact follows_call_append (p := flatParser) hp

theorem awaitsBehind_statements (h : Awaits rules goals) (hf : behind statements k = some front) :
    AwaitsBehind k (statementLoop :: rules) (front ++ goals) := by
  have hloop : Awaits (statementLoop :: rules) (phrase statements :: goals) := .loop h
  cases k with
  | const =>
    cases hf
    refine .round rfl (by decide) rfl (.enter rfl (.enter rfl (.enter rfl ?_)))
    refine ⟨_, .expect (.indexing (.expect (.expect (.expect hloop)))), ?_⟩
    exact .mono (.take rfl) follows_primary.2
  | var =>
    cases hf
    refine .round rfl (by decide) rfl (.enter rfl (.enter rfl (.enter rfl ?_)))
    exact ⟨_, .expect (.expect (.initial _ (.expect hloop))), .take rfl⟩
  | identifier =>
    cases hf
    refine .round rfl (by decide) rfl (.enter rfl (.enter rfl (.enter rfl (.enter rfl ?_))))
    exact ⟨_, .indexing (.expect (.initial _ (.expect hloop))), .take rfl⟩
  | doWord =>
    cases hf
    refine .round rfl (by decide) rfl (.enter rfl (.enter rfl (.enter rfl ?_)))
    refine ⟨_, .expect (.loop (.expect (.expect (.expect (.expression (.operations (.expect (.expect
      hloop)))))))), ?_⟩
    exact .mono (.take rfl) follows_block.2
  | _ => cases hf

theorem awaitsBehind_index (h : Awaits rules goals) (hf : behind index k = some front) :
    AwaitsBehind k (optionalIndex :: rules) (front ++ goals) := by
  cases k with
  | indexerBegin =>
    cases hf
    exact .enter rfl (.enter rfl ⟨_, .expression (.operations (.expect h)), .take rfl⟩)
  | _ => cases hf

theorem awaitsBehind_initializer (name : String) (h : Awaits rules goals)
    (hf : behind value k = some front) :
    AwaitsBehind k (initializer name :: rules) (front ++ goals) := by
  by_cases hk : k = indexerBegin
  · subst hk
    cases hf
    exact .enter rfl (.enter rfl ⟨_, .expect h, .take rfl⟩)
  · obtain ⟨front, hfront, rfl⟩ := exists_of_behind_value hf hk
    have hexpression : AwaitsBehind k ([.call "expression"] ++ rules)
        (front ++ phrase tail :: goals) := awaitsBehind_expression (.operations h) hfront
    rw [List.append_assoc]
    refine .enter ?_ hexpression
    cases k <;> first | rfl | cases hfront

/-! ### Whole texts -/

theorem Awaits.step (h : Awaits rules goals) (hs : predictor.step goals k = some goals') :
    AwaitsBehind k rules goals' := by
  induction h generalizing goals' with
  | nil => cases hs
  | @expect j rules goals h =>
    obtain ⟨rfl, rfl⟩ := Predictor.step_token_iff.1 hs
    exact ⟨rules, h, .take (if_pos rfl)⟩
  | @loop rules goals h ih =>
    obtain ⟨front, hf, rfl⟩ | ⟨hf, -, hs⟩ := Predictor.step_phrase_iff.1 hs
    · exact awaitsBehind_statements h hf
    · exact .pass (if_neg (behind_eq_none_iff.1 hf)) (ih hs)
  | @expression rules goals h =>
    obtain ⟨front, hf, rfl⟩ := Predictor.exists_expand_of_step rfl hs
    exact awaitsBehind_expression h hf
  | @unary rules goals h =>
    obtain ⟨front, hf, rfl⟩ := Predictor.exists_expand_of_step rfl hs
    exact awaitsBehind_unary h hf
  | @sign rules goals h =>
    obtain ⟨front, hf, rfl⟩ := Predictor.exists_expand_of_step rfl hs
    obtain ⟨hm, hk⟩ := forbids_of_behindOperand hf
    exact .pass hm (awaitsBehind_bareOperand h hk hf)
  | @operator rules goals h =>
    obtain ⟨front, hf, rfl⟩ := Predictor.exists_expand_of_step rfl hs
    obtain ⟨hm, -⟩ := forbids_of_behindOperand hf
    exact .pass hm (awaitsBehind_unary h hf)
  | @operations rules goals h ih =>
    obtain ⟨front, hf, rfl⟩ | ⟨hf, -, hs⟩ := Predictor.step_phrase_iff.1 hs
    · exact awaitsBehind_flatLoop (.operations h) hf
    · exact .pass (move_flatLoop hf) (ih hs)
  | @again rules goals h ih =>
    -- where this loop is left, the one behind it is asked with the same stack
    cases hf : behind tail k with
    | some front =>
      rw [Predictor.step_of_expand hf] at hs
      cases hs
      exact awaitsBehind_flatLoop (.again h) hf
    | none => exact .pass (move_flatLoop hf) (ih hs)
  | @indexing rules goals h ih =>
    obtain ⟨front, hf, rfl⟩ | ⟨hf, -, hs⟩ := Predictor.step_phrase_iff.1 hs
    · exact awaitsBehind_index h hf
    · exact .pass (if_neg (behind_eq_none_iff.1 hf)) (ih hs)
  | @initial rules goals name h =>
    obtain ⟨front, hf, rfl⟩ := Predictor.exists_expand_of_step rfl hs
    exact awaitsBehind_initializer name h hf

/-- What the predictor takes is passed in silence, and then the rules ask for what it expects. -/
theorem Awaits.run (h : Awaits rules goals) {tokens : List (Token Kind)}
    (hrun : predictor.run goals (tokens.map Token.kind) = some goals') :
    ∃ left, Awaits left goals' ∧ ∀ s s' t : State Kind, s.Passes tokens s' →
      flatParser.Follows left s' t → flatParser.Follows rules s t := by
  induction tokens generalizing rules goals with
  | nil =>
    cases hrun
    refine ⟨rules, h, fun s s' t hp ht ↦ ?_⟩
    cases hp
    exact ht
  | cons token tokens ih =>
    obtain ⟨goals₁, hs, hrun⟩ := Option.bind_eq_some_iff.1 hrun
    obtain ⟨middle, hmiddle, hshifts⟩ := h.step hs
    obtain ⟨left, hleft, hpass⟩ := ih hmiddle hrun
    refine ⟨left, hleft, fun s s' t hp ht ↦ ?_⟩
    cases hp with
    | cons hat hrest => exact hshifts.follows hat (hpass _ _ _ hrest ht)

/-- What the predictor takes up to the end token is passed to the end of the run, without a further
complaint. -/
theorem Awaits.finish (h : Awaits rules goals) {first last : Token Kind}
    {behind tokens : List (Token Kind)} {s : State Kind} (hs : s.At first behind)
    (hsplit : first :: behind = tokens ++ [last]) (hlast : last.kind = eof)
    (hrun : predictor.run goals ((tokens ++ [last]).map Token.kind) = some []) :
    ∃ t, flatParser.Follows rules s t ∧ t.diagnostics = s.diagnostics := by
  rw [List.map_append, Predictor.run_append] at hrun
  obtain ⟨goals', hrun, hend⟩ := Option.bind_eq_some_iff.1 hrun
  obtain ⟨left, hleft, hpass⟩ := h.run hrun
  obtain ⟨s', hpasses, hat⟩ := State.exists_passes hs hsplit
  obtain ⟨goals'', hstep, hnil⟩ := Option.bind_eq_some_iff.1 hend
  cases hnil
  obtain ⟨nothing, hnothing, hshifts⟩ := hleft.step hstep
  cases hnothing
  refine ⟨s'.advance, hpass s s' _ hpasses ?_, ?_⟩
  · refine hshifts s' _ (congrArg Token.kind hat.current) (fun hne ↦ absurd hlast hne) ?_
    exact follows_nil.2 rfl
  · rw [State.diagnostics, s'.raises_advance]
    exact hpasses.silent.diagnostics

/-- At the start the rules ask for what the predictor begins with. -/
theorem awaits_start : Awaits [statementLoop, .expect eof] predictor.start :=
  .loop (.expect .nil)

/-- At a token that they cannot take, the rules complain so that one diagnostic is recorded, and go
on with the token as it is expected elsewhere. -/
def Recovers (left : List (Rule Kind)) (token : Token Kind) (behind : List (Token Kind))
    (d : Diagnostic) : Prop :=
  ∀ s : State Kind, s.At token behind → suppressionWindow < s.sinceLast →
    ∃ (rules : List (Rule Kind)) (goals : List (Goal Kind Phrase)) (s' : State Kind),
      s'.At token behind ∧ s'.diagnostics = s.diagnostics ++ [d] ∧ Awaits rules goals ∧
      predictor.run goals ((token :: behind).map Token.kind) = some [] ∧
      ∀ t, flatParser.Follows rules s' t → flatParser.Follows left s t

/-- A text that is passed up to a token at which the parser recovers gets the one diagnostic. -/
theorem Recovers.says_once {left : List (Rule Kind)} {front behind : List (Token Kind)}
    {token last : Token Kind} {d : Diagnostic} (h : Recovers left token (behind ++ [last]) d)
    (hpass : ∀ s s' t : State Kind, s.Passes front s' → flatParser.Follows left s' t →
      flatParser.Follows [statementLoop, .expect eof] s t)
    (hlong : 2 ≤ front.length) (hlast : last.kind = eof) :
    dialect.parser.Says (front ++ token :: behind ++ [last]) d := by
  obtain ⟨first, after, hfirst⟩ : ∃ first after,
      front ++ token :: behind ++ [last] = first :: after :=
    List.exists_cons_of_ne_nil (by simp)
  have hsplit : first :: after = front ++ token :: (behind ++ [last]) := by
    rw [← hfirst]
    simp
  obtain ⟨s, hpasses, hat⟩ := State.exists_passes (State.at_start first after) hsplit
  have hsilent := hpasses.silent
  have hlate : suppressionWindow < s.sinceLast := by
    have hcount : s.sinceLast = 1 + front.length := hsilent.sinceLast
    rw [hcount, suppressionWindow]
    omega
  obtain ⟨rules, goals, s', hat', hd, hawaits, hrun, hfollow⟩ := h s hat hlate
  have hcut : token :: (behind ++ [last]) = token :: behind ++ [last] := rfl
  obtain ⟨t, ht, hsame⟩ := hawaits.finish hat' hcut hlast hrun
  have hend := hpass _ s t hpasses (hfollow t ht)
  have hprogram : flatGrammar.production? "program" = some ⟨"program", [statementLoop]⟩ := rfl
  have hflat : flatParser.run? ((first :: after).map .ok) = some t.drain :=
    run?_eq_some_iff_follows.2 ⟨t, (follows_call_append (p := flatParser) hprogram).2 hend, rfl⟩
  have hmem : last ∈ first :: after := by
    rw [hsplit]
    simp
  have hrun : dialect.parser.run? ((first :: after).map .ok) = some t.drain :=
    flattens.run?_of_flat ⟨.ok last, List.mem_map_of_mem hmem, hlast⟩ hflat
  have hdiagnostics : t.drain.diagnostics = [d] := by
    rw [State.diagnostics_drain, hsame, hd, hsilent.diagnostics]
    rfl
  rw [hfirst]
  constructor
  · rw [parse?_map_ok hrun, hdiagnostics]
  · rw [parseTokens?, hrun, Option.map_some, hdiagnostics]

end Lookahead.Imperative
