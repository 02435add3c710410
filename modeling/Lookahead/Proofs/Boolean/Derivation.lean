import Lookahead.Proofs.Boolean.Prediction
import Lookahead.Proofs.Boolean.Syntax

/-!
What the predictor accepts is what can be derived in the syntax of the boolean language.
-/

namespace Lookahead.Boolean

open Kind Goal Ebnf Phrase Predictor

/-! ### What is accepted can be derived -/

namespace Phrase

/-- A terminator and the statement that may stand behind it, again and again. -/
def further : Ebnf Kind Symbol := many (.token terminator ++ option (.symbol .statement))

/-- What a phrase stands for. -/
def Takes : Phrase → List Kind → List Kind → Prop
  | program, i, r => Derives syntaxOf (.symbol .program) i r
  | more, i, r => Derives syntaxOf further i r
  | statement, i, r => Derives syntaxOf (option (.symbol .statement)) i r
  | operand, i, r => Derives syntaxOf (.symbol .unary) i r
  | tail, i, r => Derives syntaxOf (.symbol .assignTail) i r

end Phrase

variable {i j r : List Kind} {k : Kind}

theorem derives_expression (h : Derives syntaxOf (.symbol .unary) i j)
    (ht : Derives syntaxOf (.symbol .assignTail) j r) :
    Derives syntaxOf (.symbol .expression) i r :=
  .symbol (.sequence h ht)

theorem derives_statement (h : Derives syntaxOf (.symbol .unary) i j)
    (ht : Derives syntaxOf (.symbol .assignTail) j r) :
    Derives syntaxOf (.symbol .statement) (identifier :: assign :: i) r :=
  .symbol (.sequence (.sequence (.token _ _) (.token _ _)) (derives_expression h ht))

/-! The tails, from the tightest to the loosest. -/

theorem nullable_relationalTail : Nullable syntaxOf (.symbol .relationalTail) := .symbol .many

theorem nullable_andTail : Nullable syntaxOf (.symbol .andTail) :=
  .symbol (.append nullable_relationalTail .many)

theorem nullable_xorTail : Nullable syntaxOf (.symbol .xorTail) :=
  .symbol (.append nullable_andTail .many)

theorem nullable_orTail : Nullable syntaxOf (.symbol .orTail) :=
  .symbol (.append nullable_xorTail .many)

theorem nullable_assignTail : Nullable syntaxOf (.symbol .assignTail) :=
  .symbol (.append nullable_orTail .many)

/-- An operator with its operand extends a tail of its own level and of every looser one. -/
theorem extends_assignTail (hk : behind tail k = some [phrase operand, phrase tail])
    (hu : Derives syntaxOf (.symbol .unary) i j) :
    Extends syntaxOf (.symbol .assignTail) (k :: i) j := by
  have or {i j : List Kind} (h : Extends syntaxOf (.symbol .orTail) i j) :
      Extends syntaxOf (.symbol .assignTail) i j := .symbol (.append h)
  have xor {i j : List Kind} (h : Extends syntaxOf (.symbol .xorTail) i j) :
      Extends syntaxOf (.symbol .assignTail) i j := or (.symbol (.append h))
  have and {i j : List Kind} (h : Extends syntaxOf (.symbol .andTail) i j) :
      Extends syntaxOf (.symbol .assignTail) i j := xor (.symbol (.append h))
  have relational {i j : List Kind} (h : Extends syntaxOf (.symbol .relationalTail) i j) :
      Extends syntaxOf (.symbol .assignTail) i j := and (.symbol (.append h))
  cases k with
  | assign => exact .symbol (.operation nullable_orTail (.sequence (.token _ _) hu))
  | or => exact or (.symbol (.operation nullable_xorTail (.sequence (.token _ _) hu)))
  | xor => exact xor (.symbol (.operation nullable_andTail (.sequence (.token _ _) hu)))
  | and => exact and (.symbol (.operation nullable_relationalTail (.sequence (.token _ _) hu)))
  | relOp => exact relational (.symbol (.many (.sequence (.token _ _) hu)))
  | _ => cases hk

theorem takes_operand {front : List (Goal Kind Phrase)} (h : behind operand k = some front)
    (ht : Predictor.Takes Phrase.Takes front i r) :
    Derives syntaxOf (.symbol .unary) (k :: i) r := by
  cases k with
  | identifier =>
    cases h
    cases ht
    exact .symbol (.left (.left (.left (.token _ _))))
  | number =>
    cases h
    cases ht
    exact .symbol (.left (.left (.right (.token _ _))))
  | parBegin =>
    cases h
    obtain ⟨_, hu, _, ht, _, rfl, rfl⟩ := ht
    have he := derives_expression hu ht
    exact .symbol (.left (.right (.sequence (.sequence (.token _ _) he) (.token _ _))))
  | not =>
    cases h
    obtain ⟨_, hu, rfl⟩ := ht
    have he := derives_expression hu (nullable_assignTail _)
    exact .symbol (.right (.sequence (.token _ _) he))
  | _ => cases h

theorem sound : predictor.Sound Phrase.Takes where
  skip {x} ho i := by
    cases x with
    | program => exact .symbol (.absent _ _)
    | more => exact .stop _ _
    | statement => exact .absent _ _
    | tail => exact nullable_assignTail i
    | operand => cases ho
  expand {x k front} h i r ht := by
    cases x with
    | program =>
      cases k <;> cases h
      obtain ⟨_, rfl, _, hu, _, ht, _, hmore, rfl⟩ := ht
      exact .symbol (.present (.sequence (derives_statement hu ht) hmore))
    | more =>
      cases k <;> cases h
      obtain ⟨_, hs, _, hmore, rfl⟩ := ht
      exact .more (.sequence (.token _ _) hs) hmore
    | statement =>
      cases k <;> cases h
      obtain ⟨_, rfl, _, hu, _, ht, rfl⟩ := ht
      exact .present (derives_statement hu ht)
    | operand => exact takes_operand h ht
    | tail =>
      have hfront : front = [phrase operand, phrase tail] := by cases k <;> cases h <;> rfl
      subst hfront
      obtain ⟨j, hu, _, ht, rfl⟩ := ht
      exact extends_assignTail h hu _ ht

/-! ### What can be derived is accepted -/

def Operand (i r : List Kind) : Prop :=
  predictor.Reaches [phrase operand, phrase tail] i [phrase tail] r

def Operations (i r : List Kind) : Prop := predictor.Reaches [phrase tail] i [phrase tail] r

instance : Std.Refl Operations := ⟨fun _ ↦ .refl⟩

instance : IsTrans (List Kind) Operations := ⟨fun _ _ _ h h' ↦ Predictor.Reaches.trans h h'⟩

/-- What the predictor makes of that which a symbol takes. -/
def Symbol.Read : Symbol → List Kind → List Kind → Prop
  | .program, i, r => ∀ r', r = eof :: r' → predictor.Reaches [phrase .program] i [] r
  | .statement, i, r => ∃ j, i = identifier :: assign :: j ∧ Operand j r
  | .expression, i, r | .unary, i, r => Operand i r
  | _, i, r => Operations i r

theorem read_unary (h : Holds Symbol.Read (syntaxOf .unary) i r) : Operand i r := by
  have hname : predictor.expand operand identifier = some [] := rfl
  have hnumber : predictor.expand operand number = some [] := rfl
  have hnot : predictor.expand operand Kind.not = some [phrase operand] := rfl
  rcases h with ((rfl | rfl) | ⟨_, ⟨j, rfl, hj⟩, rfl⟩) | ⟨j, rfl, hj⟩
  · exact reaches_expand hname
  · exact reaches_expand hnumber
  · have hexpr := hj.above [.token parEnd, phrase tail]
    exact (reaches_expand rfl).trans (hexpr.trans (reaches_close rfl rfl))
  · exact (reaches_expand hnot).trans hj

/-- The text goes on with a terminator or ends, so that no statement begins and no operation goes
on. -/
def Closed (i : List Kind) : Prop := ∃ k i', i = k :: i' ∧ (k = terminator ∨ k = eof)

theorem Closed.skip {x : Phrase} (h : Closed i) (hx : x = tail ∨ x = statement)
    (goals : List (Goal Kind Phrase)) : predictor.Reaches (phrase x :: goals) i goals i := by
  obtain ⟨k, i', rfl, rfl | rfl⟩ := h <;> rcases hx with rfl | rfl <;>
    exact reaches_skip rfl rfl

theorem reaches_statement (h : Symbol.statement.Read i r) (hr : Closed r)
    (goals : List (Goal Kind Phrase)) :
    predictor.Reaches (phrase statement :: goals) i goals r := by
  obtain ⟨j, rfl, hj⟩ := h
  have hoperand := Predictor.Reaches.above hj goals
  exact (reaches_expand rfl).trans (reaches_token.trans
    (hoperand.trans (hr.skip (.inl rfl) goals)))

theorem reaches_further (h : Holds Symbol.Read further i (eof :: r)) :
    Closed i ∧ predictor.Reaches [phrase more] i [] (eof :: r) := by
  induction h using Relation.ReflTransGen.head_induction_on with
  | refl => exact ⟨⟨_, _, rfl, .inr rfl⟩, reaches_skip rfl rfl⟩
  | head hab _ ih =>
    obtain ⟨hb, hbr⟩ := ih
    obtain ⟨c, rfl, hs⟩ := hab
    refine ⟨⟨_, _, rfl, .inl rfl⟩, (reaches_expand rfl).trans (.trans ?_ hbr)⟩
    rcases hs with rfl | hs
    · exact hb.skip (.inr rfl) _
    · exact reaches_statement hs hb _

theorem read_program (h : Holds Symbol.Read (syntaxOf .program) i r) : Symbol.program.Read i r := by
  rintro r' rfl
  rcases h with rfl | ⟨m, ⟨j, rfl, hj⟩, hmore⟩
  · exact reaches_skip rfl rfl
  · obtain ⟨hm, hmr⟩ := reaches_further hmore
    have hoperand := Predictor.Reaches.above hj [phrase more]
    exact (reaches_expand rfl).trans (reaches_token.trans
      (hoperand.trans ((hm.skip (.inl rfl) _).trans hmr)))

theorem read_syntax (x : Symbol) (i r : List Kind) (h : Holds Symbol.Read (syntaxOf x) i r) :
    x.Read i r := by
  have operation {k : Kind} (hk : behind tail k = some [phrase operand, phrase tail])
      {i r : List Kind} (h : Holds Symbol.Read (.token k ++ .symbol .unary) i r) :
      Operations i r := by
    obtain ⟨j, rfl, hu⟩ := h
    have hoperator : predictor.expand tail k = some [phrase operand, phrase tail] := hk
    exact (reaches_expand hoperator).trans hu
  cases x with
  | program => exact read_program h
  | statement =>
    obtain ⟨_, ⟨_, rfl, rfl⟩, he⟩ := h
    exact ⟨_, rfl, he⟩
  | expression =>
    obtain ⟨m, hu, ht⟩ := h
    exact Predictor.Reaches.trans hu ht
  | assignTail => exact holds_level (Q := Operations) h (fun _ _ h ↦ h) fun _ _ ↦ operation rfl
  | orTail => exact holds_level (Q := Operations) h (fun _ _ h ↦ h) fun _ _ ↦ operation rfl
  | xorTail => exact holds_level (Q := Operations) h (fun _ _ h ↦ h) fun _ _ ↦ operation rfl
  | andTail => exact holds_level (Q := Operations) h (fun _ _ h ↦ h) fun _ _ ↦ operation rfl
  | relationalTail => exact holds_many (Q := Operations) h fun _ _ ↦ operation rfl
  | unary => exact read_unary h

theorem ignores (k : Kind) (x : Symbol) : (syntaxOf x).Ignores k := by
  cases x <;> simp [syntaxOf, Ignores, HAppend.hAppend, Append.append, HOr.hOr, OrOp.or]

/-- The predictor accepts the sentences of the language, each with an end token behind it. -/
theorem accepts_iff {ks : List Kind} :
    predictor.Accepts ks ↔ ∃ s, ks = s ++ [eof] ∧ Sentence s := by
  have hends {i : List Kind} := derives_singleton_iff (e := .symbol Symbol.program) (i := i)
    (ignores eof) trivial
  constructor
  · intro h
    obtain ⟨_, hd, _, rfl, rfl⟩ := sound.run h
    exact hends.1 hd
  · rintro ⟨s, rfl, h⟩
    have hr := (hends.2 ⟨s, rfl, h⟩).holds read_syntax
    rw [Predictor.Accepts]
    exact (hr [] rfl [.token eof]).trans rfl

end Lookahead.Boolean
