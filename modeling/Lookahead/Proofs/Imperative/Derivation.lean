import Lookahead.Proofs.Imperative.Prediction
import Lookahead.Proofs.Imperative.Syntax

/-!
What the predictor accepts is what can be derived in the syntax of the imperative language.
-/

namespace Lookahead.Imperative

open Kind Goal Ebnf Phrase Predictor

/-! ### What is accepted can be derived -/

namespace Phrase

def indexing : Ebnf Kind Symbol :=
  .option (.token indexerBegin ++ .symbol .expression ++ .token indexerEnd)

/-- What a phrase stands for. -/
def Takes : Phrase → List Kind → List Kind → Prop
  | statements, i, r => Derives syntaxOf (.symbol .program) i r
  | operand negatable, i, r =>
    Derives syntaxOf (.symbol .unary) i r ∧ (negatable = false → i.head? ≠ some sub)
  | tail, i, r => Derives syntaxOf (.symbol .assignTail) i r
  | index, i, r => Derives syntaxOf indexing i r
  | value, i, r => Derives syntaxOf (.symbol .expression ||| .symbol .arrayInit) i r

end Phrase

variable {i j r : List Kind} {k : Kind}

theorem derives_primary (h : Derives syntaxOf indexing i r) :
    Derives syntaxOf (.symbol .primary) (identifier :: i) r :=
  .symbol (.sequence (.token _ _) h)

theorem derives_expression (h : Derives syntaxOf (.symbol .unary) i j)
    (ht : Derives syntaxOf (.symbol .assignTail) j r) :
    Derives syntaxOf (.symbol .expression) i r :=
  .symbol (.sequence h ht)

theorem derives_program (h : Derives syntaxOf (.symbol .statement) i j)
    (hp : Derives syntaxOf (.symbol .program) j r) : Derives syntaxOf (.symbol .program) i r :=
  .symbol (.more h (derives_symbol.1 hp))

theorem derives_statement {x : Symbol} (hx : x ∈ [.constInit, .varInit, .varAssign, .doWhile])
    (h : Derives syntaxOf (.symbol x) i (terminator :: r)) :
    Derives syntaxOf (.symbol .statement) i r := by
  have hs := Derives.sequence h (.token terminator r)
  simp only [List.mem_cons, List.not_mem_nil, or_false] at hx
  rcases hx with rfl | rfl | rfl | rfl
  · exact .symbol (.left (.left (.left hs)))
  · exact .symbol (.left (.left (.right hs)))
  · exact .symbol (.left (.right hs))
  · exact .symbol (.right hs)

theorem takes_statements {front : List (Goal Kind Phrase)} (h : behind statements k = some front)
    (ht : Predictor.Takes Phrase.Takes front i r) : Phrase.Takes statements (k :: i) r := by
  cases k with
  | const =>
    cases h
    obtain ⟨i, rfl, _, hindex, _, rfl, _, rfl, j, rfl, _, hp, rfl⟩ := ht
    have hconst : Derives syntaxOf (.symbol .constInit) (const :: identifier :: i)
        (terminator :: j) :=
      .symbol (.sequence (.sequence (.sequence (.token _ _) (derives_primary hindex)) (.token _ _))
        (.token _ _))
    exact derives_program (derives_statement (by simp) hconst) hp
  | var =>
    cases h
    obtain ⟨_, rfl, i, rfl, _, hv, j, rfl, _, hp, rfl⟩ := ht
    have hvar : Derives syntaxOf (.symbol .varInit) (var :: identifier :: assign :: i)
        (terminator :: j) :=
      .symbol (.sequence (.sequence (.sequence (.token _ _) (.token _ _)) (.token _ _)) hv)
    exact derives_program (derives_statement (by simp) hvar) hp
  | identifier =>
    cases h
    obtain ⟨_, hindex, _, rfl, _, hv, j, rfl, _, hp, rfl⟩ := ht
    have hassign : Derives syntaxOf (.symbol .varAssign) (identifier :: i) (terminator :: j) :=
      .symbol (.sequence (.sequence (derives_primary hindex) (.token _ _)) hv)
    exact derives_program (derives_statement (by simp) hassign) hp
  | doWord =>
    cases h
    obtain ⟨i, rfl, _, hs, _, rfl, _, rfl, _, rfl, _, ⟨hu, -⟩, _, ht, hclose⟩ := ht
    obtain ⟨_, rfl, j, rfl, _, hp, rfl⟩ := hclose
    have hblock : Derives syntaxOf (.symbol .block) (blockBegin :: i) _ :=
      .symbol (.sequence (.sequence (.token _ _) (derives_symbol.1 hs)) (.token _ _))
    have hdo : Derives syntaxOf (.symbol .doWhile) (doWord :: blockBegin :: i) (terminator :: j) :=
      .symbol (.sequence (.sequence (.sequence (.sequence (.sequence (.token _ _) hblock)
        (.token _ _)) (.token _ _)) (derives_expression hu ht)) (.token _ _))
    exact derives_program (derives_statement (by simp) hdo) hp
  | _ => cases h

/-! The tails, from the tightest to the loosest. -/

theorem nullable_multiplicativeTail : Nullable syntaxOf (.symbol .multiplicativeTail) :=
  .symbol .many

theorem nullable_additiveTail : Nullable syntaxOf (.symbol .additiveTail) :=
  .symbol (.append nullable_multiplicativeTail .many)

theorem nullable_relationalTail : Nullable syntaxOf (.symbol .relationalTail) :=
  .symbol (.append nullable_additiveTail .many)

theorem nullable_equalityTail : Nullable syntaxOf (.symbol .equalityTail) :=
  .symbol (.append nullable_relationalTail .many)

theorem nullable_andTail : Nullable syntaxOf (.symbol .andTail) :=
  .symbol (.append nullable_equalityTail .many)

theorem nullable_orTail : Nullable syntaxOf (.symbol .orTail) :=
  .symbol (.append nullable_andTail .many)

theorem nullable_assignTail : Nullable syntaxOf (.symbol .assignTail) :=
  .symbol (.append nullable_orTail .many)

/-- An operator with its operand extends a tail of its own level and of every looser one. -/
theorem extends_assignTail {negatable : Bool}
    (hk : behind tail k = some [phrase (operand negatable), phrase tail])
    (h : Phrase.Takes (operand negatable) i j) :
    Extends syntaxOf (.symbol .assignTail) (k :: i) j := by
  obtain ⟨hu, hs⟩ := h
  have or {i j : List Kind} (h : Extends syntaxOf (.symbol .orTail) i j) :
      Extends syntaxOf (.symbol .assignTail) i j := .symbol (.append h)
  have and {i j : List Kind} (h : Extends syntaxOf (.symbol .andTail) i j) :
      Extends syntaxOf (.symbol .assignTail) i j := or (.symbol (.append h))
  have equality {i j : List Kind} (h : Extends syntaxOf (.symbol .equalityTail) i j) :
      Extends syntaxOf (.symbol .assignTail) i j := and (.symbol (.append h))
  have relational {i j : List Kind} (h : Extends syntaxOf (.symbol .relationalTail) i j) :
      Extends syntaxOf (.symbol .assignTail) i j := equality (.symbol (.append h))
  have additive {i j : List Kind} (h : Extends syntaxOf (.symbol .additiveTail) i j) :
      Extends syntaxOf (.symbol .assignTail) i j := relational (.symbol (.append h))
  have multiplicative {i j : List Kind} (h : Extends syntaxOf (.symbol .multiplicativeTail) i j) :
      Extends syntaxOf (.symbol .assignTail) i j := additive (.symbol (.append h))
  cases k with
  | assign => exact .symbol (.operation nullable_orTail (.sequence (.token _ _) hu))
  | or => exact or (.symbol (.operation nullable_andTail (.sequence (.token _ _) hu)))
  | and => exact and (.symbol (.operation nullable_equalityTail (.sequence (.token _ _) hu)))
  | eq =>
    exact equality (.symbol (.operation nullable_relationalTail
      (.sequence (.left (.token _ _)) hu)))
  | ne =>
    exact equality (.symbol (.operation nullable_relationalTail
      (.sequence (.right (.token _ _)) hu)))
  | relOp =>
    exact relational (.symbol (.operation nullable_additiveTail (.sequence (.token _ _) hu)))
  | add =>
    cases hk
    exact additive (.symbol (.operation nullable_multiplicativeTail
      (.sequence (.sequence (.left (.token _ _)) (.notBefore (hs rfl))) hu)))
  | sub =>
    cases hk
    exact additive (.symbol (.operation nullable_multiplicativeTail
      (.sequence (.sequence (.right (.token _ _)) (.notBefore (hs rfl))) hu)))
  | mul => exact multiplicative (.symbol (.many (.sequence (.left (.token _ _)) hu)))
  | div => exact multiplicative (.symbol (.many (.sequence (.right (.token _ _)) hu)))
  | _ => cases hk

theorem takes_operand {negatable : Bool} {front : List (Goal Kind Phrase)}
    (h : behindOperand negatable k = some front) (ht : Predictor.Takes Phrase.Takes front i r) :
    Phrase.Takes (operand negatable) (k :: i) r := by
  have bare {i r : List Kind} (hb : Derives syntaxOf (.symbol .primary ||| .token number |||
      .token parBegin ++ .symbol .expression ++ .token parEnd |||
      .token not ++ .symbol .expression) i r) :
      Derives syntaxOf (.symbol .unary) i r := .symbol (.sequence (.absent _ _) hb)
  cases k with
  | identifier =>
    cases h
    obtain ⟨_, hindex, rfl⟩ := ht
    exact ⟨bare (.left (.left (.left (derives_primary hindex)))), by simp⟩
  | number =>
    cases h
    cases ht
    exact ⟨bare (.left (.left (.right (.token _ _)))), by simp⟩
  | parBegin =>
    cases h
    obtain ⟨_, ⟨hu, -⟩, _, ht, _, rfl, rfl⟩ := ht
    have he := derives_expression hu ht
    exact ⟨bare (.left (.right (.sequence (.sequence (.token _ _) he) (.token _ _)))), by simp⟩
  | not =>
    cases h
    obtain ⟨_, ⟨hu, -⟩, rfl⟩ := ht
    have he := derives_expression hu (nullable_assignTail _)
    exact ⟨bare (.right (.sequence (.token _ _) he)), by simp⟩
  | sub =>
    cases negatable with
    | false => cases h
    | true =>
      cases h
      obtain ⟨_, ⟨hu, hs⟩, rfl⟩ := ht
      refine ⟨?_, by simp⟩
      obtain ⟨m, hm, hb⟩ := derives_append.1 (derives_symbol.1 hu)
      rcases derives_option.1 hm with rfl | hm
      · exact .symbol (.sequence (.present (.sequence (.token _ _) (.notBefore (hs rfl)))) hb)
      · obtain ⟨l, hl, -⟩ := derives_append.1 hm
        rw [derives_token.1 hl] at hs
        exact absurd rfl (hs rfl)
  | _ => cases h

theorem sound : predictor.Sound Phrase.Takes where
  skip {x} ho i := by
    cases x with
    | statements => exact .symbol (.stop _ _)
    | tail => exact nullable_assignTail i
    | index => exact .absent _ _
    | _ => cases ho
  expand {x k front} h i r ht := by
    cases x with
    | statements => exact takes_statements h ht
    | operand negatable => exact takes_operand h ht
    | tail =>
      have hfront : ∃ negatable, front = [phrase (operand negatable), phrase tail] := by
        cases k <;> cases h <;> exact ⟨_, rfl⟩
      obtain ⟨negatable, rfl⟩ := hfront
      obtain ⟨j, hu, _, ht, rfl⟩ := ht
      exact extends_assignTail h hu _ ht
    | index =>
      cases k with
      | indexerBegin =>
        cases h
        obtain ⟨_, ⟨hu, -⟩, _, ht, _, rfl, rfl⟩ := ht
        exact .present (.sequence (.sequence (.token _ _) (derives_expression hu ht)) (.token _ _))
      | _ => cases h
    | value =>
      by_cases hk : k = indexerBegin
      · subst hk
        cases h
        obtain ⟨_, rfl, rfl⟩ := ht
        exact .right (.symbol (.sequence (.token _ _) (.token _ _)))
      · obtain ⟨rest, hrest, rfl⟩ := exists_of_behind_value h hk
        obtain ⟨j, hu, _, htail, rfl⟩ := Predictor.takes_append.1 ht
        exact .left (derives_expression (takes_operand hrest hu).1 htail)

/-! ### What can be derived is accepted -/

/-- The text goes on, and not with an index. -/
def Unindexed (r : List Kind) : Prop := ∃ k r', r = k :: r' ∧ k ≠ indexerBegin

def Operand (negatable : Bool) (i r : List Kind) : Prop :=
  (∃ k i', i = k :: i' ∧ behindOperand negatable k ≠ none) ∧
    (Unindexed r → predictor.Reaches [phrase (operand negatable), phrase tail] i [phrase tail] r)

def Operations (i r : List Kind) : Prop :=
  Unindexed r → Unindexed i ∧ predictor.Reaches [phrase tail] i [phrase tail] r

/-- What the predictor makes of that which a symbol takes. -/
def Symbol.Read : Symbol → List Kind → List Kind → Prop
  | .program, i, r | .statement, i, r =>
    predictor.Reaches [phrase statements] i [phrase statements] r
  | .constInit, i, r | .varInit, i, r | .varAssign, i, r | .doWhile, i, r =>
    ∀ r', r = terminator :: r' → predictor.Reaches [phrase statements] i [phrase statements] r'
  | .arrayInit, i, r => i = indexerBegin :: indexerEnd :: r
  | .block, i, r =>
    ∃ j, i = blockBegin :: j ∧ predictor.Reaches [phrase statements, .token blockEnd] j [] r
  | .expression, i, r | .unary, i, r => Operand true i r
  | .primary, i, r =>
    ∃ j, i = identifier :: j ∧ (Unindexed r → predictor.Reaches [phrase index] j [] r)
  | _, i, r => Operations i r

theorem reaches_operand (hk : k ≠ sub) (goals : List (Goal Kind Phrase)) (b c : Bool) :
    predictor.Reaches (phrase (operand b) :: goals) (k :: i)
      (phrase (operand c) :: goals) (k :: i) :=
  fun below ↦ run_cons_congr (step_operand hk (goals ++ below) b c) i

theorem Operand.negatable (h : Operand false i r) : Operand true i r := by
  obtain ⟨⟨k, i', rfl, hk⟩, hr⟩ := h
  have hs : k ≠ sub := fun h ↦ hk (h ▸ rfl)
  rw [behindOperand_congr hs false true] at hk
  exact ⟨⟨k, i', rfl, hk⟩, fun h ↦ (reaches_operand hs _ _ _).trans (hr h)⟩

theorem Operand.of_head?_ne (h : Operand true i r) (hs : i.head? ≠ some sub) :
    Operand false i r := by
  obtain ⟨⟨k, i', rfl, hk⟩, hr⟩ := h
  have hs : k ≠ sub := fun h ↦ hs (h ▸ rfl)
  rw [behindOperand_congr hs true false] at hk
  exact ⟨⟨k, i', rfl, hk⟩, fun h ↦ (reaches_operand hs _ _ _).trans (hr h)⟩

theorem operand_cons {negatable : Bool} {front : List (Goal Kind Phrase)}
    (hk : behindOperand negatable k = some front)
    (h : Unindexed r → predictor.Reaches (front ++ [phrase tail]) i [phrase tail] r) :
    Operand negatable (k :: i) r := by
  refine ⟨⟨k, i, rfl, by simp [hk]⟩, fun hr ↦ ?_⟩
  have hexpand : predictor.expand (operand negatable) k = some front := hk
  exact (reaches_expand hexpand).trans (h hr)

theorem operations_cons {negatable : Bool}
    (hk : behind tail k = some [phrase (operand negatable), phrase tail])
    (h : Operand negatable i r) : Operations (k :: i) r := by
  intro hr
  refine ⟨⟨k, i, rfl, fun hb ↦ ?_⟩, (reaches_expand hk).trans (h.2 hr)⟩
  rw [hb] at hk
  cases hk

instance : Std.Refl Operations := ⟨fun _ h ↦ ⟨h, .refl⟩⟩

instance : IsTrans (List Kind) Operations where
  trans _ _ _ h h' hr := by
    obtain ⟨hj, hjr⟩ := h' hr
    obtain ⟨hi, hij⟩ := h hj
    exact ⟨hi, hij.trans hjr⟩

theorem read_primary (h : Holds Symbol.Read (syntaxOf .primary) i r) : Symbol.primary.Read i r := by
  obtain ⟨j, rfl, hi⟩ := h
  refine ⟨j, rfl, fun hr ↦ ?_⟩
  rcases hi with rfl | ⟨_, ⟨m, rfl, -, hm⟩, rfl⟩
  · obtain ⟨k, r', rfl, hk⟩ := hr
    exact reaches_skip (behind_eq_none_iff.2 (by simpa [first] using hk)) rfl
  · have hu : Unindexed (indexerEnd :: r) := ⟨_, _, rfl, by simp⟩
    have hexpr := (hm hu).above [.token indexerEnd]
    exact (reaches_expand rfl).trans (hexpr.trans (reaches_close rfl rfl))

theorem read_unary (h : Holds Symbol.Read (syntaxOf .unary) i r) : Operand true i r := by
  obtain ⟨m, hm, hb⟩ := h
  have bare : Operand false m r := by
    rcases hb with ((⟨j, rfl, hj⟩ | rfl) | ⟨_, ⟨j, rfl, -, hj⟩, rfl⟩) | ⟨j, rfl, -, hj⟩
    · exact operand_cons rfl fun hr ↦ (hj hr).above [phrase tail]
    · exact operand_cons rfl fun _ ↦ .refl
    · refine operand_cons rfl fun _ ↦ ?_
      have hu : Unindexed (parEnd :: r) := ⟨_, _, rfl, by simp⟩
      exact ((hj hu).above [.token parEnd, phrase tail]).trans (reaches_close rfl rfl)
    · exact operand_cons rfl hj
  rcases hm with rfl | ⟨_, rfl, -, rfl⟩
  · exact bare.negatable
  · exact operand_cons rfl bare.2

theorem read_expression (h : Holds Symbol.Read (syntaxOf .expression) i r) : Operand true i r := by
  obtain ⟨m, ⟨hk, hu⟩, ht⟩ := h
  refine ⟨hk, fun hr ↦ ?_⟩
  obtain ⟨hm, hmr⟩ := ht hr
  exact (hu hm).trans hmr

theorem reaches_statements (h : Holds Symbol.Read (many (.symbol .statement)) i r) :
    predictor.Reaches [phrase statements] i [phrase statements] r := by
  induction h using Relation.ReflTransGen.head_induction_on with
  | refl => exact .refl
  | head hab _ ih => exact Predictor.Reaches.trans hab ih

theorem reaches_value
    (h : Holds Symbol.Read (.symbol .expression ||| .symbol .arrayInit) i (terminator :: r))
    (goals : List (Goal Kind Phrase)) :
    predictor.Reaches (phrase value :: .token terminator :: goals) i goals r := by
  rcases h with ⟨⟨k, i', rfl, hk⟩, hr⟩ | rfl
  · have hu : Unindexed (terminator :: r) := ⟨_, _, rfl, by simp⟩
    have hexpr := (hr hu).above (.token terminator :: goals)
    have hsame : predictor.Reaches (phrase value :: .token terminator :: goals) (k :: i')
        (phrase (operand true) :: phrase tail :: .token terminator :: goals) (k :: i') :=
      fun _ ↦ run_cons_congr (step_value hk _) i'
    exact hsame.trans (hexpr.trans (reaches_close rfl rfl))
  · exact (reaches_expand rfl).trans (reaches_token.trans reaches_token)

theorem read_statement (h : Holds Symbol.Read (syntaxOf .statement) i r) :
    Symbol.statement.Read i r := by
  rcases h with ((⟨_, h, rfl⟩ | ⟨_, h, rfl⟩) | ⟨_, h, rfl⟩) | ⟨_, h, rfl⟩
  · exact h r rfl
  · exact h r rfl
  · exact h r rfl
  · exact h r rfl

theorem read_constInit (h : Holds Symbol.Read (syntaxOf .constInit) i r) :
    Symbol.constInit.Read i r := by
  rintro r' rfl
  obtain ⟨_, ⟨a, ⟨_, rfl, j, rfl, hj⟩, rfl⟩, rfl⟩ := h
  have hu : Unindexed (assign :: number :: terminator :: r') := ⟨_, _, rfl, by simp⟩
  have hindex := (hj hu).above
    [.token assign, .token number, .token terminator, phrase statements]
  refine (reaches_expand rfl).trans (reaches_token.trans ?_)
  refine hindex.trans ?_
  exact reaches_token.trans (reaches_token.trans reaches_token)

theorem read_varInit (h : Holds Symbol.Read (syntaxOf .varInit) i r) : Symbol.varInit.Read i r := by
  rintro r' rfl
  obtain ⟨_, ⟨_, ⟨_, rfl, rfl⟩, rfl⟩, hv⟩ := h
  refine (reaches_expand rfl).trans (reaches_token.trans (reaches_token.trans ?_))
  exact reaches_value hv [phrase statements]

theorem read_varAssign (h : Holds Symbol.Read (syntaxOf .varAssign) i r) :
    Symbol.varAssign.Read i r := by
  rintro r' rfl
  obtain ⟨a, ⟨_, ⟨j, rfl, hj⟩, rfl⟩, hv⟩ := h
  have hu : Unindexed (assign :: a) := ⟨_, _, rfl, by simp⟩
  have hindex := (hj hu).above [.token assign, phrase value, .token terminator, phrase statements]
  refine (reaches_expand rfl).trans (hindex.trans (reaches_token.trans ?_))
  exact reaches_value hv [phrase statements]

theorem read_block (h : Holds Symbol.Read (syntaxOf .block) i r) : Symbol.block.Read i r := by
  obtain ⟨_, ⟨j, rfl, hs⟩, rfl⟩ := h
  have hstatements := (reaches_statements hs).above [.token blockEnd]
  exact ⟨j, rfl, hstatements.trans (reaches_close rfl rfl)⟩

theorem read_doWhile (h : Holds Symbol.Read (syntaxOf .doWhile) i r) : Symbol.doWhile.Read i r := by
  rintro r' rfl
  obtain ⟨_, ⟨a, ⟨_, ⟨_, ⟨_, rfl, j, rfl, hj⟩, rfl⟩, rfl⟩, -, he⟩, rfl⟩ := h
  have hu : Unindexed (parEnd :: terminator :: r') := ⟨_, _, rfl, by simp⟩
  have hblock := hj.above [.token whileWord, .token parBegin, phrase (operand true), phrase tail,
    .token parEnd, .token terminator, phrase statements]
  have hexpr := (he hu).above [.token parEnd, .token terminator, phrase statements]
  refine (reaches_expand rfl).trans (reaches_token.trans ?_)
  refine hblock.trans (reaches_token.trans (reaches_token.trans ?_))
  exact hexpr.trans ((reaches_close rfl rfl).trans reaches_token)

theorem read_syntax (x : Symbol) (i r : List Kind) (h : Holds Symbol.Read (syntaxOf x) i r) :
    x.Read i r := by
  have single {k : Kind} (hk : behind tail k = some [phrase (operand true), phrase tail])
      {i r : List Kind} (h : Holds Symbol.Read (.token k ++ .symbol .unary) i r) :
      Operations i r := by
    obtain ⟨j, rfl, hu⟩ := h
    exact operations_cons hk hu
  have either {k k' : Kind} (hk : behind tail k = some [phrase (operand true), phrase tail])
      (hk' : behind tail k' = some [phrase (operand true), phrase tail]) {i r : List Kind}
      (h : Holds Symbol.Read ((.token k ||| .token k') ++ .symbol .unary) i r) :
      Operations i r := by
    obtain ⟨j, rfl | rfl, hu⟩ := h
    · exact operations_cons hk hu
    · exact operations_cons hk' hu
  cases x with
  | program => exact reaches_statements h
  | statement => exact read_statement h
  | constInit => exact read_constInit h
  | varInit => exact read_varInit h
  | varAssign => exact read_varAssign h
  | arrayInit =>
    obtain ⟨_, rfl, rfl⟩ := h
    rfl
  | doWhile => exact read_doWhile h
  | block => exact read_block h
  | expression => exact read_expression h
  | assignTail => exact holds_level (Q := Operations) h (fun _ _ h ↦ h) fun _ _ ↦ single rfl
  | orTail => exact holds_level (Q := Operations) h (fun _ _ h ↦ h) fun _ _ ↦ single rfl
  | andTail => exact holds_level (Q := Operations) h (fun _ _ h ↦ h) fun _ _ ↦ single rfl
  | equalityTail => exact holds_level (Q := Operations) h (fun _ _ h ↦ h) fun _ _ ↦ either rfl rfl
  | relationalTail => exact holds_level (Q := Operations) h (fun _ _ h ↦ h) fun _ _ ↦ single rfl
  | additiveTail =>
    refine holds_level (Q := Operations) h (fun _ _ h ↦ h) fun i r h ↦ ?_
    obtain ⟨_, ⟨j, hk, hs, rfl⟩, hu⟩ := h
    rcases hk with rfl | rfl
    · exact operations_cons rfl (hu.of_head?_ne hs)
    · exact operations_cons rfl (hu.of_head?_ne hs)
  | multiplicativeTail => exact holds_many (Q := Operations) h fun _ _ ↦ either rfl rfl
  | unary => exact read_unary h
  | primary => exact read_primary h

theorem ignores_eof (x : Symbol) : (syntaxOf x).Ignores eof := by
  cases x <;> simp [syntaxOf, Ignores, HAppend.hAppend, Append.append, HOr.hOr, OrOp.or]

/-- The predictor accepts the sentences of the language, each with an end token behind it. -/
theorem accepts_iff {ks : List Kind} :
    predictor.Accepts ks ↔ ∃ s, ks = s ++ [eof] ∧ Sentence s := by
  have hends {i : List Kind} := derives_singleton_iff (e := .symbol Symbol.program) (i := i)
    ignores_eof trivial
  constructor
  · intro h
    obtain ⟨_, hd, _, rfl, rfl⟩ := sound.run h
    exact hends.1 hd
  · rintro ⟨s, rfl, h⟩
    have hr := (hends.2 ⟨s, rfl, h⟩).holds read_syntax
    rw [Predictor.Accepts]
    exact (hr [.token eof]).trans rfl

end Lookahead.Imperative
