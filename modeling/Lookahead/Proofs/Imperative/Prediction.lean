import Lookahead.Language.Imperative
import Lookahead.Proofs.Predictor

/-!
A predictor for the imperative language. It does not tell apart the levels of the operators: behind
an operand stand any number of operators with an operand each.
-/

namespace Lookahead.Imperative

open Kind Goal

inductive Phrase where
  | statements
  | operand (negatable : Bool)
  | tail
  | index
  | value
deriving DecidableEq

namespace Phrase

/-- What follows the first token of an operand. -/
def behindOperand (negatable : Bool) : Kind → Option (List (Goal Kind Phrase))
  | .identifier => some [phrase index]
  | .number => some []
  | .parBegin => some [phrase (operand true), phrase tail, token parEnd]
  | .not => some [phrase (operand true)]
  | .sub => if negatable then some [phrase (operand false)] else none
  | _ => none

def behind : Phrase → Kind → Option (List (Goal Kind Phrase))
  | statements, .const =>
    some [token identifier, phrase index, token assign, token number, token terminator,
      phrase statements]
  | statements, .var =>
    some [token identifier, token assign, phrase value, token terminator, phrase statements]
  | statements, .identifier =>
    some [phrase index, token assign, phrase value, token terminator, phrase statements]
  | statements, .doWord =>
    some [token blockBegin, phrase statements, token blockEnd, token whileWord, token parBegin,
      phrase (operand true), phrase tail, token parEnd, token terminator, phrase statements]
  | operand negatable, k => behindOperand negatable k
  | tail, .add | tail, .sub => some [phrase (operand false), phrase tail]
  | tail, .assign | tail, .or | tail, .and | tail, .eq | tail, .ne | tail, .relOp | tail, .mul
  | tail, .div => some [phrase (operand true), phrase tail]
  | index, .indexerBegin => some [phrase (operand true), phrase tail, token indexerEnd]
  | value, .indexerBegin => some [token indexerEnd]
  | value, k => (behindOperand true k).map (· ++ [phrase tail])
  | _, _ => none

/-- The tokens with which a phrase begins. -/
def first : Phrase → List Kind
  | statements => statementStart
  | operand true => expressionStart
  | operand false => [identifier, number, parBegin, .not]
  | tail => [assign, .or, .and, eq, ne, relOp, add, sub, mul, div]
  | index => [indexerBegin]
  | value => indexerBegin :: expressionStart

end Phrase

open Phrase

def predictor : Predictor Kind Phrase where
  start := [phrase statements, token eof]
  expand := behind
  optional
    | statements | tail | index => true
    | operand _ | value => false

variable {k : Kind}

theorem behind_eq_none_iff {x : Phrase} : behind x k = none ↔ k ∉ first x := by
  cases x with
  | operand negatable => cases negatable <;> cases k <;> decide
  | _ => cases k <;> decide

/-- Only at a minus does it matter whether one may stand there. -/
theorem behindOperand_congr (hk : k ≠ sub) (b c : Bool) : behindOperand b k = behindOperand c k := by
  cases k <;> first | rfl | exact absurd rfl hk

theorem step_operand (hk : k ≠ sub) (goals : List (Goal Kind Phrase)) (b c : Bool) :
    predictor.step (phrase (operand b) :: goals) k =
      predictor.step (phrase (operand c) :: goals) k := by
  simp [Predictor.step, predictor, behind, behindOperand_congr hk b c]

/-- A value that is no empty array is an expression. -/
theorem exists_of_behind_value {front : List (Goal Kind Phrase)} (h : behind value k = some front)
    (hk : k ≠ indexerBegin) :
    ∃ rest, behindOperand true k = some rest ∧ rest ++ [phrase tail] = front := by
  have hv : (behindOperand true k).map (· ++ [phrase tail]) = some front := by
    cases k <;> first | exact h | exact absurd rfl hk
  exact Option.map_eq_some_iff.1 hv

theorem step_value (hk : behindOperand true k ≠ none) (goals : List (Goal Kind Phrase)) :
    predictor.step (phrase value :: goals) k =
      predictor.step (phrase (operand true) :: phrase tail :: goals) k := by
  obtain ⟨front, hf⟩ := Option.ne_none_iff_exists'.1 hk
  have ho : predictor.expand (operand true) k = some front := hf
  have hv : predictor.expand value k = some (front ++ [phrase tail]) := by
    cases k <;> cases hf <;> rfl
  rw [Predictor.step_of_expand hv, Predictor.step_of_expand ho, List.append_assoc]
  rfl

/-- What may stand below a phrase. -/
def Phrase.below : Phrase → List (Goal Kind Phrase)
  | statements => [token eof, token blockEnd]
  | operand _ => [phrase tail]
  | tail => [token terminator, token parEnd, token indexerEnd]
  | index => [phrase tail, token assign]
  | value => [token terminator]

variable {goals : List (Goal Kind Phrase)}

theorem chained_behindOperand {negatable : Bool} {front : List (Goal Kind Phrase)}
    (h : behindOperand negatable k = some front)
    (hg : Predictor.Chained below (phrase tail :: goals)) :
    Predictor.Chained below (front ++ phrase tail :: goals) := by
  cases k with
  | identifier | number | parBegin | not =>
    cases h
    simp_all [Predictor.Chained, below]
  | sub =>
    cases negatable <;> cases h
    simp_all [Predictor.Chained, below]
  | _ => cases h

/-- What may stand below a phrase, other than a tail, is a token that cannot begin it. -/
theorem step_below {x : Phrase} {g : Goal Kind Phrase} (hg : g ∈ x.below) (ht : g ≠ phrase tail)
    (hk : behind x k ≠ none) : predictor.step (g :: goals) k = none := by
  have htoken : ∃ j, g = token j ∧ behind x j = none := by
    cases x <;> simp only [below, List.mem_cons, List.not_mem_nil, or_false] at hg <;>
      rcases hg with rfl | rfl | rfl <;> first | exact ⟨_, rfl, rfl⟩ | exact absurd rfl ht
  obtain ⟨j, rfl, hj⟩ := htoken
  exact Predictor.step_token_of_ne fun h ↦ hk (h ▸ hj)

theorem productive : predictor.Productive below where
  expand {x k front goals} h hg := by
    obtain ⟨g, rest, rfl, hp, hc⟩ := hg.exists_cons
    cases x with
    | statements | tail | index => cases k <;> cases h <;> simp_all [Predictor.Chained, below]
    | operand negatable =>
      rw [List.mem_singleton.1 hp] at hc ⊢
      exact chained_behindOperand h hc
    | value =>
      by_cases hk : k = indexerBegin
      · subst hk
        cases h
        exact hc
      · obtain ⟨front, hfront, rfl⟩ := exists_of_behind_value h hk
        rw [List.mem_singleton.1 hp] at hc ⊢
        rw [List.append_assoc]
        exact chained_behindOperand hfront ⟨⟨token terminator, rfl, by decide⟩, hc⟩
  skip {x k goals} ho hg hk := by
    obtain ⟨g, rest, rfl, hp, hc⟩ := hg.exists_cons
    by_cases ht : g = phrase tail
    · -- an index may be missing above a tail, but neither the tail nor what is below begins like one
      subst ht
      obtain ⟨g', rest', rfl, hp', -⟩ := hc.exists_cons
      have hk : k = indexerBegin := by
        cases x with
        | index =>
          refine Decidable.byContradiction fun hne ↦ hk (behind_eq_none_iff.2 ?_)
          simpa [first] using hne
        | operand negatable => cases ho
        | _ => simp [below] at hp
      subst hk
      rw [Predictor.step_of_skip rfl rfl]
      simp only [below, List.mem_cons, List.not_mem_nil, or_false] at hp'
      rcases hp' with rfl | rfl | rfl <;> rfl
    · exact step_below hp ht hk
  begins {x} ho := by
    cases x with
    | operand negatable => exact ⟨number, [], rfl, by simp⟩
    | value => exact ⟨number, [phrase tail], rfl, by simp [predictor]⟩
    | _ => cases ho

end Lookahead.Imperative
