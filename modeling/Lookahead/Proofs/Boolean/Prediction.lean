import Lookahead.Language.Boolean
import Lookahead.Proofs.Predictor

/-!
A predictor for the boolean language. Behind an operand stand any number of operators of any level
with an operand each.
-/

namespace Lookahead.Boolean

open Kind Goal

inductive Phrase where
  | program
  | more
  | statement
  | operand
  | tail
deriving DecidableEq

namespace Phrase

/-- What follows the first token of a phrase. -/
def behind : Phrase → Kind → Option (List (Goal Kind Phrase))
  | program, .identifier => some [token assign, phrase operand, phrase tail, phrase more]
  | more, .terminator => some [phrase statement, phrase more]
  | statement, .identifier => some [token assign, phrase operand, phrase tail]
  | operand, .identifier | operand, .number => some []
  | operand, .parBegin => some [phrase operand, phrase tail, token parEnd]
  | operand, .not => some [phrase operand]
  | tail, .assign | tail, .or | tail, .xor | tail, .and | tail, .relOp =>
    some [phrase operand, phrase tail]
  | _, _ => none

/-- The tokens with which a phrase begins. -/
def first : Phrase → List Kind
  | program | statement => [identifier]
  | more => [terminator]
  | operand => [identifier, number, parBegin, .not]
  | tail => [assign, .or, .xor, .and, relOp]

end Phrase

open Phrase

def predictor : Predictor Kind Phrase where
  start := [phrase program, token eof]
  expand := behind
  optional
    | program | more | statement | tail => true
    | operand => false

/-- What may stand below a phrase. -/
def Phrase.below : Phrase → List (Goal Kind Phrase)
  | program | more => [token eof]
  | statement => [phrase more]
  | operand => [phrase tail]
  | tail => [phrase more, token parEnd]

variable {k : Kind} {goals : List (Goal Kind Phrase)}

theorem behind_eq_none {x : Phrase} (hk : k ∉ first x) : behind x k = none := by
  cases x <;> cases k <;> first | rfl | exact absurd (by decide) hk

theorem step_more (h : Predictor.Chained below (phrase more :: goals)) (hk : k ≠ terminator)
    (he : k ≠ eof) : predictor.step (phrase more :: goals) k = none := by
  obtain ⟨g, rest, rfl, hp, -⟩ := h.exists_cons
  have hskip : behind more k = none := behind_eq_none fun hmem ↦ hk (List.mem_singleton.1 hmem)
  rw [List.mem_singleton.1 hp, Predictor.step_of_skip hskip rfl]
  exact Predictor.step_token_of_ne he

theorem productive : predictor.Productive below where
  expand {x k front goals} h hg := by
    obtain ⟨g, rest, rfl, hp, hc⟩ := hg.exists_cons
    cases x <;> cases k <;> cases h <;> simp_all [Predictor.Chained, below]
  skip {x k goals} ho hg hk := by
    obtain ⟨g, rest, rfl, hp, hc⟩ := hg.exists_cons
    cases x with
    | program | more =>
      rw [List.mem_singleton.1 hp]
      exact Predictor.step_token_of_ne fun he ↦ hk (he ▸ rfl)
    | statement =>
      rw [List.mem_singleton.1 hp] at hc ⊢
      exact step_more hc (fun he ↦ hk (he ▸ rfl)) fun he ↦ hk (he ▸ rfl)
    | operand => cases ho
    | tail =>
      rcases List.mem_cons.1 hp with rfl | hp
      · exact step_more hc (fun he ↦ hk (he ▸ rfl)) fun he ↦ hk (he ▸ rfl)
      · rw [List.mem_singleton.1 hp]
        exact Predictor.step_token_of_ne fun he ↦ hk (he ▸ rfl)
  begins {x} ho := by
    cases x with
    | operand => exact ⟨number, [], rfl, by simp⟩
    | _ => cases ho

end Lookahead.Boolean
