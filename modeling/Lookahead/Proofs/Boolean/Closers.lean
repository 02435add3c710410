import Lookahead.Proofs.Boolean.Recognition
import Lookahead.Proofs.Predictor.Gap

/-!
Programs of the boolean language in which the end of a parenthesis is missing. What the parenthesis was
to enclose goes on up to the end of the statement.
-/

namespace Lookahead.Boolean

open Kind Goal Phrase

variable {k : Kind} {goals S : List (Goal Kind Phrase)} {ks : List Kind}

theorem Sentence.eof_not_mem {ks : List Kind} (h : Sentence ks) : eof ∉ ks := by
  intro hk
  have hlacks (x : Symbol) : (syntaxOf x).Lacks eof := by
    cases x <;> simp [syntaxOf, Ebnf.Lacks, HAppend.hAppend, Append.append, HOr.hOr, OrOp.or]
  cases Ebnf.Derives.mem_rest hlacks (e := .symbol Symbol.program) trivial h hk

/-- What may stand below a goal. -/
def beneath : Goal Kind Phrase → List (Goal Kind Phrase)
  | phrase x => x.below
  | token .assign => [phrase operand]
  | token .parEnd => [phrase tail]
  | token _ => []

theorem linked_expand {x : Phrase} {front : List (Goal Kind Phrase)}
    (h : predictor.expand x k = some front) (hg : Predictor.Linked beneath (phrase x :: goals)) :
    Predictor.Linked beneath (front ++ goals) := by
  obtain ⟨g, rest, rfl, hp⟩ := hg.exists_cons (by cases x <;> simp [beneath, below])
  have hc := hg.tail
  cases x <;> cases k <;> cases h <;> simp_all [Predictor.Linked, beneath, below]

theorem linked_start : Predictor.Linked beneath predictor.start := ⟨by decide, rfl⟩

theorem tail_not_mem_beneath {y : Phrase} (ho : predictor.optional y = true) :
    phrase tail ∉ beneath (phrase y) := by
  cases y with
  | operand => cases ho
  | _ => simp [beneath, below]

/-- What ends an expression in a parenthesis that is not closed. -/
def EndsExpression (k : Kind) : Prop := k = terminator ∨ k = eof

theorem encloses : predictor.Encloses beneath parEnd tail EndsExpression where
  linked := linked_expand
  opens {y k front} h := by
    cases y <;> cases k <;> cases h <;> decide
  bare y := by cases y <;> rfl
  optional := rfl
  goesOn {k front} h := by
    cases k <;> cases h <;> exact ⟨[_], rfl⟩
  above {g} h := by
    cases g with
    | token j => cases j <;> simp [beneath] at h
    | phrase y => cases y <;> simp [beneath, below] at h ⊢
  inside {goals k S} hl h := by
    obtain ⟨g, rest, rfl, hg⟩ := hl.exists_cons (by decide)
    simp only [beneath, below, List.mem_cons, List.not_mem_nil, or_false] at hg
    obtain rfl | rfl := hg
    · obtain ⟨front, hf, -⟩ | ⟨-, -, h⟩ := Predictor.step_phrase_iff.1 h
      · cases k <;> cases hf
        exact .inr (.inl rfl)
      · obtain ⟨g, rest, rfl, hg⟩ := hl.tail.exists_cons (by decide)
        obtain rfl := List.mem_singleton.1 hg
        exact .inr (.inr (Predictor.step_token_iff.1 h).1)
    · obtain ⟨rfl, rfl⟩ := Predictor.step_token_iff.1 h
      exact .inl ⟨rfl, rfl⟩
  outside {goals} hl := by
    obtain ⟨g, rest, rfl, hg⟩ := hl.exists_cons (by decide)
    obtain rfl := List.mem_singleton.1 hg
    exact .inl ⟨rest, rfl⟩
  ends {k} h := by
    obtain rfl | rfl := h <;> decide
  first ho hy := absurd hy (tail_not_mem_beneath ho)
  top ho hy := absurd hy (tail_not_mem_beneath ho)

/-- What expressions are made of. -/
def Inner : Goal Kind Phrase → Prop
  | phrase .operand | phrase .tail | token .parEnd => True
  | _ => False

theorem terminator_not_mem {W : List (Goal Kind Phrase)} (h : predictor.Spans parEnd tail ks W) :
    terminator ∉ ks := by
  have hexpand {y : Phrase} {k : Kind} {front : List (Goal Kind Phrase)} (hy : Inner (phrase y))
      (hf : predictor.expand y k = some front) : ∀ g ∈ front, Inner g := by
    cases y with
    | operand | tail => cases k <;> cases hf <;> simp [Inner]
    | _ => cases hy
  refine (h.forall_mem trivial hexpand (by decide) id fun y hy ↦ ?_).2
  cases y with
  | more => cases hy
  | _ => rfl

theorem bridges (hk : EndsExpression k) : grammar.Bridges parEnd k where
  rules := by
    obtain rfl | rfl := hk <;> decide +kernel
  tails := by decide +kernel
  bodies := by decide +kernel

/-- Where the end of a parenthesis that is missing in front of `mid` is missed: at the first terminator,
or at the end if there is none. -/
def Missed (mid : List Kind) (found : Kind) : Prop :=
  (found = terminator ∨ found = eof) ∧ terminator ∉ mid

/-- The end of a parenthesis that is missing from a program is complained about once, where it is
missed. -/
theorem exists_missed {before after : List (Token Kind)} {closer last : Token Kind}
    (hs : Sentence ((before ++ closer :: after).map Token.kind)) (hl : last.kind = eof)
    (hc : closer.kind = parEnd) :
    ∃ mid found rest, after ++ [last] = mid ++ found :: rest ∧
      Missed (mid.map Token.kind) found.kind ∧
      dialect.parser.Says (before ++ after ++ [last]) (missDiagnostic parEnd found) := by
  obtain ⟨outlook, S, ho, hstep, hrun⟩ := recognizes.exists_outlook hl hs
  rw [hc] at hstep
  have hhead := encloses.head?_run linked_start (by decide) ho
  have hstalls := encloses.stalls (linked_start.run linked_expand ho) hhead hstep hrun
  have hlong : 2 ≤ (before.map Token.kind).length :=
    Predictor.two_le_length ho hstep rfl fun k ↦ by cases k <;> decide
  rw [List.length_map] at hlong
  rw [← hc] at hstalls
  obtain ⟨mid, found, rest, ys, hsplit, hk, hspans, hsays⟩ :=
    recognizes.exists_says_of_stalls Sentence.eof_not_mem hl (hc ▸ bridges) ho hstalls hlong
  rw [hc] at hspans hsays
  exact ⟨mid, found, rest, hsplit, ⟨hk, terminator_not_mem hspans⟩, hsays⟩

end Lookahead.Boolean
