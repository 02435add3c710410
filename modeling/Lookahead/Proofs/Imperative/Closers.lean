import Lookahead.Proofs.Imperative.Nesting
import Lookahead.Proofs.Imperative.Prefix
import Lookahead.Proofs.Predictor.Gap

/-!
Programs in which the end of a statement, of a block or of a parenthesis is missing. Behind a statement
or a block this is noticed at once. What a parenthesis was to enclose goes on up to the end of the
statement or of the indexer around it.
-/

namespace Lookahead.Imperative

open Kind Goal Phrase

variable {k c : Kind} {goals goals' S : List (Goal Kind Phrase)} {ks : List Kind}

/-- The ends of a statement, a parenthesis and a block. -/
def closers : List Kind := [terminator, parEnd, blockEnd]

/-! ### What may follow what -/

/-- What may stand below a goal. -/
def beneath : Goal Kind Phrase → List (Goal Kind Phrase)
  | phrase x => x.below
  | token .terminator | token .blockBegin => [phrase statements]
  | token .blockEnd => [token whileWord]
  | token .whileWord => [token parBegin]
  | token .parBegin => [phrase (operand true)]
  | token .parEnd => [phrase tail, token terminator]
  | token .indexerEnd => [phrase tail, token assign, token terminator]
  | token .identifier => [phrase index, token assign]
  | token .assign => [phrase value, token number]
  | token .number => [token terminator]
  | token _ => []

theorem linked_behindOperand {negatable : Bool} {front : List (Goal Kind Phrase)}
    (h : behindOperand negatable k = some front)
    (hg : Predictor.Linked beneath (phrase tail :: goals)) :
    Predictor.Linked beneath (front ++ phrase tail :: goals) := by
  cases k with
  | identifier | number | parBegin | not =>
    cases h
    simp_all [Predictor.Linked, beneath, below]
  | sub =>
    cases negatable <;> cases h
    simp_all [Predictor.Linked, beneath, below]
  | _ => cases h

theorem linked_expand {x : Phrase} {front : List (Goal Kind Phrase)}
    (h : predictor.expand x k = some front) (hg : Predictor.Linked beneath (phrase x :: goals)) :
    Predictor.Linked beneath (front ++ goals) := by
  obtain ⟨g, rest, rfl, hp⟩ := hg.exists_cons (by cases x <;> simp [beneath, below])
  have hc := hg.tail
  cases x with
  | statements | tail => cases k <;> cases h <;> simp_all [Predictor.Linked, beneath, below]
  | index =>
    cases k <;> cases h
    exact ⟨by decide, by decide, List.mem_append_left [token terminator] hp, hc⟩
  | operand negatable =>
    rw [List.mem_singleton.1 hp] at hc ⊢
    exact linked_behindOperand h hc
  | value =>
    by_cases hk : k = indexerBegin
    · subst hk
      cases h
      rw [List.mem_singleton.1 hp] at hc ⊢
      exact ⟨by decide, hc⟩
    · obtain ⟨front, hfront, rfl⟩ := exists_of_behind_value h hk
      rw [List.mem_singleton.1 hp] at hc ⊢
      rw [List.append_assoc]
      exact linked_behindOperand hfront ⟨by decide, hc⟩

theorem linked_start : Predictor.Linked beneath predictor.start := ⟨by decide, rfl⟩

theorem expand_closer (hc : c ∈ closers) (x : Phrase) : predictor.expand x c = none := by
  refine behind_eq_none_iff.2 ?_
  simp only [closers, List.mem_cons, List.not_mem_nil, or_false] at hc
  obtain rfl | rfl | rfl := hc <;> cases x with
  | operand negatable => cases negatable <;> decide
  | _ => decide

theorem eq_index {y : Phrase} (ho : predictor.optional y = true) (hy : phrase tail ∈ beneath (phrase y)) :
    y = index := by
  cases y with
  | index => rfl
  | operand | value => cases ho
  | statements | tail => simp [beneath, below] at hy

/-- What ends an expression in a parenthesis that is not closed. -/
def EndsExpression (k : Kind) : Prop := k = terminator ∨ k = indexerEnd

theorem encloses : predictor.Encloses beneath parEnd tail EndsExpression where
  linked := linked_expand
  opens {y k front} h := by
    cases y with
    | operand negatable => cases negatable <;> cases k <;> cases h <;> decide
    | _ => cases k <;> cases h <;> decide
  bare := expand_closer (by decide)
  optional := rfl
  goesOn {k front} h := by
    cases k <;> cases h <;> exact ⟨[_], rfl⟩
  above {g} h := by
    cases g with
    | token j => cases j <;> simp [beneath] at h
    | phrase y => cases y <;> simp [beneath, below] at h ⊢
  inside {goals k S} hl h := by
    obtain ⟨g, rest, rfl, hg⟩ := hl.exists_cons (by decide)
    simp only [beneath, below, List.mem_cons, List.not_mem_nil, or_false] at hg
    obtain rfl | rfl | rfl := hg <;> obtain ⟨rfl, rfl⟩ := Predictor.step_token_iff.1 h
    · exact .inr (.inl rfl)
    · exact .inl ⟨rfl, rfl⟩
    · exact .inr (.inr rfl)
  outside {goals} hl := by
    obtain ⟨g, rest, rfl, hg⟩ := hl.exists_cons (by decide)
    simp only [beneath, List.mem_cons, List.not_mem_nil, or_false] at hg
    obtain rfl | rfl := hg
    · exact .inl ⟨rest, rfl⟩
    · refine .inr ⟨List.cons_ne_nil _ _, fun k hk ↦ .inl ?_⟩
      by_contra hne
      exact hk (Predictor.step_token_of_ne hne)
  ends {k} h := by
    obtain rfl | rfl := h <;> decide
  first {y k} ho hy hk := by
    obtain rfl := eq_index ho hy
    refine behind_eq_none_iff.2 fun hmem ↦ ?_
    obtain rfl := List.mem_singleton.1 hmem
    obtain (hk | hk) | hk := hk
    · cases hk
    · cases hk
    · exact hk rfl
  top {y z} ho hy := by
    obtain rfl := eq_index ho hy
    cases z <;> simp [beneath, below]

/-! ### Where a closer is missed -/

/-- The kinds at which it is noticed that a closer is missing. -/
def tells : Kind → List Kind
  | .terminator => eof :: blockEnd :: statementStart
  | .blockEnd => [whileWord]
  | .parEnd => [terminator, indexerEnd]
  | _ => []

theorem bridges (hc : c ∈ closers) (hk : k ∈ tells c) : grammar.Bridges c k where
  rules := by
    have hrules : ∀ c ∈ closers, ∀ k ∈ tells c, ∀ rules ∈ grammar.places, ∀ rule ∈ rules.head?,
        grammar.bridges c k rule = true := by decide +kernel
    exact hrules c hc k hk
  tails := by decide +kernel
  bodies := by decide +kernel

/-- A terminator, or the end of an indexer that was begun in front of what is missing. -/
def Outer (before mid : List Kind) (found : Kind) : Prop :=
  found = terminator ∨ found = indexerEnd ∧
    ∃ x y, before = x ++ indexerBegin :: y ∧ Balanced (y ++ mid)

/-- Whether a closer that is missing behind `before` is missed behind `mid`: the end of a parenthesis
at the first token that stands outside of it, any other one at once. -/
def Missed (closer : Kind) (before mid : List Kind) (found : Kind) : Prop :=
  if closer = parEnd then
    Outer before mid found ∧ ∀ m k rest, mid = m ++ k :: rest → ¬ Outer before m k
  else mid = []

variable {before mid rest : List Kind} {ys : List Phrase}

theorem outer_of_spans (h : predictor.Spans parEnd tail mid (ys.map phrase))
    (hk : EndsExpression k) (ho : predictor.run predictor.start before = some goals)
    (hstep : predictor.step goals parEnd = some S)
    (hrun : predictor.run S (mid ++ k :: rest) = some goals') : Outer before mid k := by
  obtain rfl | rfl := hk
  · exact .inl rfl
  · have hmid := balanced_of_spans h
    rw [← List.singleton_append, ← List.append_assoc, Predictor.run_append] at hrun
    obtain ⟨T, hT, -⟩ := Option.bind_eq_some_iff.1 hrun
    have hread : predictor.run predictor.start (before ++ parEnd :: (mid ++ [indexerEnd])) =
        some T := by
      rw [Predictor.run_append, ho, Option.bind_some, Predictor.run_cons_of_step hstep, hT]
    have hpos := balance_nonneg hread
    have hsplit : balance (before ++ parEnd :: (mid ++ [indexerEnd])) =
        balance before + (balance [parEnd] + (balance mid + balance [indexerEnd])) := by
      rw [balance_append, ← List.singleton_append, balance_append, balance_append]
    have hclose : balance [parEnd] = 0 := rfl
    have hend : balance [indexerEnd] = -1 := rfl
    rw [hsplit, hmid.1, hclose, hend] at hpos
    obtain ⟨x, y, hbefore, hy⟩ := exists_indexerBegin ⟨before, List.suffix_refl _, by omega⟩
    exact .inr ⟨rfl, x, y, hbefore, hy.append hmid⟩

theorem not_outer_of_spans (h : predictor.Spans parEnd tail mid (ys.map phrase)) {m : List Kind}
    (hmid : mid = m ++ k :: rest) : ¬ Outer before m k := by
  rintro (rfl | ⟨rfl, x, y, -, hbalanced⟩)
  · exact (inner_of_spans h).2 (hmid ▸ List.mem_append_right _ List.mem_cons_self)
  · have hprefix : m ++ [indexerEnd] <+: mid :=
      ⟨rest, by rw [hmid, List.append_assoc, List.singleton_append]⟩
    have hpos := (balanced_of_spans h).2 _ hprefix
    have hy := hbalanced.2 y (List.prefix_append y m)
    have hzero := hbalanced.1
    have hend : balance [indexerEnd] = -1 := rfl
    rw [balance_append, hend] at hpos
    rw [balance_append] at hzero
    omega

theorem mem_tells (hc : c = terminator ∨ c = blockEnd) (hl : Predictor.Linked beneath (token c :: S))
    (hk : predictor.step S k ≠ none) : k ∈ tells c := by
  obtain ⟨g, rest, rfl, hg⟩ := hl.exists_cons (by obtain rfl | rfl := hc <;> decide)
  obtain rfl | rfl := hc
  · obtain rfl := List.mem_singleton.1 hg
    obtain ⟨goals, hstep⟩ := Option.ne_none_iff_exists'.1 hk
    obtain ⟨front, hf, -⟩ | ⟨-, -, hstep⟩ := Predictor.step_phrase_iff.1 hstep
    · have hfirst : k ∈ first statements := by
        by_contra hne
        rw [show predictor.expand statements k = none from behind_eq_none_iff.2 hne] at hf
        cases hf
      exact List.mem_cons_of_mem _ (List.mem_cons_of_mem _ hfirst)
    · obtain ⟨g, rest, rfl, hg⟩ := hl.tail.exists_cons (by decide)
      simp only [beneath, below, List.mem_cons, List.not_mem_nil, or_false] at hg
      obtain rfl | rfl := hg <;> obtain ⟨rfl, -⟩ := Predictor.step_token_iff.1 hstep <;> decide
  · obtain rfl := List.mem_singleton.1 hg
    by_contra hne
    exact hk (Predictor.step_token_of_ne fun heq ↦ hne (heq ▸ List.mem_singleton_self _))

theorem step_of_missing (hc : c = terminator ∨ c = blockEnd) (hl : Predictor.Linked beneath goals)
    (h : predictor.step goals c = some S) (hk : k ∈ tells c) : predictor.step goals k = none := by
  have hcloser : c ∈ closers := by obtain rfl | rfl := hc <;> decide
  refine Predictor.step_eq_none_of_missing h (expand_closer hcloser) hl ?_ ?_
  · revert hk
    obtain rfl | rfl := hc <;> cases k <;> decide
  · intro y ho hy
    have hnone : ∀ k ∈ tells c, k ∉ first y := by
      cases y with
      | operand | value => cases ho
      | statements =>
        obtain rfl | rfl := hc
        · simp [beneath, below] at hy
        · decide
      | tail | index => obtain rfl | rfl := hc <;> decide
    exact behind_eq_none_iff.2 (hnone k hk)

theorem two_le_length (h : predictor.run predictor.start ks = some goals) (hc : c ∈ closers)
    (hstep : predictor.step goals c = some S) : 2 ≤ ks.length := by
  have hfirst : ∀ c ∈ closers, predictor.step predictor.start c = none := by decide
  have hsecond (k : Kind) : ∀ c ∈ closers, ∀ T ∈ predictor.step predictor.start k,
      predictor.step T c = none := by cases k <;> decide
  exact Predictor.two_le_length h hstep (hfirst c hc) fun k ↦ hsecond k c hc

section Programs

variable {before after : List (Token Kind)} {closer last : Token Kind}
  (hs : Sentence ((before ++ closer :: after).map Token.kind)) (hl : last.kind = eof)
include hs hl

theorem exists_missed_parEnd (hc : closer.kind = parEnd) :
    ∃ mid found rest, after ++ [last] = mid ++ found :: rest ∧
      Missed parEnd (before.map Token.kind) (mid.map Token.kind) found.kind ∧
      dialect.parser.Says (before ++ after ++ [last]) (missDiagnostic parEnd found) := by
  obtain ⟨outlook, S, ho, hstep, hrun⟩ := recognizes.exists_outlook hl hs
  rw [hc] at hstep
  have hhead := encloses.head?_run linked_start (by decide) ho
  have hstalls := encloses.stalls (linked_start.run linked_expand ho) hhead hstep hrun
  rw [← hc] at hstalls
  have hbridges {k : Kind} (hk : EndsExpression k) : grammar.Bridges closer.kind k := by
    rw [hc]
    exact bridges (by decide) (by obtain rfl | rfl := hk <;> decide)
  have hlong := two_le_length ho (by decide) hstep
  rw [List.length_map] at hlong
  obtain ⟨mid, found, rest, ys, hsplit, hk, hspans, hsays⟩ :=
    recognizes.exists_says_of_stalls Sentence.eof_not_mem hl hbridges ho hstalls hlong
  rw [hsplit, List.map_append, List.map_cons] at hrun
  rw [hc] at hspans hsays
  refine ⟨mid, found, rest, hsplit, ?_, hsays⟩
  rw [Missed, if_pos rfl]
  exact ⟨outer_of_spans hspans hk ho hstep hrun, fun m k rest hm ↦ not_outer_of_spans hspans hm⟩

theorem exists_missed_at_once (hc : closer.kind = terminator ∨ closer.kind = blockEnd) :
    ∃ found rest, after ++ [last] = found :: rest ∧
      dialect.parser.Says (before ++ after ++ [last]) (missDiagnostic closer.kind found) := by
  obtain ⟨outlook, S, ho, hstep, hrun⟩ := recognizes.exists_outlook hl hs
  have hcloser : closer.kind ∈ closers := by obtain hc | hc := hc <;> rw [hc] <;> decide
  have hlinked := linked_start.run linked_expand ho
  have hlong := two_le_length ho hcloser hstep
  rw [List.length_map] at hlong
  obtain ⟨found, rest, hfound⟩ := List.exists_cons_of_ne_nil (List.concat_ne_nil last after)
  have hfollows : predictor.step S found.kind ≠ none := by
    intro hnone
    rw [hfound, List.map_cons, Predictor.run, hnone] at hrun
    cases hrun
  have htells : found.kind ∈ tells closer.kind := by
    obtain ⟨ys, hys, -⟩ := Predictor.exists_of_step hstep (expand_closer hcloser)
    rw [hys] at hlinked
    exact mem_tells hc hlinked.of_append hfollows
  refine ⟨found, rest, hfound, ?_⟩
  refine recognizes.says_missing Sentence.eof_not_mem hl hfound (bridges hcloser htells) ho ?_
    (step_of_missing hc hlinked hstep htells) hlong
  exact (Predictor.run_cons_of_step hstep _).trans hrun

/-- A closer missing from a program is complained about once, where it is missed. -/
theorem exists_missed (hc : closer.kind ∈ closers) :
    ∃ mid found rest, after ++ [last] = mid ++ found :: rest ∧
      Missed closer.kind (before.map Token.kind) (mid.map Token.kind) found.kind ∧
      dialect.parser.Says (before ++ after ++ [last]) (missDiagnostic closer.kind found) := by
  by_cases hpar : closer.kind = parEnd
  · rw [hpar]
    exact exists_missed_parEnd hs hl hpar
  · have hother : closer.kind = terminator ∨ closer.kind = blockEnd := by
      simpa [closers, hpar] using hc
    obtain ⟨found, rest, hfound, hsays⟩ := exists_missed_at_once hs hl hother
    exact ⟨[], found, rest, hfound, by rw [Missed, if_neg hpar, List.map_nil], hsays⟩

end Programs

end Lookahead.Imperative
