import Lookahead.Proofs.Imperative.Prediction
import Lookahead.Proofs.Predictor.Enclosure

/-!
Indexers inside indexers. So many ends of indexers are due on a stack as there were beginnings of
indexers that were not ended.
-/

namespace Lookahead.Imperative

open Kind Goal Phrase

variable {k : Kind} {goals goals' : List (Goal Kind Phrase)} {ks : List Kind}

/-- How many more indexers are begun than are ended. -/
def balance (ks : List Kind) : Int := ks.count indexerBegin - ks.count indexerEnd

/-- All indexers that are begun are ended, and none is ended before it is begun. -/
def Balanced (ks : List Kind) : Prop := balance ks = 0 ∧ ∀ pre, pre <+: ks → 0 ≤ balance pre

theorem balance_append (ks js : List Kind) : balance (ks ++ js) = balance ks + balance js := by
  simp only [balance, List.count_append]
  omega

theorem Balanced.append {js : List Kind} (h : Balanced ks) (h' : Balanced js) :
    Balanced (ks ++ js) := by
  refine ⟨by rw [balance_append, h.1, h'.1, Int.add_zero], fun pre hpre ↦ ?_⟩
  obtain hpre | ⟨t, rfl⟩ := List.prefix_or_prefix_of_prefix hpre (List.prefix_append ks js)
  · exact h.2 pre hpre
  · rw [balance_append, h.1, Int.zero_add]
    exact h'.2 t ((List.prefix_append_right_inj ks).1 hpre)

theorem eq_indexerBegin_of_balance (h : 0 < balance [k]) : k = indexerBegin := by
  revert h
  cases k <;> decide

/-- Of more beginnings than ends one is behind all others that are not ended. -/
theorem exists_indexerBegin (h : ∃ s, s <:+ ks ∧ 1 ≤ balance s) :
    ∃ x y, ks = x ++ indexerBegin :: y ∧ Balanced y := by
  induction ks with
  | nil =>
    obtain ⟨s, hs, hle⟩ := h
    rw [List.suffix_nil.1 hs] at hle
    cases hle
  | cons k ks ih =>
    -- the shortest part at the end with more beginnings begins with the one that is looked for
    by_cases hsuffix : ∃ s, s <:+ ks ∧ 1 ≤ balance s
    · obtain ⟨x, y, rfl, hy⟩ := ih hsuffix
      exact ⟨k :: x, y, rfl, hy⟩
    · have hle {s : List Kind} (hs : s <:+ ks) : balance s ≤ 0 :=
        Int.not_lt.1 fun hlt ↦ hsuffix ⟨s, hs, hlt⟩
      obtain ⟨s, hs, hone⟩ := h
      obtain rfl | hs := List.suffix_cons_iff.1 hs
      · have hsplit : balance (k :: ks) = balance [k] + balance ks := balance_append [k] ks
        have hks := hle (List.suffix_refl ks)
        obtain rfl := eq_indexerBegin_of_balance (k := k) (by omega)
        have hbegin : balance [indexerBegin] = 1 := rfl
        refine ⟨[], ks, rfl, by omega, ?_⟩
        rintro pre ⟨s, rfl⟩
        have hs := hle (List.suffix_append pre s)
        rw [balance_append] at hsplit hks
        omega
      · exact absurd (hle hs) (by omega)

/-- How many more ends of indexers are due than beginnings. -/
def nesting (goals : List (Goal Kind Phrase)) : Int :=
  goals.count (token indexerEnd) - goals.count (token indexerBegin)

theorem nesting_append (goals rest : List (Goal Kind Phrase)) :
    nesting (goals ++ rest) = nesting goals + nesting rest := by
  simp only [nesting, List.count_append]
  omega

theorem nesting_expand {x : Phrase} {front : List (Goal Kind Phrase)}
    (h : predictor.expand x k = some front) : nesting front = balance [k] := by
  cases x with
  | operand negatable => cases negatable <;> cases k <;> cases h <;> rfl
  | _ => cases k <;> cases h <;> rfl

theorem nesting_step (h : predictor.step goals k = some goals') :
    nesting goals' = nesting goals + balance [k] := by
  induction goals with
  | nil => cases h
  | cons g goals ih =>
    have hgoal := nesting_append [g] goals
    rw [List.singleton_append] at hgoal
    cases g with
    | token j =>
      obtain ⟨rfl, rfl⟩ := Predictor.step_token_iff.1 h
      have htoken : nesting [token k] = - balance [k] := by cases k <;> rfl
      omega
    | phrase x =>
      have hphrase : nesting [phrase x] = 0 := by cases x <;> rfl
      obtain ⟨front, hf, rfl⟩ | ⟨-, -, h⟩ := Predictor.step_phrase_iff.1 h
      · have hfront := nesting_expand hf
        rw [nesting_append]
        omega
      · have hrest := ih h
        omega

theorem nesting_run (h : predictor.run goals ks = some goals') :
    nesting goals' = nesting goals + balance ks := by
  induction ks generalizing goals with
  | nil =>
    cases h
    exact (Int.add_zero _).symm
  | cons k ks ih =>
    obtain ⟨S, hs, hr⟩ := Option.bind_eq_some_iff.1 h
    have hsplit : balance (k :: ks) = balance [k] + balance ks := balance_append [k] ks
    rw [ih hr, nesting_step hs, hsplit, Int.add_assoc]

theorem nesting_phrases (ys : List Phrase) : nesting (ys.map phrase) = 0 := by
  induction ys with
  | nil => rfl
  | cons y ys ih =>
    rw [List.map_cons, ← List.singleton_append, nesting_append, ih]
    cases y <;> rfl

theorem nesting_nonneg (h : ∀ g ∈ goals, g ≠ token indexerBegin) : 0 ≤ nesting goals := by
  have hcount : goals.count (token indexerBegin) = 0 :=
    List.count_eq_zero.2 fun hmem ↦ h _ hmem rfl
  rw [nesting, hcount]
  omega

theorem balance_nonneg (h : predictor.run predictor.start ks = some goals) : 0 ≤ balance ks := by
  have hexpand {y : Phrase} {k : Kind} {front : List (Goal Kind Phrase)}
      (hf : predictor.expand y k = some front) : ∀ g ∈ front, g ≠ token indexerBegin := by
    cases y with
    | operand negatable => cases negatable <;> cases k <;> cases hf <;> decide
    | _ => cases k <;> cases hf <;> decide
  have hstart : ∀ g ∈ predictor.start, g ≠ token indexerBegin := by decide
  have hnone := nesting_nonneg (Predictor.run_keeps
    (fun hg hs ↦ Predictor.forall_mem_step hs (fun _ hf ↦ hexpand hf) hg) hstart h)
  have hzero : nesting predictor.start = 0 := rfl
  rwa [nesting_run h, hzero, Int.zero_add] at hnone

/-- What expressions are made of. -/
def Inner : Goal Kind Phrase → Prop
  | phrase (.operand _) | phrase .tail | phrase .index | token .parEnd | token .indexerEnd => True
  | _ => False

theorem inner_expand {y : Phrase} {front : List (Goal Kind Phrase)} (hy : Inner (phrase y))
    (h : predictor.expand y k = some front) : ∀ g ∈ front, Inner g := by
  cases y with
  | operand negatable => cases negatable <;> cases k <;> cases h <;> simp [Inner]
  | tail | index => cases k <;> cases h <;> simp [Inner]
  | statements | value => cases hy

variable {W : List (Goal Kind Phrase)}

theorem inner_of_spans (h : predictor.Spans parEnd tail ks W) :
    (∀ g ∈ W, Inner g) ∧ terminator ∉ ks := by
  have hbare (y : Phrase) : predictor.expand y terminator = none := by cases y <;> rfl
  exact h.forall_mem trivial inner_expand (by decide) id fun y _ ↦ hbare y

theorem nesting_of_spans (h : predictor.Spans parEnd tail ks W) : nesting W = balance ks := by
  induction h with
  | nil => rfl
  | step h hs ih => rw [nesting_step hs, ih, balance_append]
  | @close ks ys h ih =>
    have hclose : balance [parEnd] = 0 := rfl
    rw [balance_append, ← ih, nesting_phrases, hclose]
    rfl

theorem nonneg_of_spans (h : predictor.Spans parEnd tail ks W) : 0 ≤ balance ks := by
  rw [← nesting_of_spans h]
  refine nesting_nonneg fun g hg heq ↦ ?_
  have hinner := (inner_of_spans h).1 g hg
  rw [heq] at hinner
  exact hinner

/-- What is enclosed with a parenthesis missing ends the indexers that it begins, and no others. -/
theorem balanced_of_spans {ys : List Phrase} (h : predictor.Spans parEnd tail ks (ys.map phrase)) :
    Balanced ks := by
  have hnesting := nesting_of_spans h
  rw [nesting_phrases] at hnesting
  refine ⟨hnesting.symm, fun pre hpre ↦ ?_⟩
  obtain ⟨V, hV⟩ := h.of_prefix hpre
  exact nonneg_of_spans hV

end Lookahead.Imperative
