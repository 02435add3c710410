import Lookahead.Proofs.Ebnf

/-!
Predictors: a text is read against a stack of what is expected next, and the next token alone
decides what becomes of the stack. A text that is refused is refused at the first token with which
it cannot be completed any more.
-/

namespace Lookahead

variable {κ σ : Type}

inductive Goal (κ σ : Type) where
  | token (kind : κ)
  | phrase (x : σ)
deriving DecidableEq

/-- What is expected of a text, what is still expected of a phrase behind its first token, and which
phrases may be missing. -/
structure Predictor (κ σ : Type) where
  start : List (Goal κ σ)
  expand : σ → κ → Option (List (Goal κ σ))
  optional : σ → Bool

namespace Predictor

variable [DecidableEq κ] (m : Predictor κ σ)

def step : List (Goal κ σ) → κ → Option (List (Goal κ σ))
  | [], _ => none
  | .token j :: goals, k => if k = j then some goals else none
  | .phrase x :: goals, k =>
    match m.expand x k with
    | some front => some (front ++ goals)
    | none => if m.optional x then step goals k else none

def run (goals : List (Goal κ σ)) : List κ → Option (List (Goal κ σ))
  | [] => some goals
  | k :: ks => (m.step goals k).bind fun goals ↦ run goals ks

def Accepts (ks : List κ) : Prop := m.run m.start ks = some []

instance [DecidableEq σ] : DecidablePred m.Accepts := fun _ ↦ inferInstanceAs (Decidable (_ = _))

variable {m} {goals goals' : List (Goal κ σ)} {x : σ} {k : κ}

theorem run_cons_of_step (h : m.step goals k = some goals') (ks : List κ) :
    m.run goals (k :: ks) = m.run goals' ks := by
  rw [run, h, Option.bind_some]

theorem run_cons_congr (h : m.step goals k = m.step goals' k) (ks : List κ) :
    m.run goals (k :: ks) = m.run goals' (k :: ks) := by
  rw [run, run, h]

theorem run_append (ks js : List κ) :
    m.run goals (ks ++ js) = (m.run goals ks).bind fun goals ↦ m.run goals js := by
  induction ks generalizing goals with
  | nil => rfl
  | cons k ks ih =>
    rw [List.cons_append, run, run]
    cases m.step goals k with
    | none => rfl
    | some goals' => exact ih

theorem step_token_self (j : κ) (goals : List (Goal κ σ)) :
    m.step (.token j :: goals) j = some goals := if_pos rfl

theorem step_token_of_ne {j : κ} (h : k ≠ j) : m.step (.token j :: goals) k = none := if_neg h

theorem step_of_expand {front : List (Goal κ σ)} (h : m.expand x k = some front) :
    m.step (.phrase x :: goals) k = some (front ++ goals) := by
  rw [step, h]

theorem step_of_skip (h : m.expand x k = none) (ho : m.optional x = true) :
    m.step (.phrase x :: goals) k = m.step goals k := by
  rw [step, h, if_pos ho]

theorem step_of_refuse (h : m.expand x k = none) (ho : m.optional x = false) :
    m.step (.phrase x :: goals) k = none := by
  rw [step, h, ho]
  rfl

theorem step_token_iff {j : κ} :
    m.step (.token j :: goals) k = some goals' ↔ k = j ∧ goals = goals' := by
  simp [step]

theorem step_phrase_iff :
    m.step (.phrase x :: goals) k = some goals' ↔
      (∃ front, m.expand x k = some front ∧ front ++ goals = goals') ∨
      (m.expand x k = none ∧ m.optional x = true ∧ m.step goals k = some goals') := by
  rw [step]
  cases m.expand x k <;> simp

/-- A phrase that is not optional is expanded. -/
theorem exists_expand_of_step (ho : m.optional x = false)
    (h : m.step (.phrase x :: goals) k = some goals') :
    ∃ front, m.expand x k = some front ∧ front ++ goals = goals' := by
  obtain h | ⟨-, hx, -⟩ := step_phrase_iff.1 h
  · exact h
  · rw [ho] at hx
    cases hx

/-- What holds of a stack holds of the next one if it is left by the goals below and by what a phrase
is expanded to. -/
theorem step_keeps {Q : List (Goal κ σ) → Prop} (htail : ∀ {g goals}, Q (g :: goals) → Q goals)
    (hexpand : ∀ {y k front goals}, m.expand y k = some front → Q (.phrase y :: goals) →
      Q (front ++ goals))
    (hg : Q goals) (h : m.step goals k = some goals') : Q goals' := by
  induction goals with
  | nil => cases h
  | cons goal goals ih =>
    cases goal with
    | token j =>
      obtain ⟨-, rfl⟩ := step_token_iff.1 h
      exact htail hg
    | phrase y =>
      obtain ⟨front, hf, rfl⟩ | ⟨-, -, h⟩ := step_phrase_iff.1 h
      · exact hexpand hf hg
      · exact ih (htail hg) h

theorem run_keeps {Q : List (Goal κ σ) → Prop}
    (hstep : ∀ {goals k goals'}, Q goals → m.step goals k = some goals' → Q goals')
    (hg : Q goals) {ks : List κ} (h : m.run goals ks = some goals') : Q goals' := by
  induction ks generalizing goals with
  | nil =>
    cases h
    exact hg
  | cons k ks ih =>
    obtain ⟨goals'', hs, hr⟩ := Option.bind_eq_some_iff.1 h
    exact ih (hstep hg hs) hr

/-- The tokens on a stack that nothing can take the place of. -/
def due (goals : List (Goal κ σ)) : Nat :=
  goals.countP fun
    | .token _ => true
    | .phrase _ => false

omit [DecidableEq κ] in
@[simp] theorem due_token : due (.token k :: goals) = due goals + 1 := List.countP_cons_of_pos rfl

omit [DecidableEq κ] in
@[simp] theorem due_phrase : due (.phrase x :: goals) = due goals :=
  List.countP_cons_of_neg (by simp)

theorem due_le_step (h : m.step goals k = some goals') : due goals ≤ due goals' + 1 := by
  induction goals with
  | nil => cases h
  | cons goal goals ih =>
    cases goal with
    | token j =>
      obtain ⟨-, rfl⟩ := step_token_iff.1 h
      exact Nat.le_of_eq due_token
    | phrase x =>
      rw [due_phrase]
      obtain ⟨front, -, rfl⟩ | ⟨-, -, h⟩ := step_phrase_iff.1 h
      · have hfront : due (front ++ goals) = due front + due goals := List.countP_append
        omega
      · exact ih h

/-- Each of the tokens due is read in its turn. -/
theorem due_le_length {ks : List κ} (h : m.run goals ks = some []) : due goals ≤ ks.length := by
  induction ks generalizing goals with
  | nil =>
    cases h
    exact Nat.le_refl _
  | cons k ks ih =>
    obtain ⟨goals', hs, hr⟩ := Option.bind_eq_some_iff.1 h
    have hstep := due_le_step hs
    have hrest := ih hr
    rw [List.length_cons]
    omega

/-! ### Reading on, whatever stands below -/

/-- Reading the first text on the first goals comes to reading the second one on the others. -/
def Reaches (m : Predictor κ σ) (goals : List (Goal κ σ)) (i : List κ) (goals' : List (Goal κ σ))
    (r : List κ) : Prop :=
  ∀ below, m.run (goals ++ below) i = m.run (goals' ++ below) r

variable {i r : List κ}

theorem Reaches.refl : m.Reaches goals i goals i := fun _ ↦ rfl

theorem Reaches.trans {j : List κ} {goals'' : List (Goal κ σ)} (h : m.Reaches goals i goals' j)
    (h' : m.Reaches goals' j goals'' r) : m.Reaches goals i goals'' r :=
  fun below ↦ (h below).trans (h' below)

theorem Reaches.above (h : m.Reaches goals i goals' r) (rest : List (Goal κ σ)) :
    m.Reaches (goals ++ rest) i (goals' ++ rest) r := by
  intro below
  rw [List.append_assoc, List.append_assoc]
  exact h (rest ++ below)

theorem reaches_token : m.Reaches (.token k :: goals) (k :: i) goals i :=
  fun _ ↦ run_cons_of_step (step_token_self _ _) i

theorem reaches_expand {front : List (Goal κ σ)} (h : m.expand x k = some front) :
    m.Reaches (.phrase x :: goals) (k :: i) (front ++ goals) i := by
  intro below
  rw [List.append_assoc]
  exact run_cons_of_step (step_of_expand h) i

theorem reaches_skip (h : m.expand x k = none) (ho : m.optional x = true) :
    m.Reaches (.phrase x :: goals) (k :: i) goals (k :: i) :=
  fun _ ↦ run_cons_congr (step_of_skip h ho) i

theorem reaches_close (h : m.expand x k = none) (ho : m.optional x = true) :
    m.Reaches (.phrase x :: .token k :: goals) (k :: i) goals i :=
  (reaches_skip h ho).trans reaches_token

/-! ### What a stack takes -/

/-- What a stack takes of a text, if `P` says what the phrases take. -/
def Takes (P : σ → List κ → List κ → Prop) : List (Goal κ σ) → List κ → List κ → Prop
  | [], i, r => i = r
  | .token k :: goals, i, r => ∃ j, i = k :: j ∧ Takes P goals j r
  | .phrase x :: goals, i, r => ∃ j, P x i j ∧ Takes P goals j r

omit [DecidableEq κ] in
theorem takes_append {P : σ → List κ → List κ → Prop} :
    Takes P (goals ++ goals') i r ↔ ∃ j, Takes P goals i j ∧ Takes P goals' j r := by
  induction goals generalizing i with
  | nil => simp [Takes]
  | cons goal goals ih =>
    cases goal with
    | token k =>
      simp only [List.cons_append, Takes, ih]
      grind
    | phrase x =>
      simp only [List.cons_append, Takes, ih]
      grind

/-- `P` holds of all that the predictor lets a phrase take. -/
structure Sound (m : Predictor κ σ) (P : σ → List κ → List κ → Prop) : Prop where
  skip : ∀ {x}, m.optional x = true → ∀ i, P x i i
  expand : ∀ {x k front}, m.expand x k = some front → ∀ {i r}, Takes P front i r → P x (k :: i) r

theorem Sound.step {P : σ → List κ → List κ → Prop} (hP : m.Sound P)
    (h : m.step goals k = some goals') (ht : Takes P goals' i r) :
    Takes P goals (k :: i) r := by
  induction goals with
  | nil => cases h
  | cons goal goals ih =>
    cases goal with
    | token j =>
      obtain ⟨rfl, rfl⟩ := step_token_iff.1 h
      exact ⟨i, rfl, ht⟩
    | phrase x =>
      obtain ⟨front, hf, rfl⟩ | ⟨-, ho, h⟩ := step_phrase_iff.1 h
      · obtain ⟨j, hj, hr⟩ := takes_append.1 ht
        exact ⟨j, hP.expand hf hj, hr⟩
      · exact ⟨k :: i, hP.skip ho _, ih h⟩

theorem Sound.run {P : σ → List κ → List κ → Prop} (hP : m.Sound P) {ks : List κ}
    (h : m.run goals ks = some []) : Takes P goals ks [] := by
  induction ks generalizing goals with
  | nil =>
    cases h
    rfl
  | cons k ks ih =>
    obtain ⟨goals', hs, hr⟩ := Option.bind_eq_some_iff.1 h
    exact hP.step hs (ih hr)

/-! ### Stacks that can be completed -/

/-- No phrase stands at the bottom of the stack, and below each stands what may follow it. -/
def Chained (below : σ → List (Goal κ σ)) : List (Goal κ σ) → Prop
  | [] => True
  | .token _ :: goals => Chained below goals
  | .phrase x :: goals => (∃ g ∈ goals.head?, g ∈ below x) ∧ Chained below goals

omit [DecidableEq κ] in
theorem Chained.tail {below : σ → List (Goal κ σ)} {g : Goal κ σ} (h : Chained below (g :: goals)) :
    Chained below goals := by
  cases g with
  | token => exact h
  | phrase => exact h.2

omit [DecidableEq κ] in
theorem Chained.exists_cons {below : σ → List (Goal κ σ)} (h : Chained below (.phrase x :: goals)) :
    ∃ g rest, goals = g :: rest ∧ g ∈ below x ∧ Chained below (g :: rest) := by
  obtain ⟨⟨g, hmem, hp⟩, hc⟩ := h
  cases goals with
  | nil => cases hmem
  | cons g' goals =>
    cases hmem
    exact ⟨g, goals, rfl, hp, hc⟩

/-- Chained stacks stay so, and a token with which a phrase can begin is never one that could come
in its place if it is missing. -/
structure Productive (m : Predictor κ σ) (below : σ → List (Goal κ σ)) : Prop where
  expand : ∀ {x k front goals}, m.expand x k = some front →
    Chained below (.phrase x :: goals) → Chained below (front ++ goals)
  skip : ∀ {x k goals}, m.optional x = true → Chained below (.phrase x :: goals) →
    m.expand x k ≠ none → m.step goals k = none
  begins : ∀ {x}, m.optional x = false →
    ∃ k front, m.expand x k = some front ∧ ∀ g ∈ front, ∃ y, g = .phrase y ∧ m.optional y = true

theorem Productive.step {below : σ → List (Goal κ σ)} (hm : m.Productive below)
    (hg : Chained below goals) (h : m.step goals k = some goals') : Chained below goals' :=
  step_keeps Chained.tail hm.expand hg h

theorem Productive.run {below : σ → List (Goal κ σ)} (hm : m.Productive below) {ks : List κ}
    (hg : Chained below goals) (h : m.run goals ks = some goals') : Chained below goals' :=
  run_keeps hm.step hg h

/-- A missing phrase does not stand in the way of what comes in its place. -/
theorem Productive.run_phrase {below : σ → List (Goal κ σ)} (hm : m.Productive below)
    (ho : m.optional x = true) (hg : Chained below (.phrase x :: goals)) {ks : List κ}
    (h : m.run goals ks = some []) : m.run (.phrase x :: goals) ks = some [] := by
  cases ks with
  | nil =>
    cases h
    obtain ⟨⟨g, hmem, -⟩, -⟩ := hg
    cases hmem
  | cons k ks =>
    obtain ⟨goals', hs, hr⟩ := Option.bind_eq_some_iff.1 h
    cases he : m.expand x k with
    | none => rw [← h, run_cons_congr (step_of_skip he ho)]
    | some front =>
      rw [hm.skip ho hg (by simp [he])] at hs
      cases hs

theorem Productive.exists_run_eq_nil {below : σ → List (Goal κ σ)} (hm : m.Productive below)
    (hg : Chained below goals) : ∃ ks, m.run goals ks = some [] := by
  induction goals with
  | nil => exact ⟨[], rfl⟩
  | cons goal goals ih =>
    cases goal with
    | token j =>
      obtain ⟨ks, hks⟩ := ih hg
      exact ⟨j :: ks, by rw [run_cons_of_step (step_token_self j goals), hks]⟩
    | phrase x =>
      obtain ⟨ks, hks⟩ := ih hg.2
      cases ho : m.optional x with
      | true => exact ⟨ks, hm.run_phrase ho hg hks⟩
      | false =>
        obtain ⟨k, front, he, hf⟩ := hm.begins ho
        refine ⟨k :: ks, ?_⟩
        rw [run_cons_of_step (step_of_expand he)]
        have hc := hm.expand he hg
        clear he
        induction front with
        | nil => exact hks
        | cons g front ihf =>
          obtain ⟨y, rfl, hy⟩ := hf g List.mem_cons_self
          exact hm.run_phrase hy hc (ihf (fun g h ↦ hf g (List.mem_cons_of_mem _ h)) hc.2)

end Predictor

end Lookahead
