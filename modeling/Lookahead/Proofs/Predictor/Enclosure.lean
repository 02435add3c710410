import Lookahead.Proofs.Predictor

/-!
What is enclosed by an opener and a closer. If the closer is missing, what stands behind it is read
as if it were enclosed, and inner closers take the place of outer ones, up to a token that only goes
with what is outside.
-/

namespace Lookahead.Predictor

variable {κ σ : Type} {m : Predictor κ σ}

/-! ### Goals below goals -/

/-- Below each goal stands one that may follow it, or nothing if none may. -/
def Linked (next : Goal κ σ → List (Goal κ σ)) : List (Goal κ σ) → Prop
  | [] => True
  | [g] => next g = []
  | g :: g' :: goals => g' ∈ next g ∧ Linked next (g' :: goals)

section Linked

variable {next : Goal κ σ → List (Goal κ σ)} {g g' : Goal κ σ} {goals rest : List (Goal κ σ)}

theorem Linked.tail (h : Linked next (g :: goals)) : Linked next goals := by
  cases goals with
  | nil => trivial
  | cons g' goals => exact h.2

theorem Linked.exists_cons (h : Linked next (g :: goals)) (hne : next g ≠ []) :
    ∃ g' rest, goals = g' :: rest ∧ g' ∈ next g := by
  cases goals with
  | nil => exact absurd h hne
  | cons g' goals => exact ⟨g', goals, rfl, h.1⟩

theorem Linked.of_append (h : Linked next (goals ++ rest)) : Linked next rest := by
  induction goals with
  | nil => exact h
  | cons g goals ih => exact ih h.tail

theorem Linked.mem_next (h : Linked next (goals ++ g :: g' :: rest)) : g' ∈ next g := h.of_append.1

theorem Linked.next_of_mem {ys : List σ} {y : σ} (h : Linked next (ys.map .phrase ++ g :: rest))
    (hy : y ∈ ys) : g ∈ next (.phrase y) ∨ ∃ z, .phrase z ∈ next (.phrase y) := by
  obtain ⟨above, below, rfl⟩ := List.append_of_mem hy
  rw [List.map_append, List.append_assoc] at h
  cases below with
  | nil => exact .inl h.mem_next
  | cons z below => exact .inr ⟨z, h.mem_next⟩

end Linked

variable {next : Goal κ σ → List (Goal κ σ)} {goals goals' rest W W' S T : List (Goal κ σ)}
  {ys : List σ} {x : σ} {c k : κ} {ks pre b : List κ}

/-! ### Phrases that are missing -/

/-- These phrases may be missing, and none of them begins with this kind. -/
def Skips (m : Predictor κ σ) (k : κ) (ys : List σ) : Prop :=
  ∀ y ∈ ys, m.optional y = true ∧ m.expand y k = none

variable [DecidableEq κ]

theorem Skips.step (h : m.Skips k ys) (goals : List (Goal κ σ)) :
    m.step (ys.map .phrase ++ goals) k = m.step goals k := by
  induction ys with
  | nil => rfl
  | cons y ys ih =>
    obtain ⟨⟨ho, he⟩, hys⟩ := List.forall_mem_cons.1 h
    rw [List.map_cons, List.cons_append, step_of_skip he ho, ih hys]

theorem step_append (h : m.step W k = some W') (rest : List (Goal κ σ)) :
    m.step (W ++ rest) k = some (W' ++ rest) := by
  induction W with
  | nil => cases h
  | cons g W ih =>
    cases g with
    | token j =>
      obtain ⟨rfl, rfl⟩ := step_token_iff.1 h
      exact step_token_self k (W ++ rest)
    | phrase y =>
      obtain ⟨front, hf, rfl⟩ | ⟨he, ho, h⟩ := step_phrase_iff.1 h
      · rw [List.append_assoc]
        exact step_of_expand hf
      · rw [List.cons_append, step_of_skip he ho, ih h]

theorem run_above (h : m.run W ks = some W') (rest : List (Goal κ σ)) :
    m.run (W ++ rest) ks = some (W' ++ rest) := by
  induction ks generalizing W with
  | nil =>
    cases h
    rfl
  | cons k ks ih =>
    obtain ⟨S, hs, hr⟩ := Option.bind_eq_some_iff.1 h
    rw [run_cons_of_step (step_append hs rest), ih hr]

/-- What stands on top is read on, or it is all missing and what is below is read. -/
theorem step_append_cases (h : m.step (W ++ rest) k = some S) :
    (∃ W', m.step W k = some W' ∧ S = W' ++ rest) ∨
      ∃ ys, W = ys.map .phrase ∧ m.Skips k ys ∧ m.step rest k = some S := by
  induction W with
  | nil => exact .inr ⟨[], rfl, by simp [Skips], h⟩
  | cons g W ih =>
    cases g with
    | token j =>
      obtain ⟨rfl, rfl⟩ := step_token_iff.1 h
      exact .inl ⟨W, step_token_self k W, rfl⟩
    | phrase y =>
      obtain ⟨front, hf, rfl⟩ | ⟨he, ho, h⟩ := step_phrase_iff.1 h
      · exact .inl ⟨front ++ W, step_of_expand hf, (List.append_assoc ..).symm⟩
      · obtain ⟨W', hW, rfl⟩ | ⟨ys, rfl, hys, hrest⟩ := ih h
        · exact .inl ⟨W', (step_of_skip he ho).trans hW, rfl⟩
        · exact .inr ⟨y :: ys, rfl, List.forall_mem_cons.2 ⟨⟨ho, he⟩, hys⟩, hrest⟩

theorem exists_of_step (h : m.step goals c = some S) (hbare : ∀ y, m.expand y c = none) :
    ∃ ys, goals = ys.map .phrase ++ .token c :: S ∧ m.Skips c ys := by
  induction goals with
  | nil => cases h
  | cons g goals ih =>
    cases g with
    | token j =>
      obtain ⟨rfl, rfl⟩ := step_token_iff.1 h
      exact ⟨[], rfl, by simp [Skips]⟩
    | phrase y =>
      obtain ⟨front, hf, rfl⟩ | ⟨he, ho, h⟩ := step_phrase_iff.1 h
      · rw [hbare] at hf
        cases hf
      · obtain ⟨ys, rfl, hys⟩ := ih h
        exact ⟨y :: ys, rfl, List.forall_mem_cons.2 ⟨⟨ho, he⟩, hys⟩⟩

/-- Where such a token is missing, the next one is refused if no phrase above begins with it. -/
theorem step_eq_none_of_missing (h : m.step goals c = some S) (hbare : ∀ y, m.expand y c = none)
    (hl : Linked next goals) (hk : k ≠ c)
    (hphrases : ∀ y, m.optional y = true →
      (.token c ∈ next (.phrase y) ∨ ∃ z, .phrase z ∈ next (.phrase y)) → m.expand y k = none) :
    m.step goals k = none := by
  obtain ⟨ys, rfl, hys⟩ := exists_of_step h hbare
  have hskips : m.Skips k ys := fun y hy ↦
    ⟨(hys y hy).1, hphrases y (hys y hy).1 (hl.next_of_mem hy)⟩
  rw [hskips.step, step_token_of_ne hk]

theorem forall_mem_step {P : Goal κ σ → Prop} (h : m.step goals k = some goals')
    (hP : ∀ {y k front}, P (.phrase y) → m.expand y k = some front → ∀ g ∈ front, P g)
    (hg : ∀ g ∈ goals, P g) : ∀ g ∈ goals', P g := by
  refine step_keeps (Q := fun goals ↦ ∀ g ∈ goals, P g)
    (fun hg ↦ (List.forall_mem_cons.1 hg).2) (fun hf hg ↦ ?_) hg h
  obtain ⟨hy, hgoals⟩ := List.forall_mem_cons.1 hg
  exact List.forall_mem_append.2 ⟨hP hy hf, hgoals⟩

theorem two_le_length (h : m.run goals ks = some goals') (hc : m.step goals' c = some S)
    (hfirst : m.step goals c = none) (hsecond : ∀ k, ∀ T ∈ m.step goals k, m.step T c = none) :
    2 ≤ ks.length := by
  cases ks with
  | nil =>
    cases h
    rw [hfirst] at hc
    cases hc
  | cons k ks =>
    cases ks with
    | nil =>
      obtain ⟨T, hT, hgoals⟩ := Option.bind_eq_some_iff.1 h
      cases hgoals
      rw [hsecond k _ hT] at hc
      cases hc
    | cons j ks => simp

theorem step_eq_none_of_forall (htoken : ∀ g ∈ goals, g ≠ .token k)
    (hphrase : ∀ y, .phrase y ∈ goals → m.expand y k = none) : m.step goals k = none := by
  induction goals with
  | nil => rfl
  | cons g goals ih =>
    have hrest := ih (fun g hg ↦ htoken g (List.mem_cons_of_mem _ hg))
      fun y hy ↦ hphrase y (List.mem_cons_of_mem _ hy)
    cases g with
    | token j =>
      refine step_token_of_ne fun hk ↦ ?_
      exact htoken _ List.mem_cons_self (congrArg Goal.token hk.symm)
    | phrase y =>
      have hskip := hphrase y List.mem_cons_self
      cases ho : m.optional y with
      | true => rw [step_of_skip hskip ho, hrest]
      | false => exact step_of_refuse hskip ho

/-! ### Enclosed phrases -/

/-- A phrase `x` of any length stands above every closer `c`. What is behind a phrase that may go on
can be told from its first token: the closer, or a token that only `Ends` goes with what is outside. -/
structure Encloses (m : Predictor κ σ) (next : Goal κ σ → List (Goal κ σ)) (c : κ) (x : σ)
    (Ends : κ → Prop) : Prop where
  linked : ∀ {y k front goals}, m.expand y k = some front → Linked next (.phrase y :: goals) →
    Linked next (front ++ goals)
  opens : ∀ {y k front}, m.expand y k = some front → front.head? ≠ some (.token c)
  bare : ∀ y, m.expand y c = none
  optional : m.optional x = true
  goesOn : ∀ {k front}, m.expand x k = some front → ∃ f, front = f ++ [.phrase x]
  above : ∀ {g}, .token c ∈ next g → g = .phrase x
  inside : ∀ {goals k S}, Linked next (.phrase x :: goals) → m.step goals k = some S →
    (goals = .token c :: S ∧ k = c) ∨ Ends k
  outside : ∀ {goals}, Linked next (.token c :: goals) →
    (∃ rest, goals = .phrase x :: rest) ∨ goals ≠ [] ∧ ∀ k, m.step goals k ≠ none → Ends k
  ends : ∀ {k}, Ends k → k ≠ c ∧ m.expand x k = none
  first : ∀ {y k}, m.optional y = true → .phrase x ∈ next (.phrase y) →
    (Ends k ∨ m.expand x k ≠ none) → m.expand y k = none
  top : ∀ {y z}, m.optional y = true → .phrase x ∈ next (.phrase y) → .phrase y ∉ next (.phrase z)

theorem Linked.step (hm : ∀ {y k front goals}, m.expand y k = some front →
    Linked next (.phrase y :: goals) → Linked next (front ++ goals)) (hl : Linked next goals)
    (h : m.step goals k = some goals') : Linked next goals' :=
  step_keeps Linked.tail hm hl h

theorem Linked.run (hm : ∀ {y k front goals}, m.expand y k = some front →
    Linked next (.phrase y :: goals) → Linked next (front ++ goals)) (hl : Linked next goals)
    (h : m.run goals ks = some goals') : Linked next goals' :=
  run_keeps (Linked.step hm) hl h

/-- The stacks behind a missing closer, down to the goal that may go on: what was read is enclosed, or
has been closed by an outer closer instead. -/
inductive Spans (m : Predictor κ σ) (c : κ) (x : σ) : List κ → List (Goal κ σ) → Prop
  | nil : Spans m c x [] [.phrase x]
  | step {ks : List κ} {k : κ} {W W' : List (Goal κ σ)} (h : Spans m c x ks W)
    (hs : m.step W k = some W') : Spans m c x (ks ++ [k]) W'
  | close {ks : List κ} {ys : List σ} (h : Spans m c x ks (ys.map .phrase)) :
    Spans m c x (ks ++ [c]) [.phrase x]

variable {Ends : κ → Prop}

theorem Spans.exists_concat (h : m.Spans c x ks W) (he : m.Encloses next c x Ends) :
    ∃ V, W = V ++ [.phrase x] := by
  induction h with
  | nil | close => exact ⟨[], rfl⟩
  | step _ hs ih =>
    obtain ⟨V, rfl⟩ := ih
    obtain ⟨V', -, rfl⟩ | ⟨-, -, -, hs⟩ := step_append_cases hs
    · exact ⟨V', rfl⟩
    · obtain ⟨front, hf, rfl⟩ | ⟨-, -, hs⟩ := step_phrase_iff.1 hs
      · obtain ⟨f, rfl⟩ := he.goesOn hf
        exact ⟨f, List.append_nil _⟩
      · cases hs

theorem Spans.of_prefix (h : m.Spans c x ks W) (hpre : pre <+: ks) : ∃ V, m.Spans c x pre V := by
  induction h with
  | nil =>
    rw [List.prefix_nil.1 hpre]
    exact ⟨_, .nil⟩
  | step h hs ih =>
    obtain rfl | hpre := List.prefix_concat_iff.1 hpre
    · exact ⟨_, h.step hs⟩
    · exact ih hpre
  | close h ih =>
    obtain rfl | hpre := List.prefix_concat_iff.1 hpre
    · exact ⟨_, h.close⟩
    · exact ih hpre

theorem Spans.forall_mem {P : Goal κ σ → Prop} (h : m.Spans c x ks W) (hx : P (.phrase x))
    (hP : ∀ {y k front}, P (.phrase y) → m.expand y k = some front → ∀ g ∈ front, P g)
    (hk : k ≠ c) (htoken : ¬ P (.token k)) (hphrase : ∀ y, P (.phrase y) → m.expand y k = none) :
    (∀ g ∈ W, P g) ∧ k ∉ ks := by
  induction h with
  | nil => exact ⟨List.forall_mem_singleton.2 hx, List.not_mem_nil⟩
  | step h hs ih =>
    obtain ⟨hW, hks⟩ := ih
    refine ⟨forall_mem_step hs hP hW, ?_⟩
    intro hmem
    obtain hmem | hmem := List.mem_append.1 hmem
    · exact hks hmem
    · obtain rfl := List.mem_singleton.1 hmem
      have hnone := step_eq_none_of_forall (m := m) (fun g hg heq ↦ htoken (heq ▸ hW g hg))
        fun y hy ↦ hphrase y (hW _ hy)
      rw [hnone] at hs
      cases hs
  | close h ih =>
    refine ⟨List.forall_mem_singleton.2 hx, ?_⟩
    intro hmem
    obtain hmem | hmem := List.mem_append.1 hmem
    · exact ih.2 hmem
    · exact hk (List.mem_singleton.1 hmem)

/-- On a stack on which the closer stands for nothing, tokens are read up to one that only goes with
what is outside. There the closer is expected, and with it the rest is read. -/
def Stalls (m : Predictor κ σ) (c : κ) (x : σ) (Ends : κ → Prop) (pre b : List κ)
    (T : List (Goal κ σ)) : Prop :=
  ∃ (mid : List κ) (k : κ) (rest : List κ) (ys : List σ) (T' : List (Goal κ σ)),
    b = mid ++ k :: rest ∧ m.Spans c x (pre ++ mid) (ys.map .phrase) ∧ Ends k ∧
      m.run T mid = some T' ∧ m.step T' k = none ∧ m.run T' (c :: k :: rest) = some []

theorem Stalls.cons (h : m.Stalls c x Ends (pre ++ [k]) b T) (hs : m.step S k = some T) :
    m.Stalls c x Ends pre (k :: b) S := by
  obtain ⟨mid, j, rest, ys, T', rfl, hspans, hj, hmid, hrefuse, hrest⟩ := h
  rw [List.append_assoc] at hspans
  exact ⟨k :: mid, j, rest, ys, T', rfl, hspans, hj, (run_cons_of_step hs mid).trans hmid, hrefuse,
    hrest⟩

theorem stalls_of_ends (he : m.Encloses next c x Ends) (hspans : m.Spans c x pre (ys.map .phrase))
    (hys : m.Skips k ys) (hk : Ends k) (hb : m.run S (k :: b) = some []) :
    m.Stalls c x Ends pre (k :: b) (ys.map .phrase ++ .token c :: S) := by
  have hclose : m.Skips c ys := fun y hy ↦ ⟨(hys y hy).1, he.bare y⟩
  refine ⟨[], k, b, ys, _, rfl, ?_, hk, rfl, ?_, ?_⟩
  · rwa [List.append_nil]
  · rw [hys.step, step_token_of_ne (he.ends hk).1]
  · rw [run_cons_of_step ((hclose.step _).trans (step_token_self c S)), hb]

omit [DecidableEq κ] in
theorem skips_singleton (hx : m.optional x = true) (hk : m.expand x k = none) : m.Skips k [x] :=
  List.forall_mem_singleton.2 ⟨hx, hk⟩

/-- Where a closer is missing the text goes on as behind it, with the closer below. -/
theorem stalls_of_closed (he : m.Encloses next c x Ends) (hspans : m.Spans c x pre [.phrase x])
    (hl : Linked next (.token c :: S)) (hb : m.run S b = some [])
    (ih : ∀ rest, S = .phrase x :: rest →
      m.Stalls c x Ends pre b ([.phrase x] ++ .token c :: .phrase x :: rest)) :
    m.Stalls c x Ends pre b (.phrase x :: .token c :: S) := by
  obtain ⟨rest, rfl⟩ | ⟨hne, hends⟩ := he.outside hl
  · exact ih rest rfl
  · cases b with
    | nil =>
      cases hb
      exact absurd rfl hne
    | cons k b =>
      have hstep : m.step S k ≠ none := by
        intro hnone
        rw [run, hnone] at hb
        cases hb
      have hk := hends k hstep
      have hone : m.Spans c x pre ([x].map .phrase) := hspans
      exact stalls_of_ends he hone (skips_singleton he.optional (he.ends hk).2) hk hb

/-- What is enclosed with a closer missing stalls at the end of it. -/
theorem Spans.stalls (hspans : m.Spans c x pre W) (he : m.Encloses next c x Ends)
    (hl : Linked next (W ++ rest)) (hb : m.run (W ++ rest) b = some []) :
    m.Stalls c x Ends pre b (W ++ .token c :: .phrase x :: rest) := by
  -- on what is left to read: with the closer and without it the same goals stand above `rest`
  obtain ⟨V, hV⟩ := hspans.exists_concat he
  induction b generalizing pre W V rest with
  | nil =>
    rw [run, hV] at hb
    simp at hb
  | cons k b ih =>
    obtain ⟨S, hs, hr⟩ := Option.bind_eq_some_iff.1 hb
    have hlS := hl.step he.linked hs
    obtain ⟨W', hW, rfl⟩ | ⟨ys, rfl, hys, hrest⟩ := step_append_cases hs
    · have hspans' := hspans.step hW
      obtain ⟨V', hV'⟩ := hspans'.exists_concat he
      exact (ih hspans' hlS hr V' hV').cons (step_append hW _)
    · have hx : Linked next (.phrase x :: rest) := by
        rw [hV, List.append_assoc] at hl
        exact hl.of_append
      obtain ⟨rfl, rfl⟩ | hk := he.inside hx hrest
      · -- an outer closer is taken for the missing one, and is itself missing from there on
        have hclose : m.step (ys.map .phrase ++ .token k :: .phrase x :: .token k :: S) k =
            some (.phrase x :: .token k :: S) := (hys.step _).trans (step_token_self k _)
        refine (stalls_of_closed he hspans.close hx.tail hr ?_).cons hclose
        rintro rest rfl
        exact ih (W := [.phrase x]) hspans.close hx.tail.tail hr [] rfl
      · have hskip := (step_of_skip (he.ends hk).2 he.optional).trans hrest
        exact stalls_of_ends he hspans hys hk ((run_cons_of_step hskip b).trans hr)

/-- The closer never comes to stand on top of what is still expected. -/
theorem Encloses.head?_step (he : m.Encloses next c x Ends) (hl : Linked next goals)
    (h : m.step goals k = some goals') : goals'.head? ≠ some (.token c) := by
  induction goals with
  | nil => cases h
  | cons g goals ih =>
    have hbelow {rest : List (Goal κ σ)} (hg : goals = .token c :: rest) : g = .phrase x := by
      rw [hg] at hl
      exact he.above hl.1
    cases g with
    | token j =>
      obtain ⟨-, rfl⟩ := step_token_iff.1 h
      intro hhead
      obtain ⟨rest, hrest⟩ := List.head?_eq_some_iff.1 hhead
      cases hbelow hrest
    | phrase y =>
      obtain ⟨front, hf, rfl⟩ | ⟨-, -, h⟩ := step_phrase_iff.1 h
      · cases front with
        | nil =>
          intro hhead
          obtain ⟨rest, hrest⟩ := List.head?_eq_some_iff.1 hhead
          cases hbelow hrest
          obtain ⟨f, hnil⟩ := he.goesOn hf
          simp at hnil
        | cons g front => simpa using he.opens hf
      · exact ih hl.tail h

theorem Encloses.head?_run (he : m.Encloses next c x Ends) (hl : Linked next goals)
    (hhead : goals.head? ≠ some (.token c)) (h : m.run goals ks = some goals') :
    goals'.head? ≠ some (.token c) := by
  have hrun := run_keeps (Q := fun goals ↦ Linked next goals ∧ goals.head? ≠ some (.token c))
    (fun hg hs ↦ ⟨hg.1.step he.linked hs, he.head?_step hg.1 hs⟩) ⟨hl, hhead⟩ h
  exact hrun.2

theorem Encloses.exists_of_step (he : m.Encloses next c x Ends) (hl : Linked next goals)
    (hhead : goals.head? ≠ some (.token c)) (h : m.step goals c = some S) :
    ∃ ys : List σ, goals = ys.map .phrase ++ .phrase x :: .token c :: S ∧
      ∀ y ∈ ys, m.optional y = true ∧ .phrase x ∈ next (.phrase y) := by
  obtain ⟨ys, rfl, hys⟩ := Predictor.exists_of_step h he.bare
  obtain rfl | ⟨ys, x', rfl⟩ := ys.eq_nil_or_concat
  · exact absurd rfl hhead
  · simp only [List.concat_eq_append, List.map_append, List.map_singleton, List.append_assoc] at hl
    cases he.above hl.mem_next
    refine ⟨ys, by simp, ?_⟩
    obtain rfl | ⟨zs, y, rfl⟩ := ys.eq_nil_or_concat
    · simp
    · simp only [List.concat_eq_append, List.map_append, List.map_singleton, List.append_assoc] at hl
      have ho := (hys y (by simp)).1
      have hy : .phrase x ∈ next (.phrase y) := hl.mem_next
      obtain rfl | ⟨zs, z, rfl⟩ := zs.eq_nil_or_concat
      · simpa using ⟨ho, hy⟩
      · simp only [List.concat_eq_append, List.map_append, List.map_singleton, List.append_assoc]
          at hl
        exact absurd hl.mem_next (he.top ho hy)

/-- Without a closer that a stack takes, the rest is read up to a token that only goes with what is
outside. -/
theorem Encloses.stalls (he : m.Encloses next c x Ends) (hl : Linked next goals)
    (hhead : goals.head? ≠ some (.token c)) (h : m.step goals c = some S)
    (hb : m.run S b = some []) : m.Stalls c x Ends [] b goals := by
  obtain ⟨ys, hgoals, hys⟩ := he.exists_of_step hl hhead h
  have hskips {k : κ} (hk : k = c ∨ Ends k ∨ m.expand x k ≠ none) : m.Skips k ys := by
    intro y hy
    obtain ⟨ho, hx⟩ := hys y hy
    obtain rfl | hk := hk
    · exact ⟨ho, he.bare y⟩
    · exact ⟨ho, he.first ho hx hk⟩
  have hclosed : Linked next (.token c :: S) := by
    rw [hgoals] at hl
    exact hl.of_append.tail
  have hopen : m.Stalls c x Ends [] b (.phrase x :: .token c :: S) := by
    refine stalls_of_closed he .nil hclosed hb ?_
    rintro rest rfl
    exact Spans.nil.stalls he hclosed.tail hb
  obtain ⟨mid, k, rest, zs, T', rfl, hspans, hk, hmid, hrefuse, hrest⟩ := hopen
  cases mid with
  | nil =>
    cases hmid
    refine ⟨[], k, rest, zs, goals, rfl, hspans, hk, rfl, ?_, ?_⟩
    · rw [hgoals, (hskips (.inr (.inl hk))).step, hrefuse]
    · rw [run_cons_of_step h, ← hb, List.nil_append]
  | cons j mid =>
    have hj : j = c ∨ Ends j ∨ m.expand x j ≠ none := by
      obtain ⟨T, hT, -⟩ := Option.bind_eq_some_iff.1 hmid
      obtain ⟨front, hf, -⟩ | ⟨-, -, hc⟩ := step_phrase_iff.1 hT
      · exact .inr (.inr (by simp [hf]))
      · exact .inl (step_token_iff.1 hc).1
    refine ⟨j :: mid, k, rest, zs, T', rfl, hspans, hk, ?_, hrefuse, hrest⟩
    rw [← hmid, hgoals]
    exact run_cons_congr ((hskips hj).step _) mid

end Lookahead.Predictor
