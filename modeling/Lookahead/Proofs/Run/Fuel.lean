import Lookahead.Proofs.Run.Invariant

/-!
The fuel of a run is enough whenever any fuel is. At one place of the stream, following some rules
calls only for rules that need less fuel, so no more fuel is needed there than the grammar has
places.
-/

namespace Lookahead

variable {κ : Type}

mutual

/-- The rule lists that following a rule can come by, apart from those behind it. -/
def Rule.places : Rule κ → List (List (Rule κ))
  | .loop _ body | .optional _ body => placesOf body
  | .choice _ arms => placesOfArms arms
  | .expect _ | .advance | .call _ | .forbid .. => []

def placesOf : List (Rule κ) → List (List (Rule κ))
  | [] => [[]]
  | r :: rules => (r :: rules) :: (r.places ++ placesOf rules)

def placesOfArm : Arm κ → List (List (Rule κ))
  | (_, body) => placesOf body

def placesOfArms : List (Arm κ) → List (List (Rule κ))
  | [] => []
  | a :: arms => placesOfArm a ++ placesOfArms arms

end

theorem mem_placesOf (rules : List (Rule κ)) : rules ∈ placesOf rules := by
  cases rules <;> simp [placesOf]

mutual

theorem Rule.length_places (r : Rule κ) : r.places.length + 1 = r.size := by
  cases r with
  | loop lookahead body | optional lookahead body =>
    rw [Rule.places, Rule.size, length_placesOf body]
  | choice title arms => rw [Rule.places, Rule.size, length_placesOfArms arms]
  | expect | advance | call | forbid => rfl

theorem length_placesOf (rules : List (Rule κ)) : (placesOf rules).length = sizeOfRules rules := by
  cases rules with
  | nil => rfl
  | cons r rules =>
    have hr := r.length_places
    have hrules := length_placesOf rules
    simp only [placesOf, sizeOfRules, List.length_cons, List.length_append]
    omega

theorem length_placesOfArm (a : Arm κ) : (placesOfArm a).length = sizeOfArm a := by
  cases a with
  | mk lookahead body => exact length_placesOf body

theorem length_placesOfArms (arms : List (Arm κ)) :
    (placesOfArms arms).length = sizeOfArms arms := by
  cases arms with
  | nil => rfl
  | cons a arms =>
    rw [placesOfArms, sizeOfArms, List.length_append, length_placesOfArm a,
      length_placesOfArms arms]

end

mutual

theorem Rule.placesOf_subset {r : Rule κ} {rules : List (Rule κ)} (h : rules ∈ r.places) :
    placesOf rules ⊆ r.places := by
  cases r with
  | loop lookahead body | optional lookahead body =>
    rw [Rule.places] at h ⊢
    exact Lookahead.placesOf_subset h
  | choice title arms =>
    rw [Rule.places] at h ⊢
    exact placesOf_subset_arms h
  | expect | advance | call | forbid => simp [Rule.places] at h

theorem placesOf_subset {rules l : List (Rule κ)} (h : rules ∈ placesOf l) :
    placesOf rules ⊆ placesOf l := by
  cases l with
  | nil => simp_all [placesOf]
  | cons r rest =>
    rw [placesOf] at h ⊢
    rcases List.mem_cons.1 h with rfl | h
    · exact List.Subset.refl _
    · apply List.subset_cons_of_subset
      rcases List.mem_append.1 h with h | h
      · exact List.subset_append_of_subset_left _ (Rule.placesOf_subset h)
      · exact List.subset_append_of_subset_right _ (placesOf_subset h)

theorem placesOf_subset_arm {rules : List (Rule κ)} {a : Arm κ} (h : rules ∈ placesOfArm a) :
    placesOf rules ⊆ placesOfArm a := by
  cases a with
  | mk lookahead body => exact placesOf_subset h

theorem placesOf_subset_arms {rules : List (Rule κ)} {arms : List (Arm κ)}
    (h : rules ∈ placesOfArms arms) : placesOf rules ⊆ placesOfArms arms := by
  cases arms with
  | nil => simp [placesOfArms] at h
  | cons a arms =>
    rw [placesOfArms] at h ⊢
    rcases List.mem_append.1 h with h | h
    · exact List.subset_append_of_subset_left _ (placesOf_subset_arm h)
    · exact List.subset_append_of_subset_right _ (placesOf_subset_arms h)

end

theorem mem_placesOfArms {arms : List (Arm κ)} {a : Arm κ} (h : a ∈ arms) :
    a.2 ∈ placesOfArms arms := by
  induction arms with
  | nil => cases h
  | cons b arms ih =>
    rw [placesOfArms]
    rcases List.mem_cons.1 h with rfl | h
    · obtain ⟨lookahead, body⟩ := a
      exact List.mem_append_left _ (mem_placesOf body)
    · exact List.mem_append_right _ (ih h)

namespace Grammar

/-- All that a run of the grammar can come by, from the call of the start on. -/
def places (g : Grammar κ) : List (List (Rule κ)) :=
  [.call g.start] :: [] :: g.productions.flatMap fun p ↦ placesOf p.body

theorem length_places (g : Grammar κ) : g.places.length = g.size + 2 := by
  have hlength (productions : List (Production κ)) :
      (productions.flatMap fun p ↦ placesOf p.body).length = productions.foldr (·.size + ·) 0 := by
    induction productions with
    | nil => rfl
    | cons p productions ih =>
      rw [List.flatMap_cons, List.length_append, length_placesOf, List.foldr_cons, ih]
      rfl
  rw [places, List.length_cons, List.length_cons, hlength, size]

theorem mem_places_of_production? {g : Grammar κ} {callee : String} {production : Production κ}
    (h : g.production? callee = some production) : production.body ∈ g.places := by
  simp only [places, List.mem_cons, List.mem_flatMap]
  exact .inr (.inr ⟨production, List.mem_of_find?_eq_some h, mem_placesOf _⟩)

theorem places_closed {g : Grammar κ} {rule : Rule κ} {rules : List (Rule κ)}
    (h : rule :: rules ∈ g.places) : rules ∈ g.places ∧ rule.places ⊆ g.places := by
  simp only [places, List.mem_cons, List.mem_flatMap] at h
  rcases h with h | h | ⟨production, hp, h⟩
  · cases h
    exact ⟨by simp [places], by simp [Rule.places]⟩
  · cases h
  · have hsub : placesOf production.body ⊆ g.places := fun l hl ↦ by
      simp only [places, List.mem_cons, List.mem_flatMap]
      exact .inr (.inr ⟨production, hp, hl⟩)
    have hl := placesOf_subset h
    rw [placesOf] at hl
    constructor
    · exact hsub (hl (List.mem_cons_of_mem _ (List.mem_append_right _ (mem_placesOf _))))
    · exact fun l h ↦ hsub (hl (List.mem_cons_of_mem _ (List.mem_append_left _ h)))

variable [DecidableEq κ] [TokenKind κ]

theorem mem_places_of_move {g : Grammar κ} {kind : κ} {rule : Rule κ} {rules body : List (Rule κ)}
    {again : Bool} (hr : rule :: rules ∈ g.places) (h : g.move kind rule = .enter body again) :
    body ∈ g.places := by
  have hsub := (places_closed hr).2
  cases rule with
  | expect k =>
    rw [move] at h
    split at h <;> cases h
  | advance => cases h
  | call callee =>
    rw [move] at h
    split at h
    · cases h
    · rename_i production hp
      cases h
      exact mem_places_of_production? hp
  | loop lookahead b | optional lookahead b =>
    rw [move] at h
    split at h <;> cases h
    exact hsub (mem_placesOf _)
  | choice title arms =>
    rw [move] at h
    split at h <;> cases h
    rename_i arm ha
    exact hsub (mem_placesOfArms (List.mem_of_find?_eq_some ha))
  | forbid lookahead message =>
    rw [move] at h
    split at h <;> cases h

end Grammar

namespace State

/-- Behind `s` in the stream, or at the same place of it. -/
def Later (s t : State κ) : Prop := t.rest.length < s.rest.length ∨ s.Alike t

theorem Later.refl (s : State κ) : s.Later s := .inr ⟨rfl, rfl, rfl, rfl⟩

theorem Later.length_le {s t : State κ} (h : s.Later t) : t.rest.length ≤ s.rest.length := by
  rcases h with h | h
  · exact Nat.le_of_lt h
  · exact Nat.le_of_eq (congrArg List.length h.rest.symm)

theorem Later.trans {s t u : State κ} (h : s.Later t) (h' : t.Later u) : s.Later u := by
  rcases h with h | h
  · exact .inl (Nat.lt_of_le_of_lt h'.length_le h)
  · rcases h' with h' | h'
    · exact .inl (h.rest ▸ h')
    · exact .inr ⟨h.current.trans h'.current, h.rest.trans h'.rest, h.consumed.trans h'.consumed,
        h.failure.trans h'.failure⟩

theorem Later.raise {s t : State κ} (h : s.Later t) (admits : Nat → Bool) (code : Code)
    (message : String) : s.Later (t.raise admits code message) :=
  h.trans (.inr ⟨rfl, rfl, rfl, rfl⟩)

variable [TokenKind κ]

theorem advance_eq_or_lt (s : State κ) : s.advance = s ∨ s.advance.rest.length < s.rest.length := by
  unfold advance
  split
  · exact .inl rfl
  · exact .inl rfl
  all_goals
    rename_i hr
    exact .inr (by simp [hr])

theorem Later.advance {s t : State κ} (h : s.Later t) : s.Later t.advance := by
  rcases t.advance_eq_or_lt with ht | ht
  · rwa [ht]
  · exact h.trans (.inl ht)

end State

namespace Parser

variable [TokenKind κ]

theorem keeps_later (p : Parser κ) (s : State κ) : p.Keeps s.Later where
  advance _ h := h.advance
  raise _ code message h := h.raise p.admits code message

variable [DecidableEq κ]

omit [TokenKind κ] [DecidableEq κ] in
theorem remaining_mem_places {g : Grammar κ} {rule : Rule κ} {rules : List (Rule κ)} {again : Bool}
    {s t : State κ} (hr : rule :: rules ∈ g.places) :
    remaining rule rules again s t ∈ g.places := by
  unfold remaining
  split
  · exact hr
  · exact (Grammar.places_closed hr).1

/-- How many places can be followed to an end from `s` with `n` units of fuel. -/
def ending (p : Parser κ) (n : Nat) (s : State κ) : Nat :=
  p.grammar.places.countP fun rules ↦ (p.follow n rules s).isSome

theorem ending_le (p : Parser κ) (n : Nat) (s : State κ) : p.ending n s ≤ p.grammar.places.length :=
  List.countP_le_length

theorem countP_follow_le (p : Parser κ) (n : Nat) (s : State κ) (l : List (List (Rule κ))) :
    l.countP (fun rules ↦ (p.follow n rules s).isSome) ≤
      l.countP fun rules ↦ (p.follow (n + 1) rules s).isSome := by
  refine List.countP_mono_left fun rules _ h ↦ ?_
  obtain ⟨t, ht⟩ := Option.isSome_iff_exists.1 h
  simp [p.follow_succ ht]

theorem ending_lt {p : Parser κ} {n : Nat} {s t : State κ} {rules : List (Rule κ)}
    (hr : rules ∈ p.grammar.places) (h : p.follow (n + 1) rules s = some t)
    (hn : p.follow n rules s = none) : p.ending n s < p.ending (n + 1) s := by
  unfold ending
  obtain ⟨before, after, hb⟩ := List.append_of_mem hr
  have hbefore := p.countP_follow_le n s before
  have hafter := p.countP_follow_le n s after
  rw [hb, List.countP_append, List.countP_append, List.countP_cons_of_neg (by simp [hn]),
    List.countP_cons_of_pos (by simp [h])]
  omega

theorem ending_alike {s t : State κ} (p : Parser κ) (n : Nat) (h : s.Alike t) :
    p.ending n s = p.ending n t := by
  have hle {s t : State κ} (h : s.Alike t) : p.ending n s ≤ p.ending n t := by
    refine List.countP_mono_left fun rules _ hs ↦ ?_
    obtain ⟨u, hu⟩ := Option.isSome_iff_exists.1 hs
    obtain ⟨u', hu', -⟩ := (p.simulates_alike p).follow rfl hu h
    simp [hu']
  exact Nat.le_antisymm (hle h) (hle ⟨h.current.symm, h.rest.symm, h.consumed.symm, h.failure.symm⟩)

/-- A bound on the fuel for rules that can be followed with `n` units: all places at each item to
come, and those that end with `n` units at the present one. -/
def bound (p : Parser κ) (n : Nat) (s : State κ) : Nat :=
  s.rest.length * p.grammar.places.length + p.ending n s

theorem bound_le_of_later {p : Parser κ} {n : Nat} {s t : State κ} (h : s.Later t) :
    p.bound n t ≤ p.bound n s := by
  unfold bound
  rcases h with h | h
  · have ht := p.ending_le n t
    have hm := Nat.mul_le_mul_right p.grammar.places.length (Nat.succ_le_of_lt h)
    rw [Nat.succ_mul] at hm
    omega
  · exact Nat.le_of_eq (by rw [h.rest, p.ending_alike n h])

theorem follow_bound {p : Parser κ} {n : Nat} {rules : List (Rule κ)} {s t : State κ}
    (hr : rules ∈ p.grammar.places) (h : p.follow n rules s = some t) :
    p.follow (p.bound n s) rules s = some t := by
  induction n generalizing rules s t with
  | zero => cases h
  | succ n ih =>
    have hle : p.bound n s ≤ p.bound (n + 1) s := Nat.add_le_add_left (p.countP_follow_le n s _) _
    cases hn : p.follow n rules s with
    | some u =>
      have hu := p.follow_succ hn
      rw [h] at hu
      cases hu
      exact p.follow_mono hle (ih hr hn)
    | none =>
      -- the rules come to an end only now, so one place more does
      have hlt : p.bound n s + 1 ≤ p.bound (n + 1) s :=
        Nat.add_lt_add_left (ending_lt hr h hn) _
      apply p.follow_mono hlt
      have later {rules : List (Rule κ)} {u v : State κ} (hl : s.Later u)
          (hrules : rules ∈ p.grammar.places) (hv : p.follow n rules u = some v) :
          p.follow (p.bound n s) rules u = some v :=
        p.follow_mono (bound_le_of_later hl) (ih hrules hv)
      have here := State.Later.refl s
      cases rules with
      | nil => exact h
      | cons rule rules =>
        have hrules := (Grammar.places_closed hr).1
        rw [follow_cons] at h ⊢
        cases hm : p.grammar.move s.current.kind rule with
        | pass =>
          rw [hm] at h
          exact later here hrules h
        | advance =>
          rw [hm] at h
          exact later here.advance hrules h
        | raise code message =>
          rw [hm] at h
          exact later (here.raise p.admits code message) hrules h
        | enter body again =>
          rw [hm] at h
          obtain ⟨u, hu, ht⟩ := Option.bind_eq_some_iff.1 h
          have hl := (p.keeps_later s).follow hu here
          simp only [followMove, later here (Grammar.mem_places_of_move hr hm) hu, Option.bind_some]
          exact later hl (remaining_mem_places hr) ht

/-- A run has a final state exactly if following the start production from the first token comes to
an end at all. -/
theorem run?_eq_some_iff {p : Parser κ} {items : List (Item κ)} {t : State κ} :
    p.run? items = some t ↔
      ∃ u, p.Follows [.call p.grammar.start] (State.ofItems items).advance u ∧
        t = (u.expect p.admits TokenKind.eof).drain := by
  rw [run?, Option.map_eq_some_iff]
  constructor
  · rintro ⟨u, hu, rfl⟩
    exact ⟨u, ⟨_, hu⟩, rfl⟩
  · rintro ⟨u, ⟨n, hu⟩, rfl⟩
    refine ⟨u, p.follow_mono ?_ (follow_bound (by simp [Grammar.places]) hu), rfl⟩
    have hrest : (State.ofItems items).advance.rest.length ≤ items.length := by
      rcases (State.ofItems items).advance_eq_or_lt with h | h
      · rw [h]
        exact Nat.le_refl _
      · exact Nat.le_of_lt h
    have hs := p.ending_le n (State.ofItems items).advance
    rw [bound, fuel, ← Grammar.length_places]
    have hm := Nat.mul_le_mul_right p.grammar.places.length hrest
    rw [Nat.add_mul]
    omega

/-- The start production is followed forever: no fuel is enough. -/
def Endless (p : Parser κ) (items : List (Item κ)) : Prop :=
  ∀ n, p.follow n [.call p.grammar.start] (State.ofItems items).advance = none

theorem run?_eq_none_iff {p : Parser κ} {items : List (Item κ)} :
    p.run? items = none ↔ p.Endless items := by
  constructor
  · intro h n
    rw [Option.eq_none_iff_forall_ne_some]
    intro u hu
    have ht := run?_eq_some_iff.2 ⟨u, ⟨n, hu⟩, rfl⟩
    rw [h] at ht
    cases ht
  · intro h
    rw [run?, h, Option.map_none]

end Parser

end Lookahead
