import Lookahead.Proofs.Run.Stretch
import Lookahead.Proofs.Run.Termination

/-!
A ranked grammar never passes the end of the stream: wherever a run of it stands, the end is the
next token or still to come, and so everything that is followed from there comes to an end.
-/

namespace Lookahead

variable {κ : Type} [DecidableEq κ] [TokenKind κ]

/-- The end is still ahead, and the rules to be followed from here do not pass it. -/
structure State.Watched (r : Ranking κ) (rules : List (Rule κ)) (s : State κ) : Prop where
  bounded : s.Bounded
  guarded : ∃ limit known, guarded r limit known rules = true ∧ ∀ ks ∈ known, s.current.kind ∈ ks

variable {r : Ranking κ} {rule : Rule κ} {front rules body : List (Rule κ)} {s t u : State κ}

theorem guarded_prefix {limit : Option Nat} {known : Option (List κ)}
    (h : guarded r limit known (front ++ rules) = true) : guarded r limit known front = true := by
  induction front generalizing limit known with
  | nil => rfl
  | cons rule front ih =>
    rw [List.cons_append, guarded, Bool.and_eq_true] at h
    rw [guarded, Bool.and_eq_true]
    exact ⟨h.1, ih h.2⟩

theorem guarded_of_mem_arms {limit : Option Nat} {arms : List (Arm κ)} {arm : Arm κ}
    (h : guardedArms r limit arms = true) (ha : arm ∈ arms) :
    guarded r limit (some arm.1) arm.2 = true := by
  induction arms with
  | nil => cases ha
  | cons a arms ih =>
    rw [guardedArms, Bool.and_eq_true] at h
    rcases List.mem_cons.1 ha with rfl | ha
    · cases arm
      exact h.1
    · exact ih h.2 ha

namespace State.Watched

theorem of_append (h : s.Watched r (front ++ rules)) : s.Watched r front := by
  obtain ⟨limit, known, hg, hk⟩ := h.guarded
  exact ⟨h.bounded, limit, known, guarded_prefix hg, hk⟩

theorem tail (h : s.Watched r (rule :: rules)) : s.Watched r rules := by
  obtain ⟨limit, known, hg, hk⟩ := h.guarded
  rw [Lookahead.guarded, Bool.and_eq_true] at hg
  refine ⟨h.bounded, _, _, hg.2, ?_⟩
  cases rule with
  | forbid => exact hk
  | expect | advance | call | loop | optional | choice => simp [Rule.knownAfter]

theorem raise (h : s.Watched r rules) (admits : Nat → Bool) (code : Code) (message : String) :
    (s.raise admits code message).Watched r rules :=
  ⟨h.bounded, h.guarded⟩

/-- What takes a token is told that it is not the end. -/
theorem advance {g : Grammar κ} (h : s.Watched r (rule :: rules))
    (hm : g.move s.current.kind rule = .advance) :
    s.current.kind ≠ TokenKind.eof ∧ s.advance.Watched r rules := by
  obtain ⟨limit, known, hg, hk⟩ := h.guarded
  rw [Lookahead.guarded, Bool.and_eq_true] at hg
  have hwatched (hne : s.current.kind ≠ TokenKind.eof) (hnone : rule.knownAfter known = none) :
      s.current.kind ≠ TokenKind.eof ∧ s.advance.Watched r rules :=
    ⟨hne, (h.bounded.advance hne).1, _, _, hg.2, by simp [hnone]⟩
  cases rule with
  | expect k =>
    rw [Grammar.move] at hm
    split at hm
    · rename_i hkind
      refine hwatched ?_ rfl
      simpa [hkind, Rule.guarded] using hg.1
    · cases hm
  | advance =>
    refine hwatched ?_ rfl
    intro heof
    have hany := hg.1
    rw [Rule.guarded, Option.any_eq_true] at hany
    obtain ⟨ks, hks, hnot⟩ := hany
    exact of_decide_eq_true hnot (heof ▸ hk ks hks)
  | call | loop | optional | choice | forbid =>
    rw [Grammar.move] at hm
    split at hm <;> cases hm

/-- A body is watched where it is entered, and what is left behind it wherever it leads. -/
theorem enter {g : Grammar κ} (hr : g.Ranked r) {again : Bool} (h : s.Watched r (rule :: rules))
    (hm : g.move s.current.kind rule = .enter body again) :
    s.Watched r body ∧
      ∀ t : State κ, t.Bounded → t.Watched r (Parser.remaining rule rules again s t) := by
  obtain ⟨limit, known, hg, hk⟩ := h.guarded
  have hrules := hg
  rw [Lookahead.guarded, Bool.and_eq_true] at hrules
  have hrest (hnone : rule.knownAfter known = none) (t : State κ) (ht : t.Bounded) :
      t.Watched r rules := ⟨ht, _, _, hrules.2, by simp [hnone]⟩
  cases rule with
  | expect k =>
    rw [Grammar.move] at hm
    split at hm <;> cases hm
  | advance => cases hm
  | call callee =>
    rw [Grammar.move] at hm
    split at hm
    · cases hm
    · rename_i production hp
      cases hm
      have hname : production.name = callee := by simpa using List.find?_some hp
      have hbody := hr.2 production (List.mem_of_find?_eq_some hp)
      rw [hname] at hbody
      have hentry := hrules.1
      rw [Rule.guarded, Bool.and_eq_true, Option.all_eq_true] at hentry
      refine ⟨⟨h.bounded, _, _, hbody, ?_⟩, hrest rfl⟩
      exact fun ks hks ↦ Parser.mem_of_within (hentry.1 ks hks) hk
  | loop lookahead b =>
    rw [Grammar.move] at hm
    split at hm
    · rename_i hl
      cases hm
      refine ⟨⟨h.bounded, _, _, hrules.1, by simpa using hl⟩, fun t ht ↦ ?_⟩
      unfold Parser.remaining
      split
      · refine ⟨ht, limit, none, ?_, by simp⟩
        rw [Lookahead.guarded, Bool.and_eq_true]
        exact hrules
      · exact hrest rfl t ht
    · cases hm
  | optional lookahead b =>
    rw [Grammar.move] at hm
    split at hm
    · rename_i hl
      cases hm
      refine ⟨⟨h.bounded, _, _, hrules.1, by simpa using hl⟩, hrest rfl⟩
    · cases hm
  | choice title arms =>
    rw [Grammar.move] at hm
    split at hm
    · cases hm
    · rename_i arm ha
      cases hm
      have hl : s.current.kind ∈ arm.1 := by simpa using List.find?_some ha
      have harm := guarded_of_mem_arms hrules.1 (List.mem_of_find?_eq_some ha)
      exact ⟨⟨h.bounded, _, _, harm, by simpa using hl⟩, hrest rfl⟩
  | forbid lookahead message =>
    rw [Grammar.move] at hm
    split at hm <;> cases hm

theorem start {g : Grammar κ} (hr : g.Ranked r) {items : List (Item κ)}
    (h : ∃ item ∈ items, Item.IsEnd item) :
    (State.ofItems items).advance.Watched r [.call g.start] := by
  refine ⟨bounded_advance_ofItems h, none, none, ?_, by simp⟩
  simp [Lookahead.guarded, Rule.guarded, hr.1]

end State.Watched

namespace Parser

variable {p : Parser κ}

/-- What is behind a stretch of rules is watched where the stretch leads. -/
theorem Follows.watched (hr : p.grammar.Ranked r) (h : p.Follows front s u)
    (hs : s.Watched r (front ++ rules)) : u.Watched r rules := by
  induction h using Follows.move_induction generalizing rules with
  | nil => exact hs
  | pass _ _ ih => exact ih hs.tail
  | advance hm _ ih => exact ih (hs.advance hm).2
  | raise _ _ ih => exact ih (hs.tail.raise p.admits _ _)
  | @enter rule front body again s u t hm _ _ ihbody ih =>
    obtain ⟨hbody, hrest⟩ := hs.enter hr hm
    rw [← body.append_nil] at hbody
    have hwatched := hrest u (ihbody hbody).bounded
    refine ih ?_
    rwa [← remaining_append]

theorem Follows.bounded (hr : p.grammar.Ranked r) (h : p.Follows rules s u)
    (hs : s.Watched r rules) : u.Bounded := by
  rw [← rules.append_nil] at hs
  exact (h.watched hr hs).bounded

/-- What complaints and taken tokens keep is kept up to the end token, which no rule takes. -/
theorem Follows.keeps_of_watched {P : State κ → Prop} (hr : p.grammar.Ranked r)
    (h : p.Follows rules s u) (hs : s.Watched r rules)
    (hadvance : ∀ s, s.current.kind ≠ TokenKind.eof → P s → P s.advance)
    (hraise : ∀ s rule code message, p.grammar.move s.current.kind rule = .raise code message →
      P s → P (s.raise p.admits code message)) (hP : P s) : P u := by
  induction h using Follows.move_induction with
  | nil => exact hP
  | pass _ _ ih => exact ih hs.tail hP
  | advance hm _ ih =>
    obtain ⟨hne, hwatched⟩ := hs.advance hm
    exact ih hwatched (hadvance _ hne hP)
  | raise hm _ ih => exact ih (hs.tail.raise p.admits _ _) (hraise _ _ _ _ hm hP)
  | enter hm hbody _ ihbody ih =>
    obtain ⟨hwatched, hrest⟩ := hs.enter hr hm
    exact ih (hrest _ (hbody.bounded hr hwatched)) (ihbody hwatched hP)

theorem halts_of_watched (hr : p.grammar.Ranked r) (hs : s.Watched r rules) : p.Halts rules s := by
  obtain ⟨limit, known, hg, hk⟩ := hs.guarded
  have hroom : Room (s.rest.length + 1) (limit.getD 0) limit s := by
    cases limit with
    | none => exact Nat.lt_succ_self _
    | some l => exact ⟨rfl, Nat.le_succ _⟩
  obtain ⟨t, ht, -⟩ := ends_rules (callsEnd hr _ _) hg hs.bounded hk hroom
  exact ⟨t, ht⟩

end Parser

end Lookahead
