import Lookahead.Proofs.Run.Ladder
import Lookahead.Proofs.Run.Stopping

/-!
Loops whose rounds begin by taking a token. Only a lexical error can keep such a round from
consuming anything, and it leaves an end token at which the loop is not entered again. So the check
that a round consumed something never ends a loop, and without it every run is the same.
-/

namespace Lookahead

variable {κ : Type} [DecidableEq κ] [TokenKind κ]

namespace Grammar

/-- A loop that does not begin at the end, and whose rounds take the token that they begin at. -/
def LoopTakes (g : Grammar κ) (n : Nat) : Rule κ → Prop
  | .loop lookahead body =>
    TokenKind.eof ∉ lookahead ∧ ∀ k ∈ lookahead, g.takes k n body = true
  | _ => True

instance (g : Grammar κ) (n : Nat) : DecidablePred (g.LoopTakes n)
  | .loop .. => inferInstanceAs (Decidable (_ ∧ _))
  | .expect _ | .advance | .call _ | .optional .. | .choice .. | .forbid .. =>
    inferInstanceAs (Decidable True)

/-- Every loop of the grammar, at whatever depth, takes a token in each round. -/
def LoopsTake (g : Grammar κ) (n : Nat) : Prop :=
  ∀ rules ∈ g.places, ∀ rule ∈ rules.head?, g.LoopTakes n rule

instance (g : Grammar κ) (n : Nat) : Decidable (g.LoopsTake n) :=
  inferInstanceAs (Decidable (∀ _ ∈ _, _))

/-- Only a loop is entered to come back to it. -/
theorem eq_loop_of_enter {g : Grammar κ} {kind : κ} {rule : Rule κ} {body : List (Rule κ)}
    (h : g.move kind rule = .enter body true) :
    ∃ lookahead, rule = .loop lookahead body ∧ kind ∈ lookahead := by
  cases rule with
  | loop lookahead b =>
    rw [move] at h
    split at h
    · rename_i hk
      cases h
      exact ⟨lookahead, rfl, hk⟩
    · cases h
  | advance => cases h
  | expect | call | optional | choice | forbid =>
    rw [move] at h
    split at h <;> cases h

end Grammar

namespace Parser

variable {p : Parser κ} {r : Ranking κ} {rule : Rule κ} {rules more body : List (Rule κ)}
  {s t u : State κ} {n : Nat}

/-! ### Rounds that consume nothing -/

/-- Rules that take the token at which they are followed consume it, or a lexical error comes up. -/
theorem Follows.kind_eq_eof_of_takes (h : p.Follows rules s t)
    (ht : p.grammar.takes s.current.kind n rules = true) (hs : s.Bounded)
    (hk : s.current.kind ≠ TokenKind.eof) (hc : t.consumed = s.consumed) :
    t.current.kind = TokenKind.eof :=
  (h.keeps_of_takes ht (p.keeps_passed s.consumed) (hs.passed_advance hk)).kind_eq_eof hc

/-- A round that consumes nothing leaves a token at which the loop is not entered. -/
theorem not_mem_of_round {lookahead : List κ} (htakes : p.grammar.LoopsTake n)
    (hplace : .loop lookahead body :: more ∈ p.grammar.places) (hs : s.Bounded)
    (hk : s.current.kind ∈ lookahead) (hbody : p.Follows body s u)
    (hc : u.consumed = s.consumed) : u.current.kind ∉ lookahead := by
  obtain ⟨heof, hround⟩ := htakes _ hplace _ rfl
  have hne : s.current.kind ≠ TokenKind.eof := fun h ↦ heof (h ▸ hk)
  rw [hbody.kind_eq_eof_of_takes (hround _ hk) hs hne hc]
  exact heof

/-- Whatever a run comes by is a place of the grammar, and the end is still ahead there. -/
theorem Visits.watched (hr : p.grammar.Ranked r) (h : p.Visits rules s more u)
    (hs : s.Watched r rules) (hplace : rules ∈ p.grammar.places) :
    u.Watched r more ∧ more ∈ p.grammar.places := by
  induction h with
  | start => exact ⟨hs, hplace⟩
  | pass _ hm ih => exact ⟨ih.1.tail, (Grammar.places_closed ih.2).1⟩
  | advance _ hm ih => exact ⟨(ih.1.advance hm).2, (Grammar.places_closed ih.2).1⟩
  | raise _ hm ih => exact ⟨ih.1.tail.raise p.admits _ _, (Grammar.places_closed ih.2).1⟩
  | enter _ hm ih => exact ⟨(ih.1.enter hr hm).1, Grammar.mem_places_of_move ih.2 hm⟩
  | leave _ hm hv ih =>
    obtain ⟨hbody, hrest⟩ := ih.1.enter hr hm
    exact ⟨hrest _ (hv.bounded hr hbody), remaining_mem_places ih.2⟩

/-! ### Following without the check -/

/-- Follows rules, going round each loop for as long as it may be entered, whether a round consumed
anything or not. -/
def followFreely (p : Parser κ) : Nat → List (Rule κ) → State κ → Option (State κ)
  | 0, _, _ => none
  | _ + 1, [], s => some s
  | n + 1, rule :: rules, s =>
    match p.grammar.move s.current.kind rule with
    | .pass => followFreely p n rules s
    | .advance => followFreely p n rules s.advance
    | .raise code message => followFreely p n rules (s.raise p.admits code message)
    | .enter body again =>
      (followFreely p n body s).bind (followFreely p n (if again then rule :: rules else rules))

/-- With enough fuel the rules lead from `s` to `t`. -/
def FollowsFreely (p : Parser κ) (rules : List (Rule κ)) (s t : State κ) : Prop :=
  ∃ enough, ∀ n, enough ≤ n → p.followFreely n rules s = some t

namespace FollowsFreely

theorem nil (s : State κ) : p.FollowsFreely [] s s := by
  refine ⟨1, fun n hn ↦ ?_⟩
  cases n with
  | zero => omega
  | succ n => rfl

theorem step (hm : ∀ n, p.followFreely (n + 1) (rule :: rules) s = p.followFreely n more u)
    (h : p.FollowsFreely more u t) : p.FollowsFreely (rule :: rules) s t := by
  obtain ⟨enough, hall⟩ := h
  refine ⟨enough + 1, fun n hn ↦ ?_⟩
  cases n with
  | zero => omega
  | succ n => rw [hm, hall n (Nat.le_of_succ_le_succ hn)]

theorem enter {again : Bool} (hm : p.grammar.move s.current.kind rule = .enter body again)
    (hbody : p.FollowsFreely body s u)
    (h : p.FollowsFreely (if again then rule :: rules else rules) u t) :
    p.FollowsFreely (rule :: rules) s t := by
  obtain ⟨enough, hall⟩ := hbody
  obtain ⟨enough', hall'⟩ := h
  refine ⟨max enough enough' + 1, fun n hn ↦ ?_⟩
  cases n with
  | zero => omega
  | succ n =>
    rw [followFreely, hm]
    dsimp only
    rw [hall n (by omega), Option.bind_some, hall' n (by omega)]

end FollowsFreely

/-- Where every loop takes a token in each round, following without the check leads to the same
state. -/
theorem Follows.freely (hr : p.grammar.Ranked r) (htakes : p.grammar.LoopsTake n)
    (h : p.Follows rules s t) (hs : s.Watched r rules) (hplace : rules ∈ p.grammar.places) :
    p.FollowsFreely rules s t := by
  induction h using Follows.move_induction with
  | nil s => exact .nil s
  | pass hm _ ih =>
    refine .step (fun n ↦ ?_) (ih hs.tail (Grammar.places_closed hplace).1)
    rw [followFreely, hm]
  | advance hm _ ih =>
    refine .step (fun n ↦ ?_) (ih (hs.advance hm).2 (Grammar.places_closed hplace).1)
    rw [followFreely, hm]
  | raise hm _ ih =>
    refine .step (fun n ↦ ?_) (ih (hs.tail.raise p.admits _ _) (Grammar.places_closed hplace).1)
    rw [followFreely, hm]
  | @enter rule rules body again s u t hm hbody _ ihbody ih =>
    obtain ⟨hwatched, hrest⟩ := hs.enter hr hm
    have hbehind := ih (hrest u (hbody.bounded hr hwatched)) (remaining_mem_places hplace)
    refine .enter hm (ihbody hwatched (Grammar.mem_places_of_move hplace hm)) ?_
    by_cases hround : again = true ∧ u.consumed = s.consumed
    · -- the check ends the loop here, and without it the loop is not entered again
      obtain ⟨rfl, hc⟩ := hround
      obtain ⟨lookahead, rfl, hk⟩ := Grammar.eq_loop_of_enter hm
      have hnot := not_mem_of_round htakes hplace hs.bounded hk hbody hc
      rw [remaining, if_neg fun h ↦ h.2 hc] at hbehind
      rw [if_pos rfl]
      refine .step (fun n ↦ ?_) hbehind
      rw [followFreely, Grammar.move, if_neg hnot]
    · rw [remaining] at hbehind
      cases again with
      | false => simpa using hbehind
      | true =>
        rwa [if_pos ⟨rfl, fun hc ↦ hround ⟨rfl, hc⟩⟩] at hbehind

/-- A whole run without the check, with so much fuel. -/
def runFreely? (p : Parser κ) (n : Nat) (items : List (Item κ)) : Option (State κ) :=
  (p.followFreely n [.call p.grammar.start] (State.ofItems items).advance).map fun s ↦
    (s.expect p.admits TokenKind.eof).drain

theorem exists_runFreely?_eq (hr : p.grammar.Ranked r) (htakes : p.grammar.LoopsTake n)
    {items : List (Item κ)} (hitems : ∃ item ∈ items, Item.IsEnd item) :
    ∃ t, p.run? items = some t ∧ ∃ enough, ∀ m, enough ≤ m → p.runFreely? m items = some t := by
  obtain ⟨t, ht⟩ := exists_run?_eq_some hr hitems
  refine ⟨t, ht, ?_⟩
  obtain ⟨u, hu, rfl⟩ := run?_eq_some_iff.1 ht
  have hstart := State.Watched.start hr hitems
  obtain ⟨enough, hall⟩ := hu.freely hr htakes hstart (by simp [Grammar.places])
  refine ⟨enough, fun m hm ↦ ?_⟩
  rw [runFreely?, hall m hm, Option.map_some]

end Parser

end Lookahead
