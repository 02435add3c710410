import Lookahead.Proofs.Run.Leads
import Lookahead.Proofs.Run.Standstill

/-!
Stretches of rules one behind the other. A rule that is entered stands for its body in front of what
is behind it, so a run can be told by the rules that are left to follow.
-/

namespace Lookahead.Parser

variable {κ : Type} [DecidableEq κ] [TokenKind κ] {p : Parser κ} {rule : Rule κ}
  {front rules body : List (Rule κ)} {s t u : State κ}

/-- To show something of everything that is followed to its end, show it for each kind of move,
given that it holds of what is followed within the move and behind it. -/
@[elab_as_elim]
theorem Follows.move_induction
    {motive : ∀ (rules : List (Rule κ)) (s t : State κ), p.Follows rules s t → Prop}
    (nil : ∀ s, motive [] s s (follows_nil.2 rfl))
    (pass : ∀ {rule rules s t} (hm : p.grammar.move s.current.kind rule = .pass)
      (h : p.Follows rules s t), motive rules s t h →
      motive (rule :: rules) s t ((follows_of_pass hm).2 h))
    (advance : ∀ {rule rules s t} (hm : p.grammar.move s.current.kind rule = .advance)
      (h : p.Follows rules s.advance t), motive rules s.advance t h →
      motive (rule :: rules) s t ((follows_of_advance hm).2 h))
    (raise : ∀ {rule rules s t code message}
      (hm : p.grammar.move s.current.kind rule = .raise code message)
      (h : p.Follows rules (s.raise p.admits code message) t), motive rules _ t h →
      motive (rule :: rules) s t ((follows_of_raise hm).2 h))
    (enter : ∀ {rule rules body again s u t}
      (hm : p.grammar.move s.current.kind rule = .enter body again) (hbody : p.Follows body s u)
      (h : p.Follows (remaining rule rules again s u) u t), motive body s u hbody →
      motive _ u t h → motive (rule :: rules) s t ((follows_of_enter hm).2 ⟨u, hbody, h⟩))
    (h : p.Follows rules s t) : motive rules s t h := by
  obtain ⟨n, hn⟩ := h
  induction n generalizing rules s t with
  | zero => cases hn
  | succ n ih =>
    cases rules with
    | nil =>
      cases hn
      exact nil s
    | cons rule rules =>
      rw [follow_cons] at hn
      cases hm : p.grammar.move s.current.kind rule with
      | pass =>
        rw [hm] at hn
        exact pass hm ⟨n, hn⟩ (ih hn)
      | advance =>
        rw [hm] at hn
        exact advance hm ⟨n, hn⟩ (ih hn)
      | raise code message =>
        rw [hm] at hn
        exact raise hm ⟨n, hn⟩ (ih hn)
      | enter body again =>
        rw [hm] at hn
        obtain ⟨u, hu, hn⟩ := Option.bind_eq_some_iff.1 hn
        exact enter hm ⟨n, hu⟩ ⟨n, hn⟩ (ih hu) (ih hn)

omit [DecidableEq κ] [TokenKind κ] in
theorem remaining_append (rule : Rule κ) (front rules : List (Rule κ)) (again : Bool)
    (s t : State κ) :
    remaining rule (front ++ rules) again s t = remaining rule front again s t ++ rules := by
  unfold remaining
  split <;> rfl

theorem Follows.append (h : p.Follows front s u) (h' : p.Follows rules u t) :
    p.Follows (front ++ rules) s t := by
  induction h using Follows.move_induction with
  | nil => exact h'
  | pass hm _ ih => exact (follows_of_pass hm).2 (ih h')
  | advance hm _ ih => exact (follows_of_advance hm).2 (ih h')
  | raise hm _ ih => exact (follows_of_raise hm).2 (ih h')
  | enter hm hbody _ _ ih =>
    have hrest := ih h'
    rw [← remaining_append] at hrest
    exact (follows_of_enter hm).2 ⟨_, hbody, hrest⟩

theorem follows_append :
    p.Follows (front ++ rules) s t ↔ ∃ u, p.Follows front s u ∧ p.Follows rules u t := by
  constructor
  · intro h
    induction front generalizing s with
    | nil => exact ⟨s, follows_nil.2 rfl, h⟩
    | cons rule front ih =>
      obtain ⟨n, hn⟩ := h
      obtain ⟨v, hv, hn⟩ := follow_cons_split hn
      obtain ⟨u, hu, ht⟩ := ih ⟨n, hn⟩
      exact ⟨u, Follows.append ⟨n, hv⟩ hu, ht⟩
  · rintro ⟨u, hu, ht⟩
    exact hu.append ht

theorem follows_cons :
    p.Follows (rule :: rules) s t ↔ ∃ u, p.Follows [rule] s u ∧ p.Follows rules u t := by
  rw [← List.singleton_append, follows_append]

/-- What is entered once is followed before the rules behind it. -/
theorem follows_enter (h : p.grammar.move s.current.kind rule = .enter body false) :
    p.Follows (rule :: rules) s t ↔ p.Follows (body ++ rules) s t := by
  rw [follows_of_enter h, follows_append]
  simp [remaining]

/-- A round of a loop that consumes something comes back to the loop. -/
theorem follows_round (h : p.grammar.move s.current.kind rule = .enter body true)
    (hlt : ∀ u, p.Follows body s u → s.consumed < u.consumed) :
    p.Follows (rule :: rules) s t ↔ p.Follows (body ++ rule :: rules) s t := by
  rw [follows_of_enter h, follows_append]
  refine exists_congr fun u ↦ and_congr_right fun hu ↦ ?_
  rw [remaining, if_pos ⟨rfl, Nat.ne_of_gt (hlt u hu)⟩]

/-- A run is the start production, the end of input and then what is left of the stream. -/
theorem run?_eq_some_iff_follows {items : List (Item κ)} :
    p.run? items = some t ↔
      ∃ u, p.Follows [.call p.grammar.start, .expect TokenKind.eof]
        (State.ofItems items).advance u ∧ t = u.drain := by
  rw [run?_eq_some_iff]
  constructor
  · rintro ⟨u, hu, rfl⟩
    exact ⟨_, hu.append (follows_expect.2 (follows_nil.2 rfl)), rfl⟩
  · rintro ⟨v, hv, rfl⟩
    obtain ⟨u, hu, hv⟩ := follows_cons.1 hv
    exact ⟨u, hu, congrArg State.drain (follows_nil.1 (follows_expect.1 hv))⟩

end Lookahead.Parser
