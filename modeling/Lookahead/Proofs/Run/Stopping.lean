import Lookahead.Proofs.Run.Cutoff
import Lookahead.Proofs.Run.Leads
import Lookahead.Proofs.Run.Lockstep
import Lookahead.Proofs.Run.Standstill

/-!
Where a run stops reading. Loops whose bodies take the token they begin at go on as long as they may,
and then the end of the stream is expected: the run has come there, or it complains at a token that no
loop takes up and leaves what is behind it.
-/

namespace Lookahead

variable {κ : Type} [DecidableEq κ] [TokenKind κ]

/-- Whether rules that are followed at a token of this kind take it before they complain about
anything. No more than `n` places are looked at. -/
def Grammar.takes (g : Grammar κ) (k : κ) : Nat → List (Rule κ) → Bool
  | 0, _ | _, [] => false
  | n + 1, rule :: rules =>
    match g.move k rule with
    | .pass => takes g k n rules
    | .advance => true
    | .raise .. => false
    | .enter body _ => takes g k n body

/-- Rules are followed again and again, each time from a token of one of these kinds and over at least
one token. -/
inductive Parser.Rounds (p : Parser κ) (kinds : List κ) (body : List (Rule κ)) :
    State κ → State κ → Prop
  | refl (s : State κ) : Rounds p kinds body s s
  | step {s u t : State κ} (hk : s.current.kind ∈ kinds) (hbody : p.Follows body s u)
      (hlt : s.consumed < u.consumed) (hrest : Rounds p kinds body u t) : Rounds p kinds body s t

/-- The run is left with the whole stream taken, at an end token, or else with a last complaint at a
token with which it cannot go on. It makes no complaint about the tokens behind. -/
def State.Stops (tokens : List (Token κ)) (proceeds : Nat → List κ) (u t : State κ) : Prop :=
  (u.current.kind = TokenKind.eof ∧ t.consumed = tokens.length) ∨
  ∃ before after r, tokens = before ++ u.current :: after ∧ after ≠ [] ∧
    t.consumed = before.length + 1 ∧ u.current.kind ∉ TokenKind.eof :: proceeds before.length ∧
    t.raises.getLast? = some r ∧ (∀ r ∈ t.raises, r.consumed ≤ t.consumed) ∧
    r.lookahead = u.current ∧ r.code = .expected ∧
    r.message = s!"Expected {name (TokenKind.eof : κ)} but got '{name u.current.kind}'"

namespace State.Reads

omit [DecidableEq κ]

variable {tokens : List (Token κ)} {last : Token κ} {s : State κ}

theorem exists_split (h : s.Reads tokens) (hpos : 0 < s.consumed) :
    ∃ before after, tokens = before ++ s.current :: after ∧ s.consumed = before.length + 1 ∧
      s.rest = after.map .ok := by
  obtain ⟨hlt, hcurrent⟩ := List.getElem?_eq_some_iff.mp (h.current hpos)
  refine ⟨tokens.take (s.consumed - 1), tokens.drop s.consumed, ?_, ?_, h.rest⟩
  · have hdrop := List.drop_eq_getElem_cons hlt
    rw [hcurrent, Nat.sub_add_cancel hpos] at hdrop
    rw [← hdrop, List.take_append_drop]
  · rw [List.length_take_of_le (by omega), Nat.sub_add_cancel hpos]

theorem consumed_lt (h : s.Reads (tokens ++ [last])) (hpos : 0 < s.consumed)
    (htokens : ∀ t ∈ tokens, t.kind ≠ last.kind) (hk : s.current.kind ≠ last.kind) :
    s.consumed < (tokens ++ [last]).length := by
  rw [Ne, h.ended_iff hpos htokens] at hk
  rw [List.length_append, List.length_singleton]
  omega

end State.Reads

namespace Parser

variable {p : Parser κ} {rules body : List (Rule κ)} {s t : State κ} {n : Nat}

/-- Rules that take the token at which they are followed keep what is kept from behind it on. -/
theorem Follows.keeps_of_takes {P : State κ → Prop} (h : p.Follows rules s t)
    (ht : p.grammar.takes s.current.kind n rules = true) (hP : p.Keeps P) (hs : P s.advance) :
    P t := by
  induction n generalizing rules s t with
  | zero => cases ht
  | succ n ih =>
    cases rules with
    | nil => cases ht
    | cons rule rules =>
      rw [Grammar.takes] at ht
      cases hm : p.grammar.move s.current.kind rule with
      | pass =>
        rw [hm] at ht
        exact ih ((follows_of_pass hm).1 h) ht hs
      | advance => exact ((follows_of_advance hm).1 h).keeps hP hs
      | raise code message =>
        rw [hm] at ht
        cases ht
      | enter body again =>
        rw [hm] at ht
        obtain ⟨u, hu, hrest⟩ := (follows_of_enter hm).1 h
        exact hrest.keeps hP (ih hu ht hs)

theorem Follows.advance_le (h : p.Follows rules s t)
    (ht : p.grammar.takes s.current.kind n rules = true) : s.advance.consumed ≤ t.consumed := by
  by_contra hlt
  exact Nat.lt_irrefl _ (h.keeps_of_takes ht (p.keeps_consumed t.consumed) (Nat.not_le.1 hlt))

theorem Follows.exists_between {rule : Rule κ} (h : p.Follows (rule :: rules) s t) :
    ∃ u, p.Follows [rule] s u ∧ p.Follows rules u t := by
  obtain ⟨k, hk⟩ := h
  obtain ⟨u, hu, ht⟩ := follow_cons_split hk
  exact ⟨u, ⟨k, hu⟩, ⟨k, ht⟩⟩

variable {tokens : List (Token κ)} {last : Token κ} {kinds : List κ}

theorem Follows.reads (h : p.Follows rules s t) (hs : s.Reads tokens) : t.Reads tokens := by
  obtain ⟨k, hk⟩ := h
  exact (p.keepsMoves_reads tokens).follow hk hs

theorem Follows.consumed_lt (h : p.Follows rules s t) (hs : s.Reads (tokens ++ [last]))
    (hpos : 0 < s.consumed) (htokens : ∀ t ∈ tokens, t.kind ≠ last.kind) (hlast : last.kind ∉ kinds)
    (hk : s.current.kind ∈ kinds) (htakes : ∀ k ∈ kinds, p.grammar.takes k n rules = true) :
    s.consumed < t.consumed := by
  have hlt := hs.consumed_lt hpos htokens fun heq ↦ hlast (heq ▸ hk)
  have htaken := h.advance_le (htakes _ hk)
  rw [hs.consumed_advance] at htaken
  omega

/-- A loop whose rounds begin by taking a token goes on up to a token that it does not take up. -/
theorem rounds_of_follows (h : p.Follows [.loop kinds body] s t) (hs : s.Reads (tokens ++ [last]))
    (hpos : 0 < s.consumed) (htokens : ∀ t ∈ tokens, t.kind ≠ last.kind) (hlast : last.kind ∉ kinds)
    (htakes : ∀ k ∈ kinds, p.grammar.takes k n body = true) :
    p.Rounds kinds body s t ∧ t.current.kind ∉ kinds := by
  obtain ⟨m, hm⟩ := h
  induction m generalizing s with
  | zero => cases hm
  | succ m ih =>
    rw [follow_cons, Grammar.move] at hm
    split at hm
    · rename_i hk
      obtain ⟨u, hu, ht⟩ := Option.bind_eq_some_iff.1 hm
      have hbody : p.Follows body s u := ⟨m, hu⟩
      have hlt := hbody.consumed_lt hs hpos htokens hlast hk htakes
      rw [remaining, if_pos ⟨rfl, Nat.ne_of_gt hlt⟩] at ht
      obtain ⟨hrounds, hstop⟩ := ih (hbody.reads hs) (by omega) ht
      exact ⟨.step hk hbody hlt hrounds, hstop⟩
    · rename_i hk
      rw [eq_of_follow_nil hm]
      exact ⟨.refl s, hk⟩

omit [DecidableEq κ] in
theorem reads_start (tokens : List (Token κ)) (last : Token κ) :
    (State.ofItems ((tokens ++ [last]).map .ok)).advance.Reads (tokens ++ [last]) ∧
      (State.ofItems ((tokens ++ [last]).map .ok)).advance.consumed = 1 := by
  have hitems : (State.ofItems ((tokens ++ [last]).map .ok)).Reads (tokens ++ [last]) := .ofItems _
  refine ⟨hitems.advance, ?_⟩
  rw [hitems.consumed_advance]
  simp [State.ofItems]

/-- Where the start production is left the run has come to the end token, or it stops. -/
theorem stops_of_reads {u : State κ} {proceeds : Nat → List κ}
    (htokens : ∀ t ∈ tokens, t.kind ≠ TokenKind.eof) (hlast : last.kind = TokenKind.eof)
    (hreads : u.Reads (tokens ++ [last])) (hpos : 0 < u.consumed)
    (hstop : u.current.kind ∉ proceeds (u.consumed - 1)) :
    State.Stops (tokens ++ [last]) proceeds u (u.expect p.admits TokenKind.eof).drain := by
  obtain ⟨before, after, hsplit, hplace, hrest⟩ := hreads.exists_split hpos
  rw [State.Stops, State.consumed_drain, State.raises_drain]
  unfold State.expect
  split
  · rename_i hk
    left
    obtain rfl | ⟨middle, token, rfl⟩ := after.eq_nil_or_concat
    · -- the end token is the last one and stays
      rw [State.advance_of_rest_eq_nil hrest, hsplit, hplace, List.length_append]
      exact ⟨hk, rfl⟩
    · rw [List.concat_eq_append, ← List.cons_append, ← List.append_assoc] at hsplit
      refine absurd hk (htokens _ ?_)
      rw [(List.append_inj' hsplit rfl).1]
      exact List.mem_append_right _ List.mem_cons_self
  · rename_i hk
    right
    have hraises := u.raises_raise p.admits .expected
      s!"Expected {name (TokenKind.eof : κ)} but got '{name u.current.kind}'"
    refine ⟨before, after, ⟨.expected, _, u.current, u.consumed, u.sinceLast,
      p.admits u.sinceLast⟩, hsplit, ?_, hplace, ?_, ?_, ?_, rfl, rfl, rfl⟩
    · rintro rfl
      have hcurrent : [last] = [u.current] := (List.append_inj' hsplit rfl).2
      rw [← (List.cons.inj hcurrent).1] at hk
      exact hk hlast
    · rw [hplace, Nat.add_sub_cancel] at hstop
      exact List.not_mem_cons_of_ne_of_not_mem hk hstop
    · rw [hraises, List.getLast?_concat]
    · rw [hraises]
      intro r hr
      obtain hr | hr := List.mem_append.mp hr
      · exact hreads.passed r hr
      · rw [List.mem_singleton.mp hr]
        rfl

end Parser

end Lookahead
