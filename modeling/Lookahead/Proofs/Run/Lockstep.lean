import Lookahead.Proofs.Run.Cutoff

/-!
Two runs side by side. Streams that begin alike are read alike as long as the part that they share
lasts, and a stream is read alike from wherever a run that has not complained comes to it.
-/

namespace Lookahead

variable {κ : Type}

/-- What is complained about, and at which token. -/
def Raise.complaint (r : Raise κ) : Code × String × Token κ := (r.code, r.message, r.lookahead)

namespace State

/-- The same place of two streams that go on alike until `n` tokens are consumed. -/
structure Beside (n : Nat) (ahead ahead' : List (Token κ)) (s s' : State κ) : Prop where
  current : s.current = s'.current
  consumed : s.consumed = s'.consumed
  sinceLast : s.sinceLast = s'.sinceLast
  raises : s.raises = s'.raises
  failure : s.failure = none ∧ s'.failure = none
  shared : ∃ tokens, s.rest = (tokens ++ ahead).map .ok ∧ s'.rest = (tokens ++ ahead').map .ok ∧
    s.consumed + tokens.length = n

/-- The same place of one stream, to which the second run has come with `n` tokens more. -/
structure Behind (n : Nat) (s s' : State κ) : Prop where
  current : s.current = s'.current
  rest : s.rest = s'.rest
  failure : s.failure = s'.failure
  consumed : s.consumed + n = s'.consumed
  complaints : s.raises.map Raise.complaint = s'.raises.map Raise.complaint
  places : s.raises.map (·.consumed + n) = s'.raises.map Raise.consumed

variable {n : Nat} {ahead ahead' : List (Token κ)} {s s' : State κ}

theorem Beside.consumed_le (h : s.Beside n ahead ahead' s') : s.consumed ≤ n := by
  obtain ⟨tokens, -, -, hn⟩ := h.shared
  omega

theorem Beside.rest_eq (h : s.Beside n ahead ahead' s') (hn : s.consumed = n) :
    s.rest = ahead.map .ok ∧ s'.rest = ahead'.map .ok := by
  obtain ⟨tokens, hr, hr', hlength⟩ := h.shared
  have hnil : tokens = [] := List.eq_nil_of_length_eq_zero (by omega)
  subst hnil
  exact ⟨hr, hr'⟩

theorem Beside.raise (h : s.Beside n ahead ahead' s') (admits : Nat → Bool) (code : Code)
    (message : String) :
    (s.raise admits code message).Beside n ahead ahead' (s'.raise admits code message) where
  current := h.current
  consumed := h.consumed
  sinceLast := rfl
  raises := by
    rw [raises_raise, raises_raise, h.raises, h.current, h.consumed, h.sinceLast]
  failure := h.failure
  shared := h.shared

theorem Behind.raise (h : s.Behind n s') (admits admits' : Nat → Bool) (code : Code)
    (message : String) :
    (s.raise admits code message).Behind n (s'.raise admits' code message) where
  current := h.current
  rest := h.rest
  failure := h.failure
  consumed := h.consumed
  complaints := by
    simp [raises_raise, h.complaints, Raise.complaint, h.current]
  places := by
    simp [raises_raise, h.places, h.consumed]

variable [TokenKind κ]

theorem Beside.advance (h : s.Beside n ahead ahead' s') (hlt : s.consumed < n) :
    s.advance.Beside n ahead ahead' s'.advance := by
  obtain ⟨tokens, hr, hr', hn⟩ := h.shared
  have hraises := s.raises_advance
  have hraises' := s'.raises_advance
  cases tokens with
  | nil =>
    rw [List.length_nil] at hn
    omega
  | cons token tokens =>
    rw [List.length_cons] at hn
    rw [advance_ok h.failure.1 hr] at hraises ⊢
    rw [advance_ok h.failure.2 hr'] at hraises' ⊢
    exact {
      current := rfl
      consumed := by simp only [h.consumed]
      sinceLast := by simp only [h.sinceLast]
      raises := by rw [hraises, hraises', h.raises]
      failure := h.failure
      shared := ⟨tokens, rfl, rfl, by dsimp only; omega⟩ }

theorem Beside.consumed_advance (h : s.Beside n ahead ahead' s') (hne : ahead ≠ [])
    (hne' : ahead' ≠ []) :
    s.advance.consumed = s.consumed + 1 ∧ s'.advance.consumed = s'.consumed + 1 := by
  have consumed {tokens : List (Token κ)} {u : State κ} (hf : u.failure = none)
      (hr : u.rest = tokens.map .ok) (hne : tokens ≠ []) : u.advance.consumed = u.consumed + 1 := by
    obtain ⟨token, rest, rfl⟩ := List.exists_cons_of_ne_nil hne
    rw [advance_ok hf hr]
  obtain ⟨tokens, hr, hr', -⟩ := h.shared
  constructor
  · exact consumed h.failure.1 hr (List.append_ne_nil_of_right_ne_nil _ hne)
  · exact consumed h.failure.2 hr' (List.append_ne_nil_of_right_ne_nil _ hne')

theorem beside_ofItems {before : List (Token κ)} (hne : before ≠ []) :
    (ofItems ((before ++ ahead).map .ok)).advance.Beside before.length ahead ahead'
      (ofItems ((before ++ ahead').map .ok)).advance := by
  have hstart : (ofItems ((before ++ ahead).map .ok)).Beside before.length ahead ahead'
      (ofItems ((before ++ ahead').map .ok)) :=
    ⟨rfl, rfl, rfl, rfl, ⟨rfl, rfl⟩, before, rfl, rfl, Nat.zero_add _⟩
  exact hstart.advance (List.length_pos_of_ne_nil hne)

/-- A run that has not complained leaves the shared part as a run begins with what is behind it. -/
theorem Beside.behind (h : s.Beside n ahead ahead' s') (hne : ahead' ≠ []) (hn : s.consumed = n)
    (hr : s.raises = []) : (State.ofItems (ahead'.map .ok)).advance.Behind n s'.advance := by
  obtain ⟨token, rest, rfl⟩ := List.exists_cons_of_ne_nil hne
  have hraises : s'.advance.raises = [] := by rw [raises_advance, ← h.raises, hr]
  rw [advance_ok h.failure.2 (h.rest_eq hn).2] at hraises ⊢
  have hconsumed : 1 + n = s'.consumed + 1 := by rw [← h.consumed, hn, Nat.add_comm]
  exact ⟨rfl, rfl, h.failure.2.symm, hconsumed, by rw [hraises]; rfl, by rw [hraises]; rfl⟩

theorem Behind.advance (h : s.Behind n s') : s.advance.Behind n s'.advance := by
  have hcomplaints := h.complaints
  have hplaces := h.places
  have hfailure := h.failure
  have hrest := h.rest
  rw [← s.raises_advance, ← s'.raises_advance] at hcomplaints hplaces
  cases hf : s.failure with
  | some error =>
    rw [hf] at hfailure
    rwa [advance_of_failure hf, advance_of_failure hfailure.symm]
  | none =>
    rw [hf] at hfailure
    cases hr : s.rest with
    | nil =>
      rw [hr] at hrest
      rwa [advance_of_rest_eq_nil hr, advance_of_rest_eq_nil hrest.symm]
    | cons item rest =>
      rw [hr] at hrest
      cases item with
      | ok token =>
        rw [advance_ok hf hr] at hcomplaints hplaces ⊢
        rw [advance_ok hfailure.symm hrest.symm] at hcomplaints hplaces ⊢
        have hconsumed : s.consumed + 1 + n = s'.consumed + 1 := by
          rw [← h.consumed, Nat.add_right_comm]
        exact ⟨rfl, rfl, h.failure, hconsumed, hcomplaints, hplaces⟩
      | error error =>
        rw [advance_error hf hr] at hcomplaints hplaces ⊢
        rw [advance_error hfailure.symm hrest.symm] at hcomplaints hplaces ⊢
        exact ⟨rfl, rfl, rfl, h.consumed, hcomplaints, hplaces⟩

/-- With a token behind others that is of another kind than all of them, the kind of the lookahead
tells whether they have been passed. -/
theorem Reads.ended_iff {tokens : List (Token κ)} {last : Token κ} (h : s.Reads (tokens ++ [last]))
    (hpos : 0 < s.consumed) (hlast : ∀ t ∈ tokens, t.kind ≠ last.kind) :
    s.current.kind = last.kind ↔ tokens.length < s.consumed := by
  have hcurrent := h.current hpos
  by_cases hlt : tokens.length < s.consumed
  · rw [List.getElem?_append_right (by omega)] at hcurrent
    have hmem := List.mem_of_getElem? hcurrent
    simp [hlt, List.mem_singleton.1 hmem]
  · rw [List.getElem?_append_left (by omega)] at hcurrent
    have hne := hlast _ (List.mem_of_getElem? hcurrent)
    simp [hlt, hne]

theorem raises_expect_of_kind [DecidableEq κ] {admits : Nat → Bool} {kind : κ}
    (h : s.current.kind = kind) : (s.expect admits kind).raises = s.raises := by
  rw [State.expect, if_pos h, raises_advance]

theorem kind_of_raises_expect [DecidableEq κ] {admits : Nat → Bool} {kind : κ}
    (h : (s.expect admits kind).raises = []) : s.current.kind = kind := by
  by_contra hne
  rw [State.expect, if_neg hne, raises_raise] at h
  exact List.append_ne_nil_of_right_ne_nil _ (List.cons_ne_nil _ _) h

end State

variable [TokenKind κ] [DecidableEq κ]

namespace Parser

variable {n k : Nat} {ahead ahead' : List (Token κ)} {rules : List (Rule κ)} {s s' t : State κ}

omit [DecidableEq κ] in
theorem keeps_raises (p : Parser κ) : p.Keeps fun s ↦ s.raises ≠ [] where
  advance s h := s.raises_advance ▸ h
  raise s code message _ := by simp [State.raises_raise]

theorem Follows.raises_eq_nil {p : Parser κ} (h : p.Follows rules s t) (ht : t.raises = []) :
    s.raises = [] := by
  by_contra hs
  exact h.keeps p.keeps_raises hs ht

theorem Follows.consumed_le {p : Parser κ} (h : p.Follows rules s t) :
    s.consumed ≤ t.consumed := by
  by_contra hlt
  exact Nat.lt_irrefl _ (h.keeps (p.keeps_consumed t.consumed) (Nat.not_le.1 hlt))

/-- While the second run is within the part that both streams share, so is the first one. -/
theorem follow_beside {p : Parser κ} (h : p.follow k rules s = some t)
    (hs : s.Beside n ahead ahead' s') (hne : ahead ≠ []) (ht : t.consumed ≤ n) :
    ∃ t', p.follow k rules s' = some t' ∧ t.Beside n ahead ahead' t' := by
  induction k generalizing rules s s' t with
  | zero => cases h
  | succ k ih =>
    cases rules with
    | nil =>
      cases h
      exact ⟨s', rfl, hs⟩
    | cons rule rules =>
      rw [follow_cons] at h ⊢
      rw [← hs.current]
      cases hm : p.grammar.move s.current.kind rule with
      | pass =>
        rw [hm] at h
        exact ih h hs ht
      | advance =>
        rw [hm] at h
        have hle := Nat.le_trans (Follows.consumed_le ⟨k, h⟩) ht
        have hlt : s.consumed < n := by
          rcases Nat.lt_or_eq_of_le hs.consumed_le with hlt | heq
          · exact hlt
          · obtain ⟨token, rest, rfl⟩ := List.exists_cons_of_ne_nil hne
            rw [State.advance_ok hs.failure.1 (hs.rest_eq heq).1] at hle
            dsimp only at hle
            omega
        exact ih h (hs.advance hlt) ht
      | raise code message =>
        rw [hm] at h
        exact ih h (hs.raise p.admits code message) ht
      | enter body again =>
        rw [hm] at h
        obtain ⟨u, hu, ht'⟩ := Option.bind_eq_some_iff.1 h
        have hle := Nat.le_trans (Follows.consumed_le ⟨k, ht'⟩) ht
        obtain ⟨u', hu', hb⟩ := ih hu hs hle
        obtain ⟨t', hend, hb'⟩ := ih ht' hb ht
        refine ⟨t', ?_, hb'⟩
        have hsame : remaining rule rules again s' u' = remaining rule rules again s u := by
          unfold remaining
          rw [hs.consumed, hb.consumed]
        simp only [followMove, hu', Option.bind_some]
        rw [hsame, hend]

omit [DecidableEq κ] in
theorem simulates_behind (p q : Parser κ) (n : Nat) : p.Simulates q (State.Behind n) where
  kind h := congrArg Token.kind h.current
  consumed h h' := by
    have hs := h.consumed
    have ht := h'.consumed
    omega
  advance h := h.advance
  raise code message h := h.raise p.admits q.admits code message

end Parser

end Lookahead
