import Lookahead.Proofs.Run.Move

/-!
What a run keeps. A state changes only by pulling an item and by complaining, so whatever these two
keep is kept by every stretch of rules, and a relation between states that they keep is kept by two
runs side by side, as long as both make the same moves.
-/

namespace Lookahead

variable {κ : Type}

namespace Parser

variable [DecidableEq κ] [TokenKind κ]

/-- Kept by pulling and by the complaints that rules make. -/
structure KeepsMoves (p : Parser κ) (P : State κ → Prop) : Prop where
  advance : ∀ s, P s → P s.advance
  raise : ∀ s rule code message, p.grammar.move s.current.kind rule = .raise code message → P s →
    P (s.raise p.admits code message)

theorem KeepsMoves.expect {p : Parser κ} {P : State κ → Prop} (hP : p.KeepsMoves P) {s : State κ}
    (hs : P s) (kind : κ) : P (s.expect p.admits kind) := by
  unfold State.expect
  split
  · exact hP.advance s hs
  · rename_i hk
    exact hP.raise s (.expect kind) _ _ (if_neg hk) hs

theorem KeepsMoves.follow {p : Parser κ} {P : State κ → Prop} (hP : p.KeepsMoves P) {n : Nat}
    {rules : List (Rule κ)} {s t : State κ} (h : p.follow n rules s = some t) (hs : P s) : P t := by
  induction n generalizing rules s t with
  | zero => cases h
  | succ n ih =>
    cases rules with
    | nil =>
      cases h
      exact hs
    | cons rule rules =>
      rw [follow_cons] at h
      cases hm : p.grammar.move s.current.kind rule with
      | pass =>
        rw [hm] at h
        exact ih h hs
      | advance =>
        rw [hm] at h
        exact ih h (hP.advance s hs)
      | raise code message =>
        rw [hm] at h
        exact ih h (hP.raise s rule code message hm hs)
      | enter body again =>
        rw [hm] at h
        obtain ⟨u, hu, ht⟩ := Option.bind_eq_some_iff.1 h
        exact ih ht (ih hu hs)

structure Keeps (p : Parser κ) (P : State κ → Prop) : Prop where
  advance : ∀ s, P s → P s.advance
  raise : ∀ s code message, P s → P (s.raise p.admits code message)

theorem Keeps.moves {p : Parser κ} {P : State κ → Prop} (hP : p.Keeps P) : p.KeepsMoves P where
  advance := hP.advance
  raise s _ code message _ := hP.raise s code message

theorem Keeps.expect {p : Parser κ} {P : State κ → Prop} (hP : p.Keeps P) {s : State κ} (hs : P s)
    (kind : κ) : P (s.expect p.admits kind) := hP.moves.expect hs kind

theorem Keeps.follow {p : Parser κ} {P : State κ → Prop} (hP : p.Keeps P) {n : Nat}
    {rules : List (Rule κ)} {s t : State κ} (h : p.follow n rules s = some t) (hs : P s) : P t :=
  hP.moves.follow h hs

theorem Follows.keeps {p : Parser κ} {P : State κ → Prop} {rules : List (Rule κ)} {s t : State κ}
    (h : p.Follows rules s t) (hP : p.Keeps P) (hs : P s) : P t := by
  obtain ⟨n, hn⟩ := h
  exact hP.follow hn hs

/-- Two parsers that go on in the same way from related states. Only whether something was consumed
between two states is ever asked, so a constant difference in the counts does no harm. -/
structure Simulates (p q : Parser κ) (R : State κ → State κ → Prop) : Prop where
  kind : ∀ {s s'}, R s s' → s.current.kind = s'.current.kind
  consumed : ∀ {s s' t t'}, R s s' → R t t' →
    (t.consumed = s.consumed ↔ t'.consumed = s'.consumed)
  advance : ∀ {s s'}, R s s' → R s.advance s'.advance
  raise : ∀ {s s'} code message, R s s' →
    R (s.raise p.admits code message) (s'.raise q.admits code message)

theorem Simulates.follow {p q : Parser κ} {R : State κ → State κ → Prop} (hR : Simulates p q R)
    (hg : p.grammar = q.grammar) {n : Nat} {rules : List (Rule κ)} {s s' t : State κ}
    (h : p.follow n rules s = some t) (hs : R s s') :
    ∃ t', q.follow n rules s' = some t' ∧ R t t' := by
  induction n generalizing rules s s' t with
  | zero => cases h
  | succ n ih =>
    cases rules with
    | nil =>
      cases h
      exact ⟨s', rfl, hs⟩
    | cons rule rules =>
      rw [follow_cons] at h ⊢
      rw [← hg, ← hR.kind hs]
      cases hm : p.grammar.move s.current.kind rule with
      | pass =>
        rw [hm] at h
        exact ih h hs
      | advance =>
        rw [hm] at h
        exact ih h (hR.advance hs)
      | raise code message =>
        rw [hm] at h
        exact ih h (hR.raise code message hs)
      | enter body again =>
        rw [hm] at h
        obtain ⟨u, hu, ht⟩ := Option.bind_eq_some_iff.1 h
        obtain ⟨u', hu', hr⟩ := ih hu hs
        obtain ⟨t', ht', hr'⟩ := ih ht hr
        refine ⟨t', ?_, hr'⟩
        simp only [followMove, hu', Option.bind_some]
        rw [← ht']
        congr 1
        unfold remaining
        simp only [ne_eq, hR.consumed hs hr]

theorem Simulates.expect {p q : Parser κ} {R : State κ → State κ → Prop} (hR : Simulates p q R)
    {s s' : State κ} (hs : R s s') (kind : κ) :
    R (s.expect p.admits kind) (s'.expect q.admits kind) := by
  unfold State.expect
  rw [← hR.kind hs]
  split
  · exact hR.advance hs
  · exact hR.raise _ _ hs

end Parser

namespace State

variable [TokenKind κ] {s : State κ} {rest : List (Item κ)}

theorem advance_ok {token : Token κ} (hf : s.failure = none) (hr : s.rest = .ok token :: rest) :
    s.advance = { s with
      current := token
      rest
      consumed := s.consumed + 1
      sinceLast := s.sinceLast + 1
      log := .pulled :: s.log } := by
  simp only [State.advance, hf, hr]

theorem advance_error {error : LexError} (hf : s.failure = none)
    (hr : s.rest = .error error :: rest) :
    s.advance = { s with
      current := .endOfInput error.position
      rest
      failure := some error
      log := .pulled :: s.log } := by
  simp only [State.advance, hf, hr]

theorem advance_of_rest_eq_nil (hr : s.rest = []) : s.advance = s := by
  unfold State.advance
  cases hf : s.failure <;> simp only [hr]

theorem advance_of_failure {error : LexError} (hf : s.failure = some error) : s.advance = s := by
  simp only [State.advance, hf]

/-! ### The complaints made so far -/

theorem raises_advance (s : State κ) : s.advance.raises = s.raises := by
  cases hf : s.failure with
  | some error => rw [advance_of_failure hf]
  | none =>
    cases hr : s.rest with
    | nil => rw [advance_of_rest_eq_nil hr]
    | cons item rest =>
      cases item with
      | ok token => simp [advance_ok hf hr, raises, Entry.raise?]
      | error error => simp [advance_error hf hr, raises, Entry.raise?]

omit [TokenKind κ] in
theorem raises_raise (s : State κ) (admits : Nat → Bool) (code : Code) (message : String) :
    (s.raise admits code message).raises =
      s.raises ++ [⟨code, message, s.current, s.consumed, s.sinceLast, admits s.sinceLast⟩] := by
  simp [raise, raises, Entry.raise?]

omit [TokenKind κ] in
theorem drain_go (s : State κ) (log : List (Entry κ)) (items : List (Item κ)) :
    (drain.go s log items).consumed = s.consumed ∧
      (drain.go s log items).log.reverse.filterMap Entry.raise? =
        log.reverse.filterMap Entry.raise? := by
  induction items generalizing log with
  | nil => exact ⟨rfl, rfl⟩
  | cons item items ih =>
    cases item with
    | ok token =>
      obtain ⟨hc, hr⟩ := ih (.pulled :: log)
      exact ⟨hc, hr.trans (by simp [Entry.raise?])⟩
    | error error => exact ⟨rfl, by simp [drain.go, Entry.raise?]⟩

omit [TokenKind κ] in
theorem raises_drain (s : State κ) : s.drain.raises = s.raises := by
  unfold drain
  split
  · rfl
  · exact (s.drain_go s.log s.rest).2

omit [TokenKind κ] in
theorem consumed_drain (s : State κ) : s.drain.consumed = s.consumed := by
  unfold drain
  split
  · rfl
  · exact (s.drain_go s.log s.rest).1

end State

/-- States that differ at most in what was said about complaints. -/
structure State.Alike (s t : State κ) : Prop where
  current : s.current = t.current
  rest : s.rest = t.rest
  consumed : s.consumed = t.consumed
  failure : s.failure = t.failure

variable [TokenKind κ]

theorem State.Alike.advance {s t : State κ} (h : s.Alike t) : s.advance.Alike t.advance := by
  obtain ⟨hc, hr, hn, hf⟩ := h
  unfold State.advance
  rw [← hf, ← hr]
  split
  · exact ⟨hc, hr, hn, hf⟩
  · exact ⟨hc, hr, hn, hf⟩
  · exact ⟨rfl, rfl, by simp only [hn], rfl⟩
  · exact ⟨rfl, rfl, hn, rfl⟩

theorem Parser.simulates_alike [DecidableEq κ] (p q : Parser κ) : p.Simulates q State.Alike where
  kind h := congrArg Token.kind h.current
  consumed h h' := by rw [h.consumed, h'.consumed]
  advance := State.Alike.advance
  raise _ _ h := ⟨h.current, h.rest, h.consumed, h.failure⟩

end Lookahead
