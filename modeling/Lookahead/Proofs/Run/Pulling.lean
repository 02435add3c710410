import Lookahead.Proofs.Language.Ranking
import Lookahead.Proofs.Run.Suppression

/-!
What a run pulls from its stream. Items are pulled in order up to the first lexical error, which is
the answer of the parse, and without one up to the end.
-/

namespace Lookahead

variable {κ : Type}

def Entry.isPulled : Entry κ → Bool
  | pulled => true
  | raised _ => false

theorem countP_pulled_cons (log : List (Entry κ)) :
    (.pulled :: log).countP Entry.isPulled = log.countP Entry.isPulled + 1 :=
  List.countP_cons_of_pos rfl

/-- Items up to the first error can be divided in one way only. -/
theorem append_error_inj {before before' : List (Token κ)} {error error' : LexError}
    {after after' : List (Item κ)}
    (h : before.map .ok ++ .error error :: after = before'.map .ok ++ .error error' :: after') :
    before = before' ∧ error = error' ∧ after = after' := by
  induction before generalizing before' with
  | nil =>
    cases before' with
    | nil => simpa using h
    | cons token before' => simp at h
  | cons token before ih =>
    cases before' with
    | nil => simp at h
    | cons token' before' =>
      simp only [List.map_cons, List.cons_append, List.cons.injEq, Except.ok.injEq] at h
      obtain ⟨hb, he, ha⟩ := ih h.2
      exact ⟨by rw [h.1, hb], he, ha⟩

theorem map_ok_ne_append_error {tokens before : List (Token κ)} {error : LexError}
    {after : List (Item κ)} : tokens.map .ok ≠ before.map .ok ++ .error error :: after := by
  intro h
  have hmem : .error error ∈ tokens.map (Except.ok (ε := LexError)) := by simp [h]
  simp at hmem

theorem exists_append_error {items : List (Item κ)} (h : ∃ error, .error error ∈ items) :
    ∃ (before : List (Token κ)) (error : LexError) (after : List (Item κ)),
      items = before.map .ok ++ .error error :: after := by
  induction items with
  | nil => simp at h
  | cons item items ih =>
    cases item with
    | error error => exact ⟨[], error, items, rfl⟩
    | ok token =>
      obtain ⟨before, error, after, rfl⟩ := ih (by simpa using h)
      exact ⟨token :: before, error, after, rfl⟩

namespace State

def pulls (s : State κ) : Nat := s.log.countP Entry.isPulled

/-- The tokens that were pulled from a stream, perhaps an error behind them, and what is left. -/
structure Pulled (items : List (Item κ)) (tokens : List (Token κ)) (s : State κ) : Prop where
  split : items = tokens.map .ok ++ (s.failure.toList.map .error ++ s.rest)
  pulls : s.pulls = tokens.length + s.failure.toList.length

variable {items : List (Item κ)} {tokens : List (Token κ)} {s : State κ}

theorem Pulled.advance [TokenKind κ] (h : s.Pulled items tokens) :
    ∃ tokens', s.advance.Pulled items tokens' := by
  obtain ⟨hsplit, hpulls⟩ := h
  cases hf : s.failure with
  | some error =>
    rw [advance_of_failure hf]
    exact ⟨tokens, hsplit, hpulls⟩
  | none =>
    cases hr : s.rest with
    | nil =>
      rw [advance_of_rest_eq_nil hr]
      exact ⟨tokens, hsplit, hpulls⟩
    | cons item rest =>
      rw [hf, hr] at hsplit
      rw [hf, State.pulls] at hpulls
      cases item with
      | ok token =>
        rw [advance_ok hf hr]
        refine ⟨tokens ++ [token], ?_, ?_⟩
        · simpa [hf] using hsplit
        · simpa [State.pulls, countP_pulled_cons, hf] using hpulls
      | error error =>
        rw [advance_error hf hr]
        refine ⟨tokens, ?_, ?_⟩
        · simpa using hsplit
        · simpa [State.pulls, countP_pulled_cons] using hpulls

theorem exists_pulled_drain_go (hf : s.failure = none) {log : List (Entry κ)}
    {rest : List (Item κ)} (hsplit : items = tokens.map .ok ++ rest)
    (hpulls : log.countP Entry.isPulled = tokens.length) :
    ∃ tokens', (drain.go s log rest).Pulled items tokens' ∧
      ((drain.go s log rest).failure = none → (drain.go s log rest).rest = []) := by
  induction rest generalizing tokens log with
  | nil =>
    refine ⟨tokens, ⟨?_, ?_⟩, fun _ ↦ rfl⟩
    · simpa [drain.go, hf] using hsplit
    · simpa [drain.go, hf, State.pulls] using hpulls
  | cons item rest ih =>
    cases item with
    | ok token =>
      have hsplit : items = (tokens ++ [token]).map .ok ++ rest := by simpa using hsplit
      apply ih hsplit
      simpa [countP_pulled_cons] using hpulls
    | error error =>
      refine ⟨tokens, ⟨?_, ?_⟩, ?_⟩
      · simpa [drain.go] using hsplit
      · simpa [drain.go, State.pulls, countP_pulled_cons] using hpulls
      · intro hnone
        cases hnone

/-- When the rest is pulled too, nothing of it is left unless there is an error in it. -/
theorem Pulled.drain (h : s.Pulled items tokens) :
    ∃ tokens', s.drain.Pulled items tokens' ∧ (s.drain.failure = none → s.drain.rest = []) := by
  unfold State.drain
  cases hf : s.failure with
  | some error =>
    refine ⟨tokens, h, ?_⟩
    intro hnone
    rw [hf] at hnone
    cases hnone
  | none =>
    apply exists_pulled_drain_go hf
    · simpa [hf] using h.split
    · simpa [hf, State.pulls] using h.pulls

/-- If there is an error, it is the first one that ends the pulling. -/
theorem Pulled.of_error {before : List (Token κ)} {error : LexError} {after : List (Item κ)}
    (h : s.Pulled (before.map .ok ++ .error error :: after) tokens)
    (hdrained : s.failure = none → s.rest = []) :
    s.failure = some error ∧ tokens = before ∧ s.rest = after := by
  have hsplit := h.split
  cases hf : s.failure with
  | none =>
    rw [hf, hdrained hf] at hsplit
    exact absurd (by simpa using hsplit.symm) map_ok_ne_append_error
  | some error' =>
    rw [hf] at hsplit
    obtain ⟨rfl, rfl, rfl⟩ := append_error_inj hsplit
    exact ⟨rfl, rfl, rfl⟩

end State

variable [DecidableEq κ] [TokenKind κ]

omit [DecidableEq κ] in
theorem Parser.keeps_pulled (p : Parser κ) (items : List (Item κ)) :
    p.Keeps fun s ↦ ∃ tokens, s.Pulled items tokens where
  advance s h := by
    obtain ⟨tokens, h⟩ := h
    exact h.advance
  raise s code message h := by
    obtain ⟨tokens, h⟩ := h
    exact ⟨tokens, h.split, h.pulls⟩

theorem Parser.pulled_of_run? {p : Parser κ} {items : List (Item κ)} {t : State κ}
    (h : p.run? items = some t) :
    ∃ tokens, t.Pulled items tokens ∧ (t.failure = none → t.rest = []) := by
  obtain ⟨u, hu, rfl⟩ := run?_eq_some_iff.1 h
  have hkeeps := p.keeps_pulled items
  have hstart : (State.ofItems items).Pulled items [] := ⟨rfl, rfl⟩
  have hend := hu.keeps hkeeps (hkeeps.advance _ ⟨[], hstart⟩)
  obtain ⟨tokens, hlast⟩ := hkeeps.expect hend TokenKind.eof
  exact hlast.drain

/-- The result of a run is the error that comes first in the stream, if there is any. -/
theorem Parser.result_eq_error_iff {p : Parser κ} {items : List (Item κ)} {t : State κ}
    (h : p.run? items = some t) (error : LexError) :
    t.result = .error error ↔ ∃ (before : List (Token κ)) (after : List (Item κ)),
      items = before.map .ok ++ .error error :: after := by
  obtain ⟨pulled, hp, hdrained⟩ := pulled_of_run? h
  unfold State.result
  constructor
  · intro he
    cases hf : t.failure with
    | none => simp [hf] at he
    | some error' =>
      have hsame : error' = error := by simpa [hf] using he
      have hsplit := hp.split
      rw [hf, hsame] at hsplit
      exact ⟨pulled, t.rest, hsplit⟩
  · intro he
    obtain ⟨before, after, rfl⟩ := he
    rw [(hp.of_error hdrained).1]

/-- A parse answers a lexical error if and only if the stream has one, and then the first. Nothing
behind that is pulled. Without one it answers the diagnostics of the tokens. -/
theorem Grammar.first_error_wins (g : Grammar κ) (items : List (Item κ))
    (h : ¬ g.parser.Endless items) :
    ((∃ error, g.parser.parse? items = some (.error error)) ↔ ∃ error, .error error ∈ items) ∧
    (∀ error, g.parser.parse? items = some (.error error) ↔
      ∃ (before : List (Token κ)) (after : List (Item κ)),
        items = before.map .ok ++ .error error :: after) ∧
    (∀ (before : List (Token κ)) (error : LexError) (after : List (Item κ)),
      items = before.map .ok ++ .error error :: after →
      ∃ t, g.parser.run? items = some t ∧ t.pulls = before.length + 1 ∧ t.rest = after) ∧
    (∀ tokens, items = tokens.map .ok → ∃ diagnostics,
      g.parser.parseTokens? tokens = some diagnostics ∧
        g.parser.parse? items = some (.ok diagnostics)) := by
  rw [← Parser.run?_eq_none_iff] at h
  obtain ⟨t, ht⟩ := Option.ne_none_iff_exists'.1 h
  obtain ⟨pulled, hp, hdrained⟩ := Parser.pulled_of_run? ht
  have hanswer (error : LexError) : g.parser.parse? items = some (.error error) ↔
      ∃ (before : List (Token κ)) (after : List (Item κ)),
        items = before.map .ok ++ .error error :: after := by
    rw [← Parser.result_eq_error_iff ht, Parser.parse?, ht, Option.map_some, Option.some.injEq]
  refine ⟨?_, hanswer, ?_, ?_⟩
  · constructor
    · intro he
      obtain ⟨error, he⟩ := he
      obtain ⟨before, after, rfl⟩ := (hanswer error).1 he
      exact ⟨error, by simp⟩
    · intro he
      obtain ⟨before, error, after, hsplit⟩ := exists_append_error he
      exact ⟨error, (hanswer error).2 ⟨before, after, hsplit⟩⟩
  · intro before error after he
    subst he
    obtain ⟨hf, rfl, rfl⟩ := hp.of_error hdrained
    refine ⟨t, ht, ?_, rfl⟩
    rw [hp.pulls, hf]
    rfl
  · intro tokens he
    subst he
    refine ⟨t.diagnostics, ?_, Parser.parse?_map_ok ht⟩
    rw [Parser.parseTokens?, ht, Option.map_some]

/-- A lexical error in the middle of a loop with another one behind it, and one behind the token at
which the parse stops. -/
theorem Imperative.first_error_wins_twice :
    (∃ t, grammar.parser.run? [.ok ⟨.doWord, "do", ⟨1, 2⟩⟩, .error ⟨⟨1, 3⟩, 2⟩,
        .ok ⟨.blockBegin, "\x7b", ⟨1, 5⟩⟩, .error ⟨⟨1, 6⟩, 5⟩] = some t ∧ t.pulls = 2 ∧
      t.rest = [.ok ⟨.blockBegin, "\x7b", ⟨1, 5⟩⟩, .error ⟨⟨1, 6⟩, 5⟩]) ∧
    grammar.parser.parse? [.ok ⟨.number, "1", ⟨1, 1⟩⟩, .ok ⟨.number, "2", ⟨1, 3⟩⟩,
      .error ⟨⟨1, 4⟩, 4⟩] = some (.error ⟨⟨1, 4⟩, 4⟩) := by
  have hends {items : List (Item Kind)} (h : ∃ item ∈ items, Item.IsEnd item) :
      ¬ grammar.parser.Endless items := by
    obtain ⟨t, ht⟩ := Parser.exists_run?_eq_some (p := grammar.parser) ranked h
    rw [← Parser.run?_eq_none_iff, ht]
    simp
  constructor
  · refine (grammar.first_error_wins _ (hends ?_)).2.2.1 [⟨.doWord, "do", ⟨1, 2⟩⟩] ⟨⟨1, 3⟩, 2⟩ _ rfl
    exact ⟨_, .tail _ (.head _), trivial⟩
  · refine ((grammar.first_error_wins _ (hends ?_)).2.1 ⟨⟨1, 4⟩, 4⟩).2 ?_
    · exact ⟨_, .tail _ (.tail _ (.head _)), trivial⟩
    · exact ⟨[⟨.number, "1", ⟨1, 1⟩⟩, ⟨.number, "2", ⟨1, 3⟩⟩], [], rfl⟩

end Lookahead
