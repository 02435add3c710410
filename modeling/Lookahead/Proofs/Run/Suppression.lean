import Lookahead.Language.Imperative
import Lookahead.Proofs.Run.Failure

/-!
Suppression is a filter. Whether a complaint is recorded changes nothing else in a run, and which
complaints are recorded can be told afterwards from the places of all of them.
-/

namespace Lookahead

variable {κ : Type}

/-- The complaints made more than a window behind the complaint before them, of which the first has
`last` before it. -/
def spaced (last : Nat) : List (Raise κ) → List (Raise κ)
  | [] => []
  | r :: raises =>
    if last + suppressionWindow < r.consumed then r :: spaced r.consumed raises
    else spaced r.consumed raises

theorem spaced_append (last : Nat) (raises raises' : List (Raise κ)) :
    spaced last (raises ++ raises') =
      spaced last raises ++ spaced ((raises.map Raise.consumed).getLastD last) raises' := by
  induction raises generalizing last with
  | nil => rfl
  | cons r raises ih =>
    rw [List.cons_append, spaced, spaced, ih, List.map_cons, List.getLastD_cons]
    split <;> rfl

def Raise.reveal (r : Raise κ) : Raise κ := { r with recorded := true }

def Entry.reveal : Entry κ → Entry κ
  | pulled => pulled
  | raised r => raised r.reveal

theorem Entry.raise?_reveal (e : Entry κ) : e.reveal.raise? = e.raise?.map Raise.reveal := by
  cases e <;> rfl

namespace State

/-- The state with every complaint recorded. -/
def reveal (s : State κ) : State κ := { s with log := s.log.map Entry.reveal }

theorem raises_reveal (s : State κ) : s.reveal.raises = s.raises.map Raise.reveal := by
  simp only [raises, reveal, ← List.map_reverse, List.filterMap_map, List.map_filterMap]
  congr 1
  funext e
  exact e.raise?_reveal

theorem diagnostics_reveal (s : State κ) :
    s.reveal.diagnostics = s.raises.map Raise.diagnostic := by
  rw [diagnostics, raises_reveal, List.filter_eq_self.2, List.map_map]
  · rfl
  · simp [Raise.reveal]

theorem drain_reveal (s : State κ) : s.reveal.drain = s.drain.reveal := by
  have hgo (log : List (Entry κ)) (items : List (Item κ)) :
      drain.go s.reveal (log.map Entry.reveal) items = (drain.go s log items).reveal := by
    induction items generalizing log with
    | nil => rfl
    | cons item items ih =>
      cases item with
      | ok token => exact ih (.pulled :: log)
      | error error => rfl
  unfold drain
  cases hf : s.failure with
  | some error => simp [reveal, hf]
  | none =>
    have hf' : s.reveal.failure = none := hf
    simp only [hf']
    exact hgo s.log s.rest

variable [TokenKind κ]

theorem advance_reveal (s : State κ) : s.reveal.advance = s.advance.reveal := by
  cases hf : s.failure with
  | some error =>
    rw [advance_of_failure hf, advance_of_failure (s := s.reveal) hf]
  | none =>
    cases hr : s.rest with
    | nil => rw [advance_of_rest_eq_nil hr, advance_of_rest_eq_nil (s := s.reveal) hr]
    | cons item rest =>
      cases item with
      | ok token => rw [advance_ok hf hr, advance_ok (s := s.reveal) hf hr]; rfl
      | error error => rw [advance_error hf hr, advance_error (s := s.reveal) hf hr]; rfl

end State

namespace Parser

def unsuppressed (p : Parser κ) : Parser κ := { p with admits := fun _ ↦ true }

variable [TokenKind κ]

theorem simulates_unsuppressed (p : Parser κ) :
    p.Simulates p.unsuppressed fun s s' ↦ s' = s.reveal where
  kind h := h ▸ rfl
  consumed h h' := by rw [h, h']; rfl
  advance h := by rw [h, State.advance_reveal]
  raise _ _ h := h ▸ rfl

theorem run?_unsuppressed [DecidableEq κ] {p : Parser κ} {items : List (Item κ)} {t : State κ}
    (h : p.run? items = some t) :
    p.unsuppressed.run? items = some t.reveal := by
  obtain ⟨u, hu, rfl⟩ := Option.map_eq_some_iff.1 h
  have hR := p.simulates_unsuppressed
  have hstart : (State.ofItems items).advance = ((State.ofItems items).advance).reveal :=
    State.advance_reveal (State.ofItems items)
  obtain ⟨u', hu', hr⟩ := hR.follow rfl hu hstart
  refine Option.map_eq_some_iff.2 ⟨u', hu', ?_⟩
  rw [hR.expect hr TokenKind.eof, State.drain_reveal]

end Parser

/-- The tally of a parse agrees with the complaints it made. -/
structure State.Tallied (s : State κ) : Prop where
  consumed : s.consumed = (s.raises.map Raise.consumed).getLastD 0 + s.sinceLast
  recorded : s.raises.filter (·.recorded) = spaced 0 s.raises

def Grammar.parser (g : Grammar κ) : Parser κ := { grammar := g }

namespace Grammar

variable [TokenKind κ]

/-- How far a complaint stands behind the one before it is what has been counted since. -/
theorem keeps_tallied (g : Grammar κ) : g.parser.Keeps State.Tallied where
  advance s h := by
    have hc : s.advance.consumed + s.sinceLast = s.consumed + s.advance.sinceLast := by
      unfold State.advance
      split
      · rfl
      · rfl
      · dsimp only
        omega
      · rfl
    constructor
    · have hs := h.consumed
      rw [s.raises_advance]
      omega
    · rw [s.raises_advance]
      exact h.recorded
  raise s code message h := by
    have hr := s.raises_raise g.parser.admits code message
    have hc := h.consumed
    constructor
    · rw [hr]
      simp [State.raise]
    · have hwindow : suppressionWindow < s.sinceLast ↔
          (s.raises.map Raise.consumed).getLastD 0 + suppressionWindow < s.consumed := by omega
      rw [hr, List.filter_append, spaced_append, h.recorded]
      simp only [spaced, parser, List.filter_cons, List.filter_nil, decide_eq_true_eq, hwindow]

variable [DecidableEq κ] {g : Grammar κ} {items : List (Item κ)} {t : State κ}

theorem diagnostics_eq_spaced (h : g.parser.run? items = some t) :
    t.diagnostics = (spaced 0 t.raises).map Raise.diagnostic := by
  obtain ⟨u, hu, rfl⟩ := Parser.run?_eq_some_iff.1 h
  have hstart : (State.ofItems items).Tallied := ⟨rfl, rfl⟩
  have hend := hu.keeps g.keeps_tallied (g.keeps_tallied.advance _ hstart)
  have hlast := (g.keeps_tallied.expect hend TokenKind.eof).recorded
  rw [State.diagnostics, State.raises_drain, hlast]

/-- A parser that records every complaint makes the same ones at the same places, and those that
are recorded with suppression are the ones that stand apart from the complaint before them. -/
theorem suppression_filters (g : Grammar κ) (items : List (Item κ)) (t : State κ)
    (h : g.parser.run? items = some t) :
    (∃ u, g.parser.unsuppressed.run? items = some u ∧
      u.raises = t.raises.map Raise.reveal ∧ u.consumed = t.consumed ∧
      u.diagnostics = t.raises.map Raise.diagnostic) ∧
    t.diagnostics = (spaced 0 t.raises).map Raise.diagnostic ∧
    (firstError items = none →
      g.parser.parse? items = some (.ok ((spaced 0 t.raises).map Raise.diagnostic))) := by
  have hd := diagnostics_eq_spaced h
  refine ⟨⟨t.reveal, Parser.run?_unsuppressed h, t.raises_reveal, rfl, t.diagnostics_reveal⟩,
    hd, ?_⟩
  intro he
  have hf : t.failure = none := (Parser.failure_of_run? h).trans he
  rw [Parser.parse?, h, Option.map_some, State.result, hf, hd]

end Grammar

namespace Imperative

/-- The text `x := 1 y` as tokens. -/
def unterminated : List (Token Kind) := [
  ⟨.identifier, "x", ⟨1, 1⟩⟩, ⟨.assign, ":=", ⟨1, 4⟩⟩, ⟨.number, "1", ⟨1, 6⟩⟩,
  ⟨.identifier, "y", ⟨1, 8⟩⟩, .endOfInput ⟨1, 8⟩]

theorem suppression_filters_unterminated :
    ∃ t, grammar.parser.run? (unterminated.map .ok) = some t ∧
      t.raises.map Raise.consumed = [4, 5, 5, 5] ∧
      t.diagnostics = (spaced 0 t.raises).map Raise.diagnostic ∧
      ∃ u, grammar.parser.unsuppressed.run? (unterminated.map .ok) = some u ∧
        u.diagnostics.length = 4 := by
  have hrun : (grammar.parser.run? (unterminated.map .ok)).map (·.raises.map Raise.consumed) =
      some [4, 5, 5, 5] := by decide +kernel
  obtain ⟨t, ht, hc⟩ := Option.map_eq_some_iff.1 hrun
  obtain ⟨⟨u, hu, -, -, hd⟩, hds, -⟩ := grammar.suppression_filters _ t ht
  have hlength := congrArg List.length hc
  refine ⟨t, ht, hc, hds, u, hu, ?_⟩
  rw [hd, List.length_map]
  simpa using hlength

end Imperative

end Lookahead
