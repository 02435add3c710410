import Lookahead.Language.Dialect
import Lookahead.Proofs.Run.Fuel

/-!
A lexical error anywhere in the stream wins, and it is the first one: either a rule pulls it, and
nothing is pulled behind it, or the parse leaves it to be found when the rest of the stream is
pulled.
-/

namespace Lookahead

variable {κ : Type}

def firstError : List (Item κ) → Option LexError
  | [] => none
  | .ok _ :: items => firstError items
  | .error error :: _ => some error

theorem tokensOf_eq_error {items : List (Item κ)} {error : LexError}
    (h : firstError items = some error) : tokensOf items = .error error := by
  induction items with
  | nil => cases h
  | cons item items ih =>
    cases item with
    | error error' =>
      cases h
      rfl
    | ok token =>
      have htail := ih h
      unfold tokensOf at htail ⊢
      simp [htail, bind, Except.bind]

theorem exists_tokensOf_eq_ok {items : List (Item κ)} (h : firstError items = none) :
    ∃ tokens, tokensOf items = .ok tokens ∧ tokens.map .ok = items := by
  induction items with
  | nil => exact ⟨[], rfl, rfl⟩
  | cons item items ih =>
    cases item with
    | error error => cases h
    | ok token =>
      obtain ⟨tokens, htail, rfl⟩ := ih h
      refine ⟨token :: tokens, ?_, rfl⟩
      unfold tokensOf at htail ⊢
      simp [htail, bind, Except.bind, pure, Except.pure]

theorem firstError_map_ok (tokens : List (Token κ)) : firstError (tokens.map .ok) = none := by
  induction tokens with
  | nil => rfl
  | cons token tokens ih => exact ih

theorem firstError_map_ok_append (tokens : List (Token κ)) (items : List (Item κ)) :
    firstError (tokens.map .ok ++ items) = firstError items := by
  induction tokens with
  | nil => rfl
  | cons token tokens ih => exact ih

namespace State

/-- The lexical error that a run from here ends with: the one that was pulled, or else the first one
to come. -/
def fate (s : State κ) : Option LexError := s.failure.or (firstError s.rest)

theorem failure_drain_go (s : State κ) (hf : s.failure = none) (log : List (Entry κ))
    (items : List (Item κ)) : (drain.go s log items).failure = firstError items := by
  induction items generalizing log with
  | nil => exact hf
  | cons item items ih =>
    cases item with
    | ok token => exact ih _
    | error error => rfl

theorem failure_drain (s : State κ) : s.drain.failure = s.fate := by
  unfold drain fate
  cases hf : s.failure with
  | some error => simp [hf]
  | none => simp [failure_drain_go s hf]

variable [TokenKind κ]

theorem fate_advance (s : State κ) : s.advance.fate = s.fate := by
  cases hf : s.failure with
  | some error => rw [advance_of_failure hf]
  | none =>
    cases hr : s.rest with
    | nil => rw [advance_of_rest_eq_nil hr]
    | cons item rest =>
      cases item with
      | ok token => simp [advance_ok hf hr, fate, hf, hr, firstError]
      | error error => simp [advance_error hf hr, fate, hf, hr, firstError]

end State

namespace Parser

variable [TokenKind κ]

theorem keeps_fate (p : Parser κ) (fate : Option LexError) : p.Keeps fun s ↦ s.fate = fate where
  advance s h := s.fate_advance.trans h
  raise _ _ _ h := h

/-- A run ends with the first lexical error of the stream, wherever it stands. -/
theorem failure_of_run? [DecidableEq κ] {p : Parser κ} {items : List (Item κ)} {t : State κ}
    (h : p.run? items = some t) : t.failure = firstError items := by
  obtain ⟨u, hu, rfl⟩ := run?_eq_some_iff.1 h
  have hstart : (State.ofItems items).advance.fate = firstError items := State.fate_advance _
  rw [State.failure_drain]
  exact (p.keeps_fate _).expect (hu.keeps (p.keeps_fate _) hstart) _

theorem parse?_map_ok [DecidableEq κ] {p : Parser κ} {tokens : List (Token κ)} {t : State κ}
    (h : p.run? (tokens.map .ok) = some t) :
    p.parse? (tokens.map .ok) = some (.ok t.diagnostics) := by
  have hf : t.failure = none := (failure_of_run? h).trans (firstError_map_ok tokens)
  rw [parse?, h, Option.map_some, State.result, hf]

end Parser

end Lookahead
