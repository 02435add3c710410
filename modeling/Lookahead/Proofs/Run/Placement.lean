import Lookahead.Proofs.Run.Failure
import Mathlib.Data.List.Forall2

/-!
Where tokens stand makes no difference to a run. Two streams whose tokens are of the same kinds one
by one are complained about in the same way at the same places.
-/

namespace Lookahead

variable {κ : Type}

/-- What a diagnostic says besides its place. -/
def Diagnostic.wording (d : Diagnostic) : Code × String := (d.code, d.message)

/-- Two complaints of the same wording at the same place of two streams, about corresponding tokens. -/
structure Raise.Matches (ρ : Token κ → Token κ → Prop) (r r' : Raise κ) : Prop where
  code : r.code = r'.code
  message : r.message = r'.message
  lookahead : ρ r.lookahead r'.lookahead
  consumed : r.consumed = r'.consumed
  sinceLast : r.sinceLast = r'.sinceLast
  recorded : r.recorded = r'.recorded

theorem Raise.Matches.filter_recorded {ρ : Token κ → Token κ → Prop} {rs rs' : List (Raise κ)}
    (h : List.Forall₂ (Raise.Matches ρ) rs rs') :
    List.Forall₂ (Raise.Matches ρ) (rs.filter (·.recorded)) (rs'.filter (·.recorded)) :=
  List.rel_filter (fun _ _ hr ↦ by simp only [hr.recorded]) h

variable [TokenKind κ]

/-- Corresponding tokens, or errors that leave corresponding end tokens. -/
inductive Item.Matches (ρ : Token κ → Token κ → Prop) : Item κ → Item κ → Prop
  | ok {token token' : Token κ} : ρ token token' → Matches ρ (.ok token) (.ok token')
  | error {error error' : LexError} :
      ρ (.endOfInput error.position) (.endOfInput error'.position) →
      Matches ρ (.error error) (.error error')

namespace State

/-- The same place of two streams of corresponding items. -/
structure Matches (ρ : Token κ → Token κ → Prop) (s s' : State κ) : Prop where
  current : ρ s.current s'.current
  rest : List.Forall₂ (Item.Matches ρ) s.rest s'.rest
  consumed : s.consumed = s'.consumed
  sinceLast : s.sinceLast = s'.sinceLast
  failure : s.failure.isSome = s'.failure.isSome
  raises : List.Forall₂ (Raise.Matches ρ) s.raises s'.raises

variable {ρ : Token κ → Token κ → Prop} {s s' : State κ}

theorem Matches.raise (h : s.Matches ρ s') (admits : Nat → Bool) (code : Code) (message : String) :
    (s.raise admits code message).Matches ρ (s'.raise admits code message) where
  current := h.current
  rest := h.rest
  consumed := h.consumed
  sinceLast := rfl
  failure := h.failure
  raises := by
    rw [raises_raise, raises_raise]
    have hadmits := congrArg admits h.sinceLast
    refine List.rel_append h.raises (.cons ?_ .nil)
    exact ⟨rfl, rfl, h.current, h.consumed, h.sinceLast, hadmits⟩

/-- Pulling the next item of both streams, where one has an item if the other has. -/
theorem Matches.advance (h : s.Matches ρ s') : s.advance.Matches ρ s'.advance := by
  have hraises := h.raises
  have hfailure := h.failure
  have hrest := h.rest
  rw [← s.raises_advance, ← s'.raises_advance] at hraises
  cases hf : s.failure with
  | some error =>
    obtain ⟨error', hf'⟩ := Option.isSome_iff_exists.1 (by rw [← hfailure, hf]; rfl)
    rwa [advance_of_failure hf, advance_of_failure hf']
  | none =>
    have hf' : s'.failure = none := by simpa [hf] using hfailure.symm
    cases hr : s.rest with
    | nil =>
      rw [hr] at hrest
      rwa [advance_of_rest_eq_nil hr, advance_of_rest_eq_nil (List.forall₂_nil_left_iff.1 hrest)]
    | cons item rest =>
      rw [hr] at hrest
      obtain ⟨item', rest', hitem, hlater, hr'⟩ := List.forall₂_cons_left_iff.1 hrest
      cases hitem with
      | ok htoken =>
        rw [advance_ok hf hr, advance_ok hf' hr'] at hraises ⊢
        exact ⟨htoken, hlater, congrArg (· + 1) h.consumed, congrArg (· + 1) h.sinceLast, hfailure,
          hraises⟩
      | error herror =>
        rw [advance_error hf hr, advance_error hf' hr'] at hraises ⊢
        exact ⟨herror, hlater, h.consumed, h.sinceLast, rfl, hraises⟩

/-- The first items are pulled before anything is complained about. -/
theorem matches_start {items items' : List (Item κ)}
    (h : List.Forall₂ (Item.Matches ρ) items items') (hne : items ≠ []) :
    (ofItems items).advance.Matches ρ (ofItems items').advance := by
  cases h with
  | nil => exact absurd rfl hne
  | cons hitem hlater =>
    cases hitem with
    | ok htoken => exact ⟨htoken, hlater, rfl, rfl, rfl, .nil⟩
    | error herror => exact ⟨herror, hlater, rfl, rfl, rfl, .nil⟩

end State

namespace Parser

variable [DecidableEq κ] {ρ : Token κ → Token κ → Prop}

omit [DecidableEq κ] in
theorem simulates_matches (p : Parser κ) (hρ : ∀ t t', ρ t t' → t.kind = t'.kind) :
    p.Simulates p (State.Matches ρ) where
  kind h := hρ _ _ h.current
  consumed h h' := by rw [h.consumed, h'.consumed]
  advance h := h.advance
  raise code message h := h.raise p.admits code message

/-- On corresponding streams the same complaints are made about corresponding tokens. -/
theorem run?_matches {p : Parser κ} (hρ : ∀ t t', ρ t t' → t.kind = t'.kind)
    {items items' : List (Item κ)} (hitems : List.Forall₂ (Item.Matches ρ) items items')
    (hne : items ≠ []) {t : State κ} (h : p.run? items = some t) :
    ∃ t', p.run? items' = some t' ∧ t.consumed = t'.consumed ∧
      List.Forall₂ (Raise.Matches ρ) t.raises t'.raises := by
  obtain ⟨u, ⟨n, hu⟩, rfl⟩ := run?_eq_some_iff.1 h
  have hsimulates := p.simulates_matches hρ
  obtain ⟨u', hu', hmatches⟩ := hsimulates.follow rfl hu (State.matches_start hitems hne)
  have hend := hsimulates.expect hmatches TokenKind.eof
  refine ⟨_, run?_eq_some_iff.2 ⟨u', ⟨n, hu'⟩, rfl⟩, ?_, ?_⟩
  · rw [State.consumed_drain, State.consumed_drain, hend.consumed]
  · rw [State.raises_drain, State.raises_drain]
    exact hend.raises

omit [TokenKind κ] [DecidableEq κ] in
theorem forall₂_iff_map_eq {α β γ : Type} {f : α → γ} {g : β → γ} {xs : List α} {ys : List β} :
    List.Forall₂ (fun x y ↦ f x = g y) xs ys ↔ xs.map f = ys.map g := by
  rw [← List.forall₂_eq_eq_eq, List.forall₂_map_left_iff, List.forall₂_map_right_iff]

omit [TokenKind κ] [DecidableEq κ] in
theorem map_wording_eq {t t' : State κ} (h : List.Forall₂ (Raise.Matches ρ) t.raises t'.raises) :
    t.diagnostics.map Diagnostic.wording = t'.diagnostics.map Diagnostic.wording := by
  unfold State.diagnostics
  rw [List.map_map, List.map_map, ← forall₂_iff_map_eq]
  exact (Raise.Matches.filter_recorded h).imp fun r r' hr ↦ congrArg₂ Prod.mk hr.code hr.message

/-- Tokens of the same kinds get diagnostics of the same wording. -/
theorem run?_of_kinds {p : Parser κ} {tokens tokens' : List (Token κ)}
    (hkinds : tokens.map Token.kind = tokens'.map Token.kind) (hne : tokens ≠ []) {t : State κ}
    (h : p.run? (tokens.map .ok) = some t) :
    ∃ t', p.run? (tokens'.map .ok) = some t' ∧
      t.diagnostics.map Diagnostic.wording = t'.diagnostics.map Diagnostic.wording := by
  have hitems : List.Forall₂ (Item.Matches fun t t' ↦ t.kind = t'.kind) (tokens.map .ok)
      (tokens'.map .ok) := by
    rw [List.forall₂_map_left_iff, List.forall₂_map_right_iff]
    exact (forall₂_iff_map_eq.2 hkinds).imp fun _ _ hk ↦ .ok hk
  obtain ⟨t', ht', -, hraises⟩ :=
    run?_matches (fun _ _ hk ↦ hk) hitems (by simpa using hne) h
  exact ⟨t', ht', map_wording_eq hraises⟩

end Parser

end Lookahead
