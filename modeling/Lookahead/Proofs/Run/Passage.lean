import Lookahead.Proofs.Run.Stopping
import Lookahead.Proofs.Run.Stretch

/-!
Passing tokens one by one. Rules that take the next token leave other rules to be followed behind
it, so that a whole text is passed by what is left after each of its tokens.
-/

namespace Lookahead

variable {κ : Type} [TokenKind κ]

namespace State

/-- A place in a stream of tokens. -/
structure At (token : Token κ) (after : List (Token κ)) (s : State κ) : Prop where
  current : s.current = token
  rest : s.rest = after.map .ok
  failure : s.failure = none

variable {token next : Token κ} {tokens after : List (Token κ)} {s t : State κ}

theorem at_start (token : Token κ) (after : List (Token κ)) :
    (ofItems ((token :: after).map .ok)).advance.At token after := ⟨rfl, rfl, rfl⟩

omit [TokenKind κ] in
theorem At.raise (h : s.At token after) (admits : Nat → Bool) (code : Code) (message : String) :
    (s.raise admits code message).At token after := ⟨h.current, h.rest, h.failure⟩

theorem At.advance (h : s.At token (next :: after)) : s.advance.At next after := by
  rw [advance_ok h.failure h.rest]
  exact ⟨rfl, rfl, h.failure⟩

/-- The second state is so many tokens behind the first, without a complaint on the way. -/
structure Silent (n : Nat) (s t : State κ) : Prop where
  raises : t.raises = s.raises
  consumed : t.consumed = s.consumed + n
  sinceLast : t.sinceLast = s.sinceLast + n

theorem At.silent (h : s.At token (next :: after)) : s.Silent 1 s.advance := by
  have hraises := s.raises_advance
  rw [advance_ok h.failure h.rest] at hraises ⊢
  exact ⟨hraises, rfl, rfl⟩

omit [TokenKind κ] in
theorem Silent.trans {m n : Nat} {u : State κ} (h : s.Silent m t) (h' : t.Silent n u) :
    s.Silent (m + n) u where
  raises := h'.raises.trans h.raises
  consumed := by rw [h'.consumed, h.consumed, Nat.add_assoc]
  sinceLast := by rw [h'.sinceLast, h.sinceLast, Nat.add_assoc]

omit [TokenKind κ] in
theorem Silent.diagnostics {n : Nat} (h : s.Silent n t) : t.diagnostics = s.diagnostics := by
  rw [State.diagnostics, State.diagnostics, h.raises]

omit [TokenKind κ] in
theorem diagnostics_raise (admits : Nat → Bool) (code : Code) (message : String) :
    (s.raise admits code message).diagnostics = s.diagnostics ++
      if admits s.sinceLast then [⟨code, message, s.current.position⟩] else [] := by
  rw [State.diagnostics, State.diagnostics, raises_raise, List.filter_append, List.map_append]
  congr 1
  cases admits s.sinceLast <;> simp [Raise.diagnostic]

omit [TokenKind κ] in
theorem diagnostics_drain (s : State κ) : s.drain.diagnostics = s.diagnostics := by
  rw [State.diagnostics, State.diagnostics, raises_drain]

/-- The tokens are pulled past one by one, each with another one behind it. -/
inductive Passes : List (Token κ) → State κ → State κ → Prop
  | nil (s : State κ) : Passes [] s s
  | cons {token next : Token κ} {after tokens : List (Token κ)} {s t : State κ}
      (h : s.At token (next :: after)) (hrest : Passes tokens s.advance t) :
      Passes (token :: tokens) s t

theorem Passes.silent (h : s.Passes tokens t) : s.Silent tokens.length t := by
  induction h with
  | nil => exact ⟨rfl, rfl, rfl⟩
  | cons h _ ih =>
    have htwo := h.silent.trans ih
    rwa [Nat.add_comm] at htwo

theorem Passes.exists_between {tokens' : List (Token κ)} (h : s.Passes (tokens ++ tokens') t) :
    ∃ u, s.Passes tokens u ∧ u.Passes tokens' t := by
  induction tokens generalizing s with
  | nil => exact ⟨s, .nil s, h⟩
  | cons token tokens ih =>
    rw [List.cons_append] at h
    cases h with
    | cons hat hrest =>
      obtain ⟨u, hu, ht⟩ := ih hrest
      exact ⟨u, .cons hat hu, ht⟩

theorem exists_passes {first : Token κ} {behind : List (Token κ)} (h : s.At first behind)
    (hsplit : first :: behind = tokens ++ token :: after) :
    ∃ t, s.Passes tokens t ∧ t.At token after := by
  induction tokens generalizing s first behind with
  | nil =>
    cases hsplit
    exact ⟨s, .nil s, h⟩
  | cons token' tokens ih =>
    rw [List.cons_append, List.cons.injEq] at hsplit
    obtain ⟨rfl, hbehind⟩ := hsplit
    obtain ⟨next, rest, hnext⟩ : ∃ next rest, behind = next :: rest :=
      List.exists_cons_of_ne_nil (by simp [hbehind])
    rw [hnext] at h hbehind
    obtain ⟨t, ht, hat⟩ := ih h.advance hbehind
    exact ⟨t, .cons h ht, hat⟩

end State

variable [DecidableEq κ]

namespace Parser

/-- At a token of this kind, with another one behind it unless it is the end, the rules take it and
leave others to be followed. -/
def Shifts (p : Parser κ) (k : κ) (rules left : List (Rule κ)) : Prop :=
  ∀ s t : State κ, s.current.kind = k → (k ≠ TokenKind.eof → s.consumed < s.advance.consumed) →
    p.Follows left s.advance t → p.Follows rules s t

variable {p : Parser κ} {k : κ} {rule : Rule κ} {rules left left' body : List (Rule κ)}
  {s t : State κ}

namespace Shifts

theorem take (hm : p.grammar.move k rule = .advance) : p.Shifts k (rule :: rules) rules :=
  fun _ _ hk _ ht ↦ (follows_of_advance (hk ▸ hm)).2 ht

theorem pass (hm : p.grammar.move k rule = .pass) (h : p.Shifts k rules left) :
    p.Shifts k (rule :: rules) left :=
  fun s t hk hlt ht ↦ (follows_of_pass (hk ▸ hm)).2 (h s t hk hlt ht)

theorem enter (hm : p.grammar.move k rule = .enter body false)
    (h : p.Shifts k (body ++ rules) left) : p.Shifts k (rule :: rules) left :=
  fun s t hk hlt ht ↦ (follows_enter (hk ▸ hm)).2 (h s t hk hlt ht)

/-- A loop is entered and comes back to itself. -/
theorem round {n : Nat} (hm : p.grammar.move k rule = .enter body true)
    (hk : k ≠ TokenKind.eof) (htakes : p.grammar.takes k n body = true)
    (h : p.Shifts k (body ++ rule :: rules) left) : p.Shifts k (rule :: rules) left := by
  intro s t hs hlt ht
  refine (follows_round (hs ▸ hm) fun u hu ↦ ?_).2 (h s t hs hlt ht)
  exact Nat.lt_of_lt_of_le (hlt hk) (hu.advance_le (hs ▸ htakes))

theorem mono (h : p.Shifts k rules left) (hl : ∀ {s t}, p.Follows left' s t → p.Follows left s t) :
    p.Shifts k rules left' :=
  fun s t hk hlt ht ↦ h s t hk hlt (hl ht)

theorem follows {token next : Token κ} {after : List (Token κ)} (h : p.Shifts token.kind rules left)
    (hs : s.At token (next :: after)) (ht : p.Follows left s.advance t) : p.Follows rules s t := by
  refine h s t (congrArg Token.kind hs.current) (fun _ ↦ ?_) ht
  rw [hs.silent.consumed]
  exact Nat.lt_succ_self _

end Shifts

theorem follows_call_append {name : String} {production : Production κ}
    (h : p.grammar.production? name = some production) :
    p.Follows (.call name :: rules) s t ↔ p.Follows (production.body ++ rules) s t :=
  follows_enter (by rw [Grammar.move, h])

end Parser

end Lookahead
