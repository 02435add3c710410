import Mathlib.Data.List.Chain
import Mathlib.Data.List.Forall2
import Lookahead.Proofs.Run.Suppression

/-!
Where diagnostics stand. Each sits on a token of the stream, and from one to the next, as from the
start to the first, there are at least three tokens.
-/

namespace Lookahead

variable {κ : Type}

theorem mem_of_mem_spaced {last : Nat} {raises : List (Raise κ)} {r : Raise κ}
    (h : r ∈ spaced last raises) : r ∈ raises ∧ suppressionWindow < r.consumed := by
  induction raises generalizing last with
  | nil => cases h
  | cons r' raises ih =>
    rw [spaced] at h
    split at h
    · rename_i hw
      rcases List.mem_cons.1 h with rfl | h
      · exact ⟨List.mem_cons_self, by omega⟩
      · exact ⟨List.mem_cons_of_mem _ (ih h).1, (ih h).2⟩
    · exact ⟨List.mem_cons_of_mem _ (ih h).1, (ih h).2⟩

/-- Complaints that all stand far enough from the start are not all left out. -/
theorem spaced_zero_eq_nil_iff {raises : List (Raise κ)}
    (h : ∀ r ∈ raises, suppressionWindow < r.consumed) : spaced 0 raises = [] ↔ raises = [] := by
  cases raises with
  | nil => exact iff_of_true rfl rfl
  | cons r raises =>
    have hr : 0 + suppressionWindow < r.consumed := by
      rw [Nat.zero_add]
      exact h r List.mem_cons_self
    rw [spaced, if_pos hr]
    exact iff_of_false (List.cons_ne_nil _ _) (List.cons_ne_nil _ _)

theorem isChain_spaced {last : Nat} {raises : List (Raise κ)}
    (h : (last :: raises.map Raise.consumed).IsChain (· ≤ ·)) :
    (last :: (spaced last raises).map Raise.consumed).IsChain fun a b ↦ a + 3 ≤ b := by
  induction raises generalizing last with
  | nil => simp [spaced]
  | cons r raises ih =>
    rw [List.map_cons, List.isChain_cons_cons] at h
    obtain ⟨hle, hrest⟩ := h
    have hr := ih hrest
    rw [spaced]
    split
    · rename_i hw
      have hw : last + 3 ≤ r.consumed := hw
      rw [List.map_cons, List.isChain_cons_cons]
      exact ⟨hw, hr⟩
    · cases hs : (spaced r.consumed raises).map Raise.consumed with
      | nil => simp
      | cons c cs =>
        rw [hs, List.isChain_cons_cons] at hr
        rw [List.isChain_cons_cons]
        exact ⟨by omega, hr.2⟩

theorem length_le_of_isChain {a n : Nat} {cs : List Nat}
    (h : (a :: cs).IsChain fun a b ↦ a + 3 ≤ b) (ha : a ≤ n) (hcs : ∀ c ∈ cs, c ≤ n) :
    a + 3 * cs.length ≤ n := by
  induction cs generalizing a with
  | nil => simpa using ha
  | cons c cs ih =>
    rw [List.isChain_cons_cons] at h
    have hc := ih h.2 (hcs c List.mem_cons_self) fun d hd ↦ hcs d (List.mem_cons_of_mem _ hd)
    rw [List.length_cons]
    omega

variable [TokenKind κ]

/-- A complaint of an expectation names two different kinds, the second that of the lookahead. -/
def Raise.Worded (r : Raise κ) : Prop :=
  r.code = .expected → ∃ k, k ≠ r.lookahead.kind ∧
    r.message = s!"Expected {name k} but got '{name r.lookahead.kind}'"

theorem Grammar.exists_of_move_eq_raise [DecidableEq κ] {g : Grammar κ} {kind : κ} {rule : Rule κ}
    {message : String} (h : g.move kind rule = .raise .expected message) :
    ∃ k, k ≠ kind ∧ message = s!"Expected {name k} but got '{name kind}'" := by
  cases rule with
  | expect k =>
    rw [move] at h
    split at h
    · cases h
    · rename_i hk
      cases h
      exact ⟨k, fun he ↦ hk he.symm, rfl⟩
  | advance => cases h
  | call callee => rw [move] at h; split at h <;> cases h
  | loop lookahead body | optional lookahead body => rw [move] at h; split at h <;> cases h
  | choice title arms => rw [move] at h; split at h <;> cases h
  | forbid lookahead text => rw [move] at h; split at h <;> cases h

/-- The place of a parse in a stream of tokens, and the places of the complaints so far. -/
structure State.Reads (tokens : List (Token κ)) (s : State κ) : Prop where
  failure : s.failure = none
  rest : s.rest = (tokens.drop s.consumed).map .ok
  current : 0 < s.consumed → tokens[s.consumed - 1]? = some s.current
  ordered : (s.raises.map Raise.consumed).Pairwise (· ≤ ·)
  passed : ∀ r ∈ s.raises, r.consumed ≤ s.consumed
  placed : ∀ r ∈ s.raises, 0 < r.consumed → tokens[r.consumed - 1]? = some r.lookahead
  worded : ∀ r ∈ s.raises, r.Worded

namespace State.Reads

variable {tokens : List (Token κ)} {s : State κ}

theorem ofItems (tokens : List (Token κ)) : (State.ofItems (tokens.map .ok)).Reads tokens := by
  constructor <;> simp [State.ofItems, State.raises]

theorem advance (h : s.Reads tokens) : s.advance.Reads tokens := by
  have hraises := s.raises_advance
  cases hd : tokens.drop s.consumed with
  | nil =>
    have hr : s.rest = [] := by rw [h.rest, hd]; rfl
    rwa [advance_of_rest_eq_nil hr]
  | cons token rest =>
    have hr : s.rest = .ok token :: rest.map .ok := by rw [h.rest, hd]; rfl
    have htoken : tokens[s.consumed]? = some token := by
      rw [← List.head?_drop, hd, List.head?_cons]
    have hrest : tokens.drop (s.consumed + 1) = rest := by
      rw [← List.tail_drop, hd, List.tail_cons]
    rw [advance_ok h.failure hr] at hraises ⊢
    constructor
    · exact h.failure
    · simp only [hrest]
    · intro _
      exact htoken
    · rw [hraises]
      exact h.ordered
    · rw [hraises]
      intro r hmem
      exact Nat.le_succ_of_le (h.passed r hmem)
    · rw [hraises]
      exact h.placed
    · rw [hraises]
      exact h.worded

theorem raise (h : s.Reads tokens) (admits : Nat → Bool) {code : Code} {message : String}
    (hw : code = .expected → ∃ k, k ≠ s.current.kind ∧
      message = s!"Expected {name k} but got '{name s.current.kind}'") :
    (s.raise admits code message).Reads tokens := by
  have hraises := s.raises_raise admits code message
  constructor
  · exact h.failure
  · exact h.rest
  · exact h.current
  · rw [hraises, List.map_append, List.pairwise_append]
    refine ⟨h.ordered, List.pairwise_singleton _ _, ?_⟩
    intro c hc d hd
    obtain ⟨r, hr, rfl⟩ := List.mem_map.1 hc
    rw [List.map_singleton, List.mem_singleton] at hd
    exact hd ▸ h.passed r hr
  all_goals
    rw [hraises]
    intro r hmem
    rcases List.mem_append.1 hmem with hmem | hmem
  · exact h.passed r hmem
  · rw [List.mem_singleton.1 hmem]
    exact Nat.le_refl _
  · exact h.placed r hmem
  · rw [List.mem_singleton.1 hmem]
    exact h.current
  · exact h.worded r hmem
  · rw [List.mem_singleton.1 hmem]
    exact hw

end State.Reads

variable [DecidableEq κ]

theorem Parser.keepsMoves_reads (p : Parser κ) (tokens : List (Token κ)) :
    p.KeepsMoves (State.Reads tokens) where
  advance _ h := h.advance
  raise _ _ _ _ hm h := h.raise p.admits fun hc ↦ Grammar.exists_of_move_eq_raise (hc ▸ hm)

/-- A diagnostic that stands at the `c`-th token and, if an expectation failed there, says so. -/
def Diagnostic.SitsAt (tokens : List (Token κ)) (d : Diagnostic) (c : Nat) : Prop :=
  ∃ t, tokens[c - 1]? = some t ∧ d.position = t.position ∧
    (d.code = .expected → ∃ k, k ≠ t.kind ∧
      d.message = s!"Expected {name k} but got '{name t.kind}'")

namespace Grammar

theorem reads_of_run? {g : Grammar κ} {tokens : List (Token κ)} {t : State κ}
    (h : g.parser.run? (tokens.map .ok) = some t) :
    ∃ u : State κ, u.Reads tokens ∧ t.raises = u.raises := by
  obtain ⟨u, ⟨n, hu⟩, rfl⟩ := Parser.run?_eq_some_iff.1 h
  have hkeeps := g.parser.keepsMoves_reads tokens
  have hend := hkeeps.follow hu (hkeeps.advance _ (.ofItems tokens))
  exact ⟨_, hkeeps.expect hend TokenKind.eof, State.raises_drain _⟩

/-- Diagnostics are ordered as tokens are that stand three or more apart. -/
theorem pairwise_diagnostics {g : Grammar κ} {tokens : List (Token κ)} {t : State κ}
    (h : g.parser.run? (tokens.map .ok) = some t) {R : Position → Position → Prop}
    (hR : ∀ i j s s', i + 3 ≤ j → tokens[i]? = some s → tokens[j]? = some s' →
      R s.position s'.position) :
    (t.diagnostics.map (·.position)).Pairwise R := by
  obtain ⟨u, hu, hraises⟩ := reads_of_run? h
  have : IsTrans Nat fun a b ↦ a + 3 ≤ b := ⟨by omega⟩
  have hordered : (0 :: u.raises.map Raise.consumed).IsChain (· ≤ ·) :=
    (List.pairwise_cons.2 ⟨fun _ _ ↦ Nat.zero_le _, hu.ordered⟩).isChain
  have hapart := (isChain_spaced hordered).pairwise.of_cons
  rw [diagnostics_eq_spaced h, hraises, List.map_map, List.pairwise_map]
  refine (List.pairwise_map.1 hapart).imp_of_mem fun {r r'} hr hr' hle ↦ ?_
  obtain ⟨hmem, hw⟩ := mem_of_mem_spaced hr
  obtain ⟨hmem', hw'⟩ := mem_of_mem_spaced hr'
  exact hR _ _ _ _ (by omega) (hu.placed r hmem (by omega)) (hu.placed r' hmem' (by omega))

/-- The diagnostics of a list of tokens sit on tokens of it, the first not before the third and each
three or more behind the one before it, so there are at most a third as many. -/
theorem diagnostics_sit_apart (g : Grammar κ) (tokens : List (Token κ)) (ds : List Diagnostic)
    (h : g.parser.parseTokens? tokens = some ds) :
    ∃ places : List Nat, List.Forall₂ (Diagnostic.SitsAt tokens) ds places ∧
      (0 :: places).IsChain (fun a b ↦ a + 3 ≤ b) ∧ (∀ c ∈ places, c ≤ tokens.length) ∧
      3 * ds.length ≤ tokens.length := by
  obtain ⟨t, ht, rfl⟩ := Option.map_eq_some_iff.1 h
  obtain ⟨u, hu, hraises⟩ := reads_of_run? ht
  rw [diagnostics_eq_spaced ht, hraises]
  have hat : ∀ r ∈ spaced 0 u.raises, tokens[r.consumed - 1]? = some r.lookahead ∧ r.Worded := by
    intro r hr
    obtain ⟨hmem, hw⟩ := mem_of_mem_spaced hr
    exact ⟨hu.placed r hmem (by omega), hu.worded r hmem⟩
  have hchain : (0 :: (spaced 0 u.raises).map Raise.consumed).IsChain fun a b ↦ a + 3 ≤ b := by
    apply isChain_spaced
    apply List.Pairwise.isChain
    exact List.pairwise_cons.2 ⟨fun _ _ ↦ Nat.zero_le _, hu.ordered⟩
  have hle : ∀ c ∈ (spaced 0 u.raises).map Raise.consumed, c ≤ tokens.length := by
    intro c hc
    obtain ⟨r, hr, rfl⟩ := List.mem_map.1 hc
    have hlt := (List.getElem?_eq_some_iff.1 (hat r hr).1).1
    omega
  refine ⟨(spaced 0 u.raises).map Raise.consumed, ?_, hchain, hle, ?_⟩
  · rw [List.forall₂_map_left_iff, List.forall₂_map_right_iff, List.forall₂_same]
    intro r hr
    exact ⟨r.lookahead, (hat r hr).1, rfl, (hat r hr).2⟩
  · have hlength := length_le_of_isChain hchain (Nat.zero_le _) hle
    rw [List.length_map] at hlength ⊢
    omega

end Grammar

theorem Imperative.diagnostics_sit_apart_unterminated :
    ∃ places : List Nat, List.Forall₂ (Diagnostic.SitsAt unterminated)
        [⟨.expected, "Expected Terminator but got 'Identifier'", ⟨1, 8⟩⟩] places ∧
      (0 :: places).IsChain (fun a b ↦ a + 3 ≤ b) ∧ (∀ c ∈ places, c ≤ 5) ∧ 3 * 1 ≤ 5 := by
  have h : grammar.parser.parseTokens? unterminated =
      some [⟨.expected, "Expected Terminator but got 'Identifier'", ⟨1, 8⟩⟩] := by decide +kernel
  exact grammar.diagnostics_sit_apart unterminated _ h

end Lookahead
