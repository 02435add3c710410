import Lookahead.Proofs.Run.Lockstep
import Lookahead.Proofs.Run.Stretch

/-!
One token of lookahead and no more: of two streams that begin alike, what is complained about before
the first tokens they do not share is complained about in the same way, whatever is behind.
-/

namespace Lookahead

variable {κ : Type}

namespace State

/-- So many tokens are consumed, and these are the complaints that were made before that. -/
structure Sealed (n : Nat) (raises : List (Raise κ)) (s : State κ) : Prop where
  consumed : n ≤ s.consumed
  raises : s.raises.filter (·.consumed < n) = raises

variable {n : Nat} {raises : List (Raise κ)} {s : State κ}

theorem Sealed.raise (h : s.Sealed n raises) (admits : Nat → Bool) (code : Code)
    (message : String) : (s.raise admits code message).Sealed n raises where
  consumed := h.consumed
  raises := by
    have hconsumed := h.consumed
    rw [raises_raise, List.filter_append, h.raises, List.filter_cons_of_neg (by simpa),
      List.filter_nil, List.append_nil]

variable [TokenKind κ]

theorem consumed_le_advance (s : State κ) : s.consumed ≤ s.advance.consumed := by
  unfold advance
  split
  · exact Nat.le_refl _
  · exact Nat.le_refl _
  · exact Nat.le_succ _
  · exact Nat.le_refl _

theorem Sealed.advance (h : s.Sealed n raises) : s.advance.Sealed n raises where
  consumed := Nat.le_trans h.consumed s.consumed_le_advance
  raises := by rw [raises_advance, h.raises]

end State

theorem Parser.keeps_sealed [TokenKind κ] (p : Parser κ) (n : Nat) (raises : List (Raise κ)) :
    p.Keeps (State.Sealed n raises) where
  advance _ h := h.advance
  raise _ code message h := h.raise p.admits code message

/-- Both runs are still within the part that the streams share, or both have left it with the same
complaints. -/
def State.Agrees (n : Nat) (ahead ahead' : List (Token κ)) (s s' : State κ) : Prop :=
  s.Beside n ahead ahead' s' ∨ ∃ raises, s.Sealed n raises ∧ s'.Sealed n raises

namespace State

variable {n : Nat} {ahead ahead' : List (Token κ)} {s s' : State κ}

theorem Beside.sealed (h : s.Beside n ahead ahead' s') (hn : s.consumed = n) :
    s.Sealed n (s.raises.filter (·.consumed < n)) ∧
      s'.Sealed n (s.raises.filter (·.consumed < n)) :=
  ⟨⟨Nat.le_of_eq hn.symm, rfl⟩, ⟨Nat.le_of_eq (h.consumed ▸ hn.symm), by rw [h.raises]⟩⟩

/-- What was complained about before the streams part is the same in both runs. -/
theorem Agrees.filter_eq (h : s.Agrees n ahead ahead' s') :
    s.raises.filter (·.consumed < n) = s'.raises.filter (·.consumed < n) := by
  obtain h | ⟨raises, hs, hs'⟩ := h
  · rw [h.raises]
  · rw [hs.raises, hs'.raises]

end State

variable [TokenKind κ] [DecidableEq κ]

/-- The runs make the same moves until one of them, and then the other, takes the token behind the
shared part. -/
theorem Parser.Follows.agrees {p : Parser κ} {n : Nat} {ahead ahead' : List (Token κ)}
    {rules : List (Rule κ)} {s s' t t' : State κ} (h : p.Follows rules s t)
    (h' : p.Follows rules s' t') (hs : s.Beside n ahead ahead' s') :
    t.Agrees n ahead ahead' t' := by
  have hmove {s s' : State κ} (hs : s.Beside n ahead ahead' s') (rule : Rule κ) :
      p.grammar.move s'.current.kind rule = p.grammar.move s.current.kind rule := by
    rw [hs.current]
  induction h using Follows.move_induction generalizing s' t' with
  | nil =>
    rw [follows_nil.1 h']
    exact .inl hs
  | pass hm _ ih => exact ih ((follows_of_pass ((hmove hs _).trans hm)).1 h') hs
  | @advance rule rules s t hm hrest ih =>
    have h' := (follows_of_advance ((hmove hs _).trans hm)).1 h'
    obtain hlt | heq := Nat.lt_or_eq_of_le hs.consumed_le
    · exact ih h' (hs.advance hlt)
    · obtain ⟨hseal, hseal'⟩ := hs.sealed heq
      have hkeeps := p.keeps_sealed n (s.raises.filter (·.consumed < n))
      exact .inr ⟨_, hrest.keeps hkeeps hseal.advance, h'.keeps hkeeps hseal'.advance⟩
  | raise hm _ ih =>
    exact ih ((follows_of_raise ((hmove hs _).trans hm)).1 h') (hs.raise p.admits _ _)
  | @enter rule rules body again s u t hm _ hrest ihbody ih =>
    obtain ⟨u', hu', ht'⟩ := (follows_of_enter ((hmove hs _).trans hm)).1 h'
    obtain hb | ⟨raises, hseal, hseal'⟩ := ihbody hu' hs
    · have hsame : remaining rule rules again s' u' = remaining rule rules again s u := by
        unfold remaining
        rw [hs.consumed, hb.consumed]
      exact ih (hsame ▸ ht') hb
    · have hkeeps := p.keeps_sealed n raises
      exact .inr ⟨raises, hrest.keeps hkeeps hseal, ht'.keeps hkeeps hseal'⟩

/-- The diagnostics of the tokens, divided into those on the first tokens, fewer than `n`, and those
from the `n`-th token on. -/
structure Grammar.Divides (g : Grammar κ) (tokens : List (Token κ)) (n : Nat)
    (before behind : List Diagnostic) : Prop where
  result : g.parser.parseTokens? tokens = some (before ++ behind)
  before : ∃ places, List.Forall₂ (Diagnostic.SitsAt tokens) before places ∧
    ∀ c ∈ places, 0 < c ∧ c < n
  behind : ∃ places, List.Forall₂ (Diagnostic.SitsAt tokens) behind places ∧ ∀ c ∈ places, n ≤ c

namespace Grammar

variable {g : Grammar κ} {n : Nat} {tokens tokens' : List (Token κ)} {t t' : State κ}

omit [TokenKind κ] [DecidableEq κ] in
theorem filter_append_filter_of_pairwise {rs : List (Raise κ)}
    (h : (rs.map Raise.consumed).Pairwise (· ≤ ·)) (n : Nat) :
    rs.filter (·.consumed < n) ++ rs.filter (n ≤ ·.consumed) = rs := by
  induction rs with
  | nil => rfl
  | cons r rs ih =>
    rw [List.map_cons, List.pairwise_cons] at h
    have hrest := ih h.2
    by_cases hr : r.consumed < n
    · rw [List.filter_cons_of_pos (by simpa), List.filter_cons_of_neg (by simpa), List.cons_append,
        hrest]
    · -- nothing behind a complaint was made earlier
      have hnone : rs.filter (·.consumed < n) = [] := by
        rw [List.filter_eq_nil_iff]
        intro r' hr'
        have hle := h.1 _ (List.mem_map_of_mem hr')
        simp only [decide_eq_true_eq]
        omega
      rw [hnone, List.nil_append] at hrest
      rw [List.filter_cons_of_neg (by simpa using hr), List.filter_cons_of_pos (by simpa using hr),
        hnone, List.nil_append, hrest]

/-- The runs over two lists of tokens with the same first tokens. -/
theorem agrees_of_take (htake : tokens.take n = tokens'.take n)
    (h : g.parser.run? (tokens.map .ok) = some t) (h' : g.parser.run? (tokens'.map .ok) = some t') :
    t.raises.filter (·.consumed < n) = t'.raises.filter (·.consumed < n) := by
  by_cases hshort : (tokens.take n).length < n
  · have heq : tokens = tokens' := by
      have hlength := hshort
      rw [htake] at hlength
      rw [List.length_take] at hshort hlength
      rwa [List.take_of_length_le (by omega), List.take_of_length_le (by omega)] at htake
    rw [heq, h'] at h
    cases h
    rfl
  · obtain rfl | hpos := Nat.eq_zero_or_pos n
    · simp
    · have hlength : (tokens.take n).length = n := by
        rw [List.length_take] at hshort ⊢
        omega
      have hne : tokens.take n ≠ [] := List.length_pos_iff.1 (by omega)
      rw [← List.take_append_drop n tokens] at h
      rw [← List.take_append_drop n tokens', ← htake] at h'
      obtain ⟨u, hu, rfl⟩ := Parser.run?_eq_some_iff_follows.1 h
      obtain ⟨u', hu', rfl⟩ := Parser.run?_eq_some_iff_follows.1 h'
      have hagrees := hu.agrees hu' (State.beside_ofItems hne)
      rw [hlength] at hagrees
      rw [State.raises_drain, State.raises_drain, hagrees.filter_eq]

omit [DecidableEq κ] in
theorem forall₂_sitsAt {rs : List (Raise κ)}
    (h : ∀ r ∈ rs, tokens[r.consumed - 1]? = some r.lookahead ∧ r.Worded) :
    List.Forall₂ (Diagnostic.SitsAt tokens) (rs.map Raise.diagnostic) (rs.map Raise.consumed) := by
  rw [List.forall₂_map_left_iff, List.forall₂_map_right_iff, List.forall₂_same]
  intro r hr
  exact ⟨r.lookahead, (h r hr).1, rfl, (h r hr).2⟩

/-- Which of the complaints before the `n`-th token are recorded is settled by themselves. -/
theorem exists_divides (h : g.parser.run? (tokens.map .ok) = some t) (n : Nat) :
    ∃ behind, g.Divides tokens n
      ((spaced 0 (t.raises.filter (·.consumed < n))).map Raise.diagnostic) behind := by
  obtain ⟨u, hu, hraises⟩ := reads_of_run? h
  have hsplit := filter_append_filter_of_pairwise (hraises ▸ hu.ordered) n
  have hspaced := spaced_append 0 (t.raises.filter (·.consumed < n))
    (t.raises.filter (n ≤ ·.consumed))
  rw [hsplit] at hspaced
  set last := ((t.raises.filter (·.consumed < n)).map Raise.consumed).getLastD 0
  have hat {r : Raise κ} (hr : r ∈ t.raises) (hw : suppressionWindow < r.consumed) :
      tokens[r.consumed - 1]? = some r.lookahead ∧ r.Worded := by
    rw [hraises] at hr
    exact ⟨hu.placed r hr (by omega), hu.worded r hr⟩
  have hbefore {r : Raise κ} (hr : r ∈ spaced 0 (t.raises.filter (·.consumed < n))) :
      (r ∈ t.raises ∧ r.consumed < n) ∧ suppressionWindow < r.consumed := by
    have hmem := mem_of_mem_spaced hr
    simpa using hmem
  have hbehind {r : Raise κ} (hr : r ∈ spaced last (t.raises.filter (n ≤ ·.consumed))) :
      (r ∈ t.raises ∧ n ≤ r.consumed) ∧ suppressionWindow < r.consumed := by
    have hmem := mem_of_mem_spaced hr
    simpa using hmem
  refine ⟨(spaced last (t.raises.filter (n ≤ ·.consumed))).map Raise.diagnostic, ?_, ?_, ?_⟩
  · rw [Parser.parseTokens?, h, Option.map_some, diagnostics_eq_spaced h, hspaced, List.map_append]
  · refine ⟨_, forall₂_sitsAt fun r hr ↦ hat (hbefore hr).1.1 (hbefore hr).2, ?_⟩
    intro c hc
    obtain ⟨r, hr, rfl⟩ := List.mem_map.1 hc
    have hr := hbefore hr
    exact ⟨by omega, hr.1.2⟩
  · refine ⟨_, forall₂_sitsAt fun r hr ↦ hat (hbehind hr).1.1 (hbehind hr).2, ?_⟩
    intro c hc
    obtain ⟨r, hr, rfl⟩ := List.mem_map.1 hc
    exact (hbehind hr).1.2

/-- No grammar looks further ahead than the next token. Where two lists of tokens have the first `n`
tokens in common, runs over them make the same complaints until `n` tokens are consumed, and so the
same diagnostics stand on the tokens before the `n`-th. -/
theorem looks_one_ahead (g : Grammar κ) (n : Nat) (tokens tokens' : List (Token κ)) (t t' : State κ)
    (htake : tokens.take n = tokens'.take n) (h : g.parser.run? (tokens.map .ok) = some t)
    (h' : g.parser.run? (tokens'.map .ok) = some t') :
    t.raises.filter (·.consumed < n) = t'.raises.filter (·.consumed < n) ∧
      ∃ before behind behind', g.Divides tokens n before behind ∧
        g.Divides tokens' n before behind' := by
  have hraises := agrees_of_take htake h h'
  obtain ⟨behind, hd⟩ := exists_divides h n
  obtain ⟨behind', hd'⟩ := exists_divides h' n
  exact ⟨hraises, _, behind, behind', hd, hraises ▸ hd'⟩

end Grammar

/-- The texts `x := 1 y := 2;` and `x := 1 y := ;`, both with a complaint at the `y`. -/
theorem Imperative.looks_one_ahead_unterminated :
    let shared := unterminated.take 4 ++ [⟨.assign, ":=", ⟨1, 11⟩⟩]
    let tokens := shared ++
      [⟨.number, "2", ⟨1, 13⟩⟩, ⟨.terminator, ";", ⟨1, 14⟩⟩, .endOfInput ⟨1, 14⟩]
    let tokens' := shared ++ [⟨.terminator, ";", ⟨1, 13⟩⟩, .endOfInput ⟨1, 13⟩]
    ∃ t t', grammar.parser.run? (tokens.map .ok) = some t ∧
      grammar.parser.run? (tokens'.map .ok) = some t' ∧
      t.raises.map Raise.consumed = [4] ∧ t'.raises.map Raise.consumed = [4, 6] ∧
      t.raises.filter (·.consumed < 5) = t'.raises.filter (·.consumed < 5) ∧
      ∃ before behind behind', grammar.Divides tokens 5 before behind ∧
        grammar.Divides tokens' 5 before behind' := by
  intro shared tokens tokens'
  have hrun : (grammar.parser.run? (tokens.map .ok)).map (·.raises.map Raise.consumed) =
      some [4] := by decide +kernel
  have hrun' : (grammar.parser.run? (tokens'.map .ok)).map (·.raises.map Raise.consumed) =
      some [4, 6] := by decide +kernel
  obtain ⟨t, ht, hc⟩ := Option.map_eq_some_iff.1 hrun
  obtain ⟨t', ht', hc'⟩ := Option.map_eq_some_iff.1 hrun'
  exact ⟨t, t', ht, ht', hc, hc', grammar.looks_one_ahead 5 tokens tokens' t t' rfl ht ht'⟩

end Lookahead
