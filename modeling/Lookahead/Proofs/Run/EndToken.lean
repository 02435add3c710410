import Lookahead.Proofs.Run.Lockstep
import Lookahead.Proofs.Run.Pulling
import Lookahead.Proofs.Run.Watch

/-!
An end token closes the input. No rule takes it and the parse ends at it, so that what is behind it
makes no difference to the diagnostics, but a lexical error there is still found when the rest of the
stream is pulled.
-/

namespace Lookahead

variable {κ : Type} [DecidableEq κ] [TokenKind κ]

/-- The place of a parse in a stream of tokens, up to an end token in it. -/
structure State.Before (tokens : List (Token κ)) (last : Token κ) (rest : List (Token κ))
    (s : State κ) : Prop where
  reads : s.Reads (tokens ++ last :: rest)
  started : 0 < s.consumed
  inside : s.consumed ≤ tokens.length + 1

namespace State

variable {tokens rest : List (Token κ)} {last : Token κ} {s s' : State κ}

omit [DecidableEq κ] in
theorem before_start (tokens : List (Token κ)) (last : Token κ) (rest : List (Token κ)) :
    (State.ofItems ((tokens ++ last :: rest).map .ok)).advance.Before tokens last rest := by
  have hreads : (State.ofItems ((tokens ++ last :: rest).map .ok)).Reads
    (tokens ++ last :: rest) := .ofItems _
  have hone := hreads.consumed_advance
  rw [List.length_append, List.length_cons] at hone
  simp only [State.ofItems] at hone hreads ⊢
  exact ⟨hreads.advance, by omega, by omega⟩

omit [DecidableEq κ] in
/-- Where the end token is the lookahead nothing may be taken, and before it there is room. -/
theorem Before.advance (h : s.Before tokens last rest) (hlast : last.kind = TokenKind.eof)
    (hne : s.current.kind ≠ TokenKind.eof) : s.advance.Before tokens last rest := by
  have hconsumed := h.reads.consumed_advance
  have hstarted := h.started
  have hinside := h.inside
  rw [List.length_append, List.length_cons] at hconsumed
  have hroom : s.consumed ≠ tokens.length + 1 := by
    intro hend
    have hcurrent := h.reads.current h.started
    rw [hend, Nat.add_sub_cancel, List.getElem?_append_right (Nat.le_refl _), Nat.sub_self,
      List.getElem?_cons_zero, Option.some.injEq] at hcurrent
    exact hne (hcurrent ▸ hlast)
  exact ⟨h.reads.advance, by omega, by omega⟩

/-- Where the end of the input is expected, runs side by side complain alike. -/
theorem Beside.raises_expect {n : Nat} {ahead ahead' : List (Token κ)}
    (h : s.Beside n ahead ahead' s') (admits : Nat → Bool) (kind : κ) :
    (s.expect admits kind).raises = (s'.expect admits kind).raises := by
  unfold State.expect
  rw [← h.current]
  split
  · rw [raises_advance, raises_advance, h.raises]
  · rw [raises_raise, raises_raise, h.raises, h.current, h.consumed, h.sinceLast]

end State

namespace Parser

variable {p : Parser κ} {r : Ranking κ} {tokens rest : List (Token κ)} {last : Token κ}
  {t u : State κ}

/-- The start production is left at the end token at the latest. -/
theorem before_of_follows (hr : p.grammar.Ranked r) (hlast : last.kind = TokenKind.eof)
    (h : p.Follows [.call p.grammar.start]
      (State.ofItems ((tokens ++ last :: rest).map .ok)).advance u) :
    u.Before tokens last rest := by
  have hend : ∃ item ∈ (tokens ++ last :: rest).map .ok, Item.IsEnd item :=
    ⟨.ok last, List.mem_map_of_mem (by simp), hlast⟩
  refine h.keeps_of_watched hr (.start hr hend) ?_ ?_ (State.before_start tokens last rest)
  · intro s hne hs
    exact hs.advance hlast hne
  · intro s rule code message hm hs
    have hreads := (p.keepsMoves_reads (tokens ++ last :: rest)).raise s rule code message hm hs.reads
    exact ⟨hreads, hs.started, hs.inside⟩

/-- Behind an end token nothing is complained about, and what is there changes no complaint. -/
theorem exists_run?_of_end (hr : p.grammar.Ranked r) (hlast : last.kind = TokenKind.eof)
    (rest : List (Token κ)) :
    ∃ t t', p.run? ((tokens ++ [last]).map .ok) = some t ∧
      p.run? ((tokens ++ last :: rest).map .ok) = some t' ∧ t.raises = t'.raises := by
  have hend : ∃ item ∈ (tokens ++ last :: rest).map .ok, Item.IsEnd item :=
    ⟨.ok last, List.mem_map_of_mem (by simp), hlast⟩
  obtain ⟨t', ht'⟩ := exists_run?_eq_some hr hend
  by_cases hrest : rest = []
  · subst hrest
    exact ⟨t', t', ht', ht', rfl⟩
  · obtain ⟨u', hu', rfl⟩ := run?_eq_some_iff.1 ht'
    have hinside := (before_of_follows hr hlast hu').inside
    obtain ⟨n, hn⟩ := hu'
    have hbeside : (State.ofItems ((tokens ++ last :: rest).map .ok)).advance.Beside
        (tokens.length + 1) rest [] (State.ofItems ((tokens ++ [last]).map .ok)).advance := by
      have hstart : (State.ofItems ((tokens ++ [last] ++ rest).map .ok)).advance.Beside
          (tokens ++ [last]).length rest []
          (State.ofItems ((tokens ++ [last] ++ []).map .ok)).advance :=
        State.beside_ofItems (List.append_ne_nil_of_right_ne_nil _ (List.cons_ne_nil _ _))
      simpa using hstart
    obtain ⟨u, hu, hb⟩ := follow_beside hn hbeside hrest hinside
    refine ⟨_, _, run?_eq_some_iff.2 ⟨u, ⟨n, hu⟩, rfl⟩, ht', ?_⟩
    rw [State.raises_drain, State.raises_drain, hb.raises_expect]

end Parser

/-- An end token closes the input. Whatever tokens are behind it, the diagnostics are the same, and
a stream that goes on behind it has these diagnostics too, unless there is a lexical error in it: then
the first one is the answer. -/
theorem Language.end_token_closes (l : Language) (tokens : List (Token l.Kind))
    (last : Token l.Kind) (hlast : last.kind = TokenKind.eof) :
    ∃ diagnostics, l.dialect.parser.parseTokens? (tokens ++ [last]) = some diagnostics ∧
      (∀ rest, l.dialect.parser.parseTokens? (tokens ++ last :: rest) = some diagnostics) ∧
      ∀ items, l.dialect.parser.parse? ((tokens ++ [last]).map .ok ++ items) =
        some (match firstError items with
          | some error => .error error
          | none => .ok diagnostics) := by
  obtain ⟨r, hr⟩ := l.exists_ranked
  obtain ⟨t, -, ht, -⟩ := Parser.exists_run?_of_end (p := l.dialect.parser) hr hlast []
  have hdiagnostics (rest : List (Token l.Kind)) : ∃ t',
      l.dialect.parser.run? ((tokens ++ last :: rest).map .ok) = some t' ∧
        t'.diagnostics = t.diagnostics := by
    obtain ⟨u, t', hu, ht', hraises⟩ :=
      Parser.exists_run?_of_end (p := l.dialect.parser) hr hlast rest
    rw [ht, Option.some.injEq] at hu
    exact ⟨t', ht', by rw [State.diagnostics, State.diagnostics, ← hraises, hu]⟩
  refine ⟨t.diagnostics, ?_, ?_, ?_⟩
  · rw [Parser.parseTokens?, ht, Option.map_some]
  · intro rest
    obtain ⟨t', ht', hsame⟩ := hdiagnostics rest
    rw [Parser.parseTokens?, ht', Option.map_some, hsame]
  · intro items
    cases herror : firstError items with
    | none =>
      obtain ⟨rest, -, rfl⟩ := exists_tokensOf_eq_ok herror
      obtain ⟨t', ht', hsame⟩ := hdiagnostics rest
      rw [List.append_cons] at ht'
      rw [← List.map_append, Parser.parse?_map_ok ht', hsame]
    | some error =>
      have hend : ∃ item ∈ (tokens ++ [last]).map .ok ++ items, Item.IsEnd item :=
        ⟨.ok last, by simp, hlast⟩
      obtain ⟨t', ht'⟩ := Parser.exists_run?_eq_some (p := l.dialect.parser) hr hend
      have hfailure := Parser.failure_of_run? ht'
      rw [firstError_map_ok_append, herror] at hfailure
      rw [Parser.parse?, ht', Option.map_some, State.result, hfailure]

/-- The text `a := (1`, an end token, and behind it a closing parenthesis, a second end token and
then two lexical errors. -/
theorem Language.end_token_closes_parenthesis :
    let tokens : List (Token Boolean.Kind) := [⟨.identifier, "a", ⟨1, 1⟩⟩,
      ⟨.assign, ":=", ⟨1, 4⟩⟩, ⟨.parBegin, "(", ⟨1, 6⟩⟩, ⟨.number, "1", ⟨1, 7⟩⟩]
    let last : Token Boolean.Kind := .endOfInput ⟨1, 7⟩
    let rest : List (Token Boolean.Kind) := [⟨.parEnd, ")", ⟨1, 8⟩⟩, .endOfInput ⟨1, 8⟩]
    let complaint : Diagnostic := ⟨.expected, "Expected ParEnd but got 'Eof'", ⟨1, 7⟩⟩
    Boolean.dialect.parser.parseTokens? (tokens ++ last :: rest) = some [complaint] ∧
      Boolean.dialect.parser.parse? ((tokens ++ [last]).map .ok ++ rest.map .ok ++
        [.error ⟨⟨1, 9⟩, 8⟩, .error ⟨⟨1, 10⟩, 9⟩]) = some (.error ⟨⟨1, 9⟩, 8⟩) := by
  intro tokens last rest complaint
  obtain ⟨diagnostics, hclosed, htokens, hitems⟩ := end_token_closes .boolean tokens last rfl
  have hone : Boolean.dialect.parser.parseTokens? (tokens ++ [last]) = some [complaint] := by
    decide +kernel
  have hsame : diagnostics = [complaint] := Option.some.inj (hclosed.symm.trans hone)
  constructor
  · rw [← hsame]
    exact htokens rest
  · rw [List.append_assoc]
    exact hitems _

end Lookahead
