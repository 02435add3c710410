import Lookahead.Proofs.Imperative.Recognition
import Lookahead.Proofs.Run.Lockstep

/-!
Programs in front of other text. A program leads back to where the parser began, so what stands
behind it is parsed as if it stood alone, and what is complained about there is never suppressed
altogether.
-/

namespace Lookahead.Imperative

open Kind Lookahead.Parser

theorem Sentence.eof_not_mem {ks : List Kind} (h : Sentence ks) : eof ∉ ks := by
  intro hk
  have hlacks (x : Symbol) : (syntaxOf x).Lacks eof := by
    cases x <;> simp [syntaxOf, Ebnf.Lacks, HAppend.hAppend, Append.append, HOr.hOr, OrOp.or]
  cases Ebnf.Derives.mem_rest hlacks (e := .symbol Symbol.program) trivial h hk

/-- The shortest statement is an assignment. -/
theorem Sentence.three_le_length {ks : List Kind} (h : Sentence ks) (hne : ks ≠ []) :
    3 ≤ ks.length := by
  cases ks with
  | nil => exact absurd rfl hne
  | cons k ks =>
    have ha := recognizes.sentence_iff.1 h
    obtain ⟨goals, hs, hr⟩ := Option.bind_eq_some_iff.1 ha
    have hgoals : 3 ≤ Predictor.due goals := by
      cases k with
      | eof => exact absurd List.mem_cons_self h.eof_not_mem
      | const | var | identifier | doWord =>
        cases hs
        decide
      | _ => cases hs
    have hdue := Predictor.due_le_length hr
    have hlength : (ks ++ [eof]).length = ks.length + 1 := List.length_append
    have hle : 3 ≤ (ks ++ [eof]).length := Nat.le_trans hgoals hdue
    rw [List.length_cons]
    omega

/-- The first token of a statement decides what is followed up to its terminator. -/
theorem exists_statement {k : Kind} (hk : k ∈ statementStart) : ∃ body, ∀ {s t : State Kind},
    s.current.kind = k → (dialect.parser.Follows [.call "statement"] s t ↔
      ∃ u, dialect.parser.Follows body s u ∧ t = u.expect dialect.parser.admits terminator) := by
  have hstatement : ∃ production rule, dialect.parser.grammar.production? "statement" =
      some production ∧ production.body = [rule] ∧ ∀ k ∈ statementStart, ∃ callee called,
        dialect.parser.grammar.move k rule = .enter [.call callee, .expect terminator] false ∧
          dialect.parser.grammar.production? callee = some called := by
    refine ⟨_, _, rfl, rfl, ?_⟩
    simp only [statementStart, List.forall_mem_cons]
    exact ⟨⟨_, _, rfl, rfl⟩, ⟨_, _, rfl, rfl⟩, ⟨_, _, rfl, rfl⟩, ⟨_, _, rfl, rfl⟩, by simp⟩
  obtain ⟨production, rule, hp, hbody, hmove⟩ := hstatement
  obtain ⟨callee, called, hm, hc⟩ := hmove k hk
  refine ⟨called.body, ?_⟩
  intro s t hs
  rw [follows_call hp, hbody]
  simp [follows_of_enter (hs ▸ hm), remaining, follows_nil, follows_call hc, follows_expect]

/-- What is followed as a program. -/
abbrev statementRules : List (Rule Kind) := [.loop statementStart [.call "statement"]]

theorem follows_program {s t : State Kind} :
    dialect.parser.Follows [.call dialect.parser.grammar.start] s t ↔
      dialect.parser.Follows statementRules s t := by
  rw [follows_call rfl]
  simp only [follows_nil, exists_eq_right']

variable {g : Reading dialect.parser predictor} {ahead : List (Token Kind)} {s s' t : State Kind}

/-- A statement that is followed without a complaint over some tokens is followed in the same way
with more text behind these, up to its terminator. -/
theorem exists_terminator (h : dialect.parser.Follows [.call "statement"] s t)
    (hk : s.current.kind ∈ statementStart)
    (hs : s.Beside g.tokens.length [g.last] ahead s') (hreads : s.Reads g.stream)
    (hpos : 0 < s.consumed) (hraises : t.raises = []) :
    ∃ w w' : State Kind, w.Beside g.tokens.length [g.last] ahead w' ∧
      w.Reads g.stream ∧ s.consumed ≤ w.consumed ∧ t = w.advance ∧
      dialect.parser.Follows [.call "statement"] s' w'.advance := by
  obtain ⟨body, hbody⟩ := exists_statement hk
  obtain ⟨w, hw, rfl⟩ := (hbody rfl).1 h
  have hkind := State.kind_of_raises_expect hraises
  have hgrow := hw.consumed_le
  obtain ⟨k, hw⟩ := hw
  have hwreads := (dialect.parser.keepsMoves_reads g.stream).follow hw hreads
  have hle : w.consumed ≤ g.tokens.length := by
    rw [← Nat.not_lt, ← hwreads.ended_iff (by omega) g.kind_ne_last, hkind, g.kind_last]
    decide
  obtain ⟨w', hw', hbeside⟩ := follow_beside hw hs (List.cons_ne_nil _ _) hle
  have hkind' : w'.current.kind = terminator := hbeside.current ▸ hkind
  refine ⟨w, w', hbeside, hwreads, hgrow, if_pos hkind, ?_⟩
  exact (hbody (hs.current ▸ rfl)).2 ⟨w', ⟨k, hw'⟩, (if_pos hkind').symm⟩

/-- A program that is followed without a complaint is followed in the same way with more text behind
it, up to its last terminator, and then the text behind it is. -/
theorem exists_last_terminator {k : Nat}
    (h : dialect.parser.follow k statementRules s = some t)
    (hs : s.Beside g.tokens.length [g.last] ahead s') (hreads : s.Reads g.stream)
    (hpos : 0 < s.consumed) (hne : ahead ≠ []) (hraises : t.raises = [])
    (hend : t.current.kind = TokenKind.eof) :
    ∃ w w' : State Kind, w.Beside g.tokens.length [g.last] ahead w' ∧
      w.consumed = g.tokens.length ∧ w.raises = [] ∧
      ∀ t', dialect.parser.Follows statementRules w'.advance t' →
        dialect.parser.Follows statementRules s' t' := by
  induction k generalizing s s' with
  | zero => cases h
  | succ k ih =>
    rw [follow_cons, Grammar.move] at h
    split at h
    · rename_i hk
      obtain ⟨u, hu, ht⟩ := Option.bind_eq_some_iff.1 h
      have hnone := Follows.raises_eq_nil ⟨k, ht⟩ hraises
      obtain ⟨w, w', hw, hwreads, hgrow, rfl, hstatement⟩ :=
        exists_terminator ⟨k, hu⟩ hk hs hreads hpos hnone
      obtain ⟨hnext, hnext'⟩ := hw.consumed_advance (List.cons_ne_nil _ _) hne
      have hloop (t' : State Kind) (ht' : dialect.parser.Follows statementRules w'.advance t') :
          dialect.parser.Follows statementRules s' t' := by
        have hsees : s'.sees statementStart := decide_eq_true (hs.current ▸ hk)
        have hne : w'.advance.consumed ≠ s'.consumed := by
          rw [hnext', ← hw.consumed, ← hs.consumed]
          omega
        rw [follows_loop_of_sees hsees]
        exact ⟨w'.advance, hstatement, by rwa [if_neg hne]⟩
      rcases Nat.lt_or_eq_of_le hw.consumed_le with hlt | heq
      · rw [remaining, if_pos ⟨rfl, by omega⟩] at ht
        obtain ⟨v, v', hv, hconsumed, hvraises, hvloop⟩ :=
          ih ht (hw.advance hlt) hwreads.advance (by omega)
        exact ⟨v, v', hv, hconsumed, hvraises, fun t' ht' ↦ hloop t' (hvloop t' ht')⟩
      · exact ⟨w, w', hw, heq, w.raises_advance ▸ hnone, hloop⟩
    · -- here the loop would have ended before the end of the program
      have hle := hs.consumed_le
      rw [eq_of_follow_nil h, ← g.kind_last, hreads.ended_iff hpos g.kind_ne_last] at hend
      omega

/-- A run over a program passes the program as the start production, without a complaint. -/
theorem exists_follow_program (g : Reading dialect.parser predictor)
    (hs : Sentence (g.tokens.map Token.kind)) :
    ∃ k t, dialect.parser.follow k statementRules (State.ofItems (g.stream.map .ok)).advance =
        some t ∧
      t.raises = [] ∧ t.current.kind = TokenKind.eof := by
  obtain ⟨u, hu, hraises, hend⟩ := recognizes.exists_follows g hs
  obtain ⟨k, hk⟩ := follows_program.1 hu
  exact ⟨k, u, hk, hraises, hend⟩

theorem exists_run?_behind {before after : List (Token Kind)} {last : Token Kind}
    (hs : Sentence (before.map Token.kind)) (hne : before ≠ [])
    (hafter : ∀ t ∈ after, t.kind ≠ eof) (hl : last.kind = eof) :
    ∃ t u, dialect.parser.run? ((before ++ (after ++ [last])).map .ok) = some t ∧
      dialect.parser.run? ((after ++ [last]).map .ok) = some u ∧
      u.raises.map Raise.complaint = t.raises.map Raise.complaint ∧
      u.raises.map (·.consumed + before.length) = t.raises.map Raise.consumed := by
  have hbefore : ∀ t ∈ before, t.kind ≠ TokenKind.eof := by
    intro t ht hk
    exact hs.eof_not_mem (List.mem_map.2 ⟨t, ht, hk⟩)
  let g : Reading dialect.parser predictor := ⟨before, last, hbefore, hl⟩
  let g' : Reading dialect.parser predictor := ⟨after, last, hafter, hl⟩
  obtain ⟨k, e, he, hraises, hend⟩ := exists_follow_program g hs
  obtain ⟨u, hu⟩ := recognizes.exists_run? g'
  obtain ⟨v, hv, rfl⟩ := run?_eq_some_iff.1 hu
  obtain ⟨j, hj⟩ := follows_program.1 hv
  have hpos : 0 < (State.ofItems (g.stream.map .ok)).advance.consumed := by
    rw [g.stands_start.consumed]
    exact Nat.succ_pos _
  have hahead : g'.stream ≠ [] := List.append_ne_nil_of_right_ne_nil _ (List.cons_ne_nil _ _)
  have hstart : (State.ofItems (g.stream.map .ok)).advance.Beside g.tokens.length [g.last] g'.stream
      (State.ofItems ((before ++ g'.stream).map .ok)).advance := State.beside_ofItems hne
  obtain ⟨w, w', hw, hconsumed, hnone, hloop⟩ := exists_last_terminator he hstart
    (State.Reads.ofItems _).advance hpos hahead hraises hend
  have hsimulates := simulates_behind dialect.parser dialect.parser before.length
  obtain ⟨t, ht, hlast⟩ := hsimulates.follow rfl hj (hw.behind hahead hconsumed hnone)
  have hfinal := hsimulates.expect hlast TokenKind.eof
  refine ⟨_, _, run?_eq_some_iff.2 ⟨t, ?_, rfl⟩, hu, ?_, ?_⟩
  · exact follows_program.2 (hloop t ⟨j, ht⟩)
  · rw [State.raises_drain, State.raises_drain]
    exact hfinal.complaints
  · rw [State.raises_drain, State.raises_drain]
    exact hfinal.places

/-- A program in front of other text leaves the complaints about that text as they are, and there is
a diagnostic of the whole unless the other text is a program too. -/
theorem complaints_behind_program (before after : List (Token Kind)) (last : Token Kind)
    (hs : Sentence (before.map Token.kind)) (hne : before ≠ [])
    (hafter : ∀ t ∈ after, t.kind ≠ eof) (hl : last.kind = eof) :
    ∃ t u, dialect.parser.run? ((before ++ after ++ [last]).map .ok) = some t ∧
      dialect.parser.run? ((after ++ [last]).map .ok) = some u ∧
      t.raises.map Raise.complaint = u.raises.map Raise.complaint ∧
      (dialect.parser.parse? ((before ++ after ++ [last]).map .ok) = some (.ok []) ↔
        Sentence (after.map Token.kind)) ∧
      (dialect.parser.parseTokens? (before ++ after ++ [last]) = some [] ↔
        Sentence (after.map Token.kind)) := by
  obtain ⟨t, u, ht, hu, hcomplaints, hplaces⟩ := exists_run?_behind hs hne hafter hl
  rw [← List.append_assoc] at ht
  let g : Reading dialect.parser predictor := ⟨after, last, hafter, hl⟩
  have hthree := hs.three_le_length (by simpa using hne)
  rw [List.length_map] at hthree
  have hfar : ∀ r ∈ t.raises, suppressionWindow < r.consumed := by
    intro r hr
    have hplace := List.mem_map_of_mem (f := Raise.consumed) hr
    rw [← hplaces] at hplace
    obtain ⟨r', -, hr'⟩ := List.mem_map.1 hplace
    rw [suppressionWindow]
    omega
  have hsilent : t.diagnostics = [] ↔ Sentence (after.map Token.kind) := by
    rw [← recognizes.raises_eq_nil_iff g hu, ← List.map_eq_nil_iff (f := Raise.complaint),
      hcomplaints, List.map_eq_nil_iff, ← spaced_zero_eq_nil_iff hfar,
      Grammar.diagnostics_eq_spaced ht, List.map_eq_nil_iff]
  refine ⟨t, u, ht, hu, hcomplaints.symm, ?_, ?_⟩
  · rw [← hsilent, Parser.parse?_map_ok ht, Option.some.injEq, Except.ok.injEq]
  · rw [← hsilent, parseTokens?, ht, Option.map_some, Option.some.injEq]

/-- The text `a := -1 + !b;` in front of `x := 1 y`. -/
theorem complaints_behind_negatedSum :
    Sentence (negatedSum.map Token.kind) ∧ ∃ t u,
      dialect.parser.run?
        ((negatedSum ++ unterminated.dropLast ++ [Token.endOfInput ⟨1, 8⟩]).map .ok) = some t ∧
      dialect.parser.run? (unterminated.map .ok) = some u ∧
      t.raises.map Raise.complaint = u.raises.map Raise.complaint ∧
      dialect.parser.parseTokens?
        (negatedSum ++ unterminated.dropLast ++ [Token.endOfInput ⟨1, 8⟩]) ≠ some [] := by
  have hs : Sentence (negatedSum.map Token.kind) := by decide
  have hnot : ¬ Sentence (unterminated.dropLast.map Token.kind) := by decide
  obtain ⟨t, u, ht, hu, hcomplaints, -, hparse⟩ :=
    complaints_behind_program negatedSum unterminated.dropLast (.endOfInput ⟨1, 8⟩) hs
      (List.cons_ne_nil _ _) (by decide) rfl
  exact ⟨hs, t, u, ht, hu, hcomplaints, fun hempty ↦ hnot (hparse.1 hempty)⟩

end Lookahead.Imperative
