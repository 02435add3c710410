import Lookahead.Proofs.Run.Spacing
import Lookahead.Proofs.Run.Standstill
import Lookahead.Proofs.Run.Termination

/-!
Tokens without an end token behind them. Such a run goes as the run with an end token does, up to
where that one takes the last token and this one comes to a standstill at it. Main statements:
whether it ends at all, by the kind of the last token.
-/

namespace Lookahead

variable {κ : Type} [TokenKind κ]

/-- The same place of the tokens, without and with an end token behind them. -/
structure State.Cutoff (tokens : List (Token κ)) (last : Token κ) (s s' : State κ) : Prop where
  short : s.Reads tokens
  long : s'.Reads (tokens ++ [last])
  consumed : s.consumed = s'.consumed
  started : 0 < s.consumed
  inside : s.consumed ≤ tokens.length

namespace State

variable {tokens : List (Token κ)} {last : Token κ} {s s' : State κ}

theorem Reads.consumed_advance (h : s.Reads tokens) :
    s.advance.consumed = min (s.consumed + 1) (max s.consumed tokens.length) := by
  cases hd : tokens.drop s.consumed with
  | nil =>
    have hr : s.rest = [] := by rw [h.rest, hd]; rfl
    have hle := List.drop_eq_nil_iff.1 hd
    rw [advance_of_rest_eq_nil hr]
    omega
  | cons token rest =>
    have hr : s.rest = .ok token :: rest.map .ok := by rw [h.rest, hd]; rfl
    have hlt : s.consumed < tokens.length := by
      rw [← Nat.not_le, ← List.drop_eq_nil_iff, hd]
      exact List.cons_ne_nil _ _
    rw [advance_ok h.failure hr]
    dsimp only
    omega

namespace Cutoff

theorem current (h : s.Cutoff tokens last s') : s.current = s'.current := by
  have hs := h.short.current h.started
  have hs' := h.long.current (h.consumed ▸ h.started)
  have hlt := (List.getElem?_eq_some_iff.1 hs).1
  rw [← h.consumed, List.getElem?_append_left hlt, hs] at hs'
  exact Option.some.inj hs'

theorem advance (h : s.Cutoff tokens last s') (hlt : s.consumed < tokens.length) :
    s.advance.Cutoff tokens last s'.advance := by
  have hs := h.short.consumed_advance
  have hs' := h.long.consumed_advance
  have hc := h.consumed
  rw [List.length_append, List.length_singleton] at hs'
  exact ⟨h.short.advance, h.long.advance, by omega, by omega, by omega⟩

theorem still (h : s.Cutoff tokens last s') (hlt : ¬ s.consumed < tokens.length)
    {token : Token κ} (ht : tokens.getLast? = some token) : s.Still token.kind where
  rest := by rw [h.short.rest, List.drop_eq_nil_iff.2 (Nat.not_lt.1 hlt), List.map_nil]
  kind := by
    have hs := h.short.current h.started
    rw [Nat.le_antisymm h.inside (Nat.not_lt.1 hlt), ← List.getLast?_eq_getElem?, ht] at hs
    rw [Option.some.inj hs]

theorem lt_advance (h : s.Cutoff tokens last s') (hlt : ¬ s.consumed < tokens.length) :
    tokens.length < s'.advance.consumed := by
  have hs' := h.long.consumed_advance
  have hc := h.consumed
  rw [List.length_append, List.length_singleton] at hs'
  omega

theorem raise (h : s.Cutoff tokens last s') (admits : Nat → Bool) {code : Code} {message : String}
    (hw : code = .expected → ∃ k, k ≠ s.current.kind ∧
      message = s!"Expected {name k} but got '{name s.current.kind}'") :
    (s.raise admits code message).Cutoff tokens last (s'.raise admits code message) :=
  ⟨h.short.raise admits hw, h.long.raise admits (h.current ▸ hw), h.consumed, h.started, h.inside⟩

end Cutoff

end State

variable [DecidableEq κ]

namespace Parser

/-- Following the rules from a state comes by other rules at another state. -/
inductive ComesBy (p : Parser κ) (place : List (Rule κ)) (u : State κ) :
    List (Rule κ) → State κ → Prop
  | here : ComesBy p place u place u
  | next {rule rules s v} (hf : ∀ t, p.Follows (rule :: rules) s t ↔ p.Follows rules v t)
      (h : ComesBy p place u rules v) : ComesBy p place u (rule :: rules) s
  | body {rule rules s body again} (hm : p.grammar.move s.current.kind rule = .enter body again)
      (h : ComesBy p place u body s) : ComesBy p place u (rule :: rules) s
  | behind {rule rules s body again v}
      (hm : p.grammar.move s.current.kind rule = .enter body again) (hv : p.Follows body s v)
      (h : ComesBy p place u (remaining rule rules again s v) v) :
      ComesBy p place u (rule :: rules) s

variable {p : Parser κ} {place rules body : List (Rule κ)} {rule : Rule κ} {u s t : State κ} {k : κ}

/-- What comes by rules that have no end has none either. -/
theorem ComesBy.not_halts (h : p.ComesBy place u rules s) (hu : ¬ p.Halts place u) :
    ¬ p.Halts rules s := by
  induction h with
  | here => exact hu
  | next hf _ ih =>
    intro hend
    obtain ⟨t, ht⟩ := hend
    exact ih ⟨t, (hf t).1 ht⟩
  | body hm _ ih =>
    intro hend
    obtain ⟨t, ht⟩ := hend
    obtain ⟨v, hv, -⟩ := (follows_of_enter hm).1 ht
    exact ih ⟨v, hv⟩
  | behind hm hv _ ih =>
    intro hend
    obtain ⟨t, ht⟩ := hend
    obtain ⟨v', hv', ht⟩ := (follows_of_enter hm).1 ht
    cases hv.unique hv'
    exact ih ⟨t, ht⟩

/-- What comes by a standstill has an end if everything has one there. -/
theorem ComesBy.follows_still (h : p.ComesBy place u rules s) (hu : u.Still k)
    (hstill : ∀ rules v, v.Still k → p.Halts rules v) : ∃ t, p.Follows rules s t ∧ t.Still k := by
  induction h with
  | here =>
    obtain ⟨t, ht⟩ := hstill place u hu
    exact ⟨t, ht, (ht.still hu).1⟩
  | next hf _ ih =>
    obtain ⟨t, ht, hk⟩ := ih
    exact ⟨t, (hf t).2 ht, hk⟩
  | body hm _ ih =>
    obtain ⟨v, hv, hk⟩ := ih
    obtain ⟨t, ht⟩ := hstill _ v hk
    exact ⟨t, (follows_of_enter hm).2 ⟨v, hv, ht⟩, (ht.still hk).1⟩
  | behind hm hv _ ih =>
    obtain ⟨t, ht, hk⟩ := ih
    exact ⟨t, (follows_of_enter hm).2 ⟨_, hv, ht⟩, hk⟩

variable {endless : List String}

theorem takesInto_remaining {again : Bool} {kind : κ}
    (hm : p.grammar.move kind rule = .enter body again) (hrules : TakesInto k endless rules) :
    TakesInto k endless (remaining rule rules again s t) := by
  unfold remaining
  split
  · cases rule with
    | expect j =>
      rw [Grammar.move] at hm
      split at hm <;> cases hm
    | advance => cases hm
    | call | loop | optional | choice | forbid => trivial
  · exact hrules

theorem trapped_of_takesInto (hm : p.grammar.move k rule = .advance)
    (h : TakesInto k endless (rule :: rules)) : Trapped k endless rules := by
  cases rule with
  | expect j =>
    rw [Grammar.move] at hm
    split at hm
    · rename_i hk
      exact h hk.symm
    · cases hm
  | advance => exact h
  | call | loop | optional | choice | forbid =>
    rw [Grammar.move] at hm
    split at hm <;> cases hm

theorem ComesBy.takesInto (h : p.ComesBy place u rules s) (ht : p.grammar.Traps k endless)
    (hr : rules ∈ p.grammar.places) (hs : s.current.kind = k → TakesInto k endless rules)
    (hu : u.current.kind = k) : TakesInto k endless place := by
  have htail {rule : Rule κ} {rules : List (Rule κ)} (hr : rule :: rules ∈ p.grammar.places) :
      rules ∈ p.grammar.places ∧ TakesInto k endless rules :=
    ⟨(Grammar.places_closed hr).1, (ht.taken _ hr rule rfl).1⟩
  induction h with
  | here => exact hs hu
  | next _ _ ih => exact ih (htail hr).1 fun _ ↦ (htail hr).2
  | body hm _ ih =>
    refine ih (Grammar.mem_places_of_move hr hm) fun hk ↦ ?_
    have hinto := (ht.taken _ hr _ rfl).2
    rw [← hk, hm] at hinto
    rw [← hk]
    exact hinto
  | behind hm _ _ ih =>
    exact ih (remaining_mem_places hr) fun _ ↦ takesInto_remaining hm (htail hr).2

omit [DecidableEq κ] in
theorem keeps_consumed (p : Parser κ) (n : Nat) : p.Keeps fun s ↦ n < s.consumed where
  advance s h := by
    unfold State.advance
    split
    · exact h
    · exact h
    · exact Nat.lt_succ_of_lt h
    · exact h
  raise _ _ _ h := h

variable {tokens : List (Token κ)} {token last : Token κ} {s' t' : State κ}

/-- Following the rules comes by one that takes a token of kind `k` at a standstill. -/
def TakesLast (p : Parser κ) (k : κ) (rules : List (Rule κ)) (s : State κ) : Prop :=
  ∃ rule more u, p.ComesBy (rule :: more) u rules s ∧ u.Still k ∧
    p.grammar.move k rule = .advance

/-- What comes of rules from `s` if with an end token behind the tokens they lead to `t'`. -/
def Tracks (p : Parser κ) (tokens : List (Token κ)) (token last : Token κ) (rules : List (Rule κ))
    (s t' : State κ) : Prop :=
  (∃ t, p.Follows rules s t ∧ t.Cutoff tokens last t') ∨
    p.TakesLast token.kind rules s ∧ tokens.length < t'.consumed

theorem Tracks.next (hf : ∀ t, p.Follows (rule :: rules) s t ↔ p.Follows rules u t)
    (h : p.Tracks tokens token last rules u t') :
    p.Tracks tokens token last (rule :: rules) s t' := by
  rcases h with ⟨t, ht, hc⟩ | ⟨⟨taker, more, v, hv, htakes⟩, hlt⟩
  · exact .inl ⟨t, (hf t).2 ht, hc⟩
  · exact .inr ⟨⟨taker, more, v, .next hf hv, htakes⟩, hlt⟩

theorem tracks_of_follow (htoken : tokens.getLast? = some token) {n : Nat}
    (h : p.follow n rules s' = some t') (hs : s.Cutoff tokens last s') :
    p.Tracks tokens token last rules s t' := by
  induction n generalizing rules s s' t' with
  | zero => cases h
  | succ n ih =>
    cases rules with
    | nil =>
      cases h
      exact .inl ⟨s, follows_nil.2 rfl, hs⟩
    | cons rule rules =>
      rw [follow_cons, ← hs.current] at h
      cases hm : p.grammar.move s.current.kind rule with
      | pass =>
        rw [hm] at h
        exact (ih h hs).next fun t ↦ follows_of_pass hm
      | advance =>
        rw [hm] at h
        by_cases hlt : s.consumed < tokens.length
        · exact (ih h (hs.advance hlt)).next fun t ↦ follows_of_advance hm
        · -- only the run with an end token goes on to the next token
          have hstill := hs.still hlt htoken
          refine .inr ⟨⟨rule, rules, s, .here, hstill, hstill.kind ▸ hm⟩, ?_⟩
          exact (p.keeps_consumed tokens.length).follow h (hs.lt_advance hlt)
      | raise code message =>
        rw [hm] at h
        have hraise := hs.raise p.admits fun hc : code = .expected ↦
          Grammar.exists_of_move_eq_raise (hc ▸ hm)
        exact (ih h hraise).next fun t ↦ follows_of_raise hm
      | enter body again =>
        rw [hm] at h
        obtain ⟨v', hv', ht'⟩ := Option.bind_eq_some_iff.1 h
        rcases ih hv' hs with ⟨v, hv, hc⟩ | ⟨htakes, hlt⟩
        · have hsame : remaining rule rules again s' v' = remaining rule rules again s v := by
            unfold remaining
            rw [hs.consumed, hc.consumed]
          rw [hsame] at ht'
          rcases ih ht' hc with ⟨t, ht, hc⟩ | ⟨⟨taker, more, w, hw, htakes⟩, hlt⟩
          · exact .inl ⟨t, (follows_of_enter hm).2 ⟨v, hv, ht⟩, hc⟩
          · exact .inr ⟨⟨taker, more, w, .behind hm hv hw, htakes⟩, hlt⟩
        · obtain ⟨taker, more, w, hw, htakes⟩ := htakes
          refine .inr ⟨⟨taker, more, w, .body hm hw, htakes⟩, ?_⟩
          exact (p.keeps_consumed tokens.length).follow ht' hlt

/-! ### Whole runs -/

variable {r : Ranking κ}

/-- With an end token behind them the tokens are parsed to an end. If the last of them is not taken
on the way, then so they are without. -/
theorem exists_run?_append (hr : p.grammar.Ranked r)
    (htokens : ∀ t ∈ tokens, t.kind ≠ TokenKind.eof) (hlast : last.kind = TokenKind.eof)
    (htoken : tokens.getLast? = some token) :
    ∃ t, p.run? ((tokens ++ [last]).map .ok) = some t ∧
      (t.consumed ≤ tokens.length ∧ (∃ u, p.run? (tokens.map .ok) = some u) ∨
        tokens.length < t.consumed ∧ p.TakesLast token.kind [.call p.grammar.start]
          (State.ofItems (tokens.map .ok)).advance) := by
  have hend : ∃ item ∈ (tokens ++ [last]).map .ok, Item.IsEnd item := ⟨.ok last, by simp, hlast⟩
  obtain ⟨t, ht⟩ := exists_run?_eq_some hr hend
  obtain ⟨t', ⟨n, hn⟩, rfl⟩ := run?_eq_some_iff.1 ht
  have hstart : (State.ofItems (tokens.map .ok)).advance.Cutoff tokens last
      (State.ofItems ((tokens ++ [last]).map .ok)).advance := by
    have hs := (State.Reads.ofItems tokens).consumed_advance
    have hs' := (State.Reads.ofItems (tokens ++ [last])).consumed_advance
    have hpos : 0 < tokens.length := List.length_pos_of_mem (List.mem_of_getLast? htoken)
    rw [List.length_append, List.length_singleton] at hs'
    simp only [State.ofItems] at hs hs' ⊢
    exact ⟨(State.Reads.ofItems _).advance, (State.Reads.ofItems _).advance, by omega, by omega,
      by omega⟩
  refine ⟨_, ht, ?_⟩
  rw [State.consumed_drain]
  rcases tracks_of_follow htoken hn hstart with ⟨u, hu, hc⟩ | ⟨htakes, hlt⟩
  · have hkind : t'.current.kind ≠ TokenKind.eof := by
      rw [← hc.current]
      exact htokens _ (List.mem_of_getElem? (hc.short.current hc.started))
    refine .inl ⟨?_, _, run?_eq_some_iff.2 ⟨u, hu, rfl⟩⟩
    rw [State.expect, if_neg hkind]
    exact hc.consumed ▸ hc.inside
  · exact .inr ⟨(p.keeps_consumed tokens.length).expect hlt _, htakes⟩

theorem exists_run?_of_descends (hr : p.grammar.Ranked r)
    (htokens : ∀ t ∈ tokens, t.kind ≠ TokenKind.eof) (htoken : tokens.getLast? = some token)
    {rank : String → Nat} (hd : p.grammar.Descends token.kind rank) :
    ∃ u, p.run? (tokens.map .ok) = some u := by
  have hlast : (Token.endOfInput ⟨1, 1⟩ : Token κ).kind = TokenKind.eof := rfl
  obtain ⟨t, -, ⟨-, hu⟩ | ⟨-, rule, more, v, hv, hstill, -⟩⟩ :=
    exists_run?_append hr htokens hlast htoken
  · exact hu
  · obtain ⟨u, hu, -⟩ := hv.follows_still hstill fun rules v hs ↦ halts_of_descends hd rules hs
    exact ⟨_, run?_eq_some_iff.2 ⟨u, hu, rfl⟩⟩

theorem endless_iff_of_traps (hr : p.grammar.Ranked r)
    (htokens : ∀ t ∈ tokens, t.kind ≠ TokenKind.eof) (hlast : last.kind = TokenKind.eof)
    (htoken : tokens.getLast? = some token) {endless : List String}
    (ht : p.grammar.Traps token.kind endless) :
    p.Endless (tokens.map .ok) ↔
      ∃ t ∈ p.run? ((tokens ++ [last]).map .ok), tokens.length < t.consumed := by
  obtain ⟨t, hrun, ⟨hle, u, hu⟩ | ⟨hlt, rule, more, v, hv, hstill, hm⟩⟩ :=
    exists_run?_append hr htokens hlast htoken
  · rw [← run?_eq_none_iff, hu, hrun]
    refine iff_of_false (by simp) ?_
    intro hend
    obtain ⟨t', ht', hlt⟩ := hend
    cases ht'
    omega
  · refine iff_of_true (fun n ↦ ?_) ⟨t, hrun, hlt⟩
    have hinto := hv.takesInto ht (by simp [Grammar.places]) (fun _ ↦ trivial) hstill.kind
    have hplace : ¬ p.Halts (rule :: more) v := by
      intro hend
      obtain ⟨u, hu⟩ := hend
      rw [follows_of_advance (hstill.kind ▸ hm), State.advance_of_rest_eq_nil hstill.rest] at hu
      exact not_halts_of_trapped ht (trapped_of_takesInto hm hinto) hstill ⟨u, hu⟩
    have hstart := hv.not_halts hplace
    rw [Option.eq_none_iff_forall_ne_some]
    intro u hu
    exact hstart ⟨u, n, hu⟩

/-- A run without an end token has no end exactly if the last token is of such a kind and would be
taken, were there an end token behind it. -/
theorem endless_iff {kinds : List κ} (hr : p.grammar.Ranked r) (hg : p.grammar.EndlessAt kinds)
    (htokens : ∀ t ∈ tokens, t.kind ≠ TokenKind.eof) (hlast : last.kind = TokenKind.eof) :
    p.Endless (tokens.map .ok) ↔ (∃ token ∈ tokens.getLast?, token.kind ∈ kinds) ∧
      ∃ t ∈ p.run? ((tokens ++ [last]).map .ok), tokens.length < t.consumed := by
  cases htoken : tokens.getLast? with
  | none =>
    obtain rfl := List.getLast?_eq_none_iff.1 htoken
    obtain ⟨rank, hd⟩ := hg.descends TokenKind.eof hg.eof
    obtain ⟨u, n, hu⟩ := halts_of_descends hd [.call p.grammar.start]
      (s := (State.ofItems []).advance) ⟨rfl, rfl⟩
    refine iff_of_false (fun h ↦ ?_) (by simp)
    rw [List.map_nil] at h
    simp [h n] at hu
  | some token =>
    by_cases hk : token.kind ∈ kinds
    · obtain ⟨endless, ht⟩ := hg.traps token.kind hk
      rw [endless_iff_of_traps hr htokens hlast htoken ht]
      exact ⟨fun h ↦ ⟨⟨token, rfl, hk⟩, h⟩, And.right⟩
    · obtain ⟨rank, hd⟩ := hg.descends token.kind hk
      obtain ⟨u, hu⟩ := exists_run?_of_descends hr htokens htoken hd
      refine iff_of_false ?_ ?_
      · rw [← run?_eq_none_iff, hu]
        exact Option.some_ne_none u
      · rintro ⟨⟨token', ht', hmem⟩, -⟩
        cases ht'
        exact hk hmem

end Parser

end Lookahead
