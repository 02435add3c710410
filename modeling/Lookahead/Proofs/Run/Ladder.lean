import Lookahead.Proofs.Run.Calls
import Lookahead.Proofs.Run.Cutoff
import Lookahead.Proofs.Run.Watch

/-!
Ladders of binary operators. A level calls the next tighter one behind every operand, and that one
goes on until it sees none of its operators; so all levels together go on as one loop does that
takes any of their operators.
-/

namespace Lookahead

variable {κ : Type}

/-- A level of binary operators, with what is checked between an operator and its operand. -/
structure Level (κ : Type) where
  name : String
  operators : List κ
  checks : List (Rule κ) := []

/-! The levels stand in a list, the loosest first. -/

/-- The call that leads into the ladder. -/
def callsOfLevels : List (Level κ) → List (Rule κ)
  | [] => []
  | level :: _ => [.call level.name]

def operatorsOf (levels : List (Level κ)) : List κ := levels.flatMap Level.operators

namespace Level

/-- Takes an operator. -/
def take (level : Level κ) : List (Rule κ) := .advance :: level.checks

/-- Takes an operator and its operand. -/
def turn (level : Level κ) : List (Rule κ) := level.take ++ [.call "unary"]

/-- What stands in the grammar for a level above the tighter ones. -/
def production (level : Level κ) (tighter : List (Level κ)) : Production κ where
  name := level.name
  body := callsOfLevels tighter ++
    [.loop level.operators (level.turn ++ callsOfLevels tighter)]

end Level

/-- One loop over the operators of all levels. -/
def flatLoop (levels : List (Level κ)) : Rule κ :=
  .loop (operatorsOf levels)
    [.choice "Operator" (levels.map fun level ↦ (level.operators, level.take)), .call "unary"]

/-- The productions without the levels, and with the one loop for them in every expression. -/
def flatten (levels : List (Level κ)) (productions : List (Production κ)) : List (Production κ) :=
  (productions.filter (·.name ∉ levels.map Level.name)).map fun production ↦
    if production.name = "expression" then ⟨"expression", [.call "unary", flatLoop levels]⟩
    else production

def Grammar.HasLadder (g : Grammar κ) : List (Level κ) → Prop
  | [] => True
  | level :: tighter =>
    g.production? level.name = some (level.production tighter) ∧ HasLadder g tighter

theorem find?_arm [DecidableEq κ] {levels : List (Level κ)} {level : Level κ} {k : κ}
    (hn : (operatorsOf levels).Nodup) (hl : level ∈ levels) (hk : k ∈ level.operators) :
    (levels.map fun level ↦ (level.operators, level.take)).find? (fun arm ↦ decide (k ∈ arm.1)) =
      some (level.operators, level.take) := by
  induction levels with
  | nil => cases hl
  | cons level' levels ih =>
    rw [operatorsOf, List.flatMap_cons, List.nodup_append] at hn
    obtain ⟨-, hrest, hdisjoint⟩ := hn
    rw [List.map_cons]
    rcases List.mem_cons.1 hl with rfl | hl
    · exact List.find?_cons_of_pos (decide_eq_true hk)
    · have hnot : k ∉ level'.operators := fun hk' ↦
        hdisjoint k hk' k (List.mem_flatMap.2 ⟨level, hl, hk⟩) rfl
      rw [List.find?_cons_of_neg (by simpa using hnot)]
      exact ih hrest hl

variable [DecidableEq κ] [TokenKind κ]

/-- More than `n` tokens are consumed, or a lexical error stands for all that follows. -/
def State.Passed (n : Nat) (s : State κ) : Prop :=
  n < s.consumed ∨ s.failure ≠ none ∧ s.current.kind = TokenKind.eof

omit [DecidableEq κ] in
theorem State.Bounded.passed_advance {s : State κ} (hs : s.Bounded)
    (hk : s.current.kind ≠ TokenKind.eof) : s.advance.Passed s.consumed := by
  obtain ⟨hf, item, hitem, -⟩ := hs.resolve_left hk
  obtain ⟨next, rest, hrest⟩ := List.exists_cons_of_ne_nil (List.ne_nil_of_mem hitem)
  cases next with
  | ok token =>
    rw [State.advance_ok hf hrest]
    exact .inl (Nat.lt_succ_self _)
  | error error =>
    rw [State.advance_error hf hrest]
    exact .inr ⟨Option.some_ne_none error, rfl⟩

omit [DecidableEq κ] in
theorem Parser.keeps_passed (p : Parser κ) (n : Nat) : p.Keeps (State.Passed n) where
  advance s h := by
    rcases h with hlt | ⟨hfailure, hkind⟩
    · exact .inl ((p.keeps_consumed n).advance s hlt)
    · obtain ⟨error, herror⟩ := Option.ne_none_iff_exists'.1 hfailure
      rw [State.advance_of_failure herror]
      exact .inr ⟨hfailure, hkind⟩
  raise _ _ _ h := h

omit [DecidableEq κ] in
theorem State.Passed.kind_eq_eof {n : Nat} {s : State κ} (h : s.Passed n) (hc : s.consumed = n) :
    s.current.kind = TokenKind.eof := by
  rcases h with hlt | ⟨-, hkind⟩
  · exact absurd hc (Nat.ne_of_gt hlt)
  · exact hkind

/-- Where nothing is consumed behind a token that was there to be taken, a lexical error came up. -/
theorem Parser.Follows.kind_eq_eof {p : Parser κ} {rules : List (Rule κ)} {s t : State κ}
    (h : p.Follows rules s.advance t) (hs : s.Bounded) (hk : s.current.kind ≠ TokenKind.eof)
    (hc : t.consumed = s.consumed) : t.current.kind = TokenKind.eof :=
  (h.keeps (p.keeps_passed s.consumed) (hs.passed_advance hk)).kind_eq_eof hc

namespace Parser

/-- Operators with their operands, one behind the other, each of some level. -/
inductive Turns (p : Parser κ) (levels : List (Level κ)) : State κ → State κ → Prop
  | refl (s : State κ) : Turns p levels s s
  | step {level : Level κ} {s u t : State κ} (hl : level ∈ levels)
      (hk : s.current.kind ∈ level.operators) (hs : s.Bounded) (hturn : p.Follows level.turn s u)
      (hrest : Turns p levels u t) : Turns p levels s t

variable {p : Parser κ} {r : Ranking κ} {level : Level κ} {levels : List (Level κ)}
  {s t u : State κ}

theorem Turns.above (h : p.Turns levels s u) (h' : p.Turns (level :: levels) u t) :
    p.Turns (level :: levels) s t := by
  induction h with
  | refl => exact h'
  | step hl hk hs hturn _ ih => exact .step (List.mem_cons_of_mem _ hl) hk hs hturn (ih h')

omit [TokenKind κ] [DecidableEq κ] in
theorem mem_operatorsOf {k : κ} (hl : level ∈ levels) (hk : k ∈ level.operators) :
    k ∈ operatorsOf levels :=
  List.mem_flatMap.2 ⟨level, hl, hk⟩

omit [TokenKind κ] [DecidableEq κ] in
theorem not_mem_operatorsOf_cons {k : κ} :
    k ∉ operatorsOf (level :: levels) ↔ k ∉ level.operators ∧ k ∉ operatorsOf levels := by
  rw [operatorsOf, List.flatMap_cons, List.mem_append, not_or]
  rfl

section Ladder

variable (hr : p.grammar.Ranked r)
include hr

/-- The loop of a level goes round until it sees no operator of this level nor of a tighter one. -/
theorem turns_of_loop (heof : TokenKind.eof ∉ operatorsOf (level :: levels))
    (htighter : ∀ {s t : State κ}, s.Watched r (callsOfLevels levels) →
      p.Follows (callsOfLevels levels) s t →
      p.Turns levels s t ∧ t.current.kind ∉ operatorsOf levels)
    (hs : s.Watched r [.loop level.operators (level.turn ++ callsOfLevels levels)])
    (hk : s.current.kind ∉ operatorsOf levels)
    (h : p.Follows [.loop level.operators (level.turn ++ callsOfLevels levels)] s t) :
    p.Turns (level :: levels) s t ∧ t.current.kind ∉ operatorsOf (level :: levels) := by
  obtain ⟨n, hn⟩ := h
  induction n generalizing s with
  | zero => cases hn
  | succ n ih =>
    rw [follow_cons] at hn
    by_cases hop : s.current.kind ∈ level.operators
    · have hm : p.grammar.move s.current.kind
          (.loop level.operators (level.turn ++ callsOfLevels levels)) =
            .enter (level.turn ++ callsOfLevels levels) true := if_pos hop
      rw [hm] at hn
      obtain ⟨v, hv, hn⟩ := Option.bind_eq_some_iff.1 hn
      obtain ⟨hbody, hrest⟩ := hs.enter hr hm
      have hv : p.Follows (level.turn ++ callsOfLevels levels) s v := ⟨n, hv⟩
      obtain ⟨u, hu, huv⟩ := follows_append.1 hv
      have hwatched := hu.watched hr hbody
      obtain ⟨hturns, hstop⟩ := htighter hwatched huv
      have hrest := hrest v (huv.bounded hr hwatched)
      have hgo : p.Turns (level :: levels) v t ∧
          t.current.kind ∉ operatorsOf (level :: levels) := by
        by_cases hc : v.consumed = s.consumed
        · -- the loop is left at a lexical error
          rw [remaining, if_neg fun h ↦ h.2 hc] at hn
          obtain rfl := eq_of_follow_nil hn
          have hend : t.current.kind = TokenKind.eof := by
            have hne : s.current.kind ≠ TokenKind.eof := fun he ↦
              heof (he ▸ mem_operatorsOf List.mem_cons_self hop)
            exact (follows_advance.1 hv).kind_eq_eof hbody.bounded hne hc
          exact ⟨.refl t, hend ▸ heof⟩
        · rw [remaining, if_pos ⟨rfl, hc⟩] at hn hrest
          exact ih hrest hstop hn
      refine ⟨.step List.mem_cons_self hop hbody.bounded hu ?_, hgo.2⟩
      exact hturns.above hgo.1
    · rw [Grammar.move, if_neg hop] at hn
      obtain rfl := eq_of_follow_nil hn
      exact ⟨.refl t, not_mem_operatorsOf_cons.2 ⟨hop, hk⟩⟩

theorem turns_of_follows (hladder : p.grammar.HasLadder levels)
    (heof : TokenKind.eof ∉ operatorsOf levels) (hs : s.Watched r (callsOfLevels levels))
    (h : p.Follows (callsOfLevels levels) s t) :
    p.Turns levels s t ∧ t.current.kind ∉ operatorsOf levels := by
  induction levels generalizing s t with
  | nil =>
    obtain rfl := follows_nil.1 h
    exact ⟨.refl t, List.not_mem_nil⟩
  | cons level levels ih =>
    obtain ⟨hp, hladder⟩ := hladder
    have heof' := (not_mem_operatorsOf_cons.1 heof).2
    have hm : p.grammar.move s.current.kind (.call level.name) =
        .enter (level.production levels).body false := by rw [Grammar.move, hp]
    have hbody := (hs.enter hr hm).1
    rw [callsOfLevels, follows_enter hm, List.append_nil] at h
    obtain ⟨u, hu, ht⟩ := follows_append.1 h
    obtain ⟨hturns, hstop⟩ := ih hladder heof' hbody.of_append hu
    obtain ⟨hrest, hend⟩ := turns_of_loop hr heof (ih hladder heof') (hu.watched hr hbody) hstop ht
    exact ⟨hturns.above hrest, hend⟩

omit hr in
theorem Turns.follows_flatLoop (h : p.Turns levels s t)
    (hn : (TokenKind.eof :: operatorsOf levels).Nodup)
    (hend : t.current.kind ∉ operatorsOf levels) : p.Follows [flatLoop levels] s t := by
  obtain ⟨heof, hn⟩ := List.nodup_cons.1 hn
  induction h with
  | refl s =>
    have hsees : ¬ s.sees (operatorsOf levels) := by simpa [State.sees] using hend
    exact (follows_loop_of_not_sees hsees).2 (follows_nil.2 rfl)
  | @step level s u t hl hk hs hturn hrest ih =>
    have hop := mem_operatorsOf hl hk
    have hround : p.Follows
        [.choice "Operator" (levels.map fun level ↦ (level.operators, level.take)), .call "unary"]
        s u := by
      have hm : p.grammar.move s.current.kind
          (.choice "Operator" (levels.map fun level ↦ (level.operators, level.take))) =
            .enter level.take false := by
        rw [Grammar.move, find?_arm hn hl hk]
      exact (follows_enter hm).2 hturn
    refine (follows_loop_of_sees (by simpa [State.sees] using hop)).2 ⟨u, hround, ?_⟩
    split
    · rename_i hc
      -- at a lexical error no further operator is seen
      have hne : s.current.kind ≠ TokenKind.eof := fun he ↦ heof (he ▸ hop)
      have hu := (follows_advance.1 hturn).kind_eq_eof hs hne hc
      cases hrest with
      | refl => exact follows_nil.2 rfl
      | step hl' hk' => exact absurd (mem_operatorsOf hl' hk') (hu ▸ heof)
    · exact ih hend

/-- What the one loop leads to, the ladder leads to. -/
theorem follows_calls_of_flatLoop (hladder : p.grammar.HasLadder levels)
    (hn : (TokenKind.eof :: operatorsOf levels).Nodup) (hs : s.Watched r (callsOfLevels levels))
    (h : p.Follows [flatLoop levels] s t) : p.Follows (callsOfLevels levels) s t := by
  obtain ⟨t', ht'⟩ := halts_of_watched hr hs
  obtain ⟨hturns, hend⟩ := turns_of_follows hr hladder (List.nodup_cons.1 hn).1 hs ht'
  rwa [h.unique (hturns.follows_flatLoop hn hend)]

end Ladder

/-- Rules are followed as before if every production is replaced by one that leads to the same state
as long as the end of the stream is ahead. -/
theorem Follows.replace {p q : Parser κ} {rules : List (Rule κ)} (hr : q.grammar.Ranked r)
    (ha : p.admits = q.admits)
    (hbody : ∀ name production, q.grammar.production? name = some production →
      ∃ production', p.grammar.production? name = some production' ∧ ∀ s t : State κ, s.Bounded →
        p.Follows production.body s t → p.Follows production'.body s t)
    (hrules : Resolved q.grammar rules) (hs : s.Watched r rules) (h : q.Follows rules s t) :
    p.Follows rules s t := by
  have hmove {k : κ} {rule : Rule κ} (hcall : ∀ callee, rule ≠ .call callee) :
      p.grammar.move k rule = q.grammar.move k rule := by
    cases rule with
    | call callee => exact absurd rfl (hcall callee)
    | expect | advance | loop | optional | choice | forbid => rfl
  have hcalls {k : κ} {callee : String} {more : List (Rule κ)}
      (hrules : Resolved q.grammar (.call callee :: more)) :
      ∃ production, q.grammar.production? callee = some production ∧
        q.grammar.move k (.call callee) = .enter production.body false := by
    have hdefined := hrules callee (List.mem_append_left _ (List.mem_singleton_self callee))
    obtain ⟨production, hp⟩ :=
      Option.isSome_iff_exists.1 (Grammar.isSome_production?_iff.2 hdefined)
    exact ⟨production, hp, by rw [Grammar.move, hp]⟩
  -- a rule that does not enter a body is no call
  have hplain {k : κ} {rule : Rule κ} {more : List (Rule κ)} {m : Move κ}
      (hrules : Resolved q.grammar (rule :: more)) (hm : q.grammar.move k rule = m)
      (hne : ∀ body, m ≠ .enter body false) : p.grammar.move k rule = m := by
    refine (hmove ?_).trans hm
    rintro callee rfl
    obtain ⟨production, -, henter⟩ := hcalls hrules
    exact hne _ (hm.symm.trans henter)
  induction h using Follows.move_induction with
  | nil => exact follows_nil.2 rfl
  | pass hm _ ih =>
    exact (follows_of_pass (hplain hrules hm (by simp))).2 (ih hrules.tail hs.tail)
  | advance hm _ ih =>
    exact (follows_of_advance (hplain hrules hm (by simp))).2 (ih hrules.tail (hs.advance hm).2)
  | raise hm _ ih =>
    have hrest := ih hrules.tail (hs.tail.raise q.admits _ _)
    rw [← ha] at hrest
    exact (follows_of_raise (hplain hrules hm (by simp))).2 hrest
  | @enter rule rules body again s u t hm hu _ ihbody ih =>
    obtain ⟨hwatched, hrest⟩ := hs.enter hr hm
    have hin := ihbody (hrules.body hm) hwatched
    have hbehind := ih hrules.remaining (hrest u (hu.bounded hr hwatched))
    by_cases hcall : ∃ callee, rule = .call callee
    · obtain ⟨callee, rfl⟩ := hcall
      obtain ⟨production, hp, henter⟩ := hcalls hrules
      cases hm.symm.trans henter
      obtain ⟨production', hp', hsame⟩ := hbody callee production hp
      rw [remaining, if_neg (by simp)] at hbehind
      exact (follows_call hp').2 ⟨u, hsame s u hs.bounded hin, hbehind⟩
    · exact (follows_of_enter ((hmove fun callee he ↦ hcall ⟨callee, he⟩).trans hm)).2
        ⟨u, hin, hbehind⟩

end Parser

/-- The second grammar is the first one with one loop in place of its ladder of operators. Both are
known to end. -/
structure Grammar.Flattens (g g' : Grammar κ) (levels : List (Level κ)) (r r' : Ranking κ) :
    Prop where
  start : g'.start = g.start
  productions : g'.productions = flatten levels g.productions
  expression :
    g.production? "expression" = some ⟨"expression", .call "unary" :: callsOfLevels levels⟩
  ladder : g.HasLadder levels
  operators : (TokenKind.eof :: operatorsOf levels).Nodup
  ranked : g.Ranked r
  entry : r.entry "expression" = none
  ranked' : g'.Ranked r'

namespace Grammar.Flattens

variable {g g' : Grammar κ} {levels : List (Level κ)} {r r' : Ranking κ} {s t : State κ}

theorem follows_body (h : g.Flattens g' levels r r') {name : String} {production : Production κ}
    (hp : g'.production? name = some production) :
    ∃ production', g.production? name = some production' ∧ ∀ s t : State κ, s.Bounded →
      g.parser.Follows production.body s t → g.parser.Follows production'.body s t := by
  obtain ⟨hmem, rfl⟩ := production?_eq_some_iff.1 hp
  rw [h.productions, flatten, List.mem_map] at hmem
  obtain ⟨production', hmem, rfl⟩ := hmem
  have hmem := (List.mem_filter.1 hmem).1
  split
  · refine ⟨_, h.expression, fun s t hs ht ↦ ?_⟩
    have hwatched : s.Watched r (.call "unary" :: callsOfLevels levels) := by
      have hg := h.ranked.2 _ (production?_eq_some_iff.1 h.expression).1
      exact ⟨hs, _, _, hg, by simp [h.entry]⟩
    obtain ⟨u, hu, ht⟩ := Parser.follows_cons.1 ht
    have hrest := hu.watched h.ranked hwatched
    exact Parser.follows_cons.2
      ⟨u, hu, Parser.follows_calls_of_flatLoop h.ranked h.ladder h.operators hrest ht⟩
  · exact ⟨production', production?_eq_some_iff.2 ⟨hmem, rfl⟩, fun _ _ _ ht ↦ ht⟩

/-- A run with the one loop is a run with the ladder. -/
theorem run?_of_flat (h : g.Flattens g' levels r r') {items : List (Item κ)}
    (hitems : ∃ item ∈ items, Item.IsEnd item) (ht : g'.parser.run? items = some t) :
    g.parser.run? items = some t := by
  obtain ⟨u, hu, rfl⟩ := Parser.run?_eq_some_iff.1 ht
  refine Parser.run?_eq_some_iff.2 ⟨u, ?_, rfl⟩
  have hstart := State.Watched.start h.ranked' hitems
  have hresolved : Parser.Resolved g' [.call g'.start] := by
    intro callee hc
    rw [List.mem_singleton.1 hc]
    exact g'.start_mem
  have hreplaced := Parser.Follows.replace (p := g.parser) (q := g'.parser) h.ranked' rfl
    (fun _ _ ↦ h.follows_body) hresolved hstart hu
  rw [h.start] at hreplaced
  exact hreplaced

theorem exists_run? (h : g.Flattens g' levels r r') {items : List (Item κ)}
    (hitems : ∃ item ∈ items, Item.IsEnd item) :
    ∃ t, g.parser.run? items = some t ∧ g'.parser.run? items = some t := by
  obtain ⟨t, ht⟩ := Parser.exists_run?_eq_some (p := g'.parser) h.ranked' hitems
  exact ⟨t, h.run?_of_flat hitems ht, ht⟩

end Grammar.Flattens

end Lookahead
