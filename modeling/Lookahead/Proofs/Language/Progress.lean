import Lookahead.Proofs.Language.Ranking
import Lookahead.Proofs.Run.Progress

/-!
The loops of both languages. A loop over statements goes round from the words and names that
statements begin with, a loop over operators takes an operator first.
-/

namespace Lookahead.Language

theorem loopsTake (l : Language) : l.dialect.grammar.LoopsTake 8 := by
  cases l <;> decide +kernel

/-- On a stream with an end, a round of a loop that consumes nothing leaves a token at which the
loop is not entered again. So without the check that ends a loop at such a round, every such stream
is parsed to an end too, and to the same state. -/
theorem loops_need_no_check (l : Language) (items : List (Item l.Kind))
    (h : ∃ item ∈ items, Item.IsEnd item) :
    (∀ (lookahead : List l.Kind) (body more : List (Rule l.Kind)) (s u : State l.Kind),
      l.dialect.parser.Visits [.call l.dialect.grammar.start] (State.ofItems items).advance
        (.loop lookahead body :: more) s →
      s.sees lookahead → l.dialect.parser.Follows body s u → u.consumed = s.consumed →
      ¬ u.sees lookahead) ∧
    ∃ t, l.dialect.parser.run? items = some t ∧
      ∃ enough, ∀ n, enough ≤ n → l.dialect.parser.runFreely? n items = some t := by
  obtain ⟨r, hr⟩ := l.exists_ranked
  have htakes := l.loopsTake
  constructor
  · intro lookahead body more s u hvisit hsees hbody hc
    have hstart := State.Watched.start hr h
    obtain ⟨hwatched, hplace⟩ := hvisit.watched hr hstart List.mem_cons_self
    have hk : s.current.kind ∈ lookahead := of_decide_eq_true hsees
    have hnot := Parser.not_mem_of_round htakes hplace hwatched.bounded hk hbody hc
    simpa [State.sees] using hnot
  · exact Parser.exists_runFreely?_eq hr htakes h

/-- A name with an error behind it: the statement that begins with it consumes nothing more. -/
theorem loops_need_no_check_interrupted :
    let items : List (Item Imperative.Kind) :=
      [.ok ⟨.identifier, "x", ⟨1, 1⟩⟩, .error ⟨⟨1, 1⟩, 1⟩]
    (∃ u, Imperative.dialect.parser.Follows [.call "statement"] (State.ofItems items).advance u ∧
      u.consumed = (State.ofItems items).advance.consumed ∧ ¬ u.sees Imperative.statementStart) ∧
    ∃ t, Imperative.dialect.parser.run? items = some t ∧
      ∃ enough, ∀ n, enough ≤ n → Imperative.dialect.parser.runFreely? n items = some t := by
  intro items
  have hend : ∃ item ∈ items, Item.IsEnd item := ⟨.error ⟨⟨1, 1⟩, 1⟩, by simp [items], trivial⟩
  obtain ⟨hround, hrun⟩ := loops_need_no_check .imperative items hend
  have hstatement : (Imperative.dialect.parser.follow 20 [.call "statement"]
      (State.ofItems items).advance).map State.consumed = some 1 := by decide +kernel
  obtain ⟨u, hu, hc⟩ := Option.map_eq_some_iff.1 hstatement
  have hvisit : Imperative.dialect.parser.Visits [.call "program"] (State.ofItems items).advance
      [.loop Imperative.statementStart [.call "statement"]] (State.ofItems items).advance :=
    .enter .start rfl
  exact ⟨⟨u, ⟨20, hu⟩, hc, hround _ _ _ _ u hvisit rfl ⟨20, hu⟩ hc⟩, hrun⟩

end Lookahead.Language
