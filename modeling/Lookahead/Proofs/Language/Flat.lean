import Lookahead.Proofs.Language.Ranking
import Lookahead.Proofs.Run.Ladder

/-!
The expressions of both languages with one loop over all binary operators in place of the ladder.
The ladder says which operator binds how tightly, and nothing that a parse reports depends on it.
-/

namespace Lookahead

namespace Imperative

open Kind

/-- The levels of binary operators, from the loosest to the tightest. -/
def levels : List (Level Kind) := [
  ⟨"assign_tail", [assign], []⟩,
  ⟨"or_tail", [or], []⟩,
  ⟨"and_tail", [and], []⟩,
  ⟨"equality_tail", [eq, ne], []⟩,
  ⟨"relational_tail", [relOp], []⟩,
  ⟨"additive_tail", [add, sub], [noDoubleNegation]⟩,
  ⟨"multiplicative_tail", [mul, div], []⟩]

def flatGrammar : Grammar Kind where
  start := "program"
  productions := flatten levels productions
  names_nodup := by decide
  start_mem := by decide
  calls_mem := by decide

example : flatGrammar.production? "expression" = some ⟨"expression", [
    .call "unary",
    .loop [assign, or, and, eq, ne, relOp, add, sub, mul, div] [
      .choice "Operator" [
        ([assign], [.advance]), ([or], [.advance]), ([and], [.advance]), ([eq, ne], [.advance]),
        ([relOp], [.advance]), ([add, sub], [.advance, noDoubleNegation]),
        ([mul, div], [.advance])],
      .call "unary"]]⟩ := rfl

theorem flattens : grammar.Flattens flatGrammar levels ranking ranking where
  start := rfl
  productions := rfl
  expression := rfl
  ladder := ⟨rfl, rfl, rfl, rfl, rfl, rfl, rfl, trivial⟩
  operators := by decide
  ranked := ranked
  entry := rfl
  ranked' := by decide

end Imperative

namespace Boolean

open Kind

def levels : List (Level Kind) := [
  ⟨"assign_tail", [assign], []⟩,
  ⟨"or_tail", [or], []⟩,
  ⟨"xor_tail", [xor], []⟩,
  ⟨"and_tail", [and], []⟩,
  ⟨"relational_tail", [relOp], []⟩]

def flatGrammar : Grammar Kind where
  start := "program"
  productions := flatten levels productions
  names_nodup := by decide
  start_mem := by decide
  calls_mem := by decide

theorem flattens : grammar.Flattens flatGrammar levels ranking ranking where
  start := rfl
  productions := rfl
  expression := rfl
  ladder := ⟨rfl, rfl, rfl, rfl, rfl, trivial⟩
  operators := by decide
  ranked := ranked
  entry := rfl
  ranked' := by decide

end Boolean

namespace Language

def flatGrammar : (l : Language) → Grammar l.Kind
  | imperative => Imperative.flatGrammar
  | boolean => Boolean.flatGrammar

/-- With the ladder of operators and with one loop over all of them a stream with an end is parsed
to the same state: the same is complained about at the same tokens, as much is consumed, and the
result is the same. -/
theorem ladder_is_one_loop (l : Language) (items : List (Item l.Kind))
    (h : ∃ item ∈ items, Item.IsEnd item) :
    ∃ t, l.dialect.parser.run? items = some t ∧ l.flatGrammar.parser.run? items = some t ∧
      l.dialect.parser.parse? items = l.flatGrammar.parser.parse? items := by
  have hrun : ∃ t, l.dialect.parser.run? items = some t ∧
      l.flatGrammar.parser.run? items = some t := by
    cases l with
    | imperative => exact Imperative.flattens.exists_run? h
    | boolean => exact Boolean.flattens.exists_run? h
  obtain ⟨t, ht, ht'⟩ := hrun
  exact ⟨t, ht, ht', by rw [Parser.parse?, Parser.parse?, ht, ht']⟩

/-- The text `x := 1+-*` with an error behind it. -/
theorem ladder_is_one_loop_interrupted :
    let items : List (Item Imperative.Kind) := [
      .ok ⟨.identifier, "x", ⟨1, 1⟩⟩, .ok ⟨.assign, ":=", ⟨1, 4⟩⟩, .ok ⟨.number, "1", ⟨1, 6⟩⟩,
      .ok ⟨.add, "+", ⟨1, 7⟩⟩, .ok ⟨.sub, "-", ⟨1, 8⟩⟩, .ok ⟨.mul, "*", ⟨1, 9⟩⟩,
      .error ⟨⟨1, 9⟩, 9⟩]
    ∃ t, Imperative.dialect.parser.run? items = some t ∧
      Imperative.flatGrammar.parser.run? items = some t ∧
      t.raises.map Raise.consumed = [5, 6, 6, 6] ∧
      Imperative.dialect.parser.parse? items = Imperative.flatGrammar.parser.parse? items := by
  intro items
  have hrun : (Imperative.dialect.parser.run? items).map (·.raises.map Raise.consumed) =
      some [5, 6, 6, 6] := by decide +kernel
  have hend : ∃ item ∈ items, Item.IsEnd item := ⟨.error ⟨⟨1, 9⟩, 9⟩, by simp [items], trivial⟩
  obtain ⟨t, ht, hflat, hresult⟩ := ladder_is_one_loop .imperative items hend
  obtain ⟨t', ht', hc⟩ := Option.map_eq_some_iff.1 hrun
  have hsame : t = t' := Option.some.inj (ht.symm.trans ht')
  exact ⟨t, ht, hflat, hsame ▸ hc, hresult⟩

end Language

end Lookahead
