import Lookahead.Proofs.Run.Calls

/-!
Grammars in layers. Where a production calls only such of lower rank, every stream is parsed to an
end, with an end token or without: of the rounds of a loop each consumes something or is the last.
-/

namespace Lookahead

variable {κ : Type}

/-- Every call within a production leads to one of lower rank. -/
def Grammar.Layered (g : Grammar κ) (rank : String → Nat) : Prop :=
  ∀ production ∈ g.productions, ∀ callee ∈ production.calls, rank callee < rank production.name

instance (g : Grammar κ) (rank : String → Nat) : Decidable (g.Layered rank) :=
  inferInstanceAs (Decidable (∀ _ ∈ _, _))

variable [DecidableEq κ] [TokenKind κ]

namespace Parser

def Total (p : Parser κ) (rules : List (Rule κ)) : Prop := ∀ s, p.Halts rules s

variable {p : Parser κ} {rule : Rule κ} {rules : List (Rule κ)}

theorem Total.cons
    (hbody : ∀ kind body again, p.grammar.move kind rule = .enter body again → p.Total body)
    (hrules : p.Total rules) : p.Total (rule :: rules) := by
  intro s
  -- a loop goes round again only with fewer items to come
  induction hn : s.rest.length using Nat.strongRecOn generalizing s with
  | ind n ih =>
    cases hm : p.grammar.move s.current.kind rule with
    | pass =>
      obtain ⟨t, ht⟩ := hrules s
      exact ⟨t, (follows_of_pass hm).2 ht⟩
    | advance =>
      obtain ⟨t, ht⟩ := hrules s.advance
      exact ⟨t, (follows_of_advance hm).2 ht⟩
    | raise code message =>
      obtain ⟨t, ht⟩ := hrules (s.raise p.admits code message)
      exact ⟨t, (follows_of_raise hm).2 ht⟩
    | enter body again =>
      obtain ⟨u, hu⟩ := hbody _ body again hm s
      have hlater : s.Later u := hu.keeps (p.keeps_later s) (.refl s)
      have hrest : p.Halts (remaining rule rules again s u) u := by
        unfold remaining
        split
        · rename_i hagain
          rcases hlater with hlt | halike
          · exact ih u.rest.length (hn ▸ hlt) u rfl
          · exact absurd halike.consumed.symm hagain.2
        · exact hrules u
      obtain ⟨t, ht⟩ := hrest
      exact ⟨t, (follows_of_enter hm).2 ⟨u, hu, ht⟩⟩

theorem total_of_callees (h : ∀ callee ∈ callsOf rules, ∀ production,
    p.grammar.production? callee = some production → p.Total production.body) : p.Total rules := by
  -- what a rule enters is a part of it, except at a call
  induction hn : sizeOfRules rules using Nat.strongRecOn generalizing rules with
  | ind n ih =>
    cases rules with
    | nil =>
      intro s
      exact ⟨s, follows_nil.2 rfl⟩
    | cons rule rules =>
      have hsize : rule.size + sizeOfRules rules = n := hn
      have hpos := rule.length_places
      apply Total.cons
      · intro kind body again hm
        rcases Grammar.enter_cases hm with ⟨callee, production, rfl, hp, rfl⟩ | ⟨hcalls, hlt⟩
        · exact h callee (List.mem_append_left _ (List.mem_singleton_self callee)) production hp
        · refine ih (sizeOfRules body) (by omega) ?_ rfl
          intro callee hc
          exact h callee (List.mem_append_left _ (hcalls hc))
      · refine ih (sizeOfRules rules) (by omega) ?_ rfl
        intro callee hc
        exact h callee (List.mem_append_right _ hc)

theorem total_of_layered {rank : String → Nat} (h : p.grammar.Layered rank)
    (rules : List (Rule κ)) : p.Total rules := by
  have hbody (n : Nat) : ∀ callee production, rank callee = n →
      p.grammar.production? callee = some production → p.Total production.body := by
    induction n using Nat.strongRecOn with
    | ind n ih =>
      intro callee production hn hp
      obtain ⟨hmem, rfl⟩ := Grammar.production?_eq_some_iff.1 hp
      apply total_of_callees
      intro callee hc production' hp'
      exact ih (rank callee) (hn ▸ h production hmem callee hc) callee production' rfl hp'
  apply total_of_callees
  intro callee _ production hp
  exact hbody (rank callee) callee production rfl hp

end Parser

/-- By a grammar in layers every stream is parsed to an end. -/
theorem Grammar.parses_in_layers (g : Grammar κ) (rank : String → Nat) (h : g.Layered rank)
    (items : List (Item κ)) : ∃ result, g.parser.parse? items = some result := by
  have htotal : g.parser.Total [.call g.start] := Parser.total_of_layered (p := g.parser) h _
  obtain ⟨u, hu⟩ := htotal (State.ofItems items).advance
  have hrun := Parser.run?_eq_some_iff.2 ⟨u, hu, rfl⟩
  exact ⟨_, by rw [Parser.parse?, hrun, Option.map_some]⟩

namespace Boolean

open Kind

/-- Loops within loops, some of which have nothing to take. -/
def restless : Grammar Kind where
  start := "program"
  productions := [
    ⟨"program", [
      .loop [identifier, number] [.loop [identifier] [.loop [number, identifier] []], .call "item"],
      .loop [eof, number] [.call "item", .loop [eof] []]]⟩,
    ⟨"item", [
      .choice "Item" [
        ([number], [.loop [number] [.optional [identifier] [.advance]], .advance]),
        ([identifier], [.loop [identifier] [.forbid [identifier] "no name"]])]]⟩]
  names_nodup := by decide
  start_mem := by decide
  calls_mem := by decide

/-- A stream without an end token, and one that breaks off at a lexical error. -/
theorem parses_in_layers_restless :
    restless.Layered ["item", "program"].idxOf ∧
    (∃ result, restless.parser.parse? [.ok ⟨number, "1", ⟨1, 1⟩⟩, .ok ⟨identifier, "a", ⟨1, 3⟩⟩] =
      some result) ∧
    ∃ result, restless.parser.parse? [.ok ⟨number, "1", ⟨1, 1⟩⟩, .error ⟨⟨1, 2⟩, 2⟩,
      .ok ⟨identifier, "a", ⟨1, 4⟩⟩] = some result := by
  have h : restless.Layered ["item", "program"].idxOf := by decide
  exact ⟨h, restless.parses_in_layers _ h _, restless.parses_in_layers _ h _⟩

end Boolean

end Lookahead
