import Mathlib.Data.List.Nodup
import Lookahead.Language.Boolean
import Lookahead.Proofs.Run.Standstill
import Lookahead.Proofs.Run.Suppression

/-!
Calls. In a grammar every name that is called has exactly one production, so that no run comes by a
call that leads nowhere, and it makes no difference in which order the productions are listed.
-/

namespace Lookahead

variable {κ : Type}

theorem callsOf_subset_of_mem_arms {arms : List (Arm κ)} {arm : Arm κ} (h : arm ∈ arms) :
    callsOf arm.2 ⊆ callsOfArms arms ∧ sizeOfRules arm.2 ≤ sizeOfArms arms := by
  induction arms with
  | nil => cases h
  | cons a arms ih =>
    rw [callsOfArms, sizeOfArms]
    rcases List.mem_cons.1 h with rfl | h
    · obtain ⟨lookahead, body⟩ := arm
      exact ⟨List.subset_append_left _ _, Nat.le_add_right _ _⟩
    · obtain ⟨hcalls, hsize⟩ := ih h
      exact ⟨List.subset_append_of_subset_right _ hcalls, Nat.le_add_left_of_le hsize⟩

namespace Grammar

variable {g g' : Grammar κ} {name : String} {production : Production κ}

theorem ofProductions_eq_ok_iff {start : String} {productions : List (Production κ)} :
    ofProductions start productions = .ok g ↔ g.start = start ∧ g.productions = productions := by
  constructor
  · intro h
    unfold ofProductions at h
    split at h
    · cases h
    · split at h
      · split at h
        · cases h
        · cases h
          exact ⟨rfl, rfl⟩
      · cases h
  · intro h
    obtain ⟨rfl, rfl⟩ := h
    have hn := (firstRepeated_eq_none_iff _).2 g.names_nodup
    have hc := (firstUndefined_eq_none_iff _).2 g.calls_mem
    unfold ofProductions
    split
    · rename_i heq
      rw [hn] at heq
      cases heq
    · rw [dif_pos g.start_mem]
      split
      · rename_i heq
        rw [hc] at heq
        cases heq
      · rfl

theorem production?_eq_some_iff :
    g.production? name = some production ↔
      production ∈ g.productions ∧ production.name = name := by
  constructor
  · intro h
    exact ⟨List.mem_of_find?_eq_some h, by simpa using List.find?_some h⟩
  · intro h
    obtain ⟨hmem, rfl⟩ := h
    obtain ⟨found, hfound, hmem', hname⟩ := exists_production? (List.mem_map_of_mem hmem)
    rw [hfound, List.inj_on_of_nodup_map g.names_nodup hmem' hmem hname]

theorem isSome_production?_iff :
    (g.production? name).isSome ↔ name ∈ namesOf g.productions := by
  constructor
  · intro h
    obtain ⟨production, hp⟩ := Option.isSome_iff_exists.1 h
    obtain ⟨hmem, rfl⟩ := production?_eq_some_iff.1 hp
    exact List.mem_map_of_mem hmem
  · intro h
    obtain ⟨production, hp, -⟩ := exists_production? h
    rw [hp]
    rfl

/-! ### The order of the productions -/

theorem production?_eq_of_perm (h : g.productions.Perm g'.productions) (name : String) :
    g.production? name = g'.production? name := by
  apply Option.ext
  intro production
  rw [production?_eq_some_iff, production?_eq_some_iff, h.mem_iff]

theorem size_eq_of_perm (h : g.productions.Perm g'.productions) : g.size = g'.size := by
  unfold size
  apply h.foldr_eq'
  intro p _ q _ n
  omega

theorem exists_ofProductions_of_perm {productions : List (Production κ)}
    (h : productions.Perm g.productions) :
    ∃ g', ofProductions g.start productions = .ok g' ∧ g'.start = g.start ∧
      g'.productions.Perm g.productions := by
  have hnames : (namesOf productions).Perm (namesOf g.productions) := h.map _
  let g' : Grammar κ := {
    start := g.start
    productions
    names_nodup := hnames.nodup_iff.2 g.names_nodup
    start_mem := hnames.mem_iff.2 g.start_mem
    calls_mem := by
      intro p hp callee hc
      exact hnames.mem_iff.2 (g.calls_mem p (h.mem_iff.1 hp) callee hc) }
  exact ⟨g', ofProductions_eq_ok_iff.2 ⟨rfl, rfl⟩, rfl, h⟩

variable [DecidableEq κ] [TokenKind κ]

theorem move_congr (h : ∀ name, g.production? name = g'.production? name) (kind : κ)
    (rule : Rule κ) : g.move kind rule = g'.move kind rule := by
  cases rule with
  | call callee => rw [move, move, h]
  | expect | advance | loop | optional | choice | forbid => rfl

/-- The body that a rule enters is that of a production, or a part of the rule. -/
theorem enter_cases {kind : κ} {rule : Rule κ} {body : List (Rule κ)} {again : Bool}
    (h : g.move kind rule = .enter body again) :
    (∃ callee production, rule = .call callee ∧ g.production? callee = some production ∧
      body = production.body) ∨
    (callsOf body ⊆ rule.calls ∧ sizeOfRules body < rule.size) := by
  cases rule with
  | expect k =>
    rw [move] at h
    split at h <;> cases h
  | advance => cases h
  | call callee =>
    rw [move] at h
    split at h
    · cases h
    · rename_i production hp
      cases h
      exact .inl ⟨callee, production, rfl, hp, rfl⟩
  | loop lookahead b | optional lookahead b =>
    rw [move] at h
    split at h <;> cases h
    exact .inr ⟨List.Subset.refl _, Nat.lt_succ_self _⟩
  | choice title arms =>
    rw [move] at h
    split at h <;> cases h
    rename_i arm ha
    obtain ⟨hcalls, hsize⟩ := callsOf_subset_of_mem_arms (List.mem_of_find?_eq_some ha)
    exact .inr ⟨hcalls, Nat.lt_succ_of_le hsize⟩
  | forbid lookahead message =>
    rw [move] at h
    split at h <;> cases h

end Grammar

variable [DecidableEq κ] [TokenKind κ]

namespace Parser

/-- Rules that are to be followed at some point while `rules` are followed from `s`, and the state
they are then followed from. -/
inductive Visits (p : Parser κ) (rules : List (Rule κ)) (s : State κ) :
    List (Rule κ) → State κ → Prop
  | start : Visits p rules s rules s
  | pass {rule more u} (h : Visits p rules s (rule :: more) u)
      (hm : p.grammar.move u.current.kind rule = .pass) : Visits p rules s more u
  | advance {rule more u} (h : Visits p rules s (rule :: more) u)
      (hm : p.grammar.move u.current.kind rule = .advance) : Visits p rules s more u.advance
  | raise {rule more u code message} (h : Visits p rules s (rule :: more) u)
      (hm : p.grammar.move u.current.kind rule = .raise code message) :
      Visits p rules s more (u.raise p.admits code message)
  | enter {rule more u body again} (h : Visits p rules s (rule :: more) u)
      (hm : p.grammar.move u.current.kind rule = .enter body again) : Visits p rules s body u
  | leave {rule more u body again v} (h : Visits p rules s (rule :: more) u)
      (hm : p.grammar.move u.current.kind rule = .enter body again) (hv : p.Follows body u v) :
      Visits p rules s (remaining rule more again u v) v

theorem Visits.follow_eq {p q : Parser κ} {rules place : List (Rule κ)} {s u : State κ}
    (hm : ∀ rule more u, p.Visits rules s (rule :: more) u →
      p.grammar.move u.current.kind rule = q.grammar.move u.current.kind rule)
    (ha : p.admits = q.admits) (hv : p.Visits rules s place u) (n : Nat) :
    p.follow n place u = q.follow n place u := by
  induction n generalizing place u with
  | zero => rfl
  | succ n ih =>
    cases place with
    | nil => rfl
    | cons rule more =>
      rw [follow_cons, follow_cons, ← hm rule more u hv]
      cases h : p.grammar.move u.current.kind rule with
      | pass => exact ih (hv.pass h)
      | advance => exact ih (hv.advance h)
      | raise code message =>
        rw [followMove, followMove, ← ha]
        exact ih (hv.raise h)
      | enter body again =>
        rw [followMove, followMove, ← ih (hv.enter h)]
        cases hb : p.follow n body u with
        | none => rfl
        | some v => exact ih (hv.leave h ⟨n, hb⟩)

/-- Every call in these rules has a target. -/
def Resolved (g : Grammar κ) (rules : List (Rule κ)) : Prop :=
  ∀ callee ∈ callsOf rules, callee ∈ namesOf g.productions

variable {rule : Rule κ} {rules more : List (Rule κ)} {s u v : State κ} {again : Bool}

omit [DecidableEq κ] [TokenKind κ] in
theorem Resolved.tail {g : Grammar κ} (h : Resolved g (rule :: more)) : Resolved g more := by
  intro callee hc
  exact h callee (List.mem_append_right _ hc)

theorem Resolved.body {g : Grammar κ} {kind : κ} {body : List (Rule κ)} (h : Resolved g (rule :: more))
    (hm : g.move kind rule = .enter body again) : Resolved g body := by
  rcases Grammar.enter_cases hm with ⟨callee, production, -, hp, rfl⟩ | ⟨hcalls, -⟩
  · exact g.calls_mem production (Grammar.production?_eq_some_iff.1 hp).1
  · intro callee hc
    exact h callee (List.mem_append_left _ (hcalls hc))

omit [DecidableEq κ] [TokenKind κ] in
theorem Resolved.remaining {g : Grammar κ} (h : Resolved g (rule :: more)) :
    Resolved g (remaining rule more again u v) := by
  unfold Parser.remaining
  split
  · exact h
  · exact h.tail

theorem Visits.resolved {p : Parser κ} (h : p.Visits rules s more u) (hr : Resolved p.grammar rules) :
    Resolved p.grammar more := by
  induction h with
  | start => exact hr
  | pass _ _ ih | advance _ _ ih | raise _ _ ih => exact ih.tail
  | enter _ hm ih => exact ih.body hm
  | leave _ _ _ ih => exact ih.remaining

end Parser

namespace Grammar

theorem run?_eq_of_perm {g g' : Grammar κ} (hs : g.start = g'.start)
    (h : g.productions.Perm g'.productions) (items : List (Item κ)) :
    g.parser.run? items = g'.parser.run? items := by
  have hmoves := move_congr (production?_eq_of_perm h)
  have hfollow (n : Nat) (rules : List (Rule κ)) (s : State κ) :
      g.parser.follow n rules s = g'.parser.follow n rules s := by
    apply Parser.Visits.follow_eq (p := g.parser) (q := g'.parser) _ rfl .start
    intro rule more u _
    exact hmoves u.current.kind rule
  have hfuel : g.parser.fuel items = g'.parser.fuel items := by
    simp only [Parser.fuel, parser, size_eq_of_perm h]
  rw [Parser.run?, Parser.run?, hfollow, hfuel]
  simp only [parser, hs]

/-- The productions of a grammar are found by their names, each name that is listed leading to the
one production that has it. No run comes by a call whose name is not listed, and with the productions
in another order every run is the same. -/
theorem calls_lead_somewhere {start : String} {productions : List (Production κ)} {g : Grammar κ}
    (h : ofProductions start productions = .ok g) :
    (∀ name, (g.production? name).isSome ↔ name ∈ namesOf productions) ∧
    (∀ name production, g.production? name = some production ↔
      production ∈ productions ∧ production.name = name ∧
        ∀ other ∈ productions, other.name = name → other = production) ∧
    (∀ (items : List (Item κ)) (callee : String) (more : List (Rule κ)) (s : State κ),
      g.parser.Visits [.call start] (State.ofItems items).advance (.call callee :: more) s →
      ∃ production, g.production? callee = some production) ∧
    ∀ productions', productions'.Perm productions →
      ∃ g', ofProductions start productions' = .ok g' ∧
        ∀ items, g'.parser.run? items = g.parser.run? items := by
  obtain ⟨rfl, rfl⟩ := ofProductions_eq_ok_iff.1 h
  refine ⟨fun name ↦ isSome_production?_iff, ?_, ?_, ?_⟩
  · intro name production
    constructor
    · intro hp
      obtain ⟨hmem, hname⟩ := production?_eq_some_iff.1 hp
      refine ⟨hmem, hname, ?_⟩
      intro other hother hn
      rw [production?_eq_some_iff.2 ⟨hother, hn⟩] at hp
      exact Option.some.inj hp
    · intro hp
      obtain ⟨hmem, hname, -⟩ := hp
      exact production?_eq_some_iff.2 ⟨hmem, hname⟩
  · intro items callee more s hvisit
    have hstart : Parser.Resolved g [.call g.start] := by
      intro callee hc
      rw [List.mem_singleton.1 hc]
      exact g.start_mem
    have hresolved := hvisit.resolved hstart
    have hmem := hresolved callee (List.mem_append_left _ (List.mem_singleton_self callee))
    exact Option.isSome_iff_exists.1 (isSome_production?_iff.2 hmem)
  · intro productions' hperm
    obtain ⟨g', hg', hs, hp⟩ := exists_ofProductions_of_perm hperm
    exact ⟨g', hg', run?_eq_of_perm hs hp⟩

end Grammar

/-- The call of a statement behind a name that begins a text, and the productions in reverse. -/
theorem Boolean.calls_lead_somewhere_reversed :
    (∃ production, grammar.production? "statement" = some production) ∧
    ∃ g', Grammar.ofProductions "program" productions.reverse = .ok g' ∧
      ∀ items, g'.parser.run? items = grammar.parser.run? items := by
  have hg : Grammar.ofProductions "program" productions = .ok grammar :=
    Grammar.ofProductions_eq_ok_iff.2 ⟨rfl, rfl⟩
  obtain ⟨-, -, hcalls, horder⟩ := Grammar.calls_lead_somewhere hg
  constructor
  · apply hcalls [.ok ⟨.identifier, "a", ⟨1, 1⟩⟩]
    have hstart : grammar.parser.Visits [.call "program"]
        (State.ofItems [.ok ⟨.identifier, "a", ⟨1, 1⟩⟩]).advance [.call "program"]
        (State.ofItems [.ok ⟨.identifier, "a", ⟨1, 1⟩⟩]).advance := .start
    have hprogram := hstart.enter rfl
    exact hprogram.enter rfl
  · exact horder _ productions.reverse_perm

end Lookahead
