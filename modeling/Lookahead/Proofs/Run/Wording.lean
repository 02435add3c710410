import Lookahead.Proofs.Run.Passage

/-!
What a grammar complains with. A complaint is of an expectation, or else its text stands in one of the
productions, at whatever depth.
-/

namespace Lookahead

variable {κ : Type}

mutual

/-- The complaints that a rule can make, apart from those of expectations. -/
def Rule.complaints : Rule κ → List (Code × String)
  | .choice title arms =>
    (.invalidProduction, s!"Production '{title}' is invalid") :: complaintsOfArms arms
  | .forbid _ message => [(.forbidden, message)]
  | .loop _ body | .optional _ body => complaintsOf body
  | .expect _ | .advance | .call _ => []

def complaintsOf : List (Rule κ) → List (Code × String)
  | [] => []
  | r :: rules => r.complaints ++ complaintsOf rules

def complaintsOfArm : Arm κ → List (Code × String)
  | (_, body) => complaintsOf body

def complaintsOfArms : List (Arm κ) → List (Code × String)
  | [] => []
  | a :: arms => complaintsOfArm a ++ complaintsOfArms arms

end

def Grammar.complaints (g : Grammar κ) : List (Code × String) :=
  g.productions.flatMap fun p ↦ complaintsOf p.body

theorem complaintsOf_subset_of_mem_arms {arms : List (Arm κ)} {arm : Arm κ} (h : arm ∈ arms) :
    complaintsOf arm.2 ⊆ complaintsOfArms arms := by
  induction arms with
  | nil => cases h
  | cons a arms ih =>
    rw [complaintsOfArms]
    rcases List.mem_cons.1 h with rfl | h
    · obtain ⟨lookahead, body⟩ := arm
      exact List.subset_append_left _ _
    · exact List.subset_append_of_subset_right _ (ih h)

variable [DecidableEq κ] [TokenKind κ] {g : Grammar κ} {kind : κ} {rule : Rule κ}
  {rules : List (Rule κ)}

/-- A complaint of an expectation, or one that stands in the productions. -/
inductive Grammar.Says (g : Grammar κ) (code : Code) (message : String) : Prop
  | expected (wanted seen : κ) (hcode : code = .expected)
      (hmessage : message = s!"Expected {name wanted} but got '{name seen}'")
  | listed (h : (code, message) ∈ g.complaints)

namespace Grammar

theorem says_of_move {code : Code} {message : String} (h : g.move kind rule = .raise code message)
    (hrule : rule.complaints ⊆ g.complaints) : g.Says code message := by
  cases rule with
  | expect k =>
    rw [move] at h
    split at h <;> cases h
    exact .expected k kind rfl rfl
  | advance => cases h
  | call callee | loop lookahead body | optional lookahead body =>
    rw [move] at h
    split at h <;> cases h
  | choice title arms =>
    rw [move] at h
    split at h <;> cases h
    exact .listed (hrule (by rw [Rule.complaints]; exact List.mem_cons_self))
  | forbid lookahead text =>
    rw [move] at h
    split at h <;> cases h
    exact .listed (hrule (by rw [Rule.complaints]; exact List.mem_cons_self))

theorem complaintsOf_subset_of_enter {body : List (Rule κ)} {again : Bool}
    (h : g.move kind rule = .enter body again) (hrule : rule.complaints ⊆ g.complaints) :
    complaintsOf body ⊆ g.complaints := by
  cases rule with
  | expect k =>
    rw [move] at h
    split at h <;> cases h
  | advance => cases h
  | call callee =>
    rw [move] at h
    split at h <;> cases h
    rename_i production hp
    intro complaint hc
    exact List.mem_flatMap.2 ⟨production, List.mem_of_find?_eq_some hp, hc⟩
  | loop lookahead b | optional lookahead b =>
    rw [move] at h
    split at h <;> cases h
    exact hrule
  | choice title arms =>
    rw [move] at h
    split at h <;> cases h
    rename_i arm ha
    rw [Rule.complaints] at hrule
    intro complaint hc
    have harm := complaintsOf_subset_of_mem_arms (List.mem_of_find?_eq_some ha) hc
    exact hrule (List.mem_cons_of_mem _ harm)
  | forbid lookahead message =>
    rw [move] at h
    split at h <;> cases h

end Grammar

/-- Everything complained about so far is in the words of the grammar. -/
def State.Said (g : Grammar κ) (s : State κ) : Prop := ∀ r ∈ s.raises, g.Says r.code r.message

namespace Parser

variable {p : Parser κ} {s t : State κ}

theorem Follows.said (h : p.Follows rules s t) (hrules : complaintsOf rules ⊆ p.grammar.complaints)
    (hs : s.Said p.grammar) : t.Said p.grammar := by
  induction h using Follows.move_induction with
  | nil => exact hs
  | pass hm h ih => exact ih (List.append_subset.1 hrules).2 hs
  | advance hm h ih =>
    apply ih (List.append_subset.1 hrules).2
    unfold State.Said
    rwa [State.raises_advance]
  | raise hm h ih =>
    apply ih (List.append_subset.1 hrules).2
    unfold State.Said
    rw [State.raises_raise]
    intro r hr
    rcases List.mem_append.1 hr with hr | hr
    · exact hs r hr
    · rw [List.mem_singleton.1 hr]
      exact Grammar.says_of_move hm (List.append_subset.1 hrules).1
  | enter hm hbody h ihbody ih =>
    have hbody := Grammar.complaintsOf_subset_of_enter hm (List.append_subset.1 hrules).1
    apply ih _ (ihbody hbody hs)
    unfold remaining
    split
    · exact hrules
    · exact (List.append_subset.1 hrules).2

/-- A whole run complains in the words of its grammar. -/
theorem said_of_run? {items : List (Item κ)} (h : p.run? items = some t) : t.Said p.grammar := by
  obtain ⟨u, hu, rfl⟩ := run?_eq_some_iff_follows.1 h
  have hsaid : u.Said p.grammar := by
    refine hu.said (by simp [complaintsOf, Rule.complaints]) ?_
    unfold State.Said
    rw [State.raises_advance]
    simp [State.ofItems, State.raises]
  unfold State.Said
  rwa [State.raises_drain]

end Parser

end Lookahead
