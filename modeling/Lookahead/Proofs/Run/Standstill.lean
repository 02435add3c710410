import Lookahead.Proofs.Run.Fuel

/-!
A parse at a standstill: nothing is left to pull, so the last token stays the lookahead and every
loop goes round at most once. Whether rules are followed to an end is then settled by the kind of
this token and by the calls made at it.
-/

namespace Lookahead

variable {κ : Type} [DecidableEq κ]

mutual

/-- The calls made while a rule is followed and the next token is and stays of kind `k`. -/
def Rule.callsAt (k : κ) : Rule κ → List String
  | .call callee => [callee]
  | .loop lookahead body | .optional lookahead body =>
    if k ∈ lookahead then callsOfAt k body else []
  | .choice _ arms => callsOfArmsAt k arms
  | .expect _ | .advance | .forbid .. => []

def callsOfAt (k : κ) : List (Rule κ) → List String
  | [] => []
  | r :: rules => r.callsAt k ++ callsOfAt k rules

def callsOfArmAt (k : κ) : Arm κ → Option (List String)
  | (lookahead, body) => if k ∈ lookahead then some (callsOfAt k body) else none

def callsOfArmsAt (k : κ) : List (Arm κ) → List String
  | [] => []
  | a :: arms => (callsOfArmAt k a).getD (callsOfArmsAt k arms)

end

variable {k : κ}

theorem callsOfArmsAt_of_find?_eq_none {arms : List (Arm κ)}
    (h : arms.find? (fun arm ↦ decide (k ∈ arm.1)) = none) : callsOfArmsAt k arms = [] := by
  induction arms with
  | nil => rfl
  | cons a arms ih =>
    obtain ⟨lookahead, body⟩ := a
    rw [List.find?_cons] at h
    split at h
    · cases h
    · rename_i hk
      have hk : k ∉ lookahead := by simpa using hk
      rw [callsOfArmsAt, callsOfArmAt, if_neg hk, Option.getD_none, ih h]

theorem callsOfArmsAt_of_find?_eq_some {arms : List (Arm κ)} {arm : Arm κ}
    (h : arms.find? (fun arm ↦ decide (k ∈ arm.1)) = some arm) :
    callsOfArmsAt k arms = callsOfAt k arm.2 ∧ sizeOfRules arm.2 ≤ sizeOfArms arms := by
  induction arms with
  | nil => cases h
  | cons a arms ih =>
    obtain ⟨lookahead, body⟩ := a
    rw [List.find?_cons] at h
    rw [callsOfArmsAt, callsOfArmAt, sizeOfArms, sizeOfArm]
    split at h
    · rename_i hk
      have hk : k ∈ lookahead := by simpa using hk
      cases h
      rw [if_pos hk]
      exact ⟨rfl, Nat.le_add_right _ _⟩
    · rename_i hk
      have hk : k ∉ lookahead := by simpa using hk
      rw [if_neg hk]
      exact ⟨(ih h).1, Nat.le_trans (ih h).2 (Nat.le_add_left _ _)⟩

/-- A rule other than a call either enters no body or a smaller one that makes the same calls. -/
theorem Rule.callsAt_cases [TokenKind κ] (g : Grammar κ) (k : κ) (rule : Rule κ) :
    (∃ callee, rule = .call callee) ∨
    (rule.callsAt k = [] ∧ ∀ body again, g.move k rule ≠ .enter body again) ∨
    ∃ body again, g.move k rule = .enter body again ∧ rule.callsAt k = callsOfAt k body ∧
      sizeOfRules body < rule.size := by
  cases rule with
  | call callee => exact .inl ⟨callee, rfl⟩
  | expect j =>
    refine .inr (.inl ⟨rfl, fun body again ↦ ?_⟩)
    rw [Grammar.move]
    split <;> simp
  | advance => exact .inr (.inl ⟨rfl, by simp [Grammar.move]⟩)
  | forbid lookahead message =>
    refine .inr (.inl ⟨rfl, fun body again ↦ ?_⟩)
    rw [Grammar.move]
    split <;> simp
  | loop lookahead body | optional lookahead body =>
    by_cases hk : k ∈ lookahead
    · exact .inr (.inr ⟨body, _, if_pos hk, if_pos hk, Nat.lt_succ_self _⟩)
    · exact .inr (.inl ⟨if_neg hk, by simp [Grammar.move, hk]⟩)
  | choice title arms =>
    rw [Rule.callsAt, Rule.size, Grammar.move]
    cases ha : arms.find? fun arm ↦ decide (k ∈ arm.1) with
    | none => exact .inr (.inl ⟨callsOfArmsAt_of_find?_eq_none ha, by simp⟩)
    | some arm =>
      obtain ⟨hc, hs⟩ := callsOfArmsAt_of_find?_eq_some ha
      exact .inr (.inr ⟨arm.2, false, rfl, hc, Nat.lt_succ_of_le hs⟩)

omit [DecidableEq κ] in
theorem Grammar.exists_production? {g : Grammar κ} {callee : String}
    (h : callee ∈ namesOf g.productions) :
    ∃ production, g.production? callee = some production ∧ production ∈ g.productions ∧
      production.name = callee := by
  obtain ⟨production, hp, hn⟩ := List.mem_map.1 h
  have hsome : (g.production? callee).isSome := by
    rw [Grammar.production?, List.find?_isSome]
    exact ⟨production, hp, by simp [hn]⟩
  obtain ⟨found, hf⟩ := Option.isSome_iff_exists.1 hsome
  exact ⟨found, hf, List.mem_of_find?_eq_some hf, by simpa using List.find?_some hf⟩

/-- Nothing is left to pull, and the lookahead is of kind `k`. -/
structure State.Still (k : κ) (s : State κ) : Prop where
  rest : s.rest = []
  kind : s.current.kind = k

omit [DecidableEq κ] in
theorem State.Still.of_later {s t : State κ} (hs : s.Still k) (h : s.Later t) :
    t.Still k ∧ t.consumed = s.consumed := by
  rcases h with h | h
  · rw [hs.rest] at h
    cases h
  · exact ⟨⟨h.rest ▸ hs.rest, h.current ▸ hs.kind⟩, h.consumed.symm⟩

namespace Parser

variable [TokenKind κ]

def Halts (p : Parser κ) (rules : List (Rule κ)) (s : State κ) : Prop :=
  ∃ t, p.Follows rules s t

/-! ### Following a rule as its move directs -/

variable {p : Parser κ} {rule : Rule κ} {rules body : List (Rule κ)} {s t : State κ}

theorem follows_of_pass (h : p.grammar.move s.current.kind rule = .pass) :
    p.Follows (rule :: rules) s t ↔ p.Follows rules s t :=
  follows_step fun n ↦ by rw [follow_cons, h]; rfl

theorem follows_of_advance (h : p.grammar.move s.current.kind rule = .advance) :
    p.Follows (rule :: rules) s t ↔ p.Follows rules s.advance t :=
  follows_step fun n ↦ by rw [follow_cons, h]; rfl

theorem follows_of_raise {code : Code} {message : String}
    (h : p.grammar.move s.current.kind rule = .raise code message) :
    p.Follows (rule :: rules) s t ↔ p.Follows rules (s.raise p.admits code message) t :=
  follows_step fun n ↦ by rw [follow_cons, h]; rfl

theorem follows_of_enter {again : Bool}
    (h : p.grammar.move s.current.kind rule = .enter body again) :
    p.Follows (rule :: rules) s t ↔
      ∃ u, p.Follows body s u ∧ p.Follows (remaining rule rules again s u) u t :=
  follows_body fun n ↦ by rw [follow_cons, h]; rfl

/-! ### Rules that come to an end -/

omit [DecidableEq κ] in
theorem keeps_still (p : Parser κ) (k : κ) (c : Nat) :
    p.Keeps fun s ↦ s.Still k ∧ s.consumed = c where
  advance s h := by rwa [State.advance_of_rest_eq_nil h.1.rest]
  raise _ _ _ h := ⟨⟨h.1.rest, h.1.kind⟩, h.2⟩

theorem Follows.still (h : p.Follows rules s t) (hs : s.Still k) :
    t.Still k ∧ t.consumed = s.consumed :=
  h.keeps (p.keeps_still k s.consumed) ⟨hs, rfl⟩

theorem halts_cons (hs : s.Still k)
    (hbody : ∀ body again, p.grammar.move k rule = .enter body again → p.Halts body s)
    (hrules : ∀ u, u.Still k → p.Halts rules u) : p.Halts (rule :: rules) s := by
  cases hm : p.grammar.move s.current.kind rule with
  | pass =>
    obtain ⟨t, ht⟩ := hrules s hs
    exact ⟨t, (follows_of_pass hm).2 ht⟩
  | advance =>
    obtain ⟨t, ht⟩ := hrules _ ((p.keeps_still k _).advance s ⟨hs, rfl⟩).1
    exact ⟨t, (follows_of_advance hm).2 ht⟩
  | raise code message =>
    obtain ⟨t, ht⟩ := hrules _ ((p.keeps_still k _).raise s code message ⟨hs, rfl⟩).1
    exact ⟨t, (follows_of_raise hm).2 ht⟩
  | enter body again =>
    obtain ⟨u, hu⟩ := hbody body again (hs.kind ▸ hm)
    obtain ⟨hstill, hc⟩ := hu.still hs
    obtain ⟨t, ht⟩ := hrules u hstill
    refine ⟨t, (follows_of_enter hm).2 ⟨u, hu, ?_⟩⟩
    rwa [remaining, if_neg fun h ↦ h.2 hc]

def CallHalts (p : Parser κ) (k : κ) (callee : String) : Prop :=
  ∀ production s, p.grammar.production? callee = some production → s.Still k →
    p.Halts production.body s

theorem halts_of_calls (hcalls : ∀ callee ∈ callsOfAt k rules, p.CallHalts k callee)
    (hs : s.Still k) : p.Halts rules s := by
  induction hn : sizeOfRules rules using Nat.strongRecOn generalizing rules s with
  | ind n ih =>
    cases rules with
    | nil => exact ⟨s, follows_nil.2 rfl⟩
    | cons rule rules =>
      have hsize : sizeOfRules rules + rule.size = n := by rw [← hn, sizeOfRules, Nat.add_comm]
      have hpos := rule.length_places
      have hrule : ∀ callee ∈ rule.callsAt k, p.CallHalts k callee := by
        intro callee hc
        exact hcalls callee (List.mem_append_left _ hc)
      refine halts_cons hs (fun body again hm ↦ ?_) fun u hu ↦ ?_
      · rcases rule.callsAt_cases p.grammar k with ⟨callee, rfl⟩ | ⟨-, hnone⟩ | ⟨b, a, hb, hc, hlt⟩
        · rw [Grammar.move] at hm
          split at hm
          · cases hm
          · rename_i production hp
            cases hm
            exact hrule callee (List.mem_singleton_self _) production s hp hs
        · exact absurd hm (hnone body again)
        · rw [hb] at hm
          cases hm
          exact ih (sizeOfRules body) (by omega) (hc ▸ hrule) hs rfl
      · refine ih (sizeOfRules rules) (by omega) ?_ hu rfl
        intro callee hc
        exact hcalls callee (List.mem_append_right _ hc)

end Parser

/-- At a standstill at a token of kind `k`, every production calls only such of lower rank. -/
def Grammar.Descends (g : Grammar κ) (k : κ) (rank : String → Nat) : Prop :=
  ∀ production ∈ g.productions, ∀ callee ∈ callsOfAt k production.body,
    rank callee < rank production.name

instance (g : Grammar κ) (k : κ) (rank : String → Nat) : Decidable (g.Descends k rank) :=
  inferInstanceAs (Decidable (∀ _ ∈ _, _))

/-- Among the calls made at a standstill is one of these. -/
def Trapped (k : κ) (endless : List String) (rules : List (Rule κ)) : Prop :=
  ∃ callee ∈ callsOfAt k rules, callee ∈ endless

instance (k : κ) (endless : List String) (rules : List (Rule κ)) :
    Decidable (Trapped k endless rules) := inferInstanceAs (Decidable (∃ _ ∈ _, _))

/-- What takes a token of kind `k` before anything else goes on to one of these calls. -/
def TakesInto (k : κ) (endless : List String) : List (Rule κ) → Prop
  | .expect j :: rules => j = k → Trapped k endless rules
  | .advance :: rules => Trapped k endless rules
  | _ => True

instance (k : κ) (endless : List String) : DecidablePred (TakesInto k endless)
  | .expect _ :: _ => inferInstanceAs (Decidable (_ → _))
  | .advance :: _ => inferInstanceAs (Decidable (Trapped _ _ _))
  | [] | .call _ :: _ | .loop .. :: _ | .optional .. :: _ | .choice .. :: _ | .forbid .. :: _ =>
    inferInstanceAs (Decidable True)

def Move.Into (P : List (Rule κ) → Prop) : Move κ → Prop
  | .enter body _ => P body
  | _ => True

instance (P : List (Rule κ) → Prop) [DecidablePred P] : DecidablePred (Move.Into P)
  | .enter body _ => inferInstanceAs (Decidable (P body))
  | .pass | .advance | .raise .. => inferInstanceAs (Decidable True)

variable [TokenKind κ]

/-- The productions in the set call one another at a standstill at a token of kind `k`, and whatever
takes such a token calls one of them next. -/
structure Grammar.Traps (g : Grammar κ) (k : κ) (endless : List String) : Prop where
  named : ∀ callee ∈ endless, callee ∈ namesOf g.productions
  calls : ∀ production ∈ g.productions, production.name ∈ endless →
    Trapped k endless production.body
  taken : ∀ rules ∈ g.places, ∀ rule ∈ rules.head?,
    TakesInto k endless rules.tail ∧ (g.move k rule).Into (TakesInto k endless)

instance (g : Grammar κ) (k : κ) (endless : List String) : Decidable (g.Traps k endless) :=
  decidable_of_iff (_ ∧ _ ∧ _) ⟨fun ⟨hn, hc, ht⟩ ↦ ⟨hn, hc, ht⟩, fun ⟨hn, hc, ht⟩ ↦ ⟨hn, hc, ht⟩⟩

/-- A standstill has no end behind a token of one of these kinds, and has one behind all others. -/
structure Grammar.EndlessAt (g : Grammar κ) (kinds : List κ) : Prop where
  eof : TokenKind.eof ∉ kinds
  traps : ∀ k ∈ kinds, ∃ endless, g.Traps k endless
  descends : ∀ k, k ∉ kinds → ∃ rank, g.Descends k rank

namespace Parser

variable {p : Parser κ}

theorem halts_of_descends {rank : String → Nat} (hd : p.grammar.Descends k rank)
    (rules : List (Rule κ)) {s : State κ} (hs : s.Still k) : p.Halts rules s := by
  have hcalls (n : Nat) : ∀ callee, rank callee = n → p.CallHalts k callee := by
    induction n using Nat.strongRecOn with
    | ind n ih =>
      intro callee hn production s hp hs
      have hname : production.name = callee := by simpa using List.find?_some hp
      refine halts_of_calls (fun callee' hc ↦ ih (rank callee') ?_ callee' rfl) hs
      rw [← hn, ← hname]
      exact hd production (List.mem_of_find?_eq_some hp) callee' hc
  exact halts_of_calls (fun callee _ ↦ hcalls _ callee rfl) hs

variable {endless : List String} {rules : List (Rule κ)} {s : State κ}

theorem follow_eq_none_of_trapped (ht : p.grammar.Traps k endless) {n : Nat}
    (hr : Trapped k endless rules) (hs : s.Still k) : p.follow n rules s = none := by
  induction n using Nat.strongRecOn generalizing rules s with
  | ind n ih =>
    obtain ⟨callee, hc, he⟩ := hr
    cases n with
    | zero => rfl
    | succ n =>
      cases rules with
      | nil => cases hc
      | cons rule rules =>
        rw [follow_cons, hs.kind]
        rcases List.mem_append.1 hc with hc | hc
        · -- the call is made within the first rule, by a body that is followed with less fuel
          have hbody : ∃ body again, p.grammar.move k rule = .enter body again ∧
              Trapped k endless body := by
            rcases rule.callsAt_cases p.grammar k with
              ⟨c, rfl⟩ | ⟨hnil, -⟩ | ⟨body, again, hm, heq, -⟩
            · cases List.mem_singleton.1 hc
              obtain ⟨production, hp, hmem, rfl⟩ := Grammar.exists_production? (ht.named _ he)
              refine ⟨production.body, false, ?_, ht.calls production hmem he⟩
              rw [Grammar.move, hp]
            · rw [hnil] at hc
              cases hc
            · exact ⟨body, again, hm, callee, heq ▸ hc, he⟩
          obtain ⟨body, again, hm, hb⟩ := hbody
          rw [hm, followMove, ih n (Nat.lt_succ_self n) hb hs]
          rfl
        · have hrules : Trapped k endless rules := ⟨callee, hc, he⟩
          have hkeeps := p.keeps_still k s.consumed
          cases hm : p.grammar.move k rule with
          | pass => exact ih n (Nat.lt_succ_self n) hrules hs
          | advance =>
            exact ih n (Nat.lt_succ_self n) hrules (hkeeps.advance s ⟨hs, rfl⟩).1
          | raise code message =>
            exact ih n (Nat.lt_succ_self n) hrules (hkeeps.raise s code message ⟨hs, rfl⟩).1
          | enter body again =>
            rw [followMove]
            cases hu : p.follow n body s with
            | none => rfl
            | some u =>
              obtain ⟨hstill, hconsumed⟩ := Follows.still ⟨n, hu⟩ hs
              rw [Option.bind_some, remaining, if_neg fun h ↦ h.2 hconsumed]
              exact ih n (Nat.lt_succ_self n) hrules hstill

theorem not_halts_of_trapped (ht : p.grammar.Traps k endless) (hr : Trapped k endless rules)
    (hs : s.Still k) : ¬ p.Halts rules s := by
  rintro ⟨t, n, hn⟩
  rw [follow_eq_none_of_trapped ht hr hs] at hn
  cases hn

end Parser

end Lookahead
