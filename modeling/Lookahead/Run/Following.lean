import Lookahead.Run.Parser

/-!
What following rules comes to, without the fuel: a relation between the state before and the state
after. It says nothing of rules that can be followed forever.
-/

namespace Lookahead.Parser

variable {κ : Type} [DecidableEq κ] [TokenKind κ]

/-! ### One rule -/

section

variable (p : Parser κ) (n : Nat) (rules : List (Rule κ)) (s : State κ)

theorem follow_expect (kind : κ) :
    p.follow (n + 1) (.expect kind :: rules) s = p.follow n rules (s.expect p.admits kind) := rfl

theorem follow_call (name : String) :
    p.follow (n + 1) (.call name :: rules) s =
      match p.grammar.production? name with
      | none => p.follow n rules s
      | some production =>
        match p.follow n production.body s with
        | none => none
        | some t => p.follow n rules t := rfl

theorem follow_loop (lookahead : List κ) (body : List (Rule κ)) :
    p.follow (n + 1) (.loop lookahead body :: rules) s =
      if s.sees lookahead then
        match p.follow n body s with
        | none => none
        | some t =>
          if t.consumed = s.consumed then p.follow n rules t
          else p.follow n (.loop lookahead body :: rules) t
      else p.follow n rules s := rfl

theorem follow_optional (lookahead : List κ) (body : List (Rule κ)) :
    p.follow (n + 1) (.optional lookahead body :: rules) s =
      if s.sees lookahead then
        match p.follow n body s with
        | none => none
        | some t => p.follow n rules t
      else p.follow n rules s := rfl

theorem follow_choice (name : String) (arms : List (Arm κ)) :
    p.follow (n + 1) (.choice name arms :: rules) s =
      match arms.find? fun arm => s.sees arm.1 with
      | none =>
        p.follow n rules (s.raise p.admits .invalidProduction s!"Production '{name}' is invalid")
      | some arm =>
        match p.follow n arm.2 s with
        | none => none
        | some t => p.follow n rules t := rfl

theorem follow_forbid (lookahead : List κ) (message : String) :
    p.follow (n + 1) (.forbid lookahead message :: rules) s =
      p.follow n rules (if s.sees lookahead then s.raise p.admits .forbidden message else s) := rfl

end

/-! ### Following a list of rules -/

/-- More fuel keeps a state that was reached. -/
theorem follow_succ (p : Parser κ) {n : Nat} {rules : List (Rule κ)} {s t : State κ}
    (h : p.follow n rules s = some t) : p.follow (n + 1) rules s = some t := by
  induction n generalizing rules s t with
  | zero => cases h
  | succ n ih =>
    cases rules with
    | nil => exact h
    | cons rule rules =>
      cases rule with
      | expect kind => exact ih h
      | advance => exact ih h
      | forbid lookahead message => exact ih h
      | call name =>
        rw [follow_call] at h ⊢
        split <;> rename_i hp <;> simp only [hp] at h
        · exact ih h
        · split at h
          · cases h
          · rename_i u hu
            rw [ih hu]
            exact ih h
      | loop lookahead body =>
        rw [follow_loop] at h ⊢
        by_cases hs : s.sees lookahead
        · rw [if_pos hs] at h ⊢
          split at h
          · cases h
          · rename_i u hu
            rw [ih hu]
            by_cases hc : u.consumed = s.consumed <;> simp only [hc, ↓reduceIte] at h ⊢ <;>
              exact ih h
        · rw [if_neg hs] at h ⊢
          exact ih h
      | optional lookahead body =>
        rw [follow_optional] at h ⊢
        by_cases hs : s.sees lookahead
        · rw [if_pos hs] at h ⊢
          split at h
          · cases h
          · rename_i u hu
            rw [ih hu]
            exact ih h
        · rw [if_neg hs] at h ⊢
          exact ih h
      | choice name arms =>
        rw [follow_choice] at h ⊢
        split <;> rename_i ha <;> simp only [ha] at h
        · exact ih h
        · split at h
          · cases h
          · rename_i u hu
            rw [ih hu]
            exact ih h

theorem follow_mono (p : Parser κ) {m n : Nat} (hmn : m ≤ n) {rules : List (Rule κ)}
    {s t : State κ} (h : p.follow m rules s = some t) : p.follow n rules s = some t := by
  induction hmn with
  | refl => exact h
  | step _ ih => exact p.follow_succ ih

/-- Following the rules from `s` ends in `t`. -/
def Follows (p : Parser κ) (rules : List (Rule κ)) (s t : State κ) : Prop :=
  ∃ n, p.follow n rules s = some t

theorem Follows.unique {p : Parser κ} {rules : List (Rule κ)} {s t u : State κ}
    (ht : p.Follows rules s t) (hu : p.Follows rules s u) : t = u := by
  obtain ⟨m, hm⟩ := ht
  obtain ⟨n, hn⟩ := hu
  have hm := p.follow_mono (Nat.le_max_left m n) hm
  rw [p.follow_mono (Nat.le_max_right m n) hn] at hm
  exact (Option.some.inj hm).symm

/-- Some fuel is enough for two stretches of rules at once. -/
theorem follows_pair {p : Parser κ} {body rules : List (Rule κ)} {s t u : State κ}
    (hb : p.Follows body s u) (hr : p.Follows rules u t) :
    ∃ n, p.follow n body s = some u ∧ p.follow n rules u = some t := by
  obtain ⟨m, hm⟩ := hb
  obtain ⟨n, hn⟩ := hr
  exact ⟨max m n, p.follow_mono (Nat.le_max_left m n) hm, p.follow_mono (Nat.le_max_right m n) hn⟩

/-- A rule that changes the state in one step is followed by that step. -/
theorem follows_step {p : Parser κ} {rule : Rule κ} {rules : List (Rule κ)} {s t u : State κ}
    (h : ∀ n, p.follow (n + 1) (rule :: rules) s = p.follow n rules u) :
    p.Follows (rule :: rules) s t ↔ p.Follows rules u t := by
  constructor
  · rintro ⟨n, hn⟩
    cases n with
    | zero => cases hn
    | succ n => exact ⟨n, h n ▸ hn⟩
  · rintro ⟨n, hn⟩
    exact ⟨n + 1, (h n).trans hn⟩

/-- A rule with a body is followed by following the body first. -/
theorem follows_body {p : Parser κ} {rule : Rule κ} {rules body : List (Rule κ)} {s t : State κ}
    {after : State κ → List (Rule κ)}
    (h : ∀ n, p.follow (n + 1) (rule :: rules) s =
      (p.follow n body s).bind fun u => p.follow n (after u) u) :
    p.Follows (rule :: rules) s t ↔ ∃ u, p.Follows body s u ∧ p.Follows (after u) u t := by
  constructor
  · rintro ⟨n, hn⟩
    cases n with
    | zero => cases hn
    | succ n =>
      rw [h] at hn
      obtain ⟨u, hu, ht⟩ := Option.bind_eq_some_iff.1 hn
      exact ⟨u, ⟨n, hu⟩, ⟨n, ht⟩⟩
  · rintro ⟨u, hb, hr⟩
    obtain ⟨n, hu, ht⟩ := follows_pair hb hr
    exact ⟨n + 1, by rw [h, hu]; exact ht⟩

variable {p : Parser κ} {rules body : List (Rule κ)} {s t : State κ}

theorem follows_nil : p.Follows [] s t ↔ t = s := by
  constructor
  · rintro ⟨n, hn⟩
    cases n with
    | zero => cases hn
    | succ n => exact (Option.some.inj hn).symm
  · rintro rfl
    exact ⟨1, rfl⟩

theorem follows_expect {kind : κ} :
    p.Follows (.expect kind :: rules) s t ↔ p.Follows rules (s.expect p.admits kind) t :=
  follows_step fun _ => rfl

theorem follows_advance : p.Follows (.advance :: rules) s t ↔ p.Follows rules s.advance t :=
  follows_step fun _ => rfl

theorem follows_forbid {lookahead : List κ} {message : String} :
    p.Follows (.forbid lookahead message :: rules) s t ↔
      p.Follows rules
        (if s.sees lookahead then s.raise p.admits .forbidden message else s) t :=
  follows_step fun _ => rfl

theorem follows_call {name : String} {production : Production κ}
    (h : p.grammar.production? name = some production) :
    p.Follows (.call name :: rules) s t ↔
      ∃ u, p.Follows production.body s u ∧ p.Follows rules u t :=
  follows_body fun n => by
    rw [follow_call, h]
    dsimp only
    cases p.follow n production.body s <;> rfl

theorem follows_call_of_none {name : String} (h : p.grammar.production? name = none) :
    p.Follows (.call name :: rules) s t ↔ p.Follows rules s t :=
  follows_step fun _ => by rw [follow_call, h]

theorem follows_optional_of_sees {lookahead : List κ} (h : s.sees lookahead) :
    p.Follows (.optional lookahead body :: rules) s t ↔
      ∃ u, p.Follows body s u ∧ p.Follows rules u t :=
  follows_body fun n => by
    rw [follow_optional, if_pos h]
    cases p.follow n body s <;> rfl

theorem follows_optional_of_not_sees {lookahead : List κ} (h : ¬ s.sees lookahead) :
    p.Follows (.optional lookahead body :: rules) s t ↔ p.Follows rules s t :=
  follows_step fun _ => by rw [follow_optional, if_neg h]

theorem follows_loop_of_not_sees {lookahead : List κ} (h : ¬ s.sees lookahead) :
    p.Follows (.loop lookahead body :: rules) s t ↔ p.Follows rules s t :=
  follows_step fun _ => by rw [follow_loop, if_neg h]

/-- After a round the loop goes on if something was consumed. -/
theorem follows_loop_of_sees {lookahead : List κ} (h : s.sees lookahead) :
    p.Follows (.loop lookahead body :: rules) s t ↔
      ∃ u, p.Follows body s u ∧
        p.Follows (if u.consumed = s.consumed then rules else .loop lookahead body :: rules) u t :=
  follows_body fun n => by
    rw [follow_loop, if_pos h]
    cases p.follow n body s with
    | none => rfl
    | some u => by_cases hc : u.consumed = s.consumed <;> simp [hc]

theorem follows_choice_of_find? {name : String} {arms : List (Arm κ)} {arm : Arm κ}
    (h : arms.find? (fun arm => s.sees arm.1) = some arm) :
    p.Follows (.choice name arms :: rules) s t ↔
      ∃ u, p.Follows arm.2 s u ∧ p.Follows rules u t :=
  follows_body fun n => by
    rw [follow_choice, h]
    dsimp only
    cases p.follow n arm.2 s <;> rfl

theorem follows_choice_of_none {name : String} {arms : List (Arm κ)}
    (h : arms.find? (fun arm => s.sees arm.1) = none) :
    p.Follows (.choice name arms :: rules) s t ↔
      p.Follows rules
        (s.raise p.admits .invalidProduction s!"Production '{name}' is invalid") t :=
  follows_step fun _ => by rw [follow_choice, h]

end Lookahead.Parser
