import Lookahead.Proofs.Run.Fuel

/-!
Grammars that can be followed to an end on every stream that has an end token or a lexical error in
it. A ranking shows it: as long as no token was surely taken since a production was entered, only
productions of lower rank are called, and no token is taken unseen that could be the end.
-/

namespace Lookahead

variable {κ : Type}

/-- A rank for every production, and the kinds of token at which it is called, where they matter. -/
structure Ranking (κ : Type) where
  rank : String → Nat
  entry : String → Option (List κ)

/-- Whether all kinds that the next token may have are in the set. -/
def within [DecidableEq κ] (known : Option (List κ)) (kinds : List κ) : Bool :=
  known.any fun ks ↦ ks.all fun k ↦ decide (k ∈ kinds)

namespace Rule

variable [DecidableEq κ]

/-- What is known of the next token behind a rule. -/
def knownAfter (known : Option (List κ)) : Rule κ → Option (List κ)
  | .forbid .. => known
  | _ => none

/-- The rank below which calls have to stay behind a rule, as long as nothing was surely taken. -/
def limitAfter (limit : Option Nat) (known : Option (List κ)) : Rule κ → Option Nat
  | .advance => none
  | .expect k => if within known [k] then none else limit
  | _ => limit

end Rule

section

variable [DecidableEq κ] [TokenKind κ]

mutual

def Rule.guarded (r : Ranking κ) (limit : Option Nat) (known : Option (List κ)) : Rule κ → Bool
  | .expect k => k ≠ TokenKind.eof
  | .advance => known.any fun ks ↦ TokenKind.eof ∉ ks
  | .call callee =>
    (r.entry callee).all (within known) && limit.all fun l ↦ decide (r.rank callee < l)
  | .loop lookahead body | .optional lookahead body => guarded r limit (some lookahead) body
  | .choice _ arms => guardedArms r limit arms
  | .forbid .. => true

def guarded (r : Ranking κ) (limit : Option Nat) (known : Option (List κ)) : List (Rule κ) → Bool
  | [] => true
  | rule :: rules =>
    rule.guarded r limit known &&
      guarded r (rule.limitAfter limit known) (rule.knownAfter known) rules

def guardedArm (r : Ranking κ) (limit : Option Nat) : Arm κ → Bool
  | (lookahead, body) => guarded r limit (some lookahead) body

def guardedArms (r : Ranking κ) (limit : Option Nat) : List (Arm κ) → Bool
  | [] => true
  | a :: arms => guardedArm r limit a && guardedArms r limit arms

end

def Grammar.Ranked (g : Grammar κ) (r : Ranking κ) : Prop :=
  r.entry g.start = none ∧
    ∀ p ∈ g.productions, guarded r (some (r.rank p.name)) (r.entry p.name) p.body = true

instance (g : Grammar κ) (r : Ranking κ) : Decidable (g.Ranked r) :=
  inferInstanceAs (Decidable (_ ∧ _))

end

/-- The items behind which nothing is pulled by a grammar that heeds the end. -/
def Item.IsEnd [TokenKind κ] : Item κ → Prop
  | .ok token => token.kind = TokenKind.eof
  | .error _ => True

namespace State

variable [TokenKind κ]

/-- The end is the next token or still to come. -/
def Bounded (s : State κ) : Prop :=
  s.current.kind = TokenKind.eof ∨ s.failure = none ∧ ∃ item ∈ s.rest, Item.IsEnd item

theorem Bounded.advance {s : State κ} (h : s.Bounded) (hk : s.current.kind ≠ TokenKind.eof) :
    s.advance.Bounded ∧ s.advance.rest.length < s.rest.length := by
  obtain ⟨hf, item, hi, he⟩ := h.resolve_left hk
  cases hr : s.rest with
  | nil =>
    rw [hr] at hi
    cases hi
  | cons next rest =>
    rw [hr] at hi
    cases next with
    | error error =>
      rw [advance_error hf hr]
      exact ⟨.inl rfl, Nat.lt_succ_self _⟩
    | ok token =>
      rw [advance_ok hf hr]
      refine ⟨?_, Nat.lt_succ_self _⟩
      rcases List.mem_cons.1 hi with rfl | hi
      · exact .inl he
      · exact .inr ⟨hf, item, hi, he⟩

theorem bounded_advance_ofItems {items : List (Item κ)} (h : ∃ item ∈ items, Item.IsEnd item) :
    (ofItems items).advance.Bounded := by
  obtain ⟨item, hi, he⟩ := h
  cases items with
  | nil => cases hi
  | cons next rest =>
    cases next with
    | error error => exact .inl rfl
    | ok token =>
      rcases List.mem_cons.1 hi with rfl | hi
      · exact .inl he
      · exact .inr ⟨rfl, item, hi, he⟩

end State

namespace Parser

variable [DecidableEq κ] [TokenKind κ]

/-- Following the rules comes to an end, before which the end of the stream was not passed. -/
def Ends (p : Parser κ) (rules : List (Rule κ)) (s : State κ) : Prop :=
  ∃ t, p.Follows rules s t ∧ t.Bounded ∧ s.Later t

theorem Ends.of_later {p : Parser κ} {rules rules' : List (Rule κ)} {s u : State κ}
    (hu : p.Ends rules' u) (hl : s.Later u)
    (h : ∀ t, p.Follows rules' u t → p.Follows rules s t) : p.Ends rules s := by
  obtain ⟨t, ht, hb, hlt⟩ := hu
  exact ⟨t, h t ht, hb, hl.trans hlt⟩

/-- How much of the stream may be left inside a production of rank `l` that was entered with `m`
items to come. -/
def Room (m l : Nat) (limit : Option Nat) (s : State κ) : Prop :=
  match limit with
  | none => s.rest.length < m
  | some l' => l' = l ∧ s.rest.length ≤ m

omit [DecidableEq κ] [TokenKind κ] in
theorem Room.later {m l : Nat} {limit : Option Nat} {s t : State κ} (h : Room m l limit s)
    (ht : s.Later t) : Room m l limit t := by
  have hle := ht.length_le
  cases limit with
  | none => exact Nat.lt_of_le_of_lt hle h
  | some l' => exact ⟨h.1, Nat.le_trans hle h.2⟩

omit [DecidableEq κ] [TokenKind κ] in
theorem Room.none_of_lt {m l : Nat} {limit : Option Nat} {s t : State κ} (h : Room m l limit s)
    (ht : t.rest.length < s.rest.length) : Room m l none t := by
  cases limit with
  | none => exact Nat.lt_trans ht h
  | some l' => exact Nat.lt_of_lt_of_le ht h.2

/-- The calls that such a production makes come to an end. -/
def CallsEnd (p : Parser κ) (r : Ranking κ) (m l : Nat) : Prop :=
  ∀ callee production s, p.grammar.production? callee = some production → s.Bounded →
    (∀ ks ∈ r.entry callee, s.current.kind ∈ ks) →
    (s.rest.length < m ∨ s.rest.length ≤ m ∧ r.rank callee < l) → p.Ends production.body s

variable {p : Parser κ} {r : Ranking κ} {m l : Nat}

omit [TokenKind κ] in
theorem mem_of_within {known : Option (List κ)} {kinds : List κ} {s : State κ}
    (h : within known kinds = true) (hk : ∀ ks ∈ known, s.current.kind ∈ ks) :
    s.current.kind ∈ kinds := by
  cases known with
  | none => cases h
  | some ks => simpa using List.all_eq_true.1 h _ (hk ks rfl)

theorem Ends.loop {lookahead : List κ} {body rules : List (Rule κ)} {s : State κ} (hs : s.Bounded)
    (hbody : ∀ t, s.Later t → t.Bounded → t.sees lookahead → p.Ends body t)
    (hrules : ∀ t, s.Later t → t.Bounded → p.Ends rules t) :
    p.Ends (.loop lookahead body :: rules) s := by
  induction hn : s.rest.length using Nat.strongRecOn generalizing s with
  | ind n ih =>
    by_cases h : s.sees lookahead
    · obtain ⟨u, hu, hub, hl⟩ := hbody s (.refl s) hs h
      have hnext :
          p.Ends (if u.consumed = s.consumed then rules else .loop lookahead body :: rules) u := by
        split
        · exact hrules u hl hub
        · rename_i hc
          rcases hl with hlt | ha
          · have hl : s.Later u := .inl hlt
            exact ih u.rest.length (hn ▸ hlt) hub (fun t ht ↦ hbody t (hl.trans ht))
              (fun t ht ↦ hrules t (hl.trans ht)) rfl
          · exact absurd ha.consumed.symm hc
      exact hnext.of_later hl fun t ht ↦ (follows_loop_of_sees h).2 ⟨u, hu, ht⟩
    · exact (hrules s (.refl s) hs).of_later (.refl s) fun t ht ↦
        (follows_loop_of_not_sees h).2 ht

theorem Ends.expect {k : κ} {limit : Option Nat} {known : Option (List κ)} {rules : List (Rule κ)}
    {s : State κ} (hk : k ≠ TokenKind.eof) (hs : s.Bounded)
    (hknown : ∀ ks ∈ known, s.current.kind ∈ ks) (hm : Room m l limit s)
    (hrules : ∀ u, s.Later u → u.Bounded → Room m l ((Rule.expect k).limitAfter limit known) u →
      p.Ends rules u) :
    p.Ends (.expect k :: rules) s := by
  have hu : (s.expect p.admits k).Bounded ∧
      Room m l ((Rule.expect k).limitAfter limit known) (s.expect p.admits k) := by
    rw [Rule.limitAfter]
    by_cases hc : s.current.kind = k
    · obtain ⟨hb, hlt⟩ := hs.advance (hc ▸ hk)
      rw [State.expect, if_pos hc]
      split
      · exact ⟨hb, hm.none_of_lt hlt⟩
      · exact ⟨hb, hm.later (.inl hlt)⟩
    · rw [State.expect, if_neg hc]
      split
      · rename_i hw
        exact absurd (List.mem_singleton.1 (mem_of_within hw hknown)) hc
      · exact ⟨hs, hm.later ((State.Later.refl s).raise _ _ _)⟩
  have hl : s.Later (s.expect p.admits k) := (p.keeps_later s).expect (.refl s) k
  exact (hrules _ hl hu.1 hu.2).of_later hl fun t ht ↦ follows_expect.2 ht

theorem Ends.call (hcalls : CallsEnd p r m l) {callee : String} {rules : List (Rule κ)} {s : State κ}
    (hs : s.Bounded) (hentry : ∀ ks ∈ r.entry callee, s.current.kind ∈ ks)
    (hroom : s.rest.length < m ∨ s.rest.length ≤ m ∧ r.rank callee < l)
    (hrules : ∀ u, s.Later u → u.Bounded → p.Ends rules u) :
    p.Ends (.call callee :: rules) s := by
  cases hp : p.grammar.production? callee with
  | none =>
    exact (hrules s (.refl s) hs).of_later (.refl s) fun t ht ↦ (follows_call_of_none hp).2 ht
  | some production =>
    obtain ⟨u, hu, hub, hl⟩ := hcalls callee production s hp hs hentry hroom
    exact (hrules u hl hub).of_later hl fun t ht ↦ (follows_call hp).2 ⟨u, hu, ht⟩

mutual

theorem ends_cons (hcalls : CallsEnd p r m l) {rule : Rule κ} {limit : Option Nat}
    {known : Option (List κ)} (hg : rule.guarded r limit known = true) {s : State κ}
    (hs : s.Bounded) (hk : ∀ ks ∈ known, s.current.kind ∈ ks) (hm : Room m l limit s)
    {rules : List (Rule κ)}
    (hrules : ∀ u, s.Later u → u.Bounded → (∀ ks ∈ rule.knownAfter known, u.current.kind ∈ ks) →
      Room m l (rule.limitAfter limit known) u → p.Ends rules u) :
    p.Ends (rule :: rules) s := by
  cases rule with
  | expect k =>
    have hne : k ≠ TokenKind.eof := by simpa [Rule.guarded] using hg
    exact .expect hne hs hk hm fun u hl hu hr ↦ hrules u hl hu (by simp [Rule.knownAfter]) hr
  | advance =>
    cases known with
    | none => cases hg
    | some ks =>
      have hne : TokenKind.eof ∉ ks := by simpa [Rule.guarded] using hg
      have hc : s.current.kind ≠ TokenKind.eof := fun h ↦ hne (h ▸ hk ks rfl)
      obtain ⟨hb, hlt⟩ := hs.advance hc
      exact (hrules s.advance (.inl hlt) hb (by simp [Rule.knownAfter])
        (hm.none_of_lt hlt)).of_later (.inl hlt) fun t ht ↦ follows_advance.2 ht
  | call callee =>
    rw [Rule.guarded, Bool.and_eq_true, Option.all_eq_true, Option.all_eq_true] at hg
    have hroom : s.rest.length < m ∨ s.rest.length ≤ m ∧ r.rank callee < l := by
      cases limit with
      | none => exact .inl hm
      | some l' => exact .inr ⟨hm.2, hm.1 ▸ of_decide_eq_true (hg.2 l' rfl)⟩
    exact .call hcalls hs (fun ks h ↦ mem_of_within (hg.1 ks h) hk) hroom fun u hl hu ↦
      hrules u hl hu (by simp [Rule.knownAfter]) (hm.later hl)
  | loop lookahead body =>
    rw [Rule.guarded] at hg
    refine Ends.loop hs (fun t hl ht h ↦ ?_) fun u hl hu ↦
      hrules u hl hu (by simp [Rule.knownAfter]) (hm.later hl)
    exact ends_rules hcalls hg ht (by simpa [State.sees] using h) (hm.later hl)
  | optional lookahead body =>
    rw [Rule.guarded] at hg
    have hrest (u : State κ) (hl : s.Later u) (hu : u.Bounded) : p.Ends rules u :=
      hrules u hl hu (by simp [Rule.knownAfter]) (hm.later hl)
    by_cases h : s.sees lookahead
    · obtain ⟨u, hu, hub, hl⟩ := ends_rules hcalls hg hs (by simpa [State.sees] using h) hm
      exact (hrest u hl hub).of_later hl fun t ht ↦ (follows_optional_of_sees h).2 ⟨u, hu, ht⟩
    · exact (hrest s (.refl s) hs).of_later (.refl s) fun t ht ↦
        (follows_optional_of_not_sees h).2 ht
  | choice title arms =>
    rw [Rule.guarded] at hg
    have hrest (u : State κ) (hl : s.Later u) (hu : u.Bounded) : p.Ends rules u :=
      hrules u hl hu (by simp [Rule.knownAfter]) (hm.later hl)
    cases ha : arms.find? fun arm ↦ s.sees arm.1 with
    | none =>
      have hl (message : String) := (State.Later.refl s).raise p.admits .invalidProduction message
      exact (hrest _ (hl _) hs).of_later (hl _) fun t ht ↦ (follows_choice_of_none ha).2 ht
    | some arm =>
      have hsees : s.current.kind ∈ arm.1 := by simpa [State.sees] using List.find?_some ha
      obtain ⟨u, hu, hub, hl⟩ := ends_arms hcalls hg hs hm (List.mem_of_find?_eq_some ha) hsees
      exact (hrest u hl hub).of_later hl fun t ht ↦ (follows_choice_of_find? ha).2 ⟨u, hu, ht⟩
  | forbid lookahead message =>
    have hl := (State.Later.refl s).raise p.admits .forbidden message
    by_cases h : s.sees lookahead
    · refine (hrules _ hl hs hk (hm.later hl)).of_later hl fun t ht ↦ follows_forbid.2 ?_
      rwa [if_pos h]
    · refine (hrules s (.refl s) hs hk hm).of_later (.refl s) fun t ht ↦ follows_forbid.2 ?_
      rwa [if_neg h]

theorem ends_rules (hcalls : CallsEnd p r m l) {rules : List (Rule κ)} {limit : Option Nat}
    {known : Option (List κ)} (hg : guarded r limit known rules = true) {s : State κ}
    (hs : s.Bounded) (hk : ∀ ks ∈ known, s.current.kind ∈ ks) (hm : Room m l limit s) :
    p.Ends rules s := by
  cases rules with
  | nil => exact ⟨s, follows_nil.2 rfl, hs, .refl s⟩
  | cons rule rules =>
    rw [guarded, Bool.and_eq_true] at hg
    exact ends_cons hcalls hg.1 hs hk hm fun u _ hu hku hmu ↦ ends_rules hcalls hg.2 hu hku hmu

theorem ends_arms (hcalls : CallsEnd p r m l) {arms : List (Arm κ)} {limit : Option Nat}
    (hg : guardedArms r limit arms = true) {s : State κ} (hs : s.Bounded) (hm : Room m l limit s)
    {arm : Arm κ} (ha : arm ∈ arms) (hk : s.current.kind ∈ arm.1) : p.Ends arm.2 s := by
  cases arms with
  | nil => cases ha
  | cons a arms =>
    rw [guardedArms, Bool.and_eq_true] at hg
    rcases List.mem_cons.1 ha with rfl | ha
    · exact ends_arm hcalls hg.1 hs hm hk
    · exact ends_arms hcalls hg.2 hs hm ha hk

theorem ends_arm (hcalls : CallsEnd p r m l) {arm : Arm κ} {limit : Option Nat}
    (hg : guardedArm r limit arm = true) {s : State κ} (hs : s.Bounded) (hm : Room m l limit s)
    (hk : s.current.kind ∈ arm.1) : p.Ends arm.2 s := by
  cases arm with
  | mk lookahead body => exact ends_rules hcalls hg hs (by simpa using hk) hm

end

/-- A call within a production is made either behind a token that was surely taken or at lower
rank. -/
theorem callsEnd (hr : p.grammar.Ranked r) (m l : Nat) : CallsEnd p r m l := by
  induction m using Nat.strongRecOn generalizing l with
  | ind m ihm =>
    induction l using Nat.strongRecOn with
    | ind l ihl =>
      intro callee production s hp hs hk hroom
      have hname : production.name = callee := by simpa using List.find?_some hp
      have hg := hr.2 production (List.mem_of_find?_eq_some hp)
      rw [hname] at hg
      have hcalls : CallsEnd p r s.rest.length (r.rank callee) := by
        rcases hroom with h | ⟨h, h'⟩
        · exact ihm _ h _
        · rcases Nat.lt_or_eq_of_le h with h | h
          · exact ihm _ h _
          · rw [h]
            exact ihl _ h'
      exact ends_rules hcalls hg hs hk ⟨rfl, Nat.le_refl _⟩

/-- A ranked grammar is followed to an end on every stream that has one. -/
theorem exists_run?_eq_some (hr : p.grammar.Ranked r) {items : List (Item κ)}
    (h : ∃ item ∈ items, Item.IsEnd item) : ∃ t, p.run? items = some t := by
  have hs := State.bounded_advance_ofItems h
  have hg : guarded r (some (r.rank p.grammar.start + 1)) none [.call p.grammar.start] = true := by
    simp [guarded, Rule.guarded, hr.1]
  have hcall : p.Ends [.call p.grammar.start] (State.ofItems items).advance :=
    ends_rules (callsEnd hr _ (r.rank p.grammar.start + 1)) hg hs (by simp) ⟨rfl, Nat.le_refl _⟩
  obtain ⟨u, hu, -, -⟩ := hcall
  exact ⟨_, run?_eq_some_iff.2 ⟨u, hu, rfl⟩⟩

end Parser

end Lookahead
