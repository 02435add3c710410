import Lookahead.Proofs.Run.Lockstep
import Lookahead.Proofs.Run.Stopping

/-!
A token that is missing from a stream. Without it a run goes as it does over the whole stream up to
the gap, and if it complains there that the token was expected, it is again where the other run is
behind the token. So there is no further complaint, unless the gap is passed over in silence.
-/

namespace Lookahead

variable {κ : Type}

/-- Whether rules begin by taking whatever token is next. -/
def takesAny : List (Rule κ) → Bool
  | .advance :: _ => true
  | _ => false

/-- Enough to see from a rule that it takes the token at which it is followed. -/
def takingDepth : Nat := 8

section Moves

variable [DecidableEq κ] [TokenKind κ]

/-- Whether a rule that is at hand for a missing kind makes nothing else of the one found in its
place. If a body is entered only there, the token found is taken. -/
def Grammar.bridges (g : Grammar κ) (missing found : κ) : Rule κ → Bool
  | .loop kinds body | .optional kinds body =>
    missing ∉ kinds && (found ∉ kinds || (found ≠ TokenKind.eof && g.takes found takingDepth body))
  | .choice _ arms => arms.all fun arm ↦ missing ∉ arm.1
  | .forbid kinds _ => found ∉ kinds
  | .expect _ | .advance | .call _ => true

/-- A missing kind is only ever taken where it is expected, whatever is found in its place. -/
structure Grammar.Bridges (g : Grammar κ) (missing found : κ) : Prop where
  rules : ∀ rules ∈ g.places, ∀ rule ∈ rules.head?, g.bridges missing found rule = true
  tails : ∀ rules ∈ g.places, takesAny rules.tail = false
  bodies : ∀ production ∈ g.productions, takesAny production.body = false

/-- The complaint that a kind is missing at a token. -/
def missed (missing : κ) (found : Token κ) : Code × String × Token κ :=
  (.expected, s!"Expected {name missing} but got '{name found.kind}'", found)

/-- What is said of a token at which another kind is expected. -/
def missDiagnostic (missing : κ) (found : Token κ) : Diagnostic :=
  ⟨.expected, s!"Expected {name missing} but got '{name found.kind}'", found.position⟩

/-- What a rule does at a missing kind and at the one found in its place. -/
inductive Grammar.Bridge (g : Grammar κ) (missing found : κ) : Move κ → Move κ → Prop
  | refuse (code : Code) (message : String) (move : Move κ) :
    Bridge g missing found (.raise code message) move
  | take : Bridge g missing found .advance
      (.raise .expected s!"Expected {name missing} but got '{name found}'")
  | pass : Bridge g missing found .pass .pass
  | call (production : Production κ) (hp : production ∈ g.productions) :
    Bridge g missing found (.enter production.body false) (.enter production.body false)
  | skip (body : List (Rule κ)) (again : Bool) (hfound : found ≠ TokenKind.eof)
      (htakes : g.takes found takingDepth body = true) :
    Bridge g missing found .pass (.enter body again)

theorem Grammar.bridge_of_bridges {g : Grammar κ} {missing found : κ} {rule : Rule κ}
    (h : g.bridges missing found rule = true) (hany : rule ≠ .advance) (hne : found ≠ missing) :
    g.Bridge missing found (g.move missing rule) (g.move found rule) := by
  cases rule with
  | expect k =>
    rw [move, move]
    by_cases hk : missing = k
    · subst hk
      rw [if_pos rfl, if_neg hne]
      exact .take
    · rw [if_neg hk]
      exact .refuse _ _ _
  | advance => exact absurd rfl hany
  | call callee =>
    rw [move, move]
    cases hp : g.production? callee with
    | none => exact .pass
    | some production => exact .call production (List.mem_of_find?_eq_some hp)
  | loop kinds body | optional kinds body =>
    simp only [bridges, Bool.and_eq_true, Bool.or_eq_true, decide_eq_true_eq] at h
    rw [move, move, if_neg h.1]
    by_cases hk : found ∈ kinds
    · obtain ⟨heof, htakes⟩ := h.2.resolve_left fun hnot ↦ hnot hk
      rw [if_pos hk]
      exact .skip body _ heof htakes
    · rw [if_neg hk]
      exact .pass
  | choice title arms =>
    simp only [bridges, List.all_eq_true, decide_eq_true_eq] at h
    have hnone : arms.find? (fun arm ↦ decide (missing ∈ arm.1)) = none := by
      rw [List.find?_eq_none]
      intro arm harm
      simpa using h arm harm
    rw [move, hnone]
    exact .refuse _ _ _
  | forbid kinds message =>
    simp only [bridges, decide_eq_true_eq] at h
    rw [move, move, if_neg h]
    by_cases hk : missing ∈ kinds
    · rw [if_pos hk]
      exact .refuse _ _ _
    · rw [if_neg hk]
      exact .pass

end Moves

namespace State

/-- One run has come to the missing token, the other one to the token behind it. -/
structure AtGap (n : Nat) (missing found : Token κ) (after : List (Token κ)) (s s' : State κ) :
    Prop where
  current : s.current = missing ∧ s'.current = found
  rest : s.rest = (found :: after).map .ok ∧ s'.rest = after.map .ok
  consumed : s.consumed = n + 1 ∧ s'.consumed = n + 1
  failure : s.failure = none ∧ s'.failure = none
  raises : s'.raises = []

/-- Both runs have come to one place behind the gap, the second with one token less and one complaint
more. -/
structure Past [TokenKind κ] (n : Nat) (missing found : Token κ) (s s' : State κ) : Prop where
  current : s.current = s'.current
  rest : s.rest = s'.rest
  failure : s.failure = s'.failure
  consumed : s.consumed = s'.consumed + 1
  behind : n < s'.consumed
  complaints : s'.raises.map Raise.complaint =
    missed missing.kind found :: s.raises.map Raise.complaint

/-- The gap was passed over in silence. -/
def Skips (n : Nat) (s : State κ) : Prop :=
  n + 1 < s.consumed ∧ ∀ r ∈ s.raises, n + 1 < r.consumed

variable [TokenKind κ]

/-- Where the run over a stream with a gap is while the run over the whole stream does not
complain. -/
inductive Across (n : Nat) (missing found : Token κ) (after : List (Token κ)) (s s' : State κ) :
    Prop
  | beside (h : s.Beside n (missing :: found :: after) (found :: after) s')
  | gap (h : s.AtGap n missing found after s')
  | past (h : s.Past n missing found s')

variable {n : Nat} {missing found : Token κ} {after : List (Token κ)} {s s' : State κ}

theorem Beside.atGap (h : s.Beside n (missing :: found :: after) (found :: after) s')
    (hn : s.consumed = n) (hraises : s.raises = []) :
    s.advance.AtGap n missing found after s'.advance := by
  obtain ⟨hr, hr'⟩ := h.rest_eq hn
  have hnone : s'.advance.raises = [] := by rw [raises_advance, ← h.raises, hraises]
  rw [advance_ok h.failure.1 hr]
  rw [advance_ok h.failure.2 hr'] at hnone ⊢
  have hn' : s'.consumed = n := h.consumed ▸ hn
  exact ⟨⟨rfl, rfl⟩, ⟨rfl, rfl⟩, ⟨congrArg (· + 1) hn, congrArg (· + 1) hn'⟩, h.failure, hnone⟩

theorem AtGap.past (h : s.AtGap n missing found after s') (hraises : s.advance.raises = [])
    (admits : Nat → Bool) :
    s.advance.Past n missing found (s'.raise admits .expected
      s!"Expected {name missing.kind} but got '{name found.kind}'") := by
  have hconsumed' := h.consumed.2
  rw [advance_ok h.failure.1 h.rest.1] at hraises ⊢
  exact {
    current := h.current.2.symm
    rest := h.rest.2.symm
    failure := h.failure.1.trans h.failure.2.symm
    consumed := congrArg (· + 1) (h.consumed.1.trans hconsumed'.symm)
    behind := by
      change n < s'.consumed
      omega
    complaints := by
      rw [hraises, raises_raise, h.raises, ← h.current.2]
      rfl }

theorem Past.advance (h : s.Past n missing found s') :
    s.advance.Past n missing found s'.advance := by
  have hcomplaints := h.complaints
  have hbehind := h.behind
  have hconsumed := h.consumed
  rw [← s.raises_advance, ← s'.raises_advance] at hcomplaints
  cases hf : s.failure with
  | some error =>
    have hf' := h.failure.symm.trans hf
    rwa [advance_of_failure hf, advance_of_failure hf']
  | none =>
    have hf' := h.failure.symm.trans hf
    cases hr : s.rest with
    | nil => rwa [advance_of_rest_eq_nil hr, advance_of_rest_eq_nil (h.rest.symm.trans hr)]
    | cons item rest =>
      have hr' := h.rest.symm.trans hr
      cases item with
      | ok token =>
        rw [advance_ok hf hr, advance_ok hf' hr'] at hcomplaints ⊢
        exact ⟨rfl, rfl, h.failure, congrArg (· + 1) hconsumed, Nat.lt_succ_of_lt hbehind,
          hcomplaints⟩
      | error error =>
        rw [advance_error hf hr, advance_error hf' hr'] at hcomplaints ⊢
        exact ⟨rfl, rfl, rfl, hconsumed, hbehind, hcomplaints⟩

theorem Past.raise (h : s.Past n missing found s') (admits : Nat → Bool) (code : Code)
    (message : String) :
    (s.raise admits code message).Past n missing found (s'.raise admits code message) where
  current := h.current
  rest := h.rest
  failure := h.failure
  consumed := h.consumed
  behind := h.behind
  complaints := by
    simp [raises_raise, h.complaints, Raise.complaint, h.current]

theorem Across.consumed_ne (h : s.Across n missing found after s') {t t' : State κ}
    (hlt : s.consumed ≤ n) (ht : t.Across n missing found after t') :
    t.consumed ≠ s.consumed ↔ t'.consumed ≠ s'.consumed := by
  have hs : s.consumed = s'.consumed := by
    cases h with
    | beside h => exact h.consumed
    | gap h =>
      have hconsumed := h.consumed.1
      omega
    | past h =>
      have hconsumed := h.consumed
      have hbehind := h.behind
      omega
  cases ht with
  | beside ht => rw [hs, ht.consumed]
  | gap ht =>
    obtain ⟨hc, hc'⟩ := ht.consumed
    omega
  | past ht =>
    have hconsumed := ht.consumed
    have hbehind := ht.behind
    omega

theorem diagnostics_of_missed {s : State κ} {missing : κ} {found : Token κ}
    (h : s.raises.map Raise.complaint = [missed missing found]) (hne : s.diagnostics ≠ []) :
    s.diagnostics = [missDiagnostic missing found] := by
  obtain ⟨r, hraises, hr⟩ := List.map_eq_singleton_iff.1 h
  obtain ⟨hcode, hmessage, hlookahead⟩ : r.code = _ ∧ r.message = _ ∧ r.lookahead = found := by
    simpa [Raise.complaint, missed] using hr
  have hrecorded : r.recorded = true := by
    by_contra hno
    exact hne (by simp [diagnostics, hraises, hno])
  simp [diagnostics, hraises, hrecorded, Raise.diagnostic, missDiagnostic, hcode, hmessage,
    hlookahead]

/-- Where the run over the whole stream has come to its end without a complaint, the other one has made
at most the one that the missing token is expected. -/
theorem Across.complaints [DecidableEq κ] {admits : Nat → Bool}
    (h : s.Across n missing found after s') (hraises : s.raises = [])
    (hend : s.current.kind = TokenKind.eof) (hmissing : missing.kind ≠ TokenKind.eof)
    (hne : (s'.expect admits TokenKind.eof).raises ≠ []) :
    (s'.expect admits TokenKind.eof).raises.map Raise.complaint = [missed missing.kind found] := by
  cases h with
  | beside h =>
    rw [raises_expect_of_kind (h.current ▸ hend), ← h.raises] at hne
    exact absurd hraises hne
  | gap h =>
    rw [h.current.1] at hend
    exact absurd hend hmissing
  | past h =>
    rw [raises_expect_of_kind (h.current ▸ hend), h.complaints, hraises]
    rfl

end State

namespace Parser

variable [DecidableEq κ] [TokenKind κ] {p : Parser κ} {n k : Nat} {missing found : Token κ}
  {after : List (Token κ)} {rules : List (Rule κ)} {s s' t t' : State κ}

omit [DecidableEq κ] in
theorem keeps_skips (p : Parser κ) (n : Nat) : p.Keeps (State.Skips n) where
  advance s h := by
    refine ⟨(p.keeps_consumed (n + 1)).advance s h.1, ?_⟩
    rw [s.raises_advance]
    exact h.2
  raise s code message h := by
    refine ⟨h.1, ?_⟩
    rw [s.raises_raise]
    intro r hr
    obtain hr | hr := List.mem_append.mp hr
    · exact h.2 r hr
    · rw [List.mem_singleton.mp hr]
      exact h.1

omit [DecidableEq κ] in
theorem simulates_past (p : Parser κ) (n : Nat) (missing found : Token κ) :
    p.Simulates p (State.Past n missing found) where
  kind h := congrArg Token.kind h.current
  consumed h h' := by
    have hs := h.consumed
    have ht := h'.consumed
    omega
  advance h := h.advance
  raise code message h := h.raise p.admits code message

theorem Follows.past (h : p.Follows rules s t) (h' : p.Follows rules s' t')
    (hs : s.Past n missing found s') : t.Past n missing found t' := by
  obtain ⟨k, hk⟩ := h
  obtain ⟨u, hu, hpast⟩ := (p.simulates_past n missing found).follow rfl hk hs
  rwa [Follows.unique ⟨k, hu⟩ h'] at hpast

theorem Follows.not_raise {code : Code} {message : String}
    (h : p.Follows rules (s.raise p.admits code message) t) : t.raises ≠ [] := by
  intro ht
  have hnone := h.raises_eq_nil ht
  rw [State.raises_raise] at hnone
  exact List.append_ne_nil_of_right_ne_nil _ (List.cons_ne_nil _ _) hnone

theorem Follows.skips_of_takes (h : p.Follows rules s' t') (hs : s.AtGap n missing found after s')
    (hlt : after ≠ []) (ht : p.grammar.takes found.kind takingDepth rules = true) :
    t'.Skips n := by
  rw [← hs.current.2] at ht
  refine h.keeps_of_takes ht (p.keeps_skips n) ⟨?_, ?_⟩
  · obtain ⟨token, rest, rfl⟩ := List.exists_cons_of_ne_nil hlt
    rw [State.advance_ok hs.failure.2 hs.rest.2]
    change n + 1 < s'.consumed + 1
    rw [hs.consumed.2]
    exact Nat.lt_succ_self _
  · rw [State.raises_advance, hs.raises]
    simp

theorem takesAny_remaining {rule : Rule κ} {again : Bool} {body : List (Rule κ)} {kind : κ}
    {g : Grammar κ} (hm : g.move kind rule = .enter body again) (hrules : takesAny rules = false) :
    takesAny (remaining rule rules again s t) = false := by
  unfold remaining
  split
  · cases rule with
    | advance => cases hm
    | _ => rfl
  · exact hrules

/-- A run over a stream with a gap goes along with the run over the whole stream, or it does not
notice the gap. This is for so much fuel. -/
def Crosses (p : Parser κ) (n : Nat) (missing found : Token κ) (after : List (Token κ)) (k : Nat) :
    Prop :=
  ∀ {rules s s' t t'}, p.follow k rules s = some t → p.Follows rules s' t' →
    rules ∈ p.grammar.places → (s.consumed = n + 1 → takesAny rules = false) →
    s.Across n missing found after s' → t.raises = [] →
    t.Across n missing found after t' ∨ t'.Skips n

variable {rule : Rule κ}

theorem Crosses.beside (ih : p.Crosses n missing found after k)
    (hg : p.grammar.Bridges missing.kind found.kind)
    (h : p.follow (k + 1) (rule :: rules) s = some t) (h' : p.Follows (rule :: rules) s' t')
    (hr : rule :: rules ∈ p.grammar.places)
    (hs : s.Beside n (missing :: found :: after) (found :: after) s') (ht : t.raises = []) :
    t.Across n missing found after t' ∨ t'.Skips n := by
  have htail : takesAny rules = false := hg.tails _ hr
  have hplace : rules ∈ p.grammar.places := (Grammar.places_closed hr).1
  have hle := hs.consumed_le
  rw [follow_cons] at h
  cases hm : p.grammar.move s.current.kind rule with
  | pass =>
    rw [hm] at h
    rw [hs.current] at hm
    rw [follows_of_pass hm] at h'
    exact ih h h' hplace (fun _ ↦ htail) (.beside hs) ht
  | advance =>
    rw [hm] at h
    rw [hs.current] at hm
    rw [follows_of_advance hm] at h'
    refine ih h h' hplace (fun _ ↦ htail) ?_ ht
    obtain hlt | heq := Nat.lt_or_eq_of_le hle
    · exact .beside (hs.advance hlt)
    · have hnone := Follows.raises_eq_nil ⟨k, h⟩ ht
      rw [State.raises_advance] at hnone
      exact .gap (hs.atGap heq hnone)
  | raise code message =>
    rw [hm] at h
    exact absurd ht (Follows.not_raise ⟨k, h⟩)
  | enter body again =>
    have hm' := hm
    rw [hm] at h
    rw [hs.current] at hm'
    obtain ⟨u, hu, h⟩ := Option.bind_eq_some_iff.1 h
    obtain ⟨u', hu', h'⟩ := (follows_of_enter hm').1 h'
    have hnone := Follows.raises_eq_nil ⟨k, h⟩ ht
    have hbefore : s.consumed = n + 1 → takesAny body = false := by omega
    obtain hacross | hskips :=
      ih hu hu' (Grammar.mem_places_of_move hr hm) hbefore (.beside hs) hnone
    · have hsame : remaining rule rules again s' u' = remaining rule rules again s u := by
        simp only [remaining, (State.Across.beside hs).consumed_ne hle hacross]
      rw [hsame] at h'
      exact ih h h' (remaining_mem_places hr) (fun _ ↦ takesAny_remaining hm htail) hacross ht
    · exact .inr (h'.keeps (p.keeps_skips n) hskips)

theorem Crosses.gap (ih : p.Crosses n missing found after k)
    (hg : p.grammar.Bridges missing.kind found.kind) (hne : found.kind ≠ missing.kind)
    (hafter : found.kind ≠ TokenKind.eof → after ≠ [])
    (h : p.follow (k + 1) (rule :: rules) s = some t) (h' : p.Follows (rule :: rules) s' t')
    (hr : rule :: rules ∈ p.grammar.places) (hany : rule ≠ .advance)
    (hs : s.AtGap n missing found after s') (ht : t.raises = []) :
    t.Across n missing found after t' ∨ t'.Skips n := by
  have htail : takesAny rules = false := hg.tails _ hr
  have hplace : rules ∈ p.grammar.places := (Grammar.places_closed hr).1
  have hbridge := Grammar.bridge_of_bridges (hg.rules _ hr rule rfl) hany hne
  rw [← hs.current.1, ← hs.current.2] at hbridge
  generalize hm : p.grammar.move s.current.kind rule = move,
    hm' : p.grammar.move s'.current.kind rule = move' at hbridge
  rw [follow_cons, hm] at h
  cases hbridge with
  | refuse code message => exact absurd ht (Follows.not_raise ⟨k, h⟩)
  | take =>
    -- one run takes the missing token, the other one asks for it, and both are at the token behind
    have hnone := Follows.raises_eq_nil ⟨k, h⟩ ht
    rw [follows_of_raise hm', hs.current.1, hs.current.2] at h'
    exact .inl (.past (Follows.past ⟨k, h⟩ h' (hs.past hnone p.admits)))
  | pass =>
    rw [follows_of_pass hm'] at h'
    exact ih h h' hplace (fun _ ↦ htail) (.gap hs) ht
  | call production hp =>
    obtain ⟨u, hu, h⟩ := Option.bind_eq_some_iff.1 h
    obtain ⟨u', hu', h'⟩ := (follows_of_enter hm').1 h'
    have hnone := Follows.raises_eq_nil ⟨k, h⟩ ht
    have hbody := hg.bodies production hp
    obtain hacross | hskips :=
      ih hu hu' (Grammar.mem_places_of_move hr hm) (fun _ ↦ hbody) (.gap hs) hnone
    · exact ih h h' hplace (fun _ ↦ htail) hacross ht
    · exact .inr (h'.keeps (p.keeps_skips n) hskips)
  | skip body again hfound htakes =>
    -- the token found goes on with what should have ended, so nobody asks for the missing one
    obtain ⟨u', hu', h'⟩ := (follows_of_enter hm').1 h'
    rw [hs.current.2] at hfound htakes
    exact .inr (h'.keeps (p.keeps_skips n) (hu'.skips_of_takes hs (hafter hfound) htakes))

theorem crosses (hg : p.grammar.Bridges missing.kind found.kind) (hne : found.kind ≠ missing.kind)
    (hafter : found.kind ≠ TokenKind.eof → after ≠ []) (k : Nat) :
    p.Crosses n missing found after k := by
  induction k with
  | zero =>
    intro rules s s' t t' h
    cases h
  | succ k ih =>
    intro rules s s' t t' h h' hr hany hs ht
    cases rules with
    | nil =>
      cases h
      rw [follows_nil.1 h']
      exact .inl hs
    | cons rule rules =>
      cases hs with
      | beside hs => exact ih.beside hg h h' hr hs ht
      | gap hs =>
        refine ih.gap hg hne hafter h h' hr ?_ hs ht
        rintro rfl
        cases hany hs.consumed.1
      | past hs => exact .inl (.past (Follows.past ⟨k + 1, h⟩ h' hs))

end Parser

end Lookahead
