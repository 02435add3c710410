import Lookahead.Proofs.Predictor
import Lookahead.Proofs.Run.Leads
import Lookahead.Proofs.Run.Termination

/-!
A run read against a predictor. As long as nothing was complained about, the tokens that were passed
have led the predictor to a stack, and the first complaint is to be made at the token that it
refuses.
-/

namespace Lookahead

variable {κ σ : Type} [TokenKind κ] {p : Parser κ} {m : Predictor κ σ}

/-- The stack to which some tokens lead. -/
def Predictor.outlook [DecidableEq κ] (m : Predictor κ σ) (before : List (Token κ)) :
    Option (List (Goal κ σ)) :=
  m.run m.start (before.map Token.kind)

/-- A stream of which only the last token is an end token, to be read by a parser and a
predictor. -/
structure Reading (p : Parser κ) (m : Predictor κ σ) where
  tokens : List (Token κ)
  last : Token κ
  kind_ne_eof : ∀ t ∈ tokens, t.kind ≠ TokenKind.eof
  kind_last : last.kind = TokenKind.eof

namespace Reading

variable (g : Reading p m)

def stream : List (Token κ) := g.tokens ++ [g.last]

theorem kind_ne_last : ∀ t ∈ g.tokens, t.kind ≠ g.last.kind := by
  rw [g.kind_last]
  exact g.kind_ne_eof

/-- The run has come to a token without a complaint. -/
structure Stands (before after : List (Token κ)) (s : State κ) : Prop where
  stream_eq : g.stream = before ++ s.current :: after
  rest : s.rest = after.map .ok
  consumed : s.consumed = before.length + 1
  sinceLast : s.sinceLast = before.length + 1
  failure : s.failure = none
  raises : s.raises = []

variable {g} {s : State κ}

theorem Stands.exists_next {before after : List (Token κ)} (h : g.Stands before after s)
    (hk : s.current.kind ≠ TokenKind.eof) : ∃ next rest, after = next :: rest := by
  cases after with
  | cons next rest => exact ⟨next, rest, rfl⟩
  | nil =>
    have hlast : [g.last] = [s.current] := (List.append_inj' h.stream_eq rfl).2
    rw [← List.cons.inj hlast |>.1, g.kind_last] at hk
    exact absurd rfl hk

theorem Stands.advance {before rest : List (Token κ)} {next : Token κ}
    (h : g.Stands before (next :: rest) s) :
    g.Stands (before ++ [s.current]) rest s.advance ∧ s.advance.current = next := by
  have hr : s.rest = .ok next :: rest.map .ok := h.rest
  have hraises := s.raises_advance.trans h.raises
  rw [State.advance_ok h.failure hr] at hraises ⊢
  have hs : g.stream = (before ++ [s.current]) ++ next :: rest := by simp [h.stream_eq]
  exact ⟨⟨hs, rfl, by simp [h.consumed], by simp [h.sinceLast], h.failure, hraises⟩, rfl⟩

variable (g) [DecidableEq κ]

/-- The run has come without a complaint to a token, the `c`-th or a later one, of which the
predictor makes what it makes of it on this stack. -/
def Expects (goals : List (Goal κ σ)) (c : Nat) (s : State κ) : Prop :=
  ∃ before after outlook, g.Stands before after s ∧ m.outlook before = some outlook ∧
    m.step outlook s.current.kind = m.step goals s.current.kind ∧
    c ≤ s.consumed

/-- The first complaint was made at the token that the predictor refuses. -/
def Fails (s : State κ) : Prop :=
  ∃ before token after outlook r rs, g.stream = before ++ token :: after ∧
    m.outlook before = some outlook ∧ m.step outlook token.kind = none ∧
    s.raises = r :: rs ∧ r.lookahead = token ∧ r.consumed = before.length + 1 ∧
    r.recorded = p.admits (before.length + 1)

def Leads (n : Nat) (pre : State κ → Prop) (rules : List (Rule κ)) (post : State κ → Prop) : Prop :=
  p.Leads g.Fails n pre rules post

theorem keeps_fails : p.Keeps g.Fails where
  advance s := by
    rintro ⟨before, token, after, outlook, r, rs, hs, ho, hr, h, hrest⟩
    exact ⟨before, token, after, outlook, r, rs, hs, ho, hr, s.raises_advance.trans h, hrest⟩
  raise s code message := by
    rintro ⟨before, token, after, outlook, r, rs, hs, ho, hr, h, hrest⟩
    have ht := s.raises_raise p.admits code message
    rw [h] at ht
    exact ⟨before, token, after, outlook, r, _, hs, ho, hr, ht, hrest⟩

variable {g} {goals goals' : List (Goal κ σ)} {c d n : Nat}

theorem Expects.weaken (h : g.Expects goals c s) (hd : d ≤ c) : g.Expects goals d s := by
  obtain ⟨before, after, outlook, hs, ho, he, hc⟩ := h
  exact ⟨before, after, outlook, hs, ho, he, Nat.le_trans hd hc⟩

theorem Expects.le_consumed (h : g.Expects goals c s) : c ≤ s.consumed := by
  obtain ⟨before, after, outlook, hs, ho, he, hc⟩ := h
  exact hc

theorem Expects.congr (h : g.Expects goals c s)
    (hk : m.step goals s.current.kind = m.step goals' s.current.kind) :
    g.Expects goals' c s := by
  obtain ⟨before, after, outlook, hs, ho, he, hc⟩ := h
  exact ⟨before, after, outlook, hs, ho, he.trans hk, hc⟩

theorem Expects.skip {x : σ} (h : g.Expects (.phrase x :: goals) c s)
    (hk : m.expand x s.current.kind = none) (ho : m.optional x = true) : g.Expects goals c s :=
  h.congr (Predictor.step_of_skip hk ho)

theorem Expects.expand {x : σ} {k : κ} {front : List (Goal κ σ)}
    (h : g.Expects (.phrase x :: goals) c s) (hk : s.current.kind = k)
    (hx : m.expand x k = some front) :
    g.Expects (.token k :: (front ++ goals)) c s := by
  refine h.congr ?_
  rw [hk, Predictor.step_of_expand hx, Predictor.step_token_self]

theorem Expects.fails (h : g.Expects goals c s)
    (hk : m.step goals s.current.kind = none) (code : Code) (message : String) :
    g.Fails (s.raise p.admits code message) := by
  obtain ⟨before, after, outlook, hs, ho, he, hc⟩ := h
  have hr := s.raises_raise p.admits code message
  rw [hs.raises] at hr
  exact ⟨before, s.current, after, outlook, _, [], hs.stream_eq, ho, he.trans hk, hr, rfl,
    hs.consumed, congrArg p.admits hs.sinceLast⟩

theorem Expects.advance (h : g.Expects goals c s) (hk : s.current.kind ≠ TokenKind.eof)
    (hg : m.step goals s.current.kind = some goals') : g.Expects goals' (c + 1) s.advance := by
  obtain ⟨before, after, outlook, hs, ho, he, hc⟩ := h
  obtain ⟨next, rest, rfl⟩ := hs.exists_next hk
  obtain ⟨ha, hcur⟩ := hs.advance
  refine ⟨before ++ [s.current], rest, goals', ha, ?_, rfl, ?_⟩
  · rw [Predictor.outlook, List.map_append, Predictor.run_append]
    rw [Predictor.outlook] at ho
    rw [ho, Option.bind_some, List.map_singleton, Predictor.run_cons_of_step (he.trans hg)]
    rfl
  · have hn := ha.consumed
    have hb := hs.consumed
    simp only [List.length_append, List.length_singleton] at hn
    omega

theorem Expects.expect {k : κ} (hk : k ≠ TokenKind.eof) (h : g.Expects (.token k :: goals) c s) :
    g.Expects goals (c + 1) (s.expect p.admits k) ∨ g.Fails (s.expect p.admits k) := by
  unfold State.expect
  split
  · rename_i heq
    exact .inl (h.advance (heq ▸ hk) (heq ▸ Predictor.step_token_self _ _))
  · rename_i hne
    exact .inr (h.fails (Predictor.step_token_of_ne hne) _ _)

/-! ### Rules -/

theorem leads_cons {rule : Rule κ} {rules : List (Rule κ)} {pre mid post : State κ → Prop}
    (h : g.Leads n pre [rule] mid) (h' : g.Leads n mid rules post) :
    g.Leads n pre (rule :: rules) post :=
  .seq g.keeps_fails h h'

theorem leads_expect {k : κ} (hk : k ≠ TokenKind.eof) :
    g.Leads n (g.Expects (.token k :: goals) c) [.expect k] (g.Expects goals (c + 1)) :=
  .expect fun _ h ↦ h.expect hk

theorem leads_advance {kinds : List κ} (hk : TokenKind.eof ∉ kinds)
    (hg : ∀ k ∈ kinds, m.step goals k = some goals') :
    g.Leads n (fun s ↦ g.Expects goals c s ∧ s.current.kind ∈ kinds) [.advance]
      (g.Expects goals' (c + 1)) :=
  .advance fun _ h ↦ h.1.advance (fun he ↦ hk (he ▸ h.2)) (hg _ h.2)

theorem leads_begin {x : σ} {k : κ} {front : List (Goal κ σ)} (hk : k ≠ TokenKind.eof)
    (hx : m.expand x k = some front) :
    g.Leads n (fun s ↦ g.Expects (.phrase x :: goals) c s ∧ s.current.kind ∈ [k]) [.advance]
      (g.Expects (front ++ goals) (c + 1)) := by
  refine leads_advance (fun h ↦ hk (List.mem_singleton.1 h).symm) ?_
  exact List.forall_mem_singleton.2 (Predictor.step_of_expand hx)

theorem leads_forbid {kinds : List κ} {message : String}
    (hg : ∀ k ∈ kinds, m.step goals k = none) :
    g.Leads n (g.Expects goals c) [.forbid kinds message]
      fun s ↦ g.Expects goals c s ∧ s.current.kind ∉ kinds :=
  .forbid fun _ h hk ↦ h.fails (hg _ hk) _ _

/-- The kind of the next token is known to be such as `Q` says before and after each round. -/
theorem leads_loop {Q : κ → Prop} {kinds : List κ} {body : List (Rule κ)}
    (hbody : ∀ d, g.Leads n
      (fun s ↦ (g.Expects goals d s ∧ Q s.current.kind) ∧ s.current.kind ∈ kinds) body
      fun t ↦ g.Expects goals (d + 1) t ∧ Q t.current.kind) :
    g.Leads n (fun s ↦ g.Expects goals c s ∧ Q s.current.kind) [.loop kinds body]
      fun t ↦ (g.Expects goals c t ∧ Q t.current.kind) ∧ t.current.kind ∉ kinds := by
  refine .loop g.keeps_fails fun d s t hs ht ↦ ?_
  obtain ⟨⟨he, hq⟩, hk, rfl⟩ := hs
  have hd : g.Expects goals s.consumed s := by
    obtain ⟨before, after, outlook, hs, ho, he, -⟩ := he
    exact ⟨before, after, outlook, hs, ho, he, Nat.le_refl _⟩
  refine (hbody s.consumed s t ⟨⟨hd, hq⟩, hk⟩ ht).imp_left fun h ↦ ?_
  exact ⟨⟨h.1.weaken (Nat.le_succ_of_le he.le_consumed), h.2⟩, h.1.le_consumed⟩

theorem leads_repeat {kinds : List κ} {body : List (Rule κ)}
    (hbody : ∀ d, g.Leads n (fun s ↦ g.Expects goals d s ∧ s.current.kind ∈ kinds) body
      (g.Expects goals (d + 1))) :
    g.Leads n (g.Expects goals c) [.loop kinds body]
      fun t ↦ g.Expects goals c t ∧ t.current.kind ∉ kinds := by
  refine .mono (leads_loop (Q := fun _ ↦ True) fun d ↦ ?_) (fun s h ↦ ⟨h, trivial⟩) fun s h ↦ ?_
  · exact (hbody d).mono (fun s h ↦ ⟨h.1.1, h.2⟩) fun s h ↦ ⟨h, trivial⟩
  · exact ⟨h.1.1, h.2⟩

theorem Leads.weaken {pre : State κ → Prop} {rules : List (Rule κ)}
    (h : g.Leads n pre rules (g.Expects goals c)) (hd : d ≤ c) :
    g.Leads n pre rules (g.Expects goals d) :=
  h.after fun _ hs ↦ hs.weaken hd

theorem leads_call {callee : String} {production : Production κ} {pre post : State κ → Prop}
    (hp : p.grammar.production? callee = some production) (h : g.Leads n pre production.body post) :
    g.Leads n pre [.call callee] post :=
  (Parser.Leads.call hp h).of_succ

/-! ### Whole runs -/

omit [DecidableEq κ] in
theorem stands_start (g : Reading p m) :
    g.Stands [] g.stream.tail (State.ofItems (g.stream.map .ok)).advance := by
  have hstream : ∃ first rest, g.stream = first :: rest := by
    unfold stream
    cases g.tokens with
    | nil => exact ⟨_, _, rfl⟩
    | cons first rest => exact ⟨_, _, rfl⟩
  obtain ⟨first, rest, h⟩ := hstream
  rw [h]
  exact ⟨h, rfl, rfl, rfl, rfl, rfl⟩

theorem expects_start (g : Reading p m) :
    g.Expects m.start 1 (State.ofItems (g.stream.map .ok)).advance :=
  ⟨[], _, m.start, g.stands_start, rfl, rfl, Nat.le_of_eq g.stands_start.consumed.symm⟩

omit [DecidableEq κ] in
theorem Stands.eq_nil {before after : List (Token κ)} (h : g.Stands before after s)
    (hk : s.current.kind = TokenKind.eof) : after = [] ∧ before = g.tokens := by
  rcases after.eq_nil_or_concat with rfl | ⟨middle, last, rfl⟩
  · exact ⟨rfl, (List.append_inj' h.stream_eq rfl).1.symm⟩
  · have hs := h.stream_eq
    rw [List.concat_eq_append, ← List.cons_append, ← List.append_assoc] at hs
    have htokens : g.tokens = before ++ s.current :: middle := (List.append_inj' hs rfl).1
    exact absurd hk (g.kind_ne_eof _ (by simp [htokens]))

/-- The run has passed all tokens without a complaint, and the predictor accepts them. -/
def Passes (g : Reading p m) (s : State κ) : Prop :=
  s.raises = [] ∧ s.consumed = g.tokens.length + 1 ∧ m.Accepts (g.stream.map Token.kind)

theorem Expects.expect_eof (h : g.Expects [.token TokenKind.eof] c s) :
    g.Passes (s.expect p.admits TokenKind.eof) ∨ g.Fails (s.expect p.admits TokenKind.eof) := by
  unfold State.expect
  split
  · rename_i hk
    obtain ⟨before, after, outlook, hs, ho, he, -⟩ := h
    obtain ⟨rfl, rfl⟩ := hs.eq_nil hk
    rw [State.advance_of_rest_eq_nil hs.rest]
    refine .inl ⟨hs.raises, hs.consumed, ?_⟩
    rw [Predictor.Accepts, hs.stream_eq, List.map_append, Predictor.run_append]
    rw [Predictor.outlook] at ho
    rw [ho, Option.bind_some, List.map_singleton, hk]
    rw [hk, Predictor.step_token_self] at he
    exact Predictor.run_cons_of_step he []
  · rename_i hk
    exact .inr (h.fails (Predictor.step_token_of_ne hk) _ _)

/-- A run either passes or fails, if the start production leads to where the end is expected. -/
theorem passes_or_fails {t : State κ}
    (hl : ∀ n, g.Leads n (g.Expects m.start 1) [.call p.grammar.start]
      (g.Expects [.token TokenKind.eof] 1))
    (ht : p.run? (g.stream.map .ok) = some t) : g.Passes t ∨ g.Fails t := by
  obtain ⟨u, ⟨n, hu⟩, rfl⟩ := Parser.run?_eq_some_iff.1 ht
  unfold Passes Fails
  rw [State.raises_drain, State.consumed_drain]
  rcases hl n _ u g.expects_start hu with h | h
  · exact h.expect_eof
  · exact .inr (g.keeps_fails.expect h _)

/-- What the predictor accepts is not refused on the way. -/
theorem Fails.not_accepts (h : g.Fails s) : ¬ m.Accepts (g.stream.map Token.kind) := by
  obtain ⟨before, token, after, outlook, r, rs, hs, ho, he, -⟩ := h
  intro ha
  rw [Predictor.outlook] at ho
  rw [Predictor.Accepts, hs, List.map_append, Predictor.run_append, ho, Option.bind_some,
    List.map_cons, Predictor.run, he] at ha
  cases ha

end Reading

end Lookahead
