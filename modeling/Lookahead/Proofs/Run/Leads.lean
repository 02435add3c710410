import Lookahead.Proofs.Run.Invariant

/-!
Where following rules leads, provided it ends: to a state of which `post` holds, or to one of which
`F` holds, which nothing that follows can undo. The statements are for some fuel, so that those
about recursive productions can be proved by induction on it.
-/

namespace Lookahead.Parser

variable {κ : Type} [DecidableEq κ] [TokenKind κ]

def Leads (p : Parser κ) (F : State κ → Prop) (n : Nat) (pre : State κ → Prop)
    (rules : List (Rule κ)) (post : State κ → Prop) : Prop :=
  ∀ s t, pre s → p.follow n rules s = some t → post t ∨ F t

variable {p : Parser κ} {F : State κ → Prop} {n : Nat} {pre mid post : State κ → Prop}
  {rule : Rule κ} {rules : List (Rule κ)}

theorem eq_of_follow_nil {s t : State κ} (h : p.follow n [] s = some t) : t = s := by
  cases n with
  | zero => cases h
  | succ n =>
    cases h
    rfl

theorem follow_cons_split {s t : State κ} (h : p.follow n (rule :: rules) s = some t) :
    ∃ u, p.follow n [rule] s = some u ∧ p.follow n rules u = some t := by
  induction n generalizing s t with
  | zero => cases h
  | succ n ih =>
    rw [follow_cons] at h ⊢
    have single {u v : State κ} (hv : p.follow n rules u = some v) : p.follow n [] u = some u := by
      cases n with
      | zero => cases hv
      | succ n => rfl
    cases hm : p.grammar.move s.current.kind rule with
    | pass =>
      rw [hm] at h
      exact ⟨_, single h, p.follow_succ h⟩
    | advance =>
      rw [hm] at h
      exact ⟨_, single h, p.follow_succ h⟩
    | raise code message =>
      rw [hm] at h
      exact ⟨_, single h, p.follow_succ h⟩
    | enter body again =>
      rw [hm] at h
      obtain ⟨u, hu, ht⟩ := Option.bind_eq_some_iff.1 h
      simp only [followMove, hu, Option.bind_some]
      unfold remaining at ht ⊢
      split at ht
      · rename_i hagain
        obtain ⟨v, hv, hr⟩ := ih ht
        exact ⟨v, by rwa [if_pos hagain], p.follow_succ hr⟩
      · rename_i hagain
        exact ⟨u, by rw [if_neg hagain]; exact single ht, p.follow_succ ht⟩

namespace Leads

theorem zero : p.Leads F 0 pre rules post := fun _ _ _ h ↦ by cases h

theorem nil : p.Leads F n pre [] pre := by
  intro s t hs h
  exact .inl (eq_of_follow_nil h ▸ hs)

theorem mono {pre' post' : State κ → Prop} (h : p.Leads F n pre rules post)
    (hpre : ∀ s, pre' s → pre s) (hpost : ∀ s, post s → post' s) : p.Leads F n pre' rules post' :=
  fun s t hs ht ↦ (h s t (hpre s hs) ht).imp_left (hpost t)

theorem before {pre' : State κ → Prop} (h : p.Leads F n pre rules post)
    (hpre : ∀ s, pre' s → pre s) : p.Leads F n pre' rules post := h.mono hpre fun _ hs ↦ hs

theorem after {post' : State κ → Prop} (h : p.Leads F n pre rules post)
    (hpost : ∀ s, post s → post' s) : p.Leads F n pre rules post' := h.mono (fun _ hs ↦ hs) hpost

theorem seq (hF : p.Keeps F) (h : p.Leads F n pre [rule] mid) (h' : p.Leads F n mid rules post) :
    p.Leads F n pre (rule :: rules) post := by
  intro s t hs ht
  obtain ⟨u, hu, ht⟩ := follow_cons_split ht
  rcases h s u hs hu with hu | hu
  · exact h' u t hu ht
  · exact .inr (hF.follow ht hu)

theorem of_succ (h : p.Leads F (n + 1) pre rules post) : p.Leads F n pre rules post :=
  fun s t hs ht ↦ h s t hs (p.follow_succ ht)

/-- A rule that moves on without a body leads where the move does. -/
theorem of_follow_cons {f : State κ → State κ}
    (h : ∀ n s, pre s → p.follow (n + 1) [rule] s = p.follow n [] (f s))
    (hpost : ∀ s, pre s → post (f s) ∨ F (f s)) : p.Leads F n pre [rule] post := by
  intro s t hs ht
  cases n with
  | zero => cases ht
  | succ n =>
    rw [h n s hs] at ht
    exact eq_of_follow_nil ht ▸ hpost s hs

theorem expect {k : κ} (h : ∀ s, pre s → post (s.expect p.admits k) ∨ F (s.expect p.admits k)) :
    p.Leads F n pre [.expect k] post :=
  of_follow_cons (fun _ _ _ ↦ rfl) h

theorem advance (h : ∀ s, pre s → post s.advance) : p.Leads F n pre [.advance] post :=
  of_follow_cons (fun _ _ _ ↦ rfl) fun s hs ↦ .inl (h s hs)

theorem forbid {lookahead : List κ} {message : String}
    (h : ∀ s, pre s → s.current.kind ∈ lookahead → F (s.raise p.admits .forbidden message)) :
    p.Leads F n pre [.forbid lookahead message]
      fun s ↦ pre s ∧ s.current.kind ∉ lookahead := by
  refine of_follow_cons (fun _ _ _ ↦ rfl) fun s hs ↦ ?_
  split
  · rename_i hl
    exact .inr (h s hs (of_decide_eq_true hl))
  · rename_i hl
    exact .inl ⟨hs, fun hmem ↦ hl (decide_eq_true hmem)⟩

theorem call {callee : String} {production : Production κ}
    (hp : p.grammar.production? callee = some production)
    (h : p.Leads F n pre production.body post) : p.Leads F (n + 1) pre [.call callee] post := by
  intro s t hs ht
  rw [follow_cons, Grammar.move, hp] at ht
  obtain ⟨u, hu, ht⟩ := Option.bind_eq_some_iff.1 ht
  exact eq_of_follow_nil ht ▸ h s u hs hu

theorem optional {lookahead : List κ} {body : List (Rule κ)}
    (hbody : p.Leads F n (fun s ↦ pre s ∧ s.current.kind ∈ lookahead) body post)
    (hskip : ∀ s, pre s → s.current.kind ∉ lookahead → post s) :
    p.Leads F n pre [.optional lookahead body] post := by
  intro s t hs ht
  cases n with
  | zero => cases ht
  | succ n =>
    rw [follow_cons, Grammar.move] at ht
    split at ht
    · rename_i hl
      obtain ⟨u, hu, ht⟩ := Option.bind_eq_some_iff.1 ht
      exact eq_of_follow_nil ht ▸ hbody.of_succ s u ⟨hs, hl⟩ hu
    · rename_i hl
      exact eq_of_follow_nil ht ▸ .inl (hskip s hs hl)

theorem choice {title : String} {arms : List (Arm κ)}
    (harms : ∀ arm ∈ arms, p.Leads F n (fun s ↦ pre s ∧ s.current.kind ∈ arm.1) arm.2 post)
    (hnone : ∀ s, pre s → (∀ arm ∈ arms, s.current.kind ∉ arm.1) →
      ∀ message, F (s.raise p.admits .invalidProduction message)) :
    p.Leads F n pre [.choice title arms] post := by
  intro s t hs ht
  cases n with
  | zero => cases ht
  | succ n =>
    rw [follow_cons, Grammar.move] at ht
    split at ht
    · rename_i ha
      have hnot : ∀ arm ∈ arms, s.current.kind ∉ arm.1 := by simpa using List.find?_eq_none.1 ha
      exact eq_of_follow_nil ht ▸ .inr (hnone s hs hnot _)
    · rename_i arm ha
      have hsees : s.current.kind ∈ arm.1 := by simpa using List.find?_some ha
      obtain ⟨u, hu, ht⟩ := Option.bind_eq_some_iff.1 ht
      have harm := harms arm (List.mem_of_find?_eq_some ha)
      exact eq_of_follow_nil ht ▸ harm.of_succ s u ⟨hs, hsees⟩ hu

/-- A loop whose body consumes something goes on until the lookahead is none of its kinds. -/
theorem loop (hF : p.Keeps F) {lookahead : List κ} {body : List (Rule κ)}
    (hbody : ∀ c, p.Leads F n (fun s ↦ pre s ∧ s.current.kind ∈ lookahead ∧ s.consumed = c) body
      fun t ↦ pre t ∧ c < t.consumed) :
    p.Leads F n pre [.loop lookahead body] fun t ↦ pre t ∧ t.current.kind ∉ lookahead := by
  induction n with
  | zero => exact zero
  | succ n ih =>
    intro s t hs ht
    rw [follow_cons, Grammar.move] at ht
    split at ht
    · rename_i hl
      obtain ⟨u, hu, ht⟩ := Option.bind_eq_some_iff.1 ht
      rcases (hbody s.consumed).of_succ s u ⟨hs, hl, rfl⟩ hu with ⟨hu, hc⟩ | hu
      · rw [remaining, if_pos ⟨rfl, Nat.ne_of_gt hc⟩] at ht
        exact ih (fun c ↦ (hbody c).of_succ) u t hu ht
      · exact .inr (hF.follow ht hu)
    · rename_i hl
      exact eq_of_follow_nil ht ▸ .inl ⟨hs, hl⟩

end Leads

end Lookahead.Parser
