import Lookahead.Proofs.Predictor.Reading
import Lookahead.Proofs.Run.Failure
import Lookahead.Proofs.Run.Lockstep
import Mathlib.Order.Bounds.Basic

/-!
Languages that are recognized with one token of lookahead: the sentences pass without a complaint,
and anything else is complained about at the first token with which it stops to be the beginning of
one.
-/

namespace Lookahead

variable {κ σ : Type} [DecidableEq κ] [TokenKind κ]

/-- Every run that can end does, and goes as the predictor says. The predictor accepts the
sentences, each with an end token behind it, and refuses what cannot be completed. -/
structure Recognizes (p : Parser κ) (m : Predictor κ σ) (Sentence : List κ → Prop) : Prop where
  ends : ∀ {items}, (∃ item ∈ items, Item.IsEnd item) → ∃ t, p.run? items = some t
  leads : ∀ (g : Reading p m) n, g.Leads n (g.Expects m.start 1) [.call p.grammar.start]
    (g.Expects [.token TokenKind.eof] 1)
  accepts_iff : ∀ {ks}, m.Accepts ks ↔ ∃ s, ks = s ++ [TokenKind.eof] ∧ Sentence s
  completable : ∀ {ks goals}, m.run m.start ks = some goals → ∃ js, m.run goals js = some []
  admits : ∀ n, suppressionWindow < n → p.admits n = true

/-- Some sentence, with an end token behind it, begins like this. -/
def CanBegin (Sentence : List κ → Prop) (ks : List κ) : Prop :=
  ∃ s, Sentence s ∧ ks <+: s ++ [TokenKind.eof]

/-- The run ends, and its first complaint is made at the end of the shortest part of the stream with
which no sentence can begin, which has `k` tokens. -/
structure FirstComplaint (p : Parser κ) (Sentence : List κ → Prop) (stream : List (Token κ))
    (k : Nat) (t : State κ) (r : Raise κ) : Prop where
  shortest : IsLeast {k | ¬ CanBegin Sentence ((stream.map Token.kind).take k)} k
  run : p.run? (stream.map .ok) = some t
  result : p.parse? (stream.map .ok) = some (.ok t.diagnostics)
  first : t.raises.head? = some r
  consumed : r.consumed = k
  lookahead : 0 < k ∧ stream[k - 1]? = some r.lookahead
  recorded : 3 ≤ k → ∃ d ds, t.diagnostics = d :: ds ∧ d.position = r.lookahead.position
  silent : t.diagnostics = [] → k ≤ 2

namespace Recognizes

variable {p : Parser κ} {m : Predictor κ σ} {Sentence : List κ → Prop} {tokens : List (Token κ)}
  {last : Token κ}

theorem canBegin_iff (h : Recognizes p m Sentence) {ks : List κ} :
    CanBegin Sentence ks ↔ m.run m.start ks ≠ none := by
  constructor
  · rintro ⟨s, hs, js, hjs⟩ hrun
    have ha : m.Accepts (ks ++ js) := h.accepts_iff.2 ⟨s, hjs, hs⟩
    rw [Predictor.Accepts, Predictor.run_append, hrun] at ha
    cases ha
  · intro hrun
    obtain ⟨goals, hg⟩ := Option.ne_none_iff_exists'.1 hrun
    obtain ⟨js, hjs⟩ := h.completable hg
    have ha : m.Accepts (ks ++ js) := by rw [Predictor.Accepts, Predictor.run_append, hg]; exact hjs
    obtain ⟨s, hs, hsentence⟩ := h.accepts_iff.1 ha
    exact ⟨s, hsentence, js, hs⟩

theorem exists_run? (h : Recognizes p m Sentence) (g : Reading p m) :
    ∃ t, p.run? (g.stream.map .ok) = some t := by
  refine h.ends ⟨.ok g.last, List.mem_map.2 ⟨g.last, ?_, rfl⟩, ?_⟩
  · exact List.mem_append_right _ (List.mem_singleton_self _)
  · exact g.kind_last

theorem sentence_iff (h : Recognizes p m Sentence) {ks : List κ} :
    Sentence ks ↔ m.Accepts (ks ++ [TokenKind.eof]) := by
  rw [h.accepts_iff]
  constructor
  · exact fun hs ↦ ⟨ks, rfl, hs⟩
  · rintro ⟨s, hks, hs⟩
    exact (List.append_inj' hks rfl).1 ▸ hs

theorem accepts_stream_iff (h : Recognizes p m Sentence) (g : Reading p m) :
    m.Accepts (g.stream.map Token.kind) ↔ Sentence (g.tokens.map Token.kind) := by
  rw [h.sentence_iff, Reading.stream, List.map_append, List.map_singleton, g.kind_last]

theorem passes_iff (h : Recognizes p m Sentence) (g : Reading p m) {t : State κ}
    (ht : p.run? (g.stream.map .ok) = some t) :
    t.raises = [] ∧ t.consumed = g.tokens.length + 1 ↔ Sentence (g.tokens.map Token.kind) := by
  rw [← h.accepts_stream_iff g]
  rcases g.passes_or_fails (h.leads g) ht with ⟨hr, hc, ha⟩ | hf
  · exact ⟨fun _ ↦ ha, fun _ ↦ ⟨hr, hc⟩⟩
  · have hna := hf.not_accepts
    obtain ⟨-, -, -, -, r, rs, -, -, -, hr, -⟩ := hf
    constructor
    · rintro ⟨hnil, -⟩
      rw [hr] at hnil
      cases hnil
    · exact fun ha ↦ absurd ha hna

theorem raises_eq_nil_iff (h : Recognizes p m Sentence) (g : Reading p m) {t : State κ}
    (ht : p.run? (g.stream.map .ok) = some t) :
    t.raises = [] ↔ Sentence (g.tokens.map Token.kind) := by
  rw [← h.passes_iff g ht]
  refine ⟨fun hr ↦ ⟨hr, ?_⟩, And.left⟩
  rcases g.passes_or_fails (h.leads g) ht with ⟨-, hc, -⟩ | ⟨-, -, -, -, r, rs, -, -, -, hraises, -⟩
  · exact hc
  · rw [hraises] at hr
    cases hr

/-- The run over a sentence leaves the start production without a complaint, at the end token. -/
theorem exists_follows (h : Recognizes p m Sentence) (g : Reading p m)
    (hs : Sentence (g.tokens.map Token.kind)) :
    ∃ u, p.Follows [.call p.grammar.start] (State.ofItems (g.stream.map .ok)).advance u ∧
      u.raises = [] ∧ u.current.kind = TokenKind.eof := by
  obtain ⟨t, ht⟩ := h.exists_run? g
  have hpass := (h.raises_eq_nil_iff g ht).2 hs
  obtain ⟨u, hu, rfl⟩ := Parser.run?_eq_some_iff.1 ht
  rw [State.raises_drain] at hpass
  refine ⟨u, hu, ?_, State.kind_of_raises_expect hpass⟩
  by_contra hne
  exact p.keeps_raises.expect hne _ hpass

/-- A run over some tokens and an end token passes all of them without a complaint if and only if
they are a sentence, and then there is nothing to be said about them. -/
theorem exists_run?_iff (h : Recognizes p m Sentence) (ht : ∀ t ∈ tokens, t.kind ≠ TokenKind.eof)
    (hl : last.kind = TokenKind.eof) :
    ∃ t, p.run? ((tokens ++ [last]).map .ok) = some t ∧
      (t.raises = [] ∧ t.consumed = tokens.length + 1 ↔ Sentence (tokens.map Token.kind)) ∧
      (Sentence (tokens.map Token.kind) →
        p.parse? ((tokens ++ [last]).map .ok) = some (.ok []) ∧
          p.parseTokens? (tokens ++ [last]) = some []) := by
  let g : Reading p m := ⟨tokens, last, ht, hl⟩
  obtain ⟨t, hrun⟩ := h.exists_run? g
  have hiff := h.passes_iff g hrun
  refine ⟨t, hrun, hiff, fun hs ↦ ?_⟩
  have hd : t.diagnostics = [] := by
    rw [State.diagnostics, (hiff.2 hs).1]
    rfl
  constructor
  · exact hd ▸ Parser.parse?_map_ok hrun
  · exact (congrArg (Option.map State.diagnostics) hrun).trans (congrArg some hd)

/-- The token that the predictor refuses ends the shortest part with which no sentence can begin. -/
theorem isLeast_of_step_eq_none (h : Recognizes p m Sentence) {stream before after : List (Token κ)}
    {token : Token κ} {outlook : List (Goal κ σ)} (hs : stream = before ++ token :: after)
    (ho : m.outlook before = some outlook) (he : m.step outlook token.kind = none) :
    IsLeast {k | ¬ CanBegin Sentence ((stream.map Token.kind).take k)} (before.length + 1) := by
  have hkinds : stream.map Token.kind =
      before.map Token.kind ++ token.kind :: after.map Token.kind := by
    rw [hs, List.map_append, List.map_cons]
  have hlength : (before.map Token.kind).length = before.length := List.length_map _
  rw [Predictor.outlook] at ho
  constructor
  · rw [Set.mem_ofPred_eq, h.canBegin_iff, hkinds, ← hlength, List.take_length_add_append,
      Predictor.run_append, ho]
    simp [Predictor.run, he]
  · intro j hj
    by_contra hlt
    refine hj (h.canBegin_iff.2 fun hnone ↦ ?_)
    rw [hkinds, List.take_append_of_le_length (by omega)] at hnone
    rw [← List.take_append_drop j (before.map Token.kind), Predictor.run_append, hnone] at ho
    cases ho

theorem exists_firstComplaint (h : Recognizes p m Sentence)
    (ht : ∀ t ∈ tokens, t.kind ≠ TokenKind.eof) (hl : last.kind = TokenKind.eof)
    (hs : ¬ Sentence (tokens.map Token.kind)) :
    ∃ k t r, FirstComplaint p Sentence (tokens ++ [last]) k t r := by
  let g : Reading p m := ⟨tokens, last, ht, hl⟩
  obtain ⟨t, hrun⟩ := h.exists_run? g
  rcases g.passes_or_fails (h.leads g) hrun with
    ⟨-, -, ha⟩ | ⟨before, token, after, outlook, r, rs, hstream, ho, he, hraises, rfl, hc, hrec⟩
  · exact absurd ((h.accepts_stream_iff g).1 ha) hs
  · have hstream : tokens ++ [last] = before ++ r.lookahead :: after := hstream
    have hrecorded (hk : 3 ≤ before.length + 1) : ∃ ds, t.diagnostics = r.diagnostic :: ds := by
      have hr : r.recorded = true := hrec.trans (h.admits _ hk)
      simp [State.diagnostics, hraises, hr]
    refine ⟨before.length + 1, t, r, ?_⟩
    exact {
      shortest := h.isLeast_of_step_eq_none hstream ho he
      run := hrun
      result := Parser.parse?_map_ok hrun
      first := by rw [hraises, List.head?_cons]
      consumed := hc
      lookahead := ⟨Nat.succ_pos _, by simp [hstream]⟩
      recorded := by
        intro hk
        obtain ⟨ds, hds⟩ := hrecorded hk
        exact ⟨r.diagnostic, ds, hds, rfl⟩
      silent := by
        intro hnil
        by_contra hk
        obtain ⟨ds, hds⟩ := hrecorded (by omega)
        rw [hnil] at hds
        cases hds }

end Recognizes

end Lookahead
