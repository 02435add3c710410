import Lookahead.Proofs.Predictor.Enclosure
import Lookahead.Proofs.Predictor.Recognition
import Lookahead.Proofs.Run.Gap

/-!
Sentences from which a token is missing. If the token behind the gap cannot stand there, the missing
one is asked for at it, and nothing else is complained about.
-/

namespace Lookahead

variable {κ σ : Type} [DecidableEq κ] [TokenKind κ]

/-- The one thing that a parser has to say of a stream. -/
def Parser.Says (p : Parser κ) (stream : List (Token κ)) (d : Diagnostic) : Prop :=
  p.parse? (stream.map .ok) = some (.ok [d]) ∧ p.parseTokens? stream = some [d]

namespace Recognizes

variable {p : Parser κ} {m : Predictor κ σ} {Sentence : List κ → Prop}
  {before rest after : List (Token κ)} {missing found last : Token κ} {outlook : List (Goal κ σ)}

theorem exists_outlook (h : Recognizes p m Sentence) (hl : last.kind = TokenKind.eof)
    (hs : Sentence ((before ++ missing :: rest).map Token.kind)) :
    ∃ outlook goals, m.outlook before = some outlook ∧ m.step outlook missing.kind = some goals ∧
      m.run goals ((rest ++ [last]).map Token.kind) = some [] := by
  have ha := h.sentence_iff.1 hs
  rw [Predictor.Accepts, List.map_append, List.append_assoc, Predictor.run_append] at ha
  obtain ⟨outlook, ho, hrun⟩ := Option.bind_eq_some_iff.1 ha
  obtain ⟨goals, hstep, hrun⟩ := Option.bind_eq_some_iff.1 hrun
  refine ⟨outlook, goals, ho, hstep, ?_⟩
  rwa [List.map_append, List.map_singleton, hl]

theorem exists_firstComplaint_at (h : Recognizes p m Sentence)
    (htokens : ∀ t ∈ before ++ rest, t.kind ≠ TokenKind.eof) (hl : last.kind = TokenKind.eof)
    (hrest : rest ++ [last] = found :: after) (ho : m.outlook before = some outlook)
    (he : m.step outlook found.kind = none) :
    ∃ t r, FirstComplaint p Sentence (before ++ rest ++ [last]) (before.length + 1) t r := by
  have hstream : before ++ rest ++ [last] = before ++ found :: after := by
    rw [List.append_assoc, hrest]
  have hleast := h.isLeast_of_step_eq_none hstream ho he
  have hnot : ¬ Sentence ((before ++ rest).map Token.kind) := by
    intro hs
    refine hleast.1 ⟨_, hs, ?_⟩
    have hkinds : ((before ++ rest ++ [last]).map Token.kind) =
        (before ++ rest).map Token.kind ++ [TokenKind.eof] := by
      rw [List.map_append, List.map_singleton, hl]
    exact hkinds ▸ List.take_prefix _ _
  obtain ⟨k, t, r, hfirst⟩ := h.exists_firstComplaint htokens hl hnot
  obtain rfl := hfirst.shortest.unique hleast
  exact ⟨t, r, hfirst⟩

/-- A token missing from a sentence is asked for at the token behind, if this one is refused there,
and that is all that is complained about. -/
theorem says_missing (h : Recognizes p m Sentence) (heof : ∀ {ks}, Sentence ks → TokenKind.eof ∉ ks)
    (hl : last.kind = TokenKind.eof) (hrest : rest ++ [last] = found :: after)
    (hg : p.grammar.Bridges missing.kind found.kind) (ho : m.outlook before = some outlook)
    (hrun : m.run outlook (missing.kind :: (rest ++ [last]).map Token.kind) = some [])
    (he : m.step outlook found.kind = none) (hlong : 2 ≤ before.length) :
    p.Says (before ++ rest ++ [last]) (missDiagnostic missing.kind found) := by
  have hs : Sentence ((before ++ missing :: rest).map Token.kind) := by
    rw [Predictor.outlook] at ho
    rw [h.sentence_iff, Predictor.Accepts, List.map_append, List.append_assoc,
      Predictor.run_append, ho, Option.bind_some]
    rwa [List.map_append, List.map_singleton, hl] at hrun
  have htokens : ∀ t ∈ before ++ missing :: rest, t.kind ≠ TokenKind.eof :=
    fun t ht hk ↦ heof hs (List.mem_map.2 ⟨t, ht, hk⟩)
  let g : Reading p m := ⟨before ++ missing :: rest, last, htokens, hl⟩
  obtain ⟨u, ⟨k, hu⟩, hraises, hend⟩ := h.exists_follows g hs
  have htokens' : ∀ t ∈ before ++ rest, t.kind ≠ TokenKind.eof := fun t ht ↦
    htokens t (by simp at ht ⊢; tauto)
  obtain ⟨t, r, hfirst⟩ := h.exists_firstComplaint_at htokens' hl hrest ho he
  obtain ⟨u', hu', rfl⟩ := Parser.run?_eq_some_iff.1 hfirst.run
  have hne : found.kind ≠ missing.kind := by
    intro heq
    rw [Predictor.run, ← heq, he] at hrun
    cases hrun
  have hafter : found.kind ≠ TokenKind.eof → after ≠ [] := by
    rintro hk rfl
    have hlast : last ∈ [found] := hrest ▸ List.mem_append_right _ (List.mem_singleton_self last)
    exact hk (List.mem_singleton.1 hlast ▸ hl)
  have hn : before ≠ [] := List.length_pos_iff.1 (by omega)
  have hstart : (State.ofItems (g.stream.map .ok)).advance.Across before.length missing found after
      (State.ofItems ((before ++ rest ++ [last]).map .ok)).advance := by
    have hstream : g.stream = before ++ missing :: found :: after := by
      rw [← hrest]
      simp [Reading.stream, g]
    rw [hstream, List.append_assoc, hrest]
    exact .beside (State.beside_ofItems hn)
  have hplace : [.call p.grammar.start] ∈ p.grammar.places := by simp [Grammar.places]
  obtain hacross | hskips :=
    Parser.crosses hg hne hafter k hu hu' hplace (fun _ ↦ rfl) hstart hraises
  · have hnone : (u'.expect p.admits TokenKind.eof).raises ≠ [] := by
      rw [← State.raises_drain]
      exact List.ne_nil_of_mem (List.mem_of_mem_head? hfirst.first)
    have hcomplaints := hacross.complaints hraises hend (htokens missing (by simp)) hnone
    rw [← State.raises_drain] at hcomplaints
    obtain ⟨d, ds, hds, -⟩ := hfirst.recorded (by omega)
    have hnoted := State.diagnostics_of_missed hcomplaints (hds ▸ List.cons_ne_nil d ds)
    refine ⟨hnoted ▸ hfirst.result, ?_⟩
    rw [Parser.parseTokens?, hfirst.run, Option.map_some, hnoted]
  · have hmem := List.mem_of_mem_head? hfirst.first
    rw [State.raises_drain] at hmem
    have hlate := ((p.keeps_skips before.length).expect hskips TokenKind.eof).2 r hmem
    rw [hfirst.consumed] at hlate
    exact absurd hlate (Nat.lt_irrefl _)

/-- Without a closer a sentence is complained about once, at the first token that only goes with what
is outside. -/
theorem exists_says_of_stalls {x : σ} {Ends : κ → Prop} (h : Recognizes p m Sentence)
    (heof : ∀ {ks}, Sentence ks → TokenKind.eof ∉ ks) (hl : last.kind = TokenKind.eof)
    (hg : ∀ {k}, Ends k → p.grammar.Bridges missing.kind k) (ho : m.outlook before = some outlook)
    (hstalls : m.Stalls missing.kind x Ends [] ((rest ++ [last]).map Token.kind) outlook)
    (hlong : 2 ≤ before.length) :
    ∃ (mid : List (Token κ)) (found : Token κ) (after : List (Token κ)) (ys : List σ),
      rest ++ [last] = mid ++ found :: after ∧ Ends found.kind ∧
      m.Spans missing.kind x (mid.map Token.kind) (ys.map .phrase) ∧
      p.Says (before ++ rest ++ [last]) (missDiagnostic missing.kind found) := by
  obtain ⟨ks, k, js, ys, T, hkinds, hspans, hk, hmid, he, hrun⟩ := hstalls
  obtain ⟨mid, behind, hsplit, rfl, hbehind⟩ := List.map_eq_append_iff.1 hkinds
  obtain ⟨found, after, rfl, rfl, rfl⟩ := List.map_eq_cons_iff.1 hbehind
  obtain hnil | ⟨front, token, hfront⟩ := (found :: after).eq_nil_or_concat
  · cases hnil
  · rw [List.concat_eq_append] at hfront
    rw [hfront, ← List.append_assoc] at hsplit
    obtain ⟨rfl, hlast⟩ := List.append_inj' hsplit rfl
    cases hlast
    have houtlook : m.outlook (before ++ mid) = some T := by
      rw [Predictor.outlook] at ho ⊢
      rw [List.map_append, Predictor.run_append, ho, Option.bind_some, hmid]
    rw [← List.map_cons (f := Token.kind), hfront] at hrun
    have hsays := h.says_missing heof hl hfront.symm (hg hk) houtlook hrun he
      (by rw [List.length_append]; omega)
    refine ⟨mid, found, after, ys, ?_, hk, hspans, ?_⟩
    · rw [hfront, List.append_assoc]
    · rwa [List.append_assoc before] at hsays

end Recognizes

end Lookahead
