import Lookahead.Proofs.Run.Pulling

/-!
The log of a run. The events of the parser stand in it in the order of the complaints, whatever the
scanner logs between them, and what the scanner logs at one pull is not torn apart.
-/

namespace Lookahead

namespace Event

/-- The events of the parser. All others are those of the scanner. -/
def ofParser : Event → Bool
  | recorded _ | suppressed .. | parseFinished .. => true
  | noMatch _ | scanFinished .. => false

def diagnostic? : Event → Option Diagnostic
  | recorded d => some d
  | _ => none

theorem filterMap_diagnostic?_filter (events : List Event) :
    (events.filter ofParser).filterMap diagnostic? = events.filterMap diagnostic? := by
  rw [List.filterMap_filter]
  congr 1
  funext e
  cases e <;> rfl

end Event

variable {κ : Type}

theorem Raise.ofParser_event (r : Raise κ) : r.event.ofParser = true := by
  unfold event
  split <;> rfl

theorem Raise.diagnostic?_event (r : Raise κ) :
    r.event.diagnostic? = if r.recorded then some r.diagnostic else none := by
  unfold event
  split <;> rfl

namespace Parser

def Unparsed (pulls : List (List Event)) : Prop :=
  ∀ events ∈ pulls, ∀ e ∈ events, e.ofParser = false

theorem filter_ofParser_weave {pulls : List (List Event)} (h : Unparsed pulls)
    (entries : List (Entry κ)) :
    (weave pulls entries).filter Event.ofParser =
      (entries.filterMap Entry.raise?).map Raise.event := by
  induction entries generalizing pulls with
  | nil => rw [weave]; rfl
  | cons entry entries ih =>
    cases entry with
    | raised r =>
      rw [weave, List.filter_cons_of_pos r.ofParser_event, ih h]
      rfl
    | pulled =>
      cases pulls with
      | nil => exact ih h
      | cons events pulls =>
        have hevents : events.filter Event.ofParser = [] := by
          apply List.filter_eq_nil_iff.2
          intro e he
          simp [h events List.mem_cons_self e he]
        rw [weave, List.filter_append, hevents, List.nil_append]
        exact ih fun events' hmem ↦ h events' (List.mem_cons_of_mem _ hmem)

theorem filter_not_ofParser_weave {pulls : List (List Event)} (h : Unparsed pulls)
    (entries : List (Entry κ)) :
    (weave pulls entries).filter (fun e ↦ !e.ofParser) =
      (pulls.take (entries.countP Entry.isPulled)).flatten := by
  induction entries generalizing pulls with
  | nil => rw [weave]; simp
  | cons entry entries ih =>
    cases entry with
    | raised r =>
      rw [weave, List.filter_cons_of_neg (by simp [r.ofParser_event]), ih h,
        List.countP_cons_of_neg (by simp [Entry.isPulled])]
    | pulled =>
      rw [countP_pulled_cons]
      cases pulls with
      | nil => simpa [weave] using ih h
      | cons events pulls =>
        have hevents : events.filter (fun e ↦ !e.ofParser) = events := by
          apply List.filter_eq_self.2
          intro e he
          simp [h events List.mem_cons_self e he]
        rw [weave, List.filter_append, hevents, List.take_succ_cons, List.flatten_cons,
          ih fun events' hmem ↦ h events' (List.mem_cons_of_mem _ hmem)]

theorem infix_weave {pulls : List (List Event)} {events : List Event} {entries : List (Entry κ)}
    (hle : pulls.length ≤ entries.countP Entry.isPulled) (h : events ∈ pulls) :
    events <:+: weave pulls entries := by
  induction entries generalizing pulls with
  | nil =>
    rw [List.countP_nil, Nat.le_zero, List.length_eq_zero_iff] at hle
    rw [hle] at h
    cases h
  | cons entry entries ih =>
    cases entry with
    | raised r =>
      rw [List.countP_cons_of_neg (by simp [Entry.isPulled])] at hle
      rw [weave]
      exact List.infix_cons (ih hle h)
    | pulled =>
      rw [countP_pulled_cons] at hle
      cases pulls with
      | nil => cases h
      | cons first pulls =>
        rw [weave]
        rcases List.mem_cons.1 h with rfl | h
        · exact (List.prefix_append _ _).isInfix
        · exact (ih (Nat.le_of_succ_le_succ hle) h).trans (List.suffix_append _ _).isInfix

theorem parseFinished_not_mem_weave {pulls : List (List Event)} (h : Unparsed pulls)
    (entries : List (Entry κ)) (start : String) (consumed diagnostics : Nat) :
    .parseFinished start consumed diagnostics ∉ weave pulls entries := by
  intro hmem
  have hfilter : .parseFinished start consumed diagnostics ∈
      (weave pulls entries).filter Event.ofParser := List.mem_filter.2 ⟨hmem, rfl⟩
  rw [filter_ofParser_weave h] at hfilter
  obtain ⟨r, -, hevent⟩ := List.mem_map.1 hfilter
  unfold Raise.event at hevent
  split at hevent <;> cases hevent

theorem weave_of_silent {pulls : List (List Event)} (h : ∀ events ∈ pulls, events = [])
    (entries : List (Entry κ)) :
    weave pulls entries = (entries.filterMap Entry.raise?).map Raise.event := by
  have hunparsed : Unparsed pulls := by
    intro events hmem e he
    rw [h events hmem] at he
    cases he
  have hnone : (weave pulls entries).filter (fun e ↦ !e.ofParser) = [] := by
    rw [filter_not_ofParser_weave hunparsed, List.flatten_eq_nil_iff]
    intro events hmem
    exact h events (List.mem_of_mem_take hmem)
  rw [← filter_ofParser_weave hunparsed, List.filter_eq_self.2]
  simpa [List.filter_eq_nil_iff] using hnone

def log (p : Parser κ) (pulls : List (Pull κ)) (t : State κ) : List Event :=
  weave (pulls.map (·.events)) t.log.reverse ++ [p.finishEvent t]

variable {p : Parser κ} {pulls : List (Pull κ)} {t : State κ}

theorem filter_ofParser_log (h : Unparsed (pulls.map (·.events))) :
    (p.log pulls t).filter Event.ofParser = t.raises.map Raise.event ++ [p.finishEvent t] := by
  rw [log, List.filter_append, filter_ofParser_weave h]
  rfl

theorem filter_not_ofParser_log (h : Unparsed (pulls.map (·.events)))
    (ht : pulls.length ≤ t.pulls) :
    (p.log pulls t).filter (fun e ↦ !e.ofParser) = pulls.flatMap (·.events) := by
  rw [log, List.filter_append, filter_not_ofParser_weave h, List.countP_reverse,
    List.take_of_length_le (by rwa [List.length_map]), List.flatMap_def]
  exact List.append_nil _

/-- The diagnostics gathered in a run are those that the log says were recorded. -/
theorem filterMap_diagnostic?_log (h : Unparsed (pulls.map (·.events))) :
    (p.log pulls t).filterMap Event.diagnostic? = t.diagnostics := by
  rw [← Event.filterMap_diagnostic?_filter, filter_ofParser_log h, List.filterMap_append,
    List.filterMap_map, State.diagnostics, ← List.filterMap_eq_map, List.filterMap_filter]
  have hevent : Event.diagnostic? ∘ Raise.event (κ := κ) =
      fun r ↦ if r.recorded then some r.diagnostic else none := by
    funext r
    exact r.diagnostic?_event
  rw [hevent]
  exact List.append_nil _

theorem exists_raise_of_mem_log (h : Unparsed (pulls.map (·.events))) {message : String}
    {sinceLast : Nat} (hmem : .suppressed message sinceLast ∈ p.log pulls t) :
    ∃ r ∈ t.raises, r.recorded = false ∧ r.sinceLast = sinceLast := by
  have hfilter : .suppressed message sinceLast ∈ (p.log pulls t).filter Event.ofParser :=
    List.mem_filter.2 ⟨hmem, rfl⟩
  rw [filter_ofParser_log h, List.mem_append] at hfilter
  rcases hfilter with hraised | hlast
  · obtain ⟨r, hr, hevent⟩ := List.mem_map.1 hraised
    refine ⟨r, hr, ?_⟩
    unfold Raise.event at hevent
    split at hevent
    · cases hevent
    · rename_i hrecorded
      cases hevent
      exact ⟨by simpa using hrecorded, rfl⟩
  · cases List.mem_singleton.1 hlast

/-! ### What a run has taken and left out -/

variable [TokenKind κ]

theorem keeps_admitted (p : Parser κ) :
    p.Keeps fun s ↦ ∀ r ∈ s.raises, r.recorded = p.admits r.sinceLast where
  advance s h := by rwa [s.raises_advance]
  raise s code message h := by
    rw [s.raises_raise]
    intro r hr
    rcases List.mem_append.1 hr with hr | hr
    · exact h r hr
    · rw [List.mem_singleton.1 hr]

/-- Tokens that are consumed and tokens to come are always the same number. -/
theorem keeps_account (p : Parser κ) (n : Nat) :
    p.Keeps fun s ↦ s.consumed + s.rest.countP (·.isOk) = n where
  advance s h := by
    cases hf : s.failure with
    | some error => rwa [State.advance_of_failure hf]
    | none =>
      cases hr : s.rest with
      | nil => rwa [State.advance_of_rest_eq_nil hr]
      | cons item rest =>
        rw [hr] at h
        cases item with
        | ok token =>
          rw [List.countP_cons_of_pos rfl] at h
          rw [State.advance_ok hf hr]
          dsimp only
          omega
        | error error =>
          rw [List.countP_cons_of_neg (by simp [Except.isOk, Except.toBool])] at h
          rwa [State.advance_error hf hr]
  raise _ _ _ h := h

variable [DecidableEq κ] {items : List (Item κ)}

theorem events?_eq_log (h : p.run? (pulls.map (·.item)) = some t) :
    p.events? pulls = some (p.log pulls t) := by
  rw [events?, h]
  rfl

theorem recorded_eq_of_run? (h : p.run? items = some t) :
    ∀ r ∈ t.raises, r.recorded = p.admits r.sinceLast := by
  obtain ⟨u, hu, rfl⟩ := run?_eq_some_iff.1 h
  have hstart : ∀ r ∈ (State.ofItems items).raises, r.recorded = p.admits r.sinceLast := by
    intro r hr
    cases hr
  rw [State.raises_drain]
  exact p.keeps_admitted.expect (hu.keeps p.keeps_admitted (p.keeps_admitted.advance _ hstart)) _

theorem consumed_le_of_run? (h : p.run? items = some t) :
    t.consumed ≤ items.countP (·.isOk) := by
  obtain ⟨u, hu, rfl⟩ := run?_eq_some_iff.1 h
  have hkeeps := p.keeps_account (items.countP (·.isOk))
  have hstart := hkeeps.advance (State.ofItems items) (Nat.zero_add _)
  have hend := hkeeps.expect (hu.keeps hkeeps hstart) TokenKind.eof
  rw [State.consumed_drain]
  omega

/-- A stream with no error but perhaps its last item is pulled to its end. -/
theorem pulls_eq_of_run? {tokens : List (Token κ)} {last : Item κ}
    (h : p.run? (tokens.map .ok ++ [last]) = some t) : t.pulls = tokens.length + 1 := by
  obtain ⟨pulled, hp, hdrained⟩ := pulled_of_run? h
  rw [hp.pulls]
  have hsplit := hp.split
  cases last with
  | error error =>
    obtain ⟨hf, rfl, -⟩ := hp.of_error hdrained
    rw [hf]
    rfl
  | ok token =>
    have hf : t.failure = none := by
      have hall : tokens.map .ok ++ [Except.ok token] =
          (tokens ++ [token]).map (Except.ok (ε := LexError)) := by simp
      rw [failure_of_run? h, hall, firstError_map_ok]
    rw [hf, hdrained hf] at hsplit
    rw [hf]
    simpa using (congrArg List.length hsplit).symm

end Parser

end Lookahead
