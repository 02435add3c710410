import Lookahead.Command.Arguments

/-!
Arguments of a command without a report. The options of a report are not among them, and otherwise
they are read as those of a command with a report.
-/

namespace Lookahead.Command

/-- An option that has nothing to do with a report. -/
def Switch.Plain (o : Switch) : Prop := o ≠ .format ∧ o ≠ .noTokens

/-- Options that say nothing of a report. -/
structure Options.Plain (o : Options) : Prop where
  format : o.format = none
  noTokens : o.noTokens = false

theorem Options.Plain.give? {o o' : Options} (ho : o.Plain) {option : Switch} {text : String}
    (hoption : option.Plain) (h : o.give? option text = some o') : o'.Plain := by
  obtain ⟨hformat, hnoTokens⟩ := ho
  cases option with
  | language | lineCounting =>
    simp only [Options.give?, Option.ite_none_left_eq_some, Option.map_eq_some_iff] at h
    obtain ⟨-, a, -, rfl⟩ := h
    exact ⟨hformat, hnoTokens⟩
  | config =>
    simp only [Options.give?, Option.ite_none_left_eq_some, Option.some.injEq] at h
    obtain ⟨-, rfl⟩ := h
    exact ⟨hformat, hnoTokens⟩
  | format => exact absurd rfl hoption.1
  | noTokens => exact absurd rfl hoption.2

theorem long?_of_not_reports {name : List Char} {option : Switch}
    (h : long? false name = some option) : long? true name = some option ∧ option.Plain := by
  unfold long? at h ⊢
  split at h <;> simp_all [Switch.Plain]
  all_goals
    subst h
    simp

theorem short?_of_not_reports {letter : Char} {option : Switch}
    (h : short? false letter = some option) : short? true letter = some option ∧ option.Plain := by
  unfold short? at h ⊢
  split at h
  · next hl =>
    cases h
    exact ⟨if_pos hl, by simp [Switch.Plain]⟩
  · next hl =>
    simp only [Bool.and_false, Bool.false_eq_true, if_false, Option.ite_none_right_eq_some,
      Option.some.injEq] at h
    obtain ⟨hc, rfl⟩ := h
    exact ⟨by rw [if_neg hl, if_pos hc], by simp [Switch.Plain]⟩

namespace Draft

/-- A draft in which nothing has been said of a report. -/
structure Plain (d : Draft) : Prop where
  options : d.options.Plain
  awaiting : ∀ option ∈ d.awaiting, option.Plain

variable {d d' : Draft}

theorem Plain.operand? (hd : d.Plain) {text : String} (h : d.operand? text = some d') :
    d'.Plain := by
  simp only [Draft.operand?, Option.ite_none_left_eq_some, Option.some.injEq] at h
  obtain ⟨-, rfl⟩ := h
  exact ⟨hd.options, hd.awaiting⟩

theorem Plain.option? (hd : d.Plain) {option : Switch} (hoption : option.Plain)
    {value : Option String} (h : d.option? option value = some d') : d'.Plain := by
  cases value with
  | none =>
    have h' : d' = { d with awaiting := some option } := by
      cases option <;> simp_all [Draft.option?, Switch.Plain]
    subst h'
    exact ⟨hd.options, fun o ho ↦ Option.some.inj ho ▸ hoption⟩
  | some value =>
    have hgive : d.option? option (some value) =
        (d.options.give? option value).map fun options ↦ { d with options } := by
      cases option with
      | noTokens => exact absurd rfl hoption.2
      | _ => rfl
    obtain ⟨o, ho, rfl⟩ := Option.map_eq_some_iff.mp (hgive.symm.trans h)
    exact ⟨hd.options.give? hoption ho, hd.awaiting⟩

theorem Plain.read? (hd : d.Plain) {text : String} (h : d.read? false text = some d') :
    d.read? true text = some d' ∧ d'.Plain := by
  unfold Draft.read? at h ⊢
  by_cases hover : d.operandsOnly = true
  · rw [if_pos hover] at h ⊢
    exact ⟨h, hd.operand? h⟩
  · rw [if_neg hover] at h ⊢
    split at h
    · next text option _ hawaiting =>
      obtain ⟨o, ho, rfl⟩ := Option.map_eq_some_iff.mp h
      exact ⟨h, hd.options.give? (hd.awaiting option hawaiting) ho, by simp⟩
    · contradiction
    · exact ⟨h, hd.operand? h⟩
    · cases h
      exact ⟨rfl, hd.options, hd.awaiting⟩
    · obtain ⟨option, hoption, h⟩ := Option.bind_eq_some_iff.mp h
      obtain ⟨hlong, hplain⟩ := long?_of_not_reports hoption
      rw [hlong]
      exact ⟨h, hd.option? hplain h⟩
    · obtain ⟨option, hoption, h⟩ := Option.bind_eq_some_iff.mp h
      obtain ⟨hshort, hplain⟩ := short?_of_not_reports hoption
      rw [hshort]
      exact ⟨h, hd.option? hplain h⟩

theorem Plain.foldlM (hd : d.Plain) {arguments : List String}
    (h : arguments.foldlM (Draft.read? false) d = some d') :
    arguments.foldlM (Draft.read? true) d = some d' ∧ d'.Plain := by
  induction arguments generalizing d with
  | nil =>
    cases h
    exact ⟨rfl, hd⟩
  | cons text arguments ih =>
    rw [List.foldlM_cons] at h ⊢
    obtain ⟨d₁, hd₁, h⟩ := Option.bind_eq_some_iff.mp h
    obtain ⟨hread, hplain⟩ := hd.read? hd₁
    rw [hread]
    exact ih hplain h

end Draft

theorem read?_of_not_reports {arguments : List String} {path : String} {o : Options}
    (h : read? false arguments = some (path, o)) :
    read? true arguments = some (path, o) ∧ o.Plain := by
  unfold read? at h ⊢
  split at h
  · next path options operandsOnly hd =>
    cases h
    obtain ⟨hread, hplain⟩ := Draft.Plain.foldlM ⟨⟨rfl, rfl⟩, by simp⟩ hd
    rw [hread]
    exact ⟨rfl, hplain.options⟩
  · contradiction

/-- Arguments of `tokens` are arguments of `check` with the same path and options. -/
theorem ofArguments?_of_tokens {arguments : List String} {path : String} {o : Options}
    (h : Request.ofArguments? arguments = some (.tokens path o)) :
    o.Plain ∧ ∃ rest, arguments = "tokens" :: rest ∧
      Request.ofArguments? ("check" :: rest) = some (.check path o) := by
  unfold Request.ofArguments? at h
  split at h
  · contradiction
  · split at h <;> cases h
  · simp at h
  · next rest =>
    obtain ⟨⟨path', o'⟩, hr, heq⟩ := Option.map_eq_some_iff.mp h
    cases heq
    obtain ⟨hread, hplain⟩ := read?_of_not_reports hr
    exact ⟨hplain, rest, rfl, by simp [Request.ofArguments?, hread]⟩
  · split at h <;> cases h

end Lookahead.Command
