import Lookahead.Command.Basic
import Lookahead.Proofs.Command.Options
import Lookahead.Proofs.Language.Counting
import Lookahead.Proofs.Language.Streaming

/-!
The status that a command exits with. It tells whether the source was accepted, faulty, or not
analyzed at all because the settings, the reading of the source or its scanning failed, in this order.
-/

namespace Lookahead.Command

/-- A source is analyzed, with these diagnostics: the settings can be built, the source is a file in
UTF-8, and it is made of words of the language. -/
def Finds (find : String → Place) (path : String) (o : Options) (diagnostics : List Diagnostic) :
    Prop :=
  ∃ s bytes text records, settings find o = .ok s ∧ find path = .file bytes ∧
    Utf8.strict? bytes = some text ∧ s.language.tokenize s.counting text = .ok records ∧
    s.language.check? s.counting text = some (.ok diagnostics)

/-- A source is not analyzed, because of the first stage that fails. -/
inductive FailsWith (find : String → Place) (path : String) (o : Options) : Failure → Prop
  | building {error : ConfigError} (hs : settings find o = .error (.config error)) :
      FailsWith find path o (.config error)
  | reading {s : Settings} {cause : String} (hs : settings find o = .ok s)
      (ht : source find path = .error (.unreadable path cause)) :
      FailsWith find path o (.unreadable path cause)
  | scanning {s : Settings} {text : String} {error : LexError} (hs : settings find o = .ok s)
      (ht : source find path = .ok text)
      (he : s.language.tokenize s.counting text = .error error) :
      FailsWith find path o (.lexical error)

variable {find : String → Place} {path : String} {o : Options}

theorem source_eq_ok_iff {text : String} : source find path = .ok text ↔
    ∃ bytes, find path = .file bytes ∧ Utf8.strict? bytes = some text := by
  unfold source
  cases find path with
  | file bytes => cases h : Utf8.strict? bytes <;> simp [h]
  | _ => simp

theorem exists_configError {f : Failure} (h : settings find o = .error f) :
    ∃ error, f = .config error := by
  unfold settings at h
  cases hbuild : Settings.build (fileLayer find o.config :: optionLayers o) with
  | error error =>
    rw [hbuild] at h
    cases h
    exact ⟨error, rfl⟩
  | ok s =>
    rw [hbuild] at h
    cases h

theorem exists_cause {f : Failure} (h : source find path = .error f) :
    ∃ cause, f = .unreadable path cause := by
  unfold source at h
  split at h
  · split at h <;> cases h
    exact ⟨_, rfl⟩
  all_goals
    cases h
    exact ⟨_, rfl⟩

theorem check_of_settings {s : Settings} {text : String} (hs : settings find o = .ok s)
    (ht : source find path = .ok text) :
    check find path o = match s.language.analyze? s.counting text with
      | none => .error .endless
      | some (.error error) => .error (.lexical error)
      | some (.ok a) => .ok { output := a.render s.format s.showTokens, accepted := a.accepted } := by
  simp only [check, hs, ht]
  rfl

theorem tokens_of_settings {s : Settings} {text : String} (hs : settings find o = .ok s)
    (ht : source find path = .ok text) :
    tokens find path o = match s.language.tokenize s.counting text with
      | .error error => .error (.lexical error)
      | .ok ts => .ok { output := String.join (ts.map tokenLine) } := by
  simp only [tokens, hs, ht]
  rfl

theorem finds_or_failsWith (find : String → Place) (path : String) (o : Options) :
    (∃ diagnostics, Finds find path o diagnostics) ∨ ∃ f, FailsWith find path o f := by
  cases hs : settings find o with
  | error f =>
    obtain ⟨error, rfl⟩ := exists_configError hs
    exact .inr ⟨_, .building hs⟩
  | ok s =>
    cases ht : source find path with
    | error f =>
      obtain ⟨cause, rfl⟩ := exists_cause ht
      exact .inr ⟨_, .reading hs ht⟩
    | ok text =>
      cases he : s.language.tokenize s.counting text with
      | error error => exact .inr ⟨_, .scanning hs ht he⟩
      | ok records =>
        obtain ⟨bytes, hbytes, htext⟩ := source_eq_ok_iff.mp ht
        obtain ⟨diagnostics, hcheck, -⟩ := Language.exists_analyze?_of_tokenize_ok he
        exact .inl ⟨diagnostics, s, bytes, text, records, hs, hbytes, htext, he, hcheck⟩

theorem FailsWith.check_eq {f : Failure} (h : FailsWith find path o f) :
    check find path o = .error f := by
  cases h with
  | building hs =>
    rw [check, hs]
    rfl
  | reading hs ht =>
    rw [check, hs, ht]
    rfl
  | scanning hs ht he =>
    rw [check_of_settings hs ht, Language.analyze?_of_tokenize_error he]

theorem FailsWith.tokens_eq {f : Failure} (h : FailsWith find path o f) :
    tokens find path o = .error f := by
  cases h with
  | building hs =>
    rw [tokens, hs]
    rfl
  | reading hs ht =>
    rw [tokens, hs, ht]
    rfl
  | scanning hs ht he => rw [tokens_of_settings hs ht, he]

theorem Finds.exists_check_eq {diagnostics : List Diagnostic} (h : Finds find path o diagnostics) :
    ∃ output, check find path o = .ok ⟨output, diagnostics.isEmpty⟩ := by
  obtain ⟨s, bytes, text, records, hs, hbytes, htext, he, hcheck⟩ := h
  obtain ⟨diagnostics', hcheck', ha⟩ := Language.exists_analyze?_of_tokenize_ok he
  have heq : diagnostics = diagnostics' :=
    Except.ok.inj (Option.some.inj (hcheck.symm.trans hcheck'))
  subst heq
  rw [check_of_settings hs (source_eq_ok_iff.mpr ⟨bytes, hbytes, htext⟩), ha]
  exact ⟨_, rfl⟩

theorem Finds.exists_tokens_eq {diagnostics : List Diagnostic} (h : Finds find path o diagnostics) :
    ∃ output, tokens find path o = .ok ⟨output, true⟩ := by
  obtain ⟨s, bytes, text, records, hs, hbytes, htext, he, -⟩ := h
  rw [tokens_of_settings hs (source_eq_ok_iff.mpr ⟨bytes, hbytes, htext⟩), he]
  exact ⟨_, rfl⟩

theorem Finds.status_check {diagnostics : List Diagnostic} (h : Finds find path o diagnostics) :
    (check find path o).status = if diagnostics.isEmpty then 0 else 1 := by
  obtain ⟨output, hcheck⟩ := h.exists_check_eq
  rw [hcheck]
  rfl

theorem FailsWith.status_check {f : Failure} (h : FailsWith find path o f) :
    (check find path o).status = 2 := by
  rw [h.check_eq]
  rfl

theorem tokens_eq_error_iff {f : Failure} :
    tokens find path o = .error f ↔ check find path o = .error f := by
  obtain ⟨diagnostics, h⟩ | ⟨f', h⟩ := finds_or_failsWith find path o
  · obtain ⟨output, hcheck⟩ := h.exists_check_eq
    obtain ⟨output', htokens⟩ := h.exists_tokens_eq
    rw [hcheck, htokens]
    simp
  · rw [h.check_eq, h.tokens_eq]

theorem status_check_congr {find' : String → Place} {path' : String} {o' : Options}
    {s s' : Settings} (hs : settings find o = .ok s) (hs' : settings find' o' = .ok s')
    (hl : s.language = s'.language)
    (hsource : (source find path).toOption = (source find' path').toOption) :
    (check find path o).status = (check find' path' o').status := by
  cases ht : source find path with
  | error f =>
    cases ht' : source find' path' with
    | error f' =>
      obtain ⟨cause, rfl⟩ := exists_cause ht
      obtain ⟨cause', rfl⟩ := exists_cause ht'
      rw [(FailsWith.reading hs ht).status_check, (FailsWith.reading hs' ht').status_check]
    | ok text' => simp [ht, ht', Except.toOption] at hsource
  | ok text =>
    have ht' : source find' path' = .ok text := by
      cases h : source find' path' <;> simp_all [Except.toOption]
    rw [check_of_settings hs ht, check_of_settings hs' ht', ← hl]
    obtain ⟨e, e', ha, ha'⟩ | ⟨a, a', ha, ha', hacc⟩ :=
      s.language.analyze?_accepted text s.counting s'.counting
    · rw [ha, ha']
      rfl
    · rw [ha, ha']
      simp only [Outcome.status, hacc]

/-- What the exits of commands tell. `check` accepts a source in which nothing is found and exits with
1 where something is; a stage that fails, as the first one to do so, is told by one line and by
nothing else. `tokens` fails where `check` with the same options does, and in the same way. Two checks
of the same text in the same language exit alike, whatever else the settings say. -/
structure Exits (find : String → Place) : Prop where
  accepted : ∀ arguments path o, Request.ofArguments? arguments = some (.check path o) →
    ((run find arguments).status = 0 ↔ Finds find path o [])
  faulty : ∀ arguments path o, Request.ofArguments? arguments = some (.check path o) →
    ((run find arguments).status = 1 ↔ ∃ diagnostics ≠ [], Finds find path o diagnostics)
  failed : ∀ arguments path o, Request.ofArguments? arguments = some (.check path o) →
    ¬ (∃ diagnostics, Finds find path o diagnostics) → ∃ f, FailsWith find path o f ∧
      run find arguments = .error f ∧ (run find arguments).status = 2 ∧
      (run find arguments).output = ""
  tokens : ∀ arguments path o, Request.ofArguments? arguments = some (.tokens path o) →
    (∃ arguments', Request.ofArguments? arguments' = some (.check path o)) ∧
    ∀ arguments' o', Request.ofArguments? arguments' = some (.check path o') →
      o'.language = o.language → o'.config = o.config → o'.counting = o.counting →
      o'.format = none → o'.noTokens = false →
      (∀ f, run find arguments = .error f ↔ run find arguments' = .error f) ∧
      (run find arguments).status = if (run find arguments').status = 2 then 2 else 0
  alike : ∀ find' arguments arguments' path path' o o' s s',
    Request.ofArguments? arguments = some (.check path o) →
    Request.ofArguments? arguments' = some (.check path' o') →
    settings find o = .ok s → settings find' o' = .ok s' → s.language = s'.language →
    (source find path).toOption = (source find' path').toOption →
    (run find arguments).status = (run find' arguments').status

theorem run_of_check {arguments : List String}
    (h : Request.ofArguments? arguments = some (.check path o)) :
    run find arguments = check find path o := by
  rw [run, h]
  rfl

theorem run_of_tokens {arguments : List String}
    (h : Request.ofArguments? arguments = some (.tokens path o)) :
    run find arguments = tokens find path o := by
  rw [run, h]
  rfl

theorem exits_by_first_failure (find : String → Place) : Exits find where
  accepted arguments path o h := by
    rw [run_of_check h]
    refine ⟨fun hstatus ↦ ?_, fun hfinds ↦ hfinds.status_check⟩
    obtain ⟨diagnostics, hfinds⟩ | ⟨f, hf⟩ := finds_or_failsWith find path o
    · rw [hfinds.status_check] at hstatus
      cases diagnostics with
      | nil => exact hfinds
      | cons => simp at hstatus
    · rw [hf.status_check] at hstatus
      contradiction
  faulty arguments path o h := by
    rw [run_of_check h]
    constructor
    · intro hstatus
      obtain ⟨diagnostics, hfinds⟩ | ⟨f, hf⟩ := finds_or_failsWith find path o
      · rw [hfinds.status_check] at hstatus
        refine ⟨diagnostics, ?_, hfinds⟩
        rintro rfl
        contradiction
      · rw [hf.status_check] at hstatus
        contradiction
    · rintro ⟨diagnostics, hne, hfinds⟩
      rw [hfinds.status_check, if_neg (by simpa using hne)]
  failed arguments path o h hnone := by
    rw [run_of_check h]
    obtain hfinds | ⟨f, hf⟩ := finds_or_failsWith find path o
    · exact absurd hfinds hnone
    · rw [hf.check_eq]
      exact ⟨f, hf, rfl, rfl, rfl⟩
  tokens arguments path o h := by
    obtain ⟨hplain, rest, -, hcheck⟩ := ofArguments?_of_tokens h
    refine ⟨⟨_, hcheck⟩, fun arguments' o' h' hl hc hk hf hn ↦ ?_⟩
    have ho : o' = o := by
      obtain ⟨l, c, k, f, n⟩ := o
      obtain ⟨l', c', k', f', n'⟩ := o'
      obtain ⟨rfl, rfl⟩ := hplain
      simp_all
    subst ho
    rw [run_of_tokens h, run_of_check h']
    refine ⟨fun f ↦ tokens_eq_error_iff, ?_⟩
    obtain ⟨diagnostics, hfinds⟩ | ⟨f, hfails⟩ := finds_or_failsWith find path o'
    · obtain ⟨output, htokens⟩ := hfinds.exists_tokens_eq
      rw [hfinds.status_check, htokens]
      cases diagnostics <;> rfl
    · rw [hfails.status_check, hfails.tokens_eq]
      rfl
  alike find' arguments arguments' path path' o o' s s' h h' hs hs' hl hsource := by
    rw [run_of_check h, run_of_check h']
    exact status_check_congr hs hs' hl hsource

/-- One faulty source, and no settings beside it. -/
def loneSource (path : String) : Place := if path = "a" then .file ";".toUTF8.toList else .missing

theorem exits_alike_for_reports :
    (run loneSource ["check", "-lboolean", "a"]).status =
      (run loneSource ["check", "--line-counting=physical", "-lboolean", "--no-tokens", "a"]).status ∧
    (run loneSource ["tokens", "-lboolean", "a"]).status =
      if (run loneSource ["check", "-lboolean", "a"]).status = 2 then 2 else 0 := by
  have hcheck : Request.ofArguments? ["check", "-lboolean", "a"] =
      some (.check "a" { language := some .boolean }) := by decide +kernel
  have hreport : Request.ofArguments?
      ["check", "--line-counting=physical", "-lboolean", "--no-tokens", "a"] =
        some (.check "a" ⟨some .boolean, none, some .physical, none, true⟩) := by decide +kernel
  have htokens : Request.ofArguments? ["tokens", "-lboolean", "a"] =
      some (.tokens "a" { language := some .boolean }) := by decide +kernel
  have hs : settings loneSource { language := some .boolean } =
      .ok ⟨.boolean, .nonBlank, .text, true⟩ := by decide +kernel
  have hs' : settings loneSource ⟨some .boolean, none, some .physical, none, true⟩ =
      .ok ⟨.boolean, .physical, .text, false⟩ := by decide +kernel
  have hexits := exits_by_first_failure loneSource
  have htwin := (hexits.tokens _ _ _ htokens).2 _ _ hcheck rfl rfl rfl rfl rfl
  exact ⟨hexits.alike _ _ _ _ _ _ _ _ _ hcheck hreport hs hs' rfl rfl, htwin.2⟩

end Lookahead.Command
