import Mathlib.Data.List.Lex
import Lookahead.Proofs.Run.Calls

/-!
What is found wrong with a list of productions. Calls are looked up at the addresses at which they
stand in a body, and the one that is reported stands at the first address of all that lead nowhere.
-/

namespace Lookahead

variable {κ : Type}

/-! ### Repeated names -/

theorem firstRepeated_go_eq_some_iff {seen names : List String} {name : String} :
    firstRepeated.go seen names = some name ↔ ∃ before after, names = before ++ name :: after ∧
      (name ∈ seen ∨ name ∈ before) ∧ before.Nodup ∧ ∀ n ∈ before, n ∉ seen := by
  induction names generalizing seen with
  | nil => simp [firstRepeated.go]
  | cons n names ih =>
    unfold firstRepeated.go
    split
    · rename_i hn
      constructor
      · intro h
        cases h
        exact ⟨[], names, rfl, .inl hn, List.nodup_nil, by simp⟩
      · intro h
        obtain ⟨before, after, hsplit, -, -, hnew⟩ := h
        cases before with
        | nil => rw [(List.cons.inj hsplit).1]
        | cons m before =>
          obtain ⟨rfl, -⟩ := List.cons.inj hsplit
          exact absurd hn (hnew n List.mem_cons_self)
    · rename_i hn
      rw [ih]
      constructor
      · intro h
        obtain ⟨before, after, rfl, hagain, hdistinct, hnew⟩ := h
        have hfresh : n ∉ before := fun hmem ↦ hnew n hmem List.mem_cons_self
        exact ⟨n :: before, after, rfl, by grind, List.nodup_cons.2 ⟨hfresh, hdistinct⟩, by grind⟩
      · intro h
        obtain ⟨before, after, hsplit, hagain, hdistinct, hnew⟩ := h
        cases before with
        | nil =>
          obtain ⟨rfl, -⟩ := List.cons.inj hsplit
          simp [hn] at hagain
        | cons m before =>
          obtain ⟨rfl, rfl⟩ := List.cons.inj hsplit
          rw [List.nodup_cons] at hdistinct
          exact ⟨before, after, rfl, by grind, hdistinct.2, by grind⟩

theorem firstRepeated_eq_some_iff {names : List String} {name : String} :
    firstRepeated names = some name ↔ ∃ before after, names = before ++ name :: after ∧
      name ∈ before ∧ before.Nodup := by
  simp [firstRepeated, firstRepeated_go_eq_some_iff]

/-! ### Calls and their addresses -/

/-- The call at an address. An address leads into a rule by its number, and into an arm of a choice by
the number of the arm, so that it comes before another one exactly if its call does. -/
def callAt? : List (Rule κ) → List Nat → Option String
  | _, [] => none
  | rules, i :: address =>
    match rules[i]? with
    | some (.call callee) => if address = [] then some callee else none
    | some (.loop _ body) | some (.optional _ body) => callAt? body address
    | some (.choice _ arms) =>
      match address with
      | [] => none
      | j :: address => (arms[j]?).bind fun arm ↦ callAt? arm.2 address
    | some (.expect _) | some .advance | some (.forbid ..) | none => none

/-- The first call in some rules, at whatever depth, of a name of this kind. -/
def FirstCall (named : String → Prop) (rules : List (Rule κ)) (callee : String) : Prop :=
  ∃ address, callAt? rules address = some callee ∧ named callee ∧
    ∀ earlier < address, ∀ c, callAt? rules earlier = some c → ¬ named c

/-- The calls at some addresses, listed in the order of the addresses. -/
def Lists (at? : List Nat → Option String) (calls : List String) : Prop :=
  ∃ entries : List (List Nat × String), entries.Pairwise (·.1 < ·.1) ∧
    entries.map Prod.snd = calls ∧ ∀ address callee,
      at? address = some callee ↔ (address, callee) ∈ entries

namespace Lists

variable {at? : List Nat → Option String} {calls calls' : List String}

theorem nil (h : ∀ address, at? address = none) : Lists at? [] :=
  ⟨[], .nil, rfl, by simp [h]⟩

/-- The first listed call of some kind is the one at the first address that has such a call. -/
theorem find?_eq_some_iff (h : Lists at? calls) {named : String → Bool} {callee : String} :
    calls.find? named = some callee ↔ ∃ address, at? address = some callee ∧ named callee ∧
      ∀ earlier < address, ∀ c, at? earlier = some c → ¬ named c := by
  obtain ⟨entries, hordered, rfl, hat⟩ := h
  rw [List.find?_map, Option.map_eq_some_iff]
  constructor
  · intro h
    obtain ⟨⟨address, c⟩, hfind, rfl⟩ := h
    obtain ⟨hnamed, before, after, rfl, hbefore⟩ := List.find?_eq_some_iff_append.1 hfind
    refine ⟨address, (hat _ _).2 (by simp), hnamed, ?_⟩
    intro earlier hlt c hc
    have hmem := (hat _ _).1 hc
    rw [List.pairwise_append, List.pairwise_cons] at hordered
    rcases List.mem_append.1 hmem with hmem | hmem
    · simpa using hbefore _ hmem
    · -- only the entries in front have smaller addresses
      rcases List.mem_cons.1 hmem with heq | hmem
      · cases heq
        exact absurd hlt (lt_irrefl _)
      · exact absurd hlt (lt_asymm (hordered.2.1.1 _ hmem))
  · intro h
    obtain ⟨address, hcall, hnamed, hearlier⟩ := h
    refine ⟨(address, callee), ?_, rfl⟩
    obtain ⟨before, after, rfl⟩ := List.append_of_mem ((hat _ _).1 hcall)
    refine List.find?_eq_some_iff_append.2 ⟨hnamed, before, after, rfl, ?_⟩
    intro entry hmem
    have hlt := (List.pairwise_append.1 hordered).2.2 entry hmem _ List.mem_cons_self
    simpa using hearlier entry.1 hlt entry.2 ((hat _ _).2 (List.mem_append_left _ hmem))

theorem mem_iff (h : Lists at? calls) {callee : String} :
    callee ∈ calls ↔ ∃ address, at? address = some callee := by
  obtain ⟨entries, -, rfl, hat⟩ := h
  simp [hat]

theorem congr {at?' : List Nat → Option String} (h : Lists at? calls)
    (heq : ∀ address, at?' address = at? address) : Lists at?' calls := by
  rw [show at?' = at? from funext heq]
  exact h

/-- The same address, its first number one more. -/
def bump : List Nat → List Nat
  | [] => []
  | i :: address => (i + 1) :: address

theorem bump_lt_bump {a b : List Nat} (h : a < b) : bump a < bump b := by
  cases b with
  | nil => simp at h
  | cons j b =>
    cases a with
    | nil => exact List.nil_lt_cons _ _
    | cons i a =>
      rw [List.cons_lt_cons_iff] at h
      simpa only [bump, List.cons_lt_cons_iff, Nat.add_lt_add_iff_right, Nat.add_right_cancel_iff]
        using h

/-- Addresses that begin with a zero lead into the first part, and all others into what is behind
it, where the numbers are one less. -/
theorem append (hnil : at? [] = none) (hfirst : Lists (fun address ↦ at? (0 :: address)) calls)
    {behind? : List Nat → Option String} (hbehind : behind? [] = none)
    (hsucc : ∀ i address, at? ((i + 1) :: address) = behind? (i :: address))
    (hrest : Lists behind? calls') : Lists at? (calls ++ calls') := by
  obtain ⟨entries, hordered, rfl, hat⟩ := hfirst
  obtain ⟨entries', hordered', rfl, hat'⟩ := hrest
  let front := entries.map fun entry ↦ (0 :: entry.1, entry.2)
  let back := entries'.map fun entry ↦ (bump entry.1, entry.2)
  have hback (address callee) : (address, callee) ∈ back ↔
      ∃ i rest, address = (i + 1) :: rest ∧ (i :: rest, callee) ∈ entries' := by
    constructor
    · intro hmem
      obtain ⟨⟨address, callee⟩, hentry, heq⟩ := List.mem_map.1 hmem
      cases heq
      cases address with
      | nil =>
        have hcall := (hat' [] callee).2 hentry
        rw [hbehind] at hcall
        cases hcall
      | cons i rest => exact ⟨i, rest, rfl, hentry⟩
    · intro h
      obtain ⟨i, rest, rfl, hmem⟩ := h
      exact List.mem_map.2 ⟨_, hmem, rfl⟩
  refine ⟨front ++ back, List.pairwise_append.2 ⟨?_, ?_, ?_⟩, ?_, ?_⟩
  · refine List.pairwise_map.2 (hordered.imp ?_)
    intro a b hlt
    exact List.cons_lt_cons_iff.2 (.inr ⟨rfl, hlt⟩)
  · exact List.pairwise_map.2 (hordered'.imp bump_lt_bump)
  · intro a ha b hb
    obtain ⟨a, -, rfl⟩ := List.mem_map.1 ha
    obtain ⟨i, rest, heq, -⟩ := (hback b.1 b.2).1 hb
    simp [heq, List.cons_lt_cons_iff]
  · simp [front, back, Function.comp_def]
  · intro address callee
    rw [List.mem_append, hback]
    match address with
    | [] => simp [hnil, front]
    | 0 :: rest =>
      rw [hat rest callee]
      simp [front]
    | (i + 1) :: rest =>
      rw [hsucc, hat']
      simp [front]

end Lists

/-! ### The listed calls -/

/-- The call at an address that begins with the number of an arm. -/
def callAtArm? (arms : List (Arm κ)) : List Nat → Option String
  | [] => none
  | j :: address => (arms[j]?).bind fun arm ↦ callAt? arm.2 address

mutual

theorem Rule.lists_calls (r : Rule κ) (rules : List (Rule κ)) :
    Lists (fun address ↦ callAt? (r :: rules) (0 :: address)) r.calls := by
  cases r with
  | expect | advance | forbid => exact .nil fun _ ↦ rfl
  | call callee =>
    refine ⟨[([], callee)], List.pairwise_singleton _ _, rfl, ?_⟩
    intro address c
    cases address with
    | nil => simp [callAt?, eq_comm]
    | cons => simp [callAt?]
  | loop lookahead body | optional lookahead body => exact lists_callsOf body
  | choice title arms =>
    refine (lists_callsOfArms arms).congr ?_
    intro address
    cases address <;> rfl

theorem lists_callsOf (rules : List (Rule κ)) : Lists (callAt? rules) (callsOf rules) := by
  cases rules with
  | nil =>
    apply Lists.nil
    intro address
    cases address <;> rfl
  | cons r rules =>
    refine .append rfl (r.lists_calls rules) rfl ?_ (lists_callsOf rules)
    intro i address
    simp [callAt?]

theorem lists_callsOfArms (arms : List (Arm κ)) : Lists (callAtArm? arms) (callsOfArms arms) := by
  cases arms with
  | nil =>
    apply Lists.nil
    intro address
    cases address <;> rfl
  | cons arm arms =>
    obtain ⟨lookahead, body⟩ := arm
    exact .append rfl (lists_callsOf body) rfl (fun _ _ ↦ rfl) (lists_callsOfArms arms)

end

theorem firstUndefined_eq_some_iff {productions : List (Production κ)} {caller callee : String} :
    firstUndefined productions = some (caller, callee) ↔
      ∃ before p after, productions = before ++ p :: after ∧ p.name = caller ∧
        FirstCall (· ∉ namesOf productions) p.body callee ∧
        ∀ q ∈ before, ∀ address c, callAt? q.body address = some c → c ∈ namesOf productions := by
  have hfirst (p : Production κ) : p.calls.find? (· ∉ namesOf productions) = some callee ↔
      FirstCall (· ∉ namesOf productions) p.body callee := by
    rw [Production.calls, (lists_callsOf p.body).find?_eq_some_iff]
    simp [FirstCall]
  have hlisted (q : Production κ) : (∀ c ∈ q.calls, c ∈ namesOf productions) ↔
      ∀ address c, callAt? q.body address = some c → c ∈ namesOf productions := by
    simp only [Production.calls, (lists_callsOf q.body).mem_iff]
    grind
  rw [firstUndefined, List.findSome?_eq_some_iff]
  simp only [Option.map_eq_some_iff, Option.map_eq_none_iff, List.find?_eq_none]
  constructor
  · intro h
    obtain ⟨before, p, after, hsplit, ⟨c, hfind, heq⟩, hbefore⟩ := h
    cases heq
    refine ⟨before, p, after, hsplit, rfl, (hfirst p).1 hfind, ?_⟩
    intro q hq
    exact (hlisted q).1 (by simpa using hbefore q hq)
  · intro h
    obtain ⟨before, p, after, hsplit, rfl, hcall, hbefore⟩ := h
    refine ⟨before, p, after, hsplit, ⟨callee, (hfirst p).2 hcall, rfl⟩, ?_⟩
    intro q hq
    simpa using (hlisted q).2 (hbefore q hq)

namespace Grammar

variable {start : String} {productions : List (Production κ)}

/-- What the first defect of a list of productions is reported as. A name that is repeated comes
before a start that is missing, and that before a call of a name that is not listed. -/
inductive Defective (start : String) (productions : List (Production κ)) : GrammarError → Prop
  /-- The name of this production is the first that stands in front of it too. -/
  | duplicate {before p after} (hsplit : productions = before ++ p :: after)
      (hagain : p.name ∈ namesOf before) (hnew : (namesOf before).Nodup) :
      Defective start productions (.duplicateProduction p.name)
  | missing (hnames : (namesOf productions).Nodup) (hstart : start ∉ namesOf productions) :
      Defective start productions (.missingStart start)
  /-- In this production the first call of a name that is not listed is this one, and in those in
  front of it there is none. -/
  | undefined {before p after callee} (hnames : (namesOf productions).Nodup)
      (hstart : start ∈ namesOf productions) (hsplit : productions = before ++ p :: after)
      (hfirst : FirstCall (· ∉ namesOf productions) p.body callee)
      (hbefore : ∀ q ∈ before, ∀ address c,
        callAt? q.body address = some c → c ∈ namesOf productions) :
      Defective start productions (.undefinedProduction p.name callee)

theorem firstRepeated_namesOf_eq_some_iff {name : String} :
    firstRepeated (namesOf productions) = some name ↔ ∃ before p after,
      productions = before ++ p :: after ∧ p.name = name ∧ name ∈ namesOf before ∧
        (namesOf before).Nodup := by
  rw [firstRepeated_eq_some_iff]
  constructor
  · intro h
    obtain ⟨before, after, hsplit, hagain, hnew⟩ := h
    obtain ⟨before, behind, rfl, rfl, hbehind⟩ := List.map_eq_append_iff.1 hsplit
    obtain ⟨p, after, rfl, rfl, rfl⟩ := List.map_eq_cons_iff.1 hbehind
    exact ⟨before, p, after, rfl, rfl, hagain, hnew⟩
  · intro h
    obtain ⟨before, p, after, rfl, rfl, hagain, hnew⟩ := h
    exact ⟨namesOf before, namesOf after, by simp [namesOf], hagain, hnew⟩

theorem ofProductions_eq_error_iff {error : GrammarError} :
    ofProductions start productions = .error error ↔ Defective start productions error := by
  have hnodup := firstRepeated_eq_none_iff (namesOf productions)
  constructor
  · intro h
    unfold ofProductions at h
    split at h
    case h_1 name hname =>
      cases h
      obtain ⟨before, p, after, hsplit, rfl, hagain, hnew⟩ :=
        firstRepeated_namesOf_eq_some_iff.1 hname
      exact .duplicate hsplit hagain hnew
    case h_2 hnames =>
      split at h
      case isFalse hstart =>
        cases h
        exact .missing (hnodup.1 hnames) hstart
      case isTrue hstart =>
        split at h <;> cases h
        rename_i hcall
        obtain ⟨before, p, after, hsplit, rfl, hfirst, hbefore⟩ :=
          firstUndefined_eq_some_iff.1 hcall
        exact .undefined (hnodup.1 hnames) hstart hsplit hfirst hbefore
  · intro h
    unfold ofProductions
    cases h with
    | duplicate hsplit hagain hnew =>
      have hname := firstRepeated_namesOf_eq_some_iff.2 ⟨_, _, _, hsplit, rfl, hagain, hnew⟩
      split
      case h_1 name h =>
        rw [hname] at h
        cases h
        rfl
      case h_2 h =>
        rw [hname] at h
        cases h
    | missing hnames hstart =>
      split
      case h_1 name h =>
        rw [hnodup.2 hnames] at h
        cases h
      case h_2 => rw [dif_neg hstart]
    | undefined hnames hstart hsplit hfirst hbefore =>
      have hcall := firstUndefined_eq_some_iff.2 ⟨_, _, _, hsplit, rfl, hfirst, hbefore⟩
      split
      case h_1 name h =>
        rw [hnodup.2 hnames] at h
        cases h
      case h_2 =>
        rw [dif_pos hstart]
        split
        case h_1 caller callee h =>
          rw [hcall] at h
          cases h
          rfl
        case h_2 h =>
          rw [hcall] at h
          cases h

/-- Every call, at whatever depth, of the bodies is of a name that is listed. -/
theorem calls_listed_iff : (∀ p ∈ productions, ∀ c ∈ p.calls, c ∈ namesOf productions) ↔
    ∀ p ∈ productions, ∀ address callee,
      callAt? p.body address = some callee → callee ∈ namesOf productions := by
  simp only [Production.calls, (lists_callsOf _).mem_iff]
  grind

theorem exists_duplicate (h : ¬ (namesOf productions).Nodup) :
    ∃ name, Defective start productions (.duplicateProduction name) := by
  rw [← firstRepeated_eq_none_iff] at h
  obtain ⟨name, hname⟩ := Option.ne_none_iff_exists'.1 h
  obtain ⟨before, p, after, hsplit, rfl, hagain, hnew⟩ :=
    firstRepeated_namesOf_eq_some_iff.1 hname
  exact ⟨p.name, .duplicate hsplit hagain hnew⟩

theorem Defective.not_nodup {name : String}
    (h : Defective start productions (.duplicateProduction name)) :
    ¬ (namesOf productions).Nodup := by
  cases h with
  | duplicate hsplit hagain hnew =>
    rename_i before p after
    intro hnames
    have hapart : p.name ∉ namesOf before := by
      subst hsplit
      simp only [namesOf, List.map_append, List.map_cons, List.nodup_append] at hnames
      intro hmem
      exact hnames.2.2 _ hmem _ List.mem_cons_self rfl
    exact hapart hagain

theorem exists_undefined (hnames : (namesOf productions).Nodup)
    (hstart : start ∈ namesOf productions) {p : Production κ} (hp : p ∈ productions)
    {address : List Nat} {callee : String} (hcall : callAt? p.body address = some callee)
    (hunlisted : callee ∉ namesOf productions) :
    ∃ caller callee, Defective start productions (.undefinedProduction caller callee) := by
  have hsome : firstUndefined productions ≠ none := by
    rw [Ne, firstUndefined_eq_none_iff, calls_listed_iff]
    intro hlisted
    exact hunlisted (hlisted p hp address callee hcall)
  obtain ⟨⟨caller, callee⟩, hfound⟩ := Option.ne_none_iff_exists'.1 hsome
  obtain ⟨before, p, after, hsplit, rfl, hfirst, hbefore⟩ := firstUndefined_eq_some_iff.1 hfound
  exact ⟨p.name, callee, .undefined hnames hstart hsplit hfirst hbefore⟩

/-- Which error a list of productions is refused with, and that it is refused only for a reason: for a
name that is repeated, else for a start that is missing, else for a call, at whatever depth, of a name
that is not listed. The error tells of the first place with that defect, and a list without one is
taken as it is. -/
theorem reports_first_defect (start : String) (productions : List (Production κ)) :
    (∀ error, ofProductions start productions = .error error ↔ Defective start productions error) ∧
    (∀ g, ofProductions start productions = .ok g ↔
      g.start = start ∧ g.productions = productions) ∧
    ((∃ name, ofProductions start productions = .error (.duplicateProduction name)) ↔
      ¬ (namesOf productions).Nodup) ∧
    ((∃ name, ofProductions start productions = .error (.missingStart name)) ↔
      (namesOf productions).Nodup ∧ start ∉ namesOf productions) ∧
    ((∃ caller callee,
        ofProductions start productions = .error (.undefinedProduction caller callee)) ↔
      (namesOf productions).Nodup ∧ start ∈ namesOf productions ∧
        ∃ p ∈ productions, ∃ address callee,
          callAt? p.body address = some callee ∧ callee ∉ namesOf productions) ∧
    ((∃ g, ofProductions start productions = .ok g) ↔
      (namesOf productions).Nodup ∧ start ∈ namesOf productions ∧
        ∀ p ∈ productions, ∀ address callee,
          callAt? p.body address = some callee → callee ∈ namesOf productions) := by
  refine ⟨fun _ ↦ ofProductions_eq_error_iff, fun _ ↦ ofProductions_eq_ok_iff, ?_⟩
  simp only [ofProductions_eq_error_iff, ofProductions_eq_ok_iff]
  refine ⟨?_, ?_, ?_, ?_⟩
  · constructor
    · intro h
      obtain ⟨name, h⟩ := h
      exact h.not_nodup
    · exact exists_duplicate
  · constructor
    · intro h
      obtain ⟨name, h⟩ := h
      cases h with
      | missing hnames hstart => exact ⟨hnames, hstart⟩
    · intro h
      exact ⟨start, .missing h.1 h.2⟩
  · constructor
    · intro h
      obtain ⟨caller, callee, h⟩ := h
      cases h with
      | undefined hnames hstart hsplit hfirst hbefore =>
        obtain ⟨address, hcall, hunlisted, -⟩ := hfirst
        exact ⟨hnames, hstart, _, by simp [hsplit], address, callee, hcall, hunlisted⟩
    · intro h
      obtain ⟨hnames, hstart, p, hp, address, callee, hcall, hunlisted⟩ := h
      exact exists_undefined hnames hstart hp hcall hunlisted
  · constructor
    · intro h
      obtain ⟨g, rfl, rfl⟩ := h
      exact ⟨g.names_nodup, g.start_mem, calls_listed_iff.1 g.calls_mem⟩
    · intro h
      obtain ⟨hnames, hstart, hlisted⟩ := h
      exact ⟨⟨start, productions, hnames, hstart, calls_listed_iff.2 hlisted⟩, rfl, rfl⟩

end Grammar

end Lookahead
