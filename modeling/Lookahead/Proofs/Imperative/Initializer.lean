import Lookahead.Proofs.Ebnf.Occurrence
import Lookahead.Proofs.Imperative.Awaiting
import Lookahead.Proofs.Imperative.Recognition

/-!
Declarations and assignments without what is to be assigned. The choice of an initializer fails at
the terminator of the statement, which is then taken as if nothing were missing.
-/

namespace Lookahead.Imperative

open Kind Goal Phrase Ebnf Lookahead.Parser

/-- The statements that have an initializer. -/
inductive Assigning where
  | declaration
  | assignment

namespace Assigning

def symbol : Assigning → Symbol
  | declaration => .varInit
  | assignment => .varAssign

/-- The name under which a missing initializer is reported. -/
def title : Assigning → String
  | declaration => "Var initialization"
  | assignment => "Var assignment"

/-- What stands in front of the initializer. -/
def target : Assigning → Ebnf Kind Symbol
  | declaration => .token var ++ .token identifier ++ .token assign
  | assignment => .symbol .primary ++ .token assign

end Assigning

/-- What stands to the right of an assignment. -/
def initial : Ebnf Kind Symbol := .symbol .expression ||| .symbol .arrayInit

theorem syntaxOf_symbol (a : Assigning) : syntaxOf a.symbol = a.target ++ initial := by
  cases a <;> rfl

/-- A program, divided at the initializer of one of its statements. -/
def Initializes (a : Assigning) (before init after : List Kind) : Prop :=
  ∃ start, Occurs syntaxOf a.symbol start after (.symbol .program) (before ++ init ++ after) [] ∧
    Derives syntaxOf a.target start (init ++ after) ∧ Derives syntaxOf initial (init ++ after) after

/-! ### Up to the statement -/

variable {i j m q r : List Kind} {k : Kind} {rules : List (Rule Kind)}
  {goals : List (Goal Kind Phrase)}

/-- Statements are read exactly: nothing of what stands behind them is needed. -/
theorem exists_run_statements (h : Derives syntaxOf (.many (.symbol .statement)) i m) :
    ∃ w, i = w ++ m ∧ ∀ below, predictor.run (phrase statements :: below) w =
      some (phrase statements :: below) := by
  have hexact : ∃ w, i = w ++ m ∧ Derives syntaxOf (.many (.symbol .statement)) (w ++ []) [] :=
    h.replace_rest ignores_eof (by trivial) (by simp)
  obtain ⟨w, rfl, hd⟩ := hexact
  rw [List.append_nil] at hd
  exact ⟨w, rfl, reaches_statements (hd.holds read_syntax)⟩

/-- From where statements are expected the text leads to such a place again, in front of a statement
that is ended by a terminator. -/
def ReachesStatement (j q i : List Kind) : Prop :=
  ∃ w q', i = w ++ j ∧ q = terminator :: q' ∧ ∀ below, ∃ goals,
    predictor.run (phrase statements :: below) w = some (phrase statements :: goals)

theorem ReachesStatement.behind (h : ReachesStatement j q m)
    (hs : Derives syntaxOf (.many (.symbol .statement)) i m) : ReachesStatement j q i := by
  obtain ⟨v, rfl, hv⟩ := exists_run_statements hs
  obtain ⟨w, q', rfl, hq, hw⟩ := h
  refine ⟨v ++ w, q', (List.append_assoc ..).symm, hq, fun below ↦ ?_⟩
  obtain ⟨goals, hgoals⟩ := hw below
  exact ⟨goals, by rw [Predictor.run_append, hv, Option.bind_some, hgoals]⟩

/-- Where the symbols stand in which a statement with an initializer can stand. -/
def Symbol.Encloses (j q : List Kind) : Symbol → List Kind → List Kind → Prop
  | .program, i, _ | .statement, i, _ | .doWhile, i, _ => ReachesStatement j q i
  | .block, i, _ => ∃ i', i = blockBegin :: i' ∧ ReachesStatement j q i'
  | .varInit, i, r | .varAssign, i, r => i = j ∧ r = q
  | _, _, _ => False

theorem within_append {Q : Symbol → List Kind → List Kind → Prop} {e f : Ebnf Kind Symbol} :
    Within syntaxOf Q (e ++ f) i r ↔ (∃ m, Within syntaxOf Q e i m ∧ Derives syntaxOf f m r) ∨
      ∃ m, Derives syntaxOf e i m ∧ Within syntaxOf Q f m r := Iff.rfl

theorem within_or {Q : Symbol → List Kind → List Kind → Prop} {e f : Ebnf Kind Symbol} :
    Within syntaxOf Q (e ||| f) i r ↔ Within syntaxOf Q e i r ∨ Within syntaxOf Q f i r := Iff.rfl

theorem encloses_of_within (y : Symbol) (i r : List Kind)
    (h : Within syntaxOf (Symbol.Encloses j q) (syntaxOf y) i r) : y.Encloses j q i r := by
  cases y with
  | program =>
    obtain ⟨m, m', hm, hw, -⟩ := h
    exact hw.behind hm
  | statement =>
    simp only [syntaxOf, within_or, within_append, Within, Symbol.Encloses, derives_token,
      false_and, and_false, exists_false, or_false, false_or] at h
    have hplain (h : ∃ m, (i = j ∧ m = q) ∧ m = terminator :: r) : ReachesStatement j q i := by
      obtain ⟨m, ⟨rfl, rfl⟩, hm⟩ := h
      exact ⟨[], r, rfl, hm, fun below ↦ ⟨below, rfl⟩⟩
    obtain (h | h) | h := h
    · exact hplain h
    · exact hplain h
    · obtain ⟨m, hm, -⟩ := h
      exact hm
  | block =>
    simp only [syntaxOf, within_append, Within, Symbol.Encloses, derives_token, false_and,
      and_false, exists_false, or_false, false_or] at h
    obtain ⟨m, ⟨i', rfl, m₁, m₂, hm, hw, -⟩, -⟩ := h
    exact ⟨i', rfl, hw.behind hm⟩
  | doWhile =>
    simp only [syntaxOf, within_append, Within, Symbol.Encloses, derives_token, false_and,
      and_false, exists_false, or_false, false_or] at h
    obtain ⟨-, ⟨-, ⟨-, ⟨-, ⟨_, rfl, i', rfl, w, q', rfl, hq, hw⟩, -⟩, -⟩, -⟩, -⟩ := h
    refine ⟨doWord :: blockBegin :: w, q', rfl, hq, fun below ↦ ?_⟩
    exact hw _
  | _ => simp [syntaxOf, within_or, within_append, Within, Symbol.Encloses] at h

/-- A statement with an initializer stands where the predictor expects statements. -/
theorem reachesStatement_of_occurs {a : Assigning} {start after ks : List Kind}
    (h : Occurs syntaxOf a.symbol start after (.symbol .program) ks []) :
    ReachesStatement start after ks := by
  refine h.within (Q := Symbol.Encloses start after) ?_ encloses_of_within
  cases a <;> exact ⟨rfl, rfl⟩

/-! ### Up to the initializer -/

namespace Assigning

/-- The token with which the statement begins. -/
def first : Assigning → Kind
  | declaration => var
  | assignment => identifier

/-- The rules between the first token and the initializer. -/
def between : Assigning → List (Rule Kind)
  | declaration => [.expect identifier, .expect assign]
  | assignment => [optionalIndex, .expect assign]

def goalsBetween : Assigning → List (Goal Kind Phrase)
  | declaration => [token identifier, token assign]
  | assignment => [phrase index, token assign]

/-- The rules left at the initializer. -/
def atInitializer (a : Assigning) (rules : List (Rule Kind)) : List (Rule Kind) :=
  initializer a.title :: .expect terminator :: statementLoop :: rules

theorem awaits_between (a : Assigning) : Awaits a.between a.goalsBetween := by
  cases a with
  | declaration => exact .expect (.expect .nil)
  | assignment => exact .indexing (.expect .nil)

theorem behind_first (a : Assigning) : behind statements a.first =
    some (a.goalsBetween ++ [phrase value, token terminator, phrase statements]) := by
  cases a <;> rfl

theorem shifts_first (a : Assigning) (rules : List (Rule Kind)) :
    flatParser.Shifts a.first (statementLoop :: rules) (a.between ++ a.atInitializer rules) := by
  have htakes : flatGrammar.takes a.first 5 [.call "statement"] = true := by cases a <;> rfl
  have heof : a.first ≠ eof := by cases a <;> decide
  cases a with
  | declaration =>
    exact .round rfl heof htakes (.enter rfl (.enter rfl (.enter rfl (.take rfl))))
  | assignment =>
    exact .round rfl heof htakes (.enter rfl (.enter rfl (.enter rfl (.enter rfl (.take rfl)))))

/-- The target is read exactly, and is followed by the initializer. -/
theorem exists_run_between {a : Assigning} (h : Derives syntaxOf a.target i r) :
    ∃ v, i = a.first :: (v ++ r) ∧ v ≠ [] ∧ predictor.run a.goalsBetween v = some [] := by
  cases a with
  | declaration =>
    obtain ⟨_, hm, hr⟩ := derives_append.1 h
    obtain ⟨_, hv, hm⟩ := derives_append.1 hm
    rw [derives_token] at hr hm hv
    subst hr hm hv
    exact ⟨[identifier, assign], rfl, List.cons_ne_nil _ _, rfl⟩
  | assignment =>
    obtain ⟨m, hp, hm⟩ := derives_append.1 h
    obtain rfl := derives_token.1 hm
    have hexact : ∃ w, i = w ++ assign :: r ∧
        Derives syntaxOf (.symbol .primary) (w ++ [assign]) [assign] :=
      hp.replace_rest ignores_eof (by trivial) (by simp)
    obtain ⟨w, rfl, hd⟩ := hexact
    obtain ⟨v, hv, hread⟩ := hd.holds read_syntax
    refine ⟨v, ?_, ?_, hread ⟨assign, [], rfl, by simp⟩ [token assign]⟩
    · have hstart : w ++ [assign] ++ r = identifier :: v ++ r := congrArg (· ++ r) hv
      rwa [List.append_assoc] at hstart
    · rintro rfl
      have hlast : w ++ [assign] = [] ++ [identifier] := hv
      cases (List.append_inj' hlast rfl).2

/-- The target is passed, and the initializer is what is left of the statement. -/
theorem follows_target {a : Assigning} {v : List Kind} {tokens : List (Token Kind)}
    {s s' t : State Kind} (hkinds : tokens.map Token.kind = a.first :: v)
    (hv : predictor.run a.goalsBetween v = some []) (hp : s.Passes tokens s')
    (ht : flatParser.Follows (a.atInitializer rules) s' t) :
    flatParser.Follows (statementLoop :: rules) s t := by
  obtain ⟨token, tokens, rfl, hfirst, rfl⟩ := List.map_eq_cons_iff.1 hkinds
  obtain ⟨left, hleft, hpass⟩ := a.awaits_between.run hv
  cases hleft
  cases hp with
  | cons hat hrest =>
    have hbetween := hpass _ _ _ hrest (follows_nil.2 rfl)
    have hshifts := a.shifts_first rules
    rw [← hfirst] at hshifts
    exact hshifts.follows hat (hbetween.append ht)

end Assigning

/-- An initializer is read as a value, whatever stands behind the terminator. -/
theorem run_initial {init : List Kind}
    (h : Derives syntaxOf initial (init ++ terminator :: q) (terminator :: q)) (q' : List Kind)
    (goals : List (Goal Kind Phrase)) :
    predictor.run (phrase value :: token terminator :: goals) (init ++ terminator :: q') =
      predictor.run goals q' := by
  have hexact : ∃ u, init ++ terminator :: q = u ++ terminator :: q ∧
      Derives syntaxOf initial (u ++ terminator :: q') (terminator :: q') :=
    h.replace_rest ignores_eof (by trivial) (by simp)
  obtain ⟨u, hu, hd⟩ := hexact
  obtain rfl := List.append_cancel_right hu
  have hread := reaches_value (hd.holds read_syntax) goals []
  rwa [List.append_nil, List.append_nil] at hread

/-- The stacks of the predictor at the beginning of the statement, and behind its terminator. -/
theorem Initializes.exists_stacks {a : Assigning} {before init after : List Kind}
    (h : Initializes a before init after) :
    ∃ w v q goals, before = w ++ a.first :: v ∧ v ≠ [] ∧ after = terminator :: q ∧
      predictor.run predictor.start w = some (phrase statements :: goals) ∧
      predictor.run a.goalsBetween v = some [] ∧
      predictor.run (phrase statements :: goals) (q ++ [eof]) = some [] := by
  obtain ⟨start, hoccurs, htarget, hinitial⟩ := h
  obtain ⟨w, q, hw, rfl, hstatement⟩ := reachesStatement_of_occurs hoccurs
  obtain ⟨goals, hgoals⟩ : ∃ goals, predictor.run predictor.start w =
      some (phrase statements :: goals) := hstatement [token eof]
  obtain ⟨v, rfl, hne, hv⟩ := Assigning.exists_run_between htarget
  have hbefore : before = w ++ a.first :: v := by
    refine List.append_cancel_right (?_ : _ ++ (init ++ terminator :: q) = _)
    simpa using hw
  have hrun : predictor.run predictor.start before =
      some (phrase value :: token terminator :: phrase statements :: goals) := by
    have hexpand : predictor.step (phrase statements :: goals) a.first = some (a.goalsBetween ++
        [phrase value, token terminator, phrase statements] ++ goals) :=
      Predictor.step_of_expand a.behind_first
    have hbetween := Predictor.run_above hv
      (phrase value :: token terminator :: phrase statements :: goals)
    rw [hbefore, Predictor.run_append, hgoals, Option.bind_some, Predictor.run_cons_of_step hexpand]
    simpa using hbetween
  have haccepts : predictor.run predictor.start (before ++ init ++ terminator :: q ++ [eof]) =
      some [] := recognizes.sentence_iff.1 hoccurs.derives
  have hsplit : before ++ init ++ terminator :: q ++ [eof] =
      before ++ (init ++ terminator :: (q ++ [eof])) := by simp
  rw [hsplit, Predictor.run_append, hrun, Option.bind_some, run_initial hinitial] at haccepts
  exact ⟨w, v, q, goals, hbefore, hne, rfl, hgoals, hv, haccepts⟩

/-- In place of a missing initializer the terminator is found, and the statement ends there. -/
theorem Awaits.recovers_atInitializer (a : Assigning) (h : Awaits rules goals) {stop : Token Kind}
    {behind : List (Token Kind)} (hk : stop.kind = terminator)
    (hrun : predictor.run (phrase statements :: goals) (behind.map Token.kind) = some []) :
    Recovers (a.atInitializer rules) stop behind
      ⟨.invalidProduction, s!"Production '{a.title}' is invalid", stop.position⟩ := by
  intro s hs hlate
  have hmove : flatGrammar.move s.current.kind (initializer a.title) =
      .raise .invalidProduction s!"Production '{a.title}' is invalid" := by
    rw [hs.current, hk]
    rfl
  refine ⟨_, _, _, hs.raise .., ?_, .expect (.loop h), ?_, fun t ht ↦ (follows_of_raise hmove).2 ht⟩
  · have hadmits : flatParser.admits s.sinceLast = true := decide_eq_true hlate
    rw [State.diagnostics_raise, if_pos hadmits, hs.current]
  · rw [List.map_cons, hk, Predictor.run_cons_of_step (Predictor.step_token_self _ _), hrun]

/-- A program from which the initializer of one statement is taken away is complained about once, at
the terminator of the statement. -/
theorem missing_initializer_costs_one (a : Assigning) (before init rest : List (Token Kind))
    (last : Token Kind)
    (h : Initializes a (before.map Token.kind) (init.map Token.kind) (rest.map Token.kind))
    (hlast : last.kind = eof) :
    ∃ stop after, rest = stop :: after ∧ stop.kind = terminator ∧
      dialect.parser.Says (before ++ rest ++ [last])
        ⟨.invalidProduction, s!"Production '{a.title}' is invalid", stop.position⟩ := by
  obtain ⟨w, v, q, goals, hbefore, hne, hrest, hgoals, hv, hrun⟩ := h.exists_stacks
  obtain ⟨front, target, rfl, rfl, htarget⟩ := List.map_eq_append_iff.1 hbefore
  obtain ⟨stop, after, rfl, hstop, rfl⟩ := List.map_eq_cons_iff.1 hrest
  refine ⟨stop, after, rfl, hstop, ?_⟩
  obtain ⟨left, hleft, hfront⟩ := awaits_start.run hgoals
  cases hleft with
  | @loop rules _ hrules =>
    have hlong : 2 ≤ (front ++ target).length := by
      have hpos := List.length_pos_of_ne_nil hne
      have hlength := congrArg List.length htarget
      rw [List.length_map, List.length_cons] at hlength
      rw [List.length_append]
      omega
    have hbehind : predictor.run (phrase statements :: goals)
        ((after ++ [last]).map Token.kind) = some [] := by
      rw [List.map_append, List.map_singleton, hlast, hrun]
    have hrecovers := hrules.recovers_atInitializer a hstop hbehind
    refine hrecovers.says_once (fun s s' t hp ht ↦ ?_) hlong hlast
    obtain ⟨u, hu, hp⟩ := hp.exists_between
    exact hfront s u t hu (Assigning.follows_target htarget hv hp ht)

/-- The text `do { var x := 1; } while (x);` as tokens. -/
def loopedDeclaration : List (Token Kind) := [
  ⟨doWord, "do", ⟨1, 2⟩⟩, ⟨blockBegin, "\x7b", ⟨1, 4⟩⟩, ⟨var, "var", ⟨1, 8⟩⟩,
  ⟨identifier, "x", ⟨1, 10⟩⟩, ⟨assign, ":=", ⟨1, 13⟩⟩, ⟨number, "1", ⟨1, 15⟩⟩,
  ⟨terminator, ";", ⟨1, 16⟩⟩, ⟨blockEnd, "\x7d", ⟨1, 18⟩⟩, ⟨whileWord, "while", ⟨1, 24⟩⟩,
  ⟨parBegin, "(", ⟨1, 26⟩⟩, ⟨identifier, "x", ⟨1, 27⟩⟩, ⟨parEnd, ")", ⟨1, 28⟩⟩,
  ⟨terminator, ";", ⟨1, 29⟩⟩]

theorem initializes_loopedDeclaration :
    Initializes .declaration ((loopedDeclaration.take 5).map Token.kind) [number]
      ((loopedDeclaration.drop 6).map Token.kind) := by
  have htarget {i : List Kind} :
      Derives syntaxOf Assigning.declaration.target (var :: identifier :: assign :: i) i :=
    .sequence (.sequence (.token _ _) (.token _ _)) (.token _ _)
  have hnumber {i : List Kind} : Derives syntaxOf initial (number :: i) i :=
    .left (derives_expression (.symbol (.sequence (.absent _ _) (.left (.left (.right
      (.token _ _)))))) (nullable_assignTail _))
  have hname {i : List Kind} : Derives syntaxOf (.symbol .expression) (identifier :: i) i :=
    derives_expression (.symbol (.sequence (.absent _ _) (.left (.left (.left
      (derives_primary (.absent _ _))))))) (nullable_assignTail _)
  refine ⟨_, .symbol (.first (.symbol (.right (.front (.symbol ?_) (.token _ _)))) (.stop _ _)),
    htarget, hnumber⟩
  -- the block is the second part of the loop
  refine .front (.front (.front (.front (.back (.token _ _) (.symbol ?_)) (.token _ _))
    (.token _ _)) hname) (.token _ _)
  refine .front (.back (.token _ _) (.first (.symbol (.left (.left (.right ?_)))) (.stop _ _)))
    (.token _ _)
  refine .front (.here ?_) (.token _ _)
  rw [syntaxOf_symbol]
  exact .sequence htarget hnumber

theorem missing_initializer_costs_one_in_loop :
    dialect.parser.Says
      (loopedDeclaration.take 5 ++ loopedDeclaration.drop 6 ++ [.endOfInput ⟨1, 29⟩])
      ⟨.invalidProduction, "Production 'Var initialization' is invalid", ⟨1, 16⟩⟩ := by
  obtain ⟨stop, after, hrest, -, hsays⟩ := missing_initializer_costs_one .declaration
    (loopedDeclaration.take 5) [⟨number, "1", ⟨1, 15⟩⟩] (loopedDeclaration.drop 6)
    (.endOfInput ⟨1, 29⟩) initializes_loopedDeclaration rfl
  cases hrest
  exact hsays

end Lookahead.Imperative
