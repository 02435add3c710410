import Lookahead.Event

/-!
The state of a parse: one token of lookahead, the items not pulled yet, and a log of what was pulled
and of every complaint made. A complaint too close to the one before it is logged but not recorded
as a diagnostic.
-/

namespace Lookahead

/-- A complaint, the token it was made at and how much had been consumed by then. -/
structure Raise (κ : Type) where
  code : Code
  message : String
  lookahead : Token κ
  consumed : Nat
  sinceLast : Nat
  recorded : Bool
deriving DecidableEq

namespace Raise

variable {κ : Type}

def diagnostic (r : Raise κ) : Diagnostic := ⟨r.code, r.message, r.lookahead.position⟩

def event (r : Raise κ) : Event :=
  if r.recorded then .recorded r.diagnostic else .suppressed r.message r.sinceLast

end Raise

/-- What a parse puts into its log: that it pulled an item, or a complaint. -/
inductive Entry (κ : Type) where
  | pulled
  | raised (r : Raise κ)
deriving DecidableEq

def Entry.raise? {κ : Type} : Entry κ → Option (Raise κ)
  | pulled => none
  | raised r => some r

/-- The log holds the newest entry first. -/
structure State (κ : Type) where
  current : Token κ
  rest : List (Item κ)
  consumed : Nat := 0
  sinceLast : Nat := 0
  failure : Option LexError := none
  log : List (Entry κ) := []

namespace State

variable {κ : Type}

/-- All complaints in the order they were made. -/
def raises (s : State κ) : List (Raise κ) := s.log.reverse.filterMap Entry.raise?

def diagnostics (s : State κ) : List Diagnostic :=
  (s.raises.filter (·.recorded)).map Raise.diagnostic

/-- A lexical error stands for everything that was gathered before it. -/
def result (s : State κ) : Except LexError (List Diagnostic) :=
  match s.failure with
  | some error => .error error
  | none => .ok s.diagnostics

def sees [DecidableEq κ] (s : State κ) (lookahead : List κ) : Bool := s.current.kind ∈ lookahead

variable [TokenKind κ]

def ofItems (items : List (Item κ)) : State κ := { current := .endOfInput ⟨1, 1⟩, rest := items }

/-- Pulls the next item. At the end of the stream the last token stays; at a lexical error an end
token takes its place, and nothing is pulled any more. -/
def advance (s : State κ) : State κ :=
  match s.failure, s.rest with
  | some _, _ | none, [] => s
  | none, .ok token :: rest =>
    { s with
      current := token
      rest
      consumed := s.consumed + 1
      sinceLast := s.sinceLast + 1
      log := .pulled :: s.log }
  | none, .error error :: rest =>
    { s with
      current := .endOfInput error.position
      rest
      failure := some error
      log := .pulled :: s.log }

/-- Complains at the lookahead. `admits` says whether a complaint is recorded after so many tokens
since the last one. -/
def raise (admits : Nat → Bool) (code : Code) (message : String) (s : State κ) : State κ :=
  let r : Raise κ :=
    { code, message, lookahead := s.current, consumed := s.consumed, sinceLast := s.sinceLast
      recorded := admits s.sinceLast }
  { s with sinceLast := 0, log := .raised r :: s.log }

def expect [DecidableEq κ] (admits : Nat → Bool) (kind : κ) (s : State κ) : State κ :=
  if s.current.kind = kind then s.advance
  else
    s.raise admits .expected s!"Expected {name kind} but got '{name s.current.kind}'"

/-- Pulls what is left, up to the first lexical error. -/
def drain (s : State κ) : State κ :=
  match s.failure with
  | some _ => s
  | none => go s.log s.rest
where
  go (log : List (Entry κ)) : List (Item κ) → State κ
    | [] => { s with rest := [], log }
    | .ok _ :: rest => go (.pulled :: log) rest
    | .error error :: rest => { s with rest, failure := some error, log := .pulled :: log }

end State

end Lookahead
