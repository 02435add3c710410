import Lookahead.Grammar.Basic
import Lookahead.Run.State
import Lookahead.Token.Scanner

/-!
Parsing by a grammar with one token of lookahead. A parse never stops at a complaint: a failed
expectation leaves the token where it is, and the rules that follow go on with it.
-/

namespace Lookahead

/-- A complaint is recorded only if more tokens than this were consumed since the one before it. -/
def suppressionWindow : Nat := 2

/-- A grammar, and which complaints are recorded after so many tokens since the last one. -/
structure Parser (κ : Type) where
  grammar : Grammar κ
  admits : Nat → Bool := fun sinceLast => suppressionWindow < sinceLast

namespace Parser

variable {κ : Type} [DecidableEq κ] [TokenKind κ]

/-- Follows rules, one unit of fuel for each place come by; without an answer if the fuel runs out.
A round of a loop that consumes nothing is its last. -/
def follow (p : Parser κ) : Nat → List (Rule κ) → State κ → Option (State κ)
  | 0, _, _ => none
  | _ + 1, [], s => some s
  | n + 1, rule :: rules, s =>
    match rule with
    | .expect kind => follow p n rules (s.expect p.admits kind)
    | .advance => follow p n rules s.advance
    | .call name =>
      match p.grammar.production? name with
      | none => follow p n rules s
      | some production =>
        match follow p n production.body s with
        | none => none
        | some t => follow p n rules t
    | .loop lookahead body =>
      if s.sees lookahead then
        match follow p n body s with
        | none => none
        | some t =>
          if t.consumed = s.consumed then follow p n rules t
          else follow p n (.loop lookahead body :: rules) t
      else follow p n rules s
    | .optional lookahead body =>
      if s.sees lookahead then
        match follow p n body s with
        | none => none
        | some t => follow p n rules t
      else follow p n rules s
    | .choice name arms =>
      match arms.find? fun arm => s.sees arm.1 with
      | none =>
        follow p n rules (s.raise p.admits .invalidProduction s!"Production '{name}' is invalid")
      | some arm =>
        match follow p n arm.2 s with
        | none => none
        | some t => follow p n rules t
    | .forbid lookahead message =>
      follow p n rules (if s.sees lookahead then s.raise p.admits .forbidden message else s)

/-- Between two pulls a parse that ends comes by no place of the grammar twice while the first
visit is still under way. -/
def fuel (p : Parser κ) (items : List (Item κ)) : Nat := (items.length + 2) * (p.grammar.size + 2)

/-- Follows the start production, expects the end of input, and pulls what is left of the stream.
There is no final state if the grammar can be followed forever on this stream. -/
def run? (p : Parser κ) (items : List (Item κ)) : Option (State κ) :=
  (p.follow (p.fuel items) [.call p.grammar.start] (State.ofItems items).advance).map fun s =>
    (s.expect p.admits TokenKind.eof).drain

def parse? (p : Parser κ) (items : List (Item κ)) : Option (Except LexError (List Diagnostic)) :=
  (p.run? items).map State.result

/-- The diagnostics of a stream without lexical errors. -/
def parseTokens? (p : Parser κ) (tokens : List (Token κ)) : Option (List Diagnostic) :=
  (p.run? (tokens.map .ok)).map State.diagnostics

/-- A log in which the n-th pulled item brings the events of the n-th pull with it. -/
def weave : List (List Event) → List (Entry κ) → List Event
  | _, [] => []
  | events :: pulls, .pulled :: entries => events ++ weave pulls entries
  | [], .pulled :: entries => weave [] entries
  | pulls, .raised r :: entries => r.event :: weave pulls entries

def finishEvent (p : Parser κ) (s : State κ) : Event :=
  .parseFinished p.grammar.start s.consumed s.diagnostics.length

/-- All that is logged while a stream is parsed. -/
def events? (p : Parser κ) (pulls : List (Pull κ)) : Option (List Event) :=
  (p.run? (pulls.map (·.item))).map fun s =>
    weave (pulls.map (·.events)) s.log.reverse ++ [p.finishEvent s]

end Parser

end Lookahead
