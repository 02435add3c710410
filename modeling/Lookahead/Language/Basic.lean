import Lookahead.Language.Boolean
import Lookahead.Language.Dialect
import Lookahead.Language.Imperative

/-!
The languages that can be asked for, and the analysis of a text in one of them.
-/

namespace Lookahead

inductive Language where
  | imperative
  | boolean
deriving DecidableEq

/-- The tokens of a text and what is wrong with their order. -/
structure Analysis where
  language : Language
  tokens : List Token.Record
  diagnostics : List Diagnostic
deriving DecidableEq

def Analysis.accepted (a : Analysis) : Bool := a.diagnostics.isEmpty

def Imperative.dialect : Dialect Imperative.Kind := ⟨Imperative.table, Imperative.grammar⟩

def Boolean.dialect : Dialect Boolean.Kind := ⟨Boolean.table, Boolean.grammar⟩

namespace Language

instance : Named Language where
  all := [imperative, boolean]
  name
    | imperative => "imperative"
    | boolean => "boolean"

def description : Language → String
  | imperative => "const/var declarations, assignments, do-while loops, arrays"
  | boolean => "assignments of not/and/xor/or and relational expressions"

def tokenize (l : Language) (counting : LineCounting) (source : String) :
    Except LexError (List Token.Record) :=
  match l with
  | imperative => (Imperative.dialect.tokens counting source).map (·.map Token.record)
  | boolean => (Boolean.dialect.tokens counting source).map (·.map Token.record)

def tokenizeEvents (l : Language) (counting : LineCounting) (source : String) : List Event :=
  match l with
  | imperative => Imperative.dialect.scanEvents counting source
  | boolean => Boolean.dialect.scanEvents counting source

def check? (l : Language) (counting : LineCounting) (source : String) :
    Option (Except LexError (List Diagnostic)) :=
  match l with
  | imperative => Imperative.dialect.check? counting source
  | boolean => Boolean.dialect.check? counting source

def checkEvents? (l : Language) (counting : LineCounting) (source : String) :
    Option (List Event) :=
  match l with
  | imperative => Imperative.dialect.checkEvents? counting source
  | boolean => Boolean.dialect.checkEvents? counting source

/-- The tokens and diagnostics of a text as an analysis in this language. -/
def report {κ : Type} [TokenKind κ] (l : Language) (found : List (Token κ) × List Diagnostic) :
    Analysis :=
  ⟨l, found.1.map Token.record, found.2⟩

def analyze? (l : Language) (counting : LineCounting) (source : String) :
    Option (Except LexError Analysis) :=
  match l with
  | imperative => (Imperative.dialect.analyze? counting source).map (·.map l.report)
  | boolean => (Boolean.dialect.analyze? counting source).map (·.map l.report)

def analyzeEvents? (l : Language) (counting : LineCounting) (source : String) :
    Option (List Event) :=
  match l with
  | imperative => Imperative.dialect.analyzeEvents? counting source
  | boolean => Boolean.dialect.analyzeEvents? counting source

end Language

end Lookahead
