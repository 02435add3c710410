/-!
Types with finitely many values, each written as a name, and the two ways a name is read: on a
command line, where case may be set aside, and in a data file, where the spelling is exact.
-/

namespace Lookahead

/-- A finite type whose values are written as names. -/
class Named (α : Type) where
  all : List α
  name : α → String

export Named (name)

namespace Named

/-- Why a text names nothing: it was read as a choice, or as an exact spelling among those expected. -/
inductive Unknown where
  | choice (text : String)
  | spelling (text : String) (expected : List String)
deriving DecidableEq

def quoted (text : String) : String := "`" ++ text ++ "`"

/-- Two alternatives are joined by a word, more are listed. -/
def alternatives : List String → String
  | [] => "there are no variants"
  | [a] => "expected " ++ quoted a
  | [a, b] => "expected " ++ quoted a ++ " or " ++ quoted b
  | names => "expected one of " ++ ", ".intercalate (names.map quoted)

def Unknown.message : Unknown → String
  | .choice text => "invalid variant: " ++ text
  | .spelling text expected => "unknown variant " ++ quoted text ++ ", " ++ alternatives expected

variable {α : Type} [Named α]

def ofName? (text : String) : Option α :=
  (all : List α).find? (name · == text)

/-- Names that differ only in the case of ASCII letters are the same name. -/
def ofNameAnyCase? (text : String) : Option α :=
  (all : List α).find? fun a => (name a).toLower == text.toLower

def choose (anyCase : Bool) (text : String) : Except Unknown α :=
  match if anyCase then ofNameAnyCase? text else ofName? text with
  | some a => .ok a
  | none => .error (.choice text)

def spell (text : String) : Except Unknown α :=
  match ofName? text with
  | some a => .ok a
  | none => .error (.spelling text ((all : List α).map name))

end Named

end Lookahead
