import Lookahead.Language.Imperative
import Lookahead.Proofs.Pattern.Matching
import Lookahead.Proofs.Pattern.Renumbering
import Lookahead.Proofs.Token.Stream

/-!
Where matches begin. Every entry of a table is read with an anchor and a group put around its text, and
only the end of its match is looked at. Where the text of an entry is a pattern on its own, the anchor
binds all of it, and what is taken is a match of this pattern from the start of the text. A text that
closes the group itself is read as well, and its later alternatives match anywhere.
-/

namespace Lookahead

namespace Pattern

/-! ### Lexemes -/

namespace Draft

/-- The outermost group, which has no number. -/
def base (d : Draft) : Frame := d.outer.getLastD d.inner

/-- What has been read with an anchor and an open group in front. -/
def anchored (d : Draft) : Draft where
  inner := d.inner.renumber (· + 1)
  outer := d.outer.map (Frame.renumber (· + 1)) ++ [Frame.push {} textStart]
  groups := d.groups + 1

variable {d d' : Draft} {l : Lexeme}

end Draft

end Pattern

namespace PatternTable

variable {κ : Type} [Named κ] {entries : List (κ × String)} {table : PatternTable κ}
  {text : List Char} {kind : κ} {n : Nat}

end PatternTable

end Lookahead
