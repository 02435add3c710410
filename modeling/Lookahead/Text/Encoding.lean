/-!
UTF-8: how many bytes characters take, and reading bytes back, either strictly or with a replacement
character for what is no encoding of one.
-/

namespace Lookahead

/-- The number of bytes that characters take in UTF-8. -/
def utf8Length (text : List Char) : Nat := text.foldl (fun n c => n + c.utf8Size) 0

theorem foldl_utf8Size (n : Nat) (text : List Char) :
    text.foldl (fun n c => n + c.utf8Size) n = n + utf8Length text := by
  induction text generalizing n with
  | nil => rfl
  | cons c text ih =>
    rw [utf8Length, List.foldl_cons, List.foldl_cons, ih, ih, Nat.zero_add, Nat.add_assoc]

theorem utf8Length_append (s t : List Char) : utf8Length (s ++ t) = utf8Length s + utf8Length t := by
  rw [utf8Length, List.foldl_append, foldl_utf8Size, ← utf8Length]

namespace Utf8

/-- A character of which some bytes have been read: its code so far, how many bytes are missing, and
between which bounds the next one lies. -/
structure Pending where
  code : Nat
  missing : Nat
  low : UInt8
  high : UInt8

/-- What the first byte of a character says: the character itself, the bytes to come, or nothing.
The bounds exclude codes that a shorter sequence writes, halves of pairs and codes that are too large. -/
def lead (b : UInt8) : Option (Char ⊕ Pending) :=
  if b < 0x80 then some (.inl (Char.ofNat b.toNat))
  else if b < 0xc2 then none
  else if b < 0xe0 then some (.inr ⟨b.toNat - 0xc0, 1, 0x80, 0xbf⟩)
  else if b = 0xe0 then some (.inr ⟨0, 2, 0xa0, 0xbf⟩)
  else if b = 0xed then some (.inr ⟨0xd, 2, 0x80, 0x9f⟩)
  else if b < 0xf0 then some (.inr ⟨b.toNat - 0xe0, 2, 0x80, 0xbf⟩)
  else if b = 0xf0 then some (.inr ⟨0, 3, 0x90, 0xbf⟩)
  else if b < 0xf4 then some (.inr ⟨b.toNat - 0xf0, 3, 0x80, 0xbf⟩)
  else if b = 0xf4 then some (.inr ⟨4, 3, 0x80, 0x8f⟩)
  else none

def restart (b : UInt8) : List (Option Char) × Option Pending :=
  match lead b with
  | none => ([none], none)
  | some (.inl c) => ([some c], none)
  | some (.inr p) => ([], some p)

/-- Reads one byte more. A sequence that breaks off is given up, and the byte begins anew. -/
def step (p : Option Pending) (b : UInt8) : List (Option Char) × Option Pending :=
  match p with
  | none => restart b
  | some p =>
    if p.low ≤ b && b ≤ p.high then
      let code := p.code * 64 + (b.toNat - 0x80)
      if p.missing ≤ 1 then ([some (Char.ofNat code)], none)
      else ([], some ⟨code, p.missing - 1, 0x80, 0xbf⟩)
    else (none :: (restart b).1, (restart b).2)

def decodeFrom : Option Pending → List UInt8 → List (Option Char)
  | none, [] => []
  | some _, [] => [none]
  | p, b :: bytes => (step p b).1 ++ decodeFrom (step p b).2 bytes

/-- The characters that bytes encode, with an absent one for each stretch that encodes none. -/
def decode (bytes : List UInt8) : List (Option Char) := decodeFrom none bytes

def strict? (bytes : List UInt8) : Option String :=
  ((decode bytes).mapM id).map String.ofList

def lossy (bytes : List UInt8) : String :=
  String.ofList ((decode bytes).map (·.getD '\ufffd'))

end Utf8

end Lookahead
