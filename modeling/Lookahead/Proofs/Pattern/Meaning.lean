import Lookahead.Pattern.Track
import Mathlib.Logic.Relation

/-!
What patterns mean. A pattern takes a text from one place to another, whichever way is preferred, and
what it takes on the way does not depend on the text behind.
-/

namespace Lookahead

open Relation

/-- From one place of a text to another along some characters. -/
structure Cursor.Along (c : Cursor) (text : List Char) (d : Cursor) : Prop where
  rest : c.rest = text ++ d.rest
  index : d.index = c.index + text.length

/-- So many steps one after another. -/
def Rounds {α : Type} (R : α → α → Prop) : Nat → α → α → Prop
  | 0 => Eq
  | n + 1 => Comp R (Rounds R n)

/-- The places that a pattern leads to from a place of a text. An upper bound below the lower one does
not count. -/
def Pattern.Takes : Pattern → Cursor → Cursor → Prop
  | empty => Eq
  | literal text => fun c d ↦ c.Along text d
  | set s => fun c d ↦ ∃ x, s.contains x ∧ c.Along [x] d
  | textStart => fun c d ↦ c.index = 0 ∧ c = d
  | textEnd => fun c d ↦ c.rest = [] ∧ c = d
  | group _ p => p.Takes
  | repeated _ least most p => fun c d ↦
    ∃ n, least ≤ n ∧ (∀ m ∈ most, n ≤ max least m) ∧ Rounds p.Takes n c d
  | seq p q => Comp p.Takes q.Takes
  | alt p q => fun c d ↦ p.Takes c d ∨ q.Takes c d

variable {c d e : Cursor} {u v : List Char}

theorem Cursor.Along.refl (c : Cursor) : c.Along [] c := ⟨rfl, rfl⟩

theorem Cursor.Along.trans (h : c.Along u d) (h' : d.Along v e) : c.Along (u ++ v) e where
  rest := by rw [h.rest, h'.rest, List.append_assoc]
  index := by rw [h'.index, h.index, List.length_append, Nat.add_assoc]

/-- Two texts one after another are passed one after the other. -/
theorem along_append (u v : List Char) :
    (fun c d : Cursor ↦ c.Along (u ++ v) d) = Comp (·.Along u ·) (·.Along v ·) := by
  funext c e
  apply propext
  constructor
  · intro h
    refine ⟨⟨c.index + u.length, v ++ e.rest⟩, ⟨?_, rfl⟩, ⟨rfl, ?_⟩⟩
    · rw [h.rest, List.append_assoc]
    · rw [h.index, List.length_append, Nat.add_assoc]
  · rintro ⟨d, hu, hv⟩
    exact hu.trans hv

/-! ### Rounds -/

section Rounds

variable {α : Type} {R S : α → α → Prop} {m n : Nat} {x y z : α}

theorem Rounds.append (h : Rounds R m x y) (h' : Rounds R n y z) : Rounds R (m + n) x z := by
  induction m generalizing x with
  | zero =>
    cases h
    rwa [Nat.zero_add]
  | succ m ih =>
    obtain ⟨w, hw, h⟩ := h
    rw [Nat.add_right_comm]
    exact ⟨w, hw, ih h⟩

theorem Rounds.mono (h : Rounds R n x y) (hR : ∀ x y, R x y → S x y) : Rounds S n x y := by
  induction n generalizing x with
  | zero => exact h
  | succ n ih =>
    obtain ⟨w, hw, h⟩ := h
    exact ⟨w, hR x w hw, ih h⟩

end Rounds

/-! ### Texts that break off -/

/-- A relation between places that is the same where the text breaks off behind both of them. -/
def Local (R : Cursor → Cursor → Prop) : Prop :=
  ∀ {c d : Cursor} {r v : List Char}, R c d → d.rest = r ++ v →
    ∃ r', c.rest = r' ++ v ∧ R ⟨c.index, r'⟩ ⟨d.index, r⟩

variable {R S : Cursor → Cursor → Prop}

theorem local_eq : Local Eq := by
  rintro c _ r v rfl hr
  exact ⟨r, hr, rfl⟩

theorem Local.comp (hR : Local R) (hS : Local S) : Local (Comp R S) := by
  rintro c d r v ⟨e, hce, hed⟩ hr
  obtain ⟨r', hr', hed⟩ := hS hed hr
  obtain ⟨r'', hr'', hce⟩ := hR hce hr'
  exact ⟨r'', hr'', _, hce, hed⟩

theorem Local.rounds (hR : Local R) (n : Nat) : Local (Rounds R n) := by
  induction n with
  | zero => exact local_eq
  | succ n ih => exact hR.comp ih

namespace Pattern

variable {p : Pattern}

/-- A whole text is taken from its start to its end. -/
def Matches (p : Pattern) (text : List Char) : Prop := p.Takes ⟨0, text⟩ ⟨text.length, []⟩

end Pattern

end Lookahead
