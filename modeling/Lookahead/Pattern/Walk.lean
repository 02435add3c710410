import Lookahead.Pattern.Track

/-!
Walking along a text on a track. At each place the nodes that may take the next character stand in
the order of preference, and when the end of the track is reached the ways that are less preferred
are given up. The match is found at the leftmost place that has one; it is the preferred one there,
which need not be the longest.
-/

namespace Lookahead

/-- How far a walk has come: the nodes that may take the next character, the preferred ones first,
whether no match has been found, so that one may still begin, and where the last one found ends,
unless it is empty. -/
structure Walk where
  takes : List Nat
  seeking : Bool
  stop : Option Nat
deriving DecidableEq

namespace Walk

/-- Comes to a place with what was found there. A match that begins there comes last. -/
def arrive (t : Track) (c : Cursor) (seeking : Bool) (stop : Option Nat) (f : Front) : Walk :=
  if f.accepted then { takes := f.takes.reverse, seeking := false, stop := some c.index }
  else if seeking then
    let f := t.enter c 0 Front.accept f
    { takes := f.takes.reverse, seeking := !f.accepted, stop }
  else { takes := f.takes.reverse, seeking, stop }

/-- What is found behind the character `x`. -/
def front (t : Track) (c : Cursor) (x : Char) (takes : List Nat) : Front :=
  takes.foldl (fun f m => t.after c x m 0 Front.accept f) {}

/-- Walks on to the end of the text. An anchored track is entered at its start alone. -/
def stop? (t : Track) : Walk → Nat → List Char → Option Nat
  | w, _, [] => w.stop
  | w, i, x :: rest =>
    if w.takes.isEmpty && !w.seeking then w.stop
    else
      let c : Cursor := ⟨i + 1, rest⟩
      stop? t (arrive t c (w.seeking && !t.anchored) w.stop (front t c x w.takes)) (i + 1) rest

/-- Past the start of the text nothing is found by entering an anchored track. -/
theorem enter_of_anchored {t : Track} (ht : t.anchored) {c : Cursor} (hc : 0 < c.index) (n : Nat)
    (go : Front → Front) (f : Front) :
    (t.enter c n go f).takes = f.takes ∧ (t.enter c n go f).accepted = f.accepted := by
  induction t generalizing n go f with
  | done | take | textEnd | optional | star => cases ht
  | textStart =>
    rw [Track.enter, if_neg (by omega)]
    exact ⟨rfl, rfl⟩
  | seq p q ihp => exact ihp ht n _ f
  | alt p q ihp ihq =>
    obtain ⟨hp, hq⟩ := Bool.and_eq_true_iff.1 ht
    unfold Track.enter Front.pass
    split
    · exact ⟨rfl, rfl⟩
    · simp only [Front.both, if_true, ihp hp, ihq hq, and_self]
  | plus greedy p ih => exact ih ht (n + 1) _ f

/-- So it makes no difference whether an anchored track is entered there. -/
theorem arrive_of_anchored {t : Track} (ht : t.anchored) {c : Cursor} (hc : 0 < c.index)
    (stop : Option Nat) (f : Front) :
    (arrive t c true stop f).takes = (arrive t c false stop f).takes ∧
      (arrive t c true stop f).stop = (arrive t c false stop f).stop := by
  unfold arrive
  split
  · exact ⟨rfl, rfl⟩
  · simp [enter_of_anchored ht hc]

theorem stop_arrive {t : Track} {c : Cursor} {seeking : Bool} {stop : Option Nat} {f : Front}
    {n : Nat} (h : (arrive t c seeking stop f).stop = some n) : n = c.index ∨ stop = some n := by
  unfold arrive at h
  split at h
  · exact .inl (Option.some.inj h).symm
  · split at h <;> exact .inr h

/-- A walk stops where it was to stop before, or at a place that it comes to. -/
theorem stop?_bounds {t : Track} {w : Walk} {i n : Nat} {text : List Char}
    (h : stop? t w i text = some n) : w.stop = some n ∨ i < n ∧ n ≤ i + text.length := by
  induction text generalizing w i with
  | nil => exact .inl h
  | cons x rest ih =>
    unfold stop? at h
    split at h
    · exact .inl h
    · simp only [List.length_cons]
      rcases ih h with h | h
      · rcases stop_arrive h with rfl | h
        · exact .inr (by simp)
        · exact .inl h
      · exact .inr (by omega)

end Walk

/-- How many characters stand before the end of a track's match in a text, unless it is empty. -/
def Track.stop? (t : Track) (text : List Char) : Option Nat :=
  Walk.stop? t (.arrive t ⟨0, text⟩ true none {}) 0 text

/-- A match takes something, and lies inside the text. -/
theorem Track.stop?_bounds {t : Track} {text : List Char} {n : Nat} (h : t.stop? text = some n) :
    0 < n ∧ n ≤ text.length := by
  rcases Walk.stop?_bounds h with h | h
  · simp [Walk.arrive] at h
  · omega

end Lookahead
