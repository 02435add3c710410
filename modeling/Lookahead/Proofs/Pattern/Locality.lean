import Lookahead.Pattern.Table

/-!
What a match depends on. Where no end of the text is asked for, a match is found from the characters
up to its end alone, so it is found in every text that begins with them, and a character that is in
none of the sets brings the search to its end.
-/

namespace Lookahead

namespace Track

/-- Whether no way along a track asks for the end of the text. -/
def openEnded : Track → Bool
  | textEnd => false
  | done | take _ | textStart => true
  | seq p q | alt p q => p.openEnded && q.openEnded
  | optional _ p | plus _ p | star _ p => p.openEnded

/-- The sets of the characters that a track takes. -/
def sets : Track → List CharSet
  | done | textStart | textEnd => []
  | take s => [s]
  | seq p q | alt p q => p.sets ++ q.sets
  | optional _ p | plus _ p | star _ p => p.sets

/-- Whether a track takes a character nowhere. -/
def avoids (t : Track) (x : Char) : Bool := t.sets.all fun s ↦ !s.contains x

/-- Nothing is entered otherwise for what stands behind the place. -/
theorem enter_congr {t : Track} (ht : t.openEnded) (i n : Nat) (r r' : List Char)
    (go : Front → Front) : enter ⟨i, r⟩ t n go = enter ⟨i, r'⟩ t n go := by
  induction t generalizing n go with
  | done | take | textStart => rfl
  | textEnd => cases ht
  | seq p q ihp ihq =>
    obtain ⟨hp, hq⟩ := Bool.and_eq_true_iff.1 ht
    funext f
    simp only [enter, ihq hq, ihp hp]
  | alt p q ihp ihq =>
    obtain ⟨hp, hq⟩ := Bool.and_eq_true_iff.1 ht
    funext f
    simp only [enter, ihq hq, ihp hp]
  | optional greedy p ih | plus greedy p ih | star greedy p ih =>
    funext f
    simp only [enter, ih ht]

theorem after_congr {t : Track} (ht : t.openEnded) (i m n : Nat) (x : Char) (r r' : List Char)
    (go : Front → Front) : after ⟨i, r⟩ x m t n go = after ⟨i, r'⟩ x m t n go := by
  induction t generalizing n go with
  | done | take | textStart => rfl
  | textEnd => cases ht
  | seq p q ihp ihq =>
    obtain ⟨hp, hq⟩ := Bool.and_eq_true_iff.1 ht
    funext f
    simp only [after, enter_congr hq i _ r r', ihq hq, ihp hp]
  | alt p q ihp ihq =>
    obtain ⟨hp, hq⟩ := Bool.and_eq_true_iff.1 ht
    funext f
    simp only [after, ihq hq, ihp hp]
  | optional greedy p ih =>
    funext f
    simp only [after, ih ht]
  | plus greedy p ih | star greedy p ih =>
    have hp : p.openEnded := ht
    funext f
    simp only [after, enter_congr hp i _ r r', ih hp]

theorem after_of_avoids {t : Track} {x : Char} (ht : t.avoids x) (c : Cursor) (m n : Nat)
    (go : Front → Front) (f : Front) : after c x m t n go f = f := by
  induction t generalizing n go with
  | done | textStart | textEnd => rfl
  | take s =>
    have hs : s.contains x = false := by simpa [avoids, sets] using ht
    simp [after, hs]
  | seq p q ihp ihq | alt p q ihp ihq =>
    obtain ⟨hp, hq⟩ : p.avoids x ∧ q.avoids x := by simpa [avoids, sets] using ht
    simp [after, ihp hp, ihq hq]
  | optional greedy p ih | plus greedy p ih | star greedy p ih => exact ih ht _ _

end Track

namespace Walk

variable {t : Track} {w : Walk} {i : Nat} {x : Char}

/-- The state of a walk one character further on. -/
def step (t : Track) (w : Walk) (i : Nat) (x : Char) (rest : List Char) : Walk :=
  arrive t ⟨i + 1, rest⟩ (w.seeking && !t.anchored) w.stop (front t ⟨i + 1, rest⟩ x w.takes)

/-- The state of a walk behind a part of the text. -/
def along (t : Track) : Walk → Nat → List Char → Walk
  | w, _, [] => w
  | w, i, x :: text => along t (step t w i x text) (i + 1) text

theorem step_of_idle (h : w.takes = []) (hs : w.seeking = false) (rest : List Char) :
    step t w i x rest = w := by
  obtain ⟨takes, seeking, stop⟩ := w
  subst h hs
  rfl

theorem along_of_idle (h : w.takes = []) (hs : w.seeking = false) (i : Nat) (text : List Char) :
    along t w i text = w := by
  induction text generalizing i with
  | nil => rfl
  | cons x text ih => rw [along, step_of_idle h hs, ih]

/-- A walk can be ended when it is idle, but it need not be. -/
theorem stop?_eq_along (t : Track) (w : Walk) (i : Nat) (text : List Char) :
    stop? t w i text = (along t w i text).stop := by
  induction text generalizing w i with
  | nil => rfl
  | cons x text ih =>
    unfold stop?
    split
    · rename_i hidle
      obtain ⟨h, hs⟩ : w.takes = [] ∧ w.seeking = false := by simpa using hidle
      rw [along_of_idle h hs]
    · exact ih _ _

theorem step_congr (ht : t.openEnded) (w : Walk) (i : Nat) (x : Char) (r r' : List Char) :
    step t w i x r = step t w i x r' := by
  unfold step arrive front
  simp only [Track.after_congr ht _ _ _ x r r', Track.enter_congr ht _ _ r r']

theorem along_append (ht : t.openEnded) (w : Walk) (i : Nat) (u v : List Char) :
    along t w i (u ++ v) = along t (along t w i u) (i + u.length) v := by
  induction u generalizing w i with
  | nil => rfl
  | cons x u ih =>
    rw [List.cons_append, along, ih, step_congr ht w i x (u ++ v) u, along, List.length_cons,
      Nat.add_right_comm, Nat.add_assoc]

theorem isSome_stop_step (h : w.stop.isSome) (rest : List Char) :
    (step t w i x rest).stop.isSome := by
  unfold step arrive
  split
  · rfl
  · split <;> exact h

theorem isSome_stop_along (h : w.stop.isSome) (i : Nat) (text : List Char) :
    (along t w i text).stop.isSome := by
  induction text generalizing w i with
  | nil => exact h
  | cons x text ih => exact ih (isSome_stop_step h text) (i + 1)

theorem step_of_avoids (ha : t.anchored) (hx : t.avoids x) (w : Walk) (i : Nat) (rest : List Char) :
    step t w i x rest = ⟨[], false, w.stop⟩ := by
  have hfront (takes : List Nat) : front t ⟨i + 1, rest⟩ x takes = {} := by
    induction takes with
    | nil => rfl
    | cons m takes ih =>
      rw [front, List.foldl_cons, Track.after_of_avoids hx]
      exact ih
  simp [step, hfront, ha, arrive]

end Walk

namespace Track

variable {t : Track}

theorem stop?_eq_along (ht : t.openEnded) (text : List Char) :
    t.stop? text = (Walk.along t (.arrive t ⟨0, []⟩ true none {}) 0 text).stop := by
  have harrive : Walk.arrive t ⟨0, text⟩ true none {} = Walk.arrive t ⟨0, []⟩ true none {} := by
    unfold Walk.arrive
    rw [enter_congr ht 0 0 text []]
  rw [stop?, harrive, Walk.stop?_eq_along]

/-- A match that ends within a part of the text is found in this part alone. -/
theorem stop?_of_append (ht : t.openEnded) {u v : List Char} {n : Nat}
    (h : t.stop? (u ++ v) = some n) (hn : n ≤ u.length) : t.stop? u = some n := by
  rw [stop?_eq_along ht] at h ⊢
  rw [Walk.along_append ht, ← Walk.stop?_eq_along] at h
  rcases Walk.stop?_bounds h with h | h
  · exact h
  · omega

theorem stop?_of_append_eq_none (ht : t.openEnded) {u v : List Char}
    (h : t.stop? (u ++ v) = none) : t.stop? u = none := by
  rw [stop?_eq_along ht] at h ⊢
  rw [Walk.along_append ht] at h
  rw [← Option.not_isSome_iff_eq_none]
  intro hsome
  have hlater := Walk.isSome_stop_along (t := t) hsome (0 + u.length) v
  rw [h] at hlater
  cases hlater

/-- From a character that is taken nowhere on, the text makes no difference. -/
theorem stop?_append_of_avoids (ht : t.openEnded) (ha : t.anchored) {x : Char} (hx : t.avoids x)
    (u v : List Char) : t.stop? (u ++ x :: v) = t.stop? u := by
  rw [stop?_eq_along ht, stop?_eq_along ht, Walk.along_append ht, Walk.along,
    Walk.step_of_avoids ha hx, Walk.along_of_idle rfl rfl]

/-- A match takes no character that is taken nowhere. -/
theorem stop?_le_of_avoids (ht : t.openEnded) (ha : t.anchored) {x : Char} (hx : t.avoids x)
    {u v : List Char} {n : Nat} (h : t.stop? (u ++ x :: v) = some n) : n ≤ u.length := by
  rw [stop?_append_of_avoids ht ha hx] at h
  exact (stop?_bounds h).2

theorem avoids_of_mem_take (ht : t.openEnded) (ha : t.anchored) {text : List Char} {n : Nat}
    (h : t.stop? text = some n) {x : Char} (hx : x ∈ text.take n) : t.avoids x = false := by
  rw [← Bool.not_eq_true]
  intro havoids
  obtain ⟨u, v, huv⟩ := List.append_of_mem hx
  have htext : text = u ++ x :: (v ++ text.drop n) := by
    rw [← List.cons_append, ← List.append_assoc, ← huv, List.take_append_drop]
  rw [htext] at h
  have hle := stop?_le_of_avoids ht ha havoids h
  have hlength := congrArg List.length huv
  rw [List.length_take, List.length_append, List.length_cons] at hlength
  omega

end Track

namespace PatternTable

variable {κ : Type} {t : PatternTable κ} {u v : List Char} {kind : κ} {n : Nat}

def OpenEnded (t : PatternTable κ) : Prop := ∀ e ∈ t.entries, e.2.openEnded

/-- What a table takes within a part of the text it takes of this part alone: the entry that decides
does, and those before it find nothing there that they do not find in the whole text. -/
theorem matchPrefix?_of_append (ht : t.OpenEnded) (h : t.matchPrefix? (u ++ v) = some (kind, n))
    (hn : n ≤ u.length) : t.matchPrefix? u = some (kind, n) := by
  obtain ⟨before, e, after, hsplit, he, hnone⟩ := List.findSome?_eq_some_iff.1 h
  obtain ⟨stop, hstop, heq⟩ := Option.map_eq_some_iff.1 he
  cases heq
  unfold OpenEnded at ht
  rw [hsplit] at ht
  refine List.findSome?_eq_some_iff.2 ⟨before, e, after, hsplit, ?_, ?_⟩
  · rw [Track.stop?_of_append (ht e (by simp)) hstop hn, Option.map_some]
  · intro d hd
    have hlonger := Option.map_eq_none_iff.1 (hnone d hd)
    rw [Track.stop?_of_append_eq_none (ht d (by simp [hd])) hlonger, Option.map_none]

/-- Of a part of the text nothing is taken if nothing is taken of the whole. -/
theorem matchPrefix?_of_append_eq_none (ht : t.OpenEnded) (h : t.matchPrefix? (u ++ v) = none) :
    t.matchPrefix? u = none := by
  rw [matchPrefix?, List.findSome?_eq_none_iff] at h ⊢
  intro e he
  have hlonger := Option.map_eq_none_iff.1 (h e he)
  rw [Track.stop?_of_append_eq_none (ht e he) hlonger, Option.map_none]

end PatternTable

end Lookahead
