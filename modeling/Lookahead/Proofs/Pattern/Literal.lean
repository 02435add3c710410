import Lookahead.Proofs.Pattern.Locality
import Mathlib.Data.List.Basic

/-!
Tracks whose matches are known in full. The track of a text written out takes that text and nothing
else, and a set taken again and again takes the longest run of its characters.
-/

namespace Lookahead

theorem rank_injective {c d : Char} (h : rank c = rank d) : c = d := by
  have hc := c.valid
  have hd := d.valid
  simp only [UInt32.isValidChar, Nat.isValidChar] at hc hd
  have hval : c.toNat = d.toNat := by
    simp only [rank, Char.toNat] at h ⊢
    split at h <;> split at h <;> omega
  exact Char.toNat_inj.1 hval

theorem CharSet.contains_singleton (c x : Char) : (singleton c).contains x ↔ c = x := by
  simp only [contains, singleton, covers, List.any_cons, List.any_nil, Bool.or_false,
    Bool.and_eq_true, decide_eq_true_eq]
  constructor
  · rintro ⟨h, h'⟩
    exact rank_injective (Nat.le_antisymm h h')
  · rintro rfl
    exact ⟨Nat.le_refl _, Nat.le_refl _⟩

namespace Track

/-! ### Texts written out -/

theorem enter_ofText {w : List Char} (hw : w ≠ []) (c : Cursor) (n : Nat) (go : Front → Front)
    (f : Front) : enter c (ofText w) n go f = Front.pass n (Front.addTake n) f := by
  match w, hw with
  | [_], _ => rfl
  | _ :: _ :: _, _ => rfl

/-- At its node each character of the text leads to the next one, and the last one to the end. -/
theorem after_ofText (u : List Char) (y : Char) (v : List Char) (c : Cursor) (x : Char) (n : Nat)
    (go : Front → Front) :
    after c x (n + u.length) (ofText (u ++ y :: v)) n go {} =
      if y = x then
        if v = [] then go {} else { passed := [n + u.length + 1], takes := [n + u.length + 1] }
      else {} := by
  induction u generalizing n with
  | nil =>
    cases v with
    | nil => simp [ofText, after, CharSet.contains_singleton]
    | cons z v =>
      simp only [List.nil_append, ofText, after, size, List.length_nil, Nat.add_zero,
        enter_ofText (List.cons_ne_nil z v), CharSet.contains_singleton, true_and]
      simp [Front.pass, Front.addTake]
  | cons z u ih =>
    obtain ⟨d, rest, hrest⟩ : ∃ d rest, u ++ y :: v = d :: rest := by
      cases u with
      | nil => exact ⟨y, v, rfl⟩
      | cons d u => exact ⟨d, u ++ y :: v, rfl⟩
    have hnode : n + (z :: u).length = n + 1 + u.length := by
      rw [List.length_cons]
      omega
    have hlaid : ofText (z :: d :: rest) = seq (take (.singleton z)) (ofText (d :: rest)) := rfl
    rw [List.cons_append, hrest, hlaid, after, if_neg (by simp [size]), ← hrest, hnode]
    exact ih (n + 1)

/-- One step on a track at the start of the text, from the nodes that may be taken at. -/
theorem step_of_start (p : Track) (nodes : List Nat) (seeking : Bool) (i : Nat)
    (stop : Option Nat) (x : Char) (rest : List Char) :
    Walk.step (seq textStart p) ⟨nodes, seeking, stop⟩ i x rest =
      Walk.arrive (seq textStart p) ⟨i + 1, rest⟩ false stop
        (nodes.foldl (fun f m ↦ after ⟨i + 1, rest⟩ x m p 0 Front.accept f) {}) := by
  simp [Walk.step, Walk.front, after, size, anchored]

theorem step_start (p : Track) (m i : Nat) (seeking : Bool) (stop : Option Nat) (x : Char)
    (rest : List Char) :
    Walk.step (seq textStart p) ⟨[m], seeking, stop⟩ i x rest =
      Walk.arrive (seq textStart p) ⟨i + 1, rest⟩ false stop
        (after ⟨i + 1, rest⟩ x m p 0 Front.accept {}) :=
  step_of_start p [m] seeking i stop x rest

theorem step_ofText (u : List Char) (y : Char) (v : List Char) (seeking : Bool) (i : Nat) (x : Char)
    (rest : List Char) :
    Walk.step (seq textStart (ofText (u ++ y :: v))) ⟨[u.length], seeking, none⟩ i x rest =
      if y = x then
        if v = [] then ⟨[], false, some (i + 1)⟩ else ⟨[u.length + 1], false, none⟩
      else ⟨[], false, none⟩ := by
  have hafter := after_ofText u y v ⟨i + 1, rest⟩ x 0 Front.accept
  rw [Nat.zero_add] at hafter
  rw [step_start, hafter]
  split
  · split <;> rfl
  · rfl

/-- Behind `u`, what is left of a text written out is compared with the text. -/
theorem stop_along_ofText (u v text : List Char) (hv : v ≠ []) (seeking : Bool) :
    (Walk.along (seq textStart (ofText (u ++ v))) ⟨[u.length], seeking, none⟩ u.length text).stop =
      if v <+: text then some (u ++ v).length else none := by
  obtain ⟨y, v, rfl⟩ := List.exists_cons_of_ne_nil hv
  induction text generalizing u y v seeking with
  | nil => simp [Walk.along]
  | cons x text ih =>
    rw [Walk.along, step_ofText]
    by_cases hy : y = x
    · subst hy
      rw [if_pos rfl]
      cases v with
      | nil =>
        rw [if_pos rfl, Walk.along_of_idle rfl rfl, if_pos (by simp)]
        simp
      | cons z v =>
        have hnext := ih (u ++ [y]) false z v (List.cons_ne_nil z v)
        rw [List.length_append, List.length_singleton, List.append_assoc, List.singleton_append]
          at hnext
        rw [if_neg (List.cons_ne_nil z v), hnext]
        simp only [List.cons_prefix_cons, true_and]
    · rw [if_neg hy, Walk.along_of_idle rfl rfl, if_neg (by simp [hy])]

theorem openEnded_ofText (w : List Char) : (ofText w).openEnded := by
  fun_induction ofText w with
  | case1 => rfl
  | case2 => rfl
  | case3 _ _ _ ih => exact ih

/-- A text written out takes itself and nothing else. -/
theorem stop?_ofText {w : List Char} (hw : w ≠ []) (text : List Char) :
    (seq textStart (ofText w)).stop? text = if w <+: text then some w.length else none := by
  have harrive : Walk.arrive (seq textStart (ofText w)) ⟨0, []⟩ true none {} = ⟨[0], true, none⟩ := by
    simp [Walk.arrive, enter, size, enter_ofText hw, Front.pass, Front.addTake]
  have hopen : (seq textStart (ofText w)).openEnded := openEnded_ofText w
  rw [stop?_eq_along hopen, harrive]
  exact stop_along_ofText [] w text hw true

/-! ### Runs -/

/-- Where the nodes stay the same as long as the characters are of one kind and are dropped at
another one, the walk ends behind the longest run of that kind. -/
theorem stop_along_of_steady {t : Track} {nodes : List Nat} {good : Char → Bool}
    (hstep : ∀ seeking i stop x rest, Walk.step t ⟨nodes, seeking, stop⟩ i x rest =
      if good x then ⟨nodes, false, some (i + 1)⟩ else ⟨[], false, stop⟩)
    (seeking : Bool) (i : Nat) (stop : Option Nat) (text : List Char) :
    (Walk.along t ⟨nodes, seeking, stop⟩ i text).stop =
      if text.takeWhile good = [] then stop else some (i + (text.takeWhile good).length) := by
  induction text generalizing i seeking stop with
  | nil => rfl
  | cons x text ih =>
    rw [Walk.along, hstep]
    by_cases hx : good x
    · rw [if_pos hx, ih, List.takeWhile_cons_of_pos hx, if_neg (List.cons_ne_nil _ _)]
      split
      · rename_i hnil
        rw [hnil, List.length_singleton]
      · rw [List.length_cons, Nat.add_right_comm, Nat.add_assoc]
    · rw [if_neg hx, List.takeWhile_cons_of_neg hx, if_pos rfl, Walk.along_of_idle rfl rfl]

theorem step_run (s : CharSet) (seeking : Bool) (i : Nat) (stop : Option Nat) (x : Char)
    (rest : List Char) :
    Walk.step (seq textStart (plus true (take s))) ⟨[1], seeking, stop⟩ i x rest =
      if s.contains x then ⟨[1], false, some (i + 1)⟩ else ⟨[], false, stop⟩ := by
  rw [step_start]
  by_cases hx : s.contains x
  · simp [after, enter, Front.pass, Front.both, Front.addTake, Front.accept, Walk.arrive, hx]
  · simp [after, Walk.arrive, hx]

/-- A set taken again and again takes the longest run of its characters. -/
theorem stop?_run (s : CharSet) (text : List Char) :
    (seq textStart (plus true (take s))).stop? text =
      if text.takeWhile s.contains = [] then none
      else some (text.takeWhile s.contains).length := by
  have harrive : Walk.arrive (seq textStart (plus true (take s))) ⟨0, []⟩ true none {} =
      ⟨[1], true, none⟩ := rfl
  rw [stop?_eq_along rfl, harrive, stop_along_of_steady (step_run s), Nat.zero_add]

end Track

end Lookahead
