import Lookahead.Proofs.Pattern.Literal
import Lookahead.Proofs.Pattern.Meaning

/-!
What a walk finds. A track leads from one place of a text to others, and a match ends where the track
leads from a place before. Laid out as a track, a pattern leads only where it takes the text.
-/

namespace Lookahead

open Relation

namespace Track

/-- The places that a track leads to. -/
def Goes : Track → Cursor → Cursor → Prop
  | done => Eq
  | take s => fun c d ↦ ∃ x, s.contains x ∧ c.Along [x] d
  | textStart => fun c d ↦ c.index = 0 ∧ c = d
  | textEnd => fun c d ↦ c.rest = [] ∧ c = d
  | seq p q => Comp p.Goes q.Goes
  | alt p q => fun c d ↦ p.Goes c d ∨ q.Goes c d
  | optional _ p => fun c d ↦ c = d ∨ p.Goes c d
  | plus _ p => TransGen p.Goes
  | star _ p => ReflTransGen p.Goes

/-- The places that a track with the first node `n` leads to from its node `m` on. -/
def GoesFrom (m : Nat) : Track → Nat → Cursor → Cursor → Prop
  | done, _ | textStart, _ | textEnd, _ => fun _ _ ↦ False
  | take s, _ => (take s).Goes
  | seq p q, n =>
    if m < n + p.size then Comp (GoesFrom m p n) q.Goes else GoesFrom m q (n + p.size)
  | alt p q, n =>
    if m < n + 1 + p.size then GoesFrom m p (n + 1) else GoesFrom m q (n + 1 + p.size)
  | optional _ p, n => GoesFrom m p (n + 1)
  | plus _ p, n | star _ p, n => Comp (GoesFrom m p (n + 1)) (ReflTransGen p.Goes)

end Track

/-! ### What is found at one place -/

/-- Only allowed nodes have been found, and the end only where it may be reached. -/
structure Front.Sound (allowed : Nat → Prop) (ended : Prop) (f : Front) : Prop where
  takes : ∀ m ∈ f.takes, allowed m
  accepted : f.accepted → ended

namespace Front

variable {allowed : Nat → Prop} {ended : Prop} {go go' : Front → Front} {f : Front}

/-- Nothing is added that is not allowed. -/
def Safe (allowed : Nat → Prop) (ended : Prop) (go : Front → Front) : Prop :=
  ∀ f, f.Sound allowed ended → (go f).Sound allowed ended

theorem Safe.pass (h : Safe allowed ended go) (n : Nat) : Safe allowed ended (pass n go) := by
  intro f hf
  unfold Front.pass
  split
  · exact hf
  · exact h _ ⟨hf.takes, hf.accepted⟩

theorem Safe.both (h : Safe allowed ended go) (h' : Safe allowed ended go') (preferFirst : Bool) :
    Safe allowed ended (both preferFirst go go') := by
  intro f hf
  unfold Front.both
  split
  · exact h' _ (h _ hf)
  · exact h _ (h' _ hf)

theorem safe_addTake {n : Nat} (hn : allowed n) : Safe allowed ended (addTake n) := by
  intro f hf
  refine ⟨?_, hf.accepted⟩
  intro m hm
  rcases List.mem_cons.1 hm with rfl | hm
  · exact hn
  · exact hf.takes m hm

theorem safe_accept (h : ended) : Safe allowed ended accept := fun _ hf ↦ ⟨hf.takes, fun _ ↦ h⟩

theorem safe_id : Safe allowed ended id := fun _ hf ↦ hf

theorem safe_foldl {gos : Nat → Front → Front} {ns : List Nat}
    (h : ∀ n ∈ ns, Safe allowed ended (gos n)) :
    Safe allowed ended fun f ↦ ns.foldl (fun f n ↦ gos n f) f := by
  induction ns with
  | nil => exact fun _ hf ↦ hf
  | cons n ns ih =>
    intro f hf
    have hlater := ih fun n hn ↦ h n (List.mem_cons_of_mem _ hn)
    exact hlater _ (h n List.mem_cons_self f hf)

end Front

namespace Track

open Front

variable {allowed : Nat → Prop} {ended : Prop} {go : Front → Front} {c : Cursor} {good : Cursor → Prop}
  {p q t : Track} {m n : Nat}

/-- The nodes of a track are allowed from which it leads to good places alone. -/
def Allows (allowed : Nat → Prop) (c : Cursor) (good : Cursor → Prop) (t : Track) (n : Nat) : Prop :=
  ∀ m, n ≤ m → m < n + t.size → (∀ d, t.GoesFrom m n c d → good d) → allowed m

theorem Allows.left (h : (seq p q).Allows allowed c good n) :
    p.Allows allowed c (fun d ↦ ∀ e, q.Goes d e → good e) n := by
  intro m hn hm hgood
  apply h m hn (by simp only [size]; omega)
  intro e he
  rw [GoesFrom, if_pos hm] at he
  obtain ⟨d, hd, he⟩ := he
  exact hgood d hd e he

theorem Allows.right (h : (seq p q).Allows allowed c good n) :
    q.Allows allowed c good (n + p.size) := by
  intro m hn hm hgood
  apply h m (by omega) (by simp only [size]; omega)
  intro e he
  rw [GoesFrom, if_neg (by omega)] at he
  exact hgood e he

theorem Allows.first (h : (alt p q).Allows allowed c good n) : p.Allows allowed c good (n + 1) := by
  intro m hn hm hgood
  apply h m (by omega) (by simp only [size]; omega)
  intro e he
  rw [GoesFrom, if_pos hm] at he
  exact hgood e he

theorem Allows.second (h : (alt p q).Allows allowed c good n) :
    q.Allows allowed c good (n + 1 + p.size) := by
  intro m hn hm hgood
  apply h m (by omega) (by simp only [size]; omega)
  intro e he
  rw [GoesFrom, if_neg (by omega)] at he
  exact hgood e he

theorem Allows.once {greedy : Bool} (h : (optional greedy p).Allows allowed c good n) :
    p.Allows allowed c good (n + 1) := by
  intro m hn hm hgood
  exact h m (by omega) (by simp only [size]; omega) hgood

/-- From the places that are good after a round of a repetition all later rounds lead to good ones. -/
def After (p : Track) (good : Cursor → Prop) (d : Cursor) : Prop :=
  ∀ e, ReflTransGen p.Goes d e → good e

theorem Allows.round (h : ∀ m, n ≤ m → m < n + (p.size + 1) →
    (∀ e, Comp (p.GoesFrom m (n + 1)) (ReflTransGen p.Goes) c e → good e) → allowed m) :
    p.Allows allowed c (p.After good) (n + 1) := by
  intro m hn hm hgood
  apply h m (by omega) (by omega)
  rintro e ⟨d, hd, he⟩
  exact hgood d hd e he

theorem After.refl (h : p.After good c) : good c := h c .refl

theorem After.round (h : p.After good c) : ∀ d, p.Goes c d → p.After good d :=
  fun _ hd _ he ↦ h _ (he.head hd)

/-- Behind a round of a repetition another one may be entered or left out. -/
theorem safe_rounds {greedy : Bool} (h : p.After good c)
    (henter : p.After good c → Safe allowed ended (enter c p (n + 1) id))
    (hgo : good c → Safe allowed ended go) :
    Safe allowed ended (pass n (both greedy (enter c p (n + 1) id) go)) :=
  ((henter h).both (hgo h.refl) greedy).pass n

/-- Entering a track at a place finds nodes alone that lead where the track leads from this place. -/
theorem safe_enter (h : t.Allows allowed c good n) (hgo : good c → Safe allowed ended go)
    (hgood : ∀ d, t.Goes c d → good d) : Safe allowed ended (enter c t n go) := by
  induction t generalizing n go good with
  | done => exact hgo (hgood c rfl)
  | take s =>
    have hn : allowed n := h n (Nat.le_refl n) (Nat.lt_succ_self n) hgood
    exact (safe_addTake hn).pass n
  | textStart =>
    intro f hf
    rw [enter]
    split
    · rename_i hstart
      exact hgo (hgood c ⟨hstart, rfl⟩) f hf
    · exact hf
  | textEnd =>
    intro f hf
    rw [enter]
    split
    · rename_i hend
      exact hgo (hgood c ⟨List.isEmpty_iff.1 hend, rfl⟩) f hf
    · exact hf
  | seq p q ihp ihq =>
    apply ihp h.left
    · intro hc
      exact ihq h.right hgo hc
    · intro d hd e he
      exact hgood e ⟨d, hd, he⟩
  | alt p q ihp ihq =>
    have hp := ihp h.first hgo fun d hd ↦ hgood d (.inl hd)
    have hq := ihq h.second hgo fun d hd ↦ hgood d (.inr hd)
    exact (hp.both hq true).pass n
  | optional greedy p ih =>
    have hp := ih h.once hgo fun d hd ↦ hgood d (.inr hd)
    exact (hp.both (hgo (hgood c (.inl rfl))) greedy).pass n
  | plus greedy p ih =>
    have hround := Allows.round h
    apply ih hround
    · intro hc
      exact safe_rounds hc (fun hc ↦ ih hround (fun _ ↦ safe_id) hc.round) hgo
    · intro d hd e he
      exact hgood e (TransGen.head' hd he)
  | star greedy p ih =>
    have hround := Allows.round h
    exact safe_rounds hgood (fun hc ↦ ih hround (fun _ ↦ safe_id) hc.round) hgo

/-- Taking a character at a node finds nodes alone that lead where the track leads from this one. -/
theorem safe_after {b : Cursor} {x : Char} (hx : b.Along [x] c) (h : t.Allows allowed c good n)
    (hgo : good c → Safe allowed ended go) (hgood : ∀ d, t.GoesFrom m n b d → good d) :
    Safe allowed ended (after c x m t n go) := by
  induction t generalizing n go good with
  | done | textStart | textEnd => exact fun _ hf ↦ hf
  | take s =>
    intro f hf
    rw [after]
    split
    · rename_i htaken
      exact hgo (hgood c ⟨x, htaken.2, hx⟩) f hf
    · exact hf
  | seq p q ihp ihq =>
    intro f hf
    rw [after]
    split
    · rename_i hm
      refine ihp h.left (fun hc ↦ safe_enter h.right hgo hc) ?_ f hf
      intro d hd e he
      apply hgood
      rw [GoesFrom, if_pos hm]
      exact ⟨d, hd, he⟩
    · rename_i hm
      refine ihq h.right hgo ?_ f hf
      intro d hd
      apply hgood
      rw [GoesFrom, if_neg hm]
      exact hd
  | alt p q ihp ihq =>
    intro f hf
    rw [after]
    split
    · rename_i hm
      refine ihp h.first hgo ?_ f hf
      intro d hd
      apply hgood
      rw [GoesFrom, if_pos hm]
      exact hd
    · rename_i hm
      refine ihq h.second hgo ?_ f hf
      intro d hd
      apply hgood
      rw [GoesFrom, if_neg hm]
      exact hd
  | optional greedy p ih => exact ih h.once hgo hgood
  | plus greedy p ih | star greedy p ih =>
    have hround := Allows.round h
    apply ih hround
    · intro hc
      exact safe_rounds hc (fun hc ↦ safe_enter hround (fun _ ↦ safe_id) hc.round) hgo
    · intro d hd e he
      exact hgood e ⟨d, hd, he⟩

end Track

/-! ### What is found along a text -/

namespace Track

open Front

/-- Where a track leads from one of the first `i` places of a text. -/
def Reaches (t : Track) (text : List Char) (i : Nat) (d : Cursor) : Prop :=
  ∃ s < i, t.Goes ⟨s, text.drop s⟩ d

/-- From the node `m` at the place `i` a track leads where it leads from this place or an earlier one. -/
def Leads (t : Track) (text : List Char) (i m : Nat) : Prop :=
  ∀ d, t.GoesFrom m 0 ⟨i, text.drop i⟩ d → t.Reaches text (i + 1) d

variable {t : Track} {text : List Char} {i j : Nat}

theorem Reaches.mono {d : Cursor} (h : t.Reaches text i d) (hij : i ≤ j) : t.Reaches text j d := by
  obtain ⟨s, hs, hd⟩ := h
  exact ⟨s, by omega, hd⟩

theorem safe_begin : Safe (t.Leads text i) True (t.enter ⟨i, text.drop i⟩ 0 accept) := by
  have hgood : ∀ d, t.Goes ⟨i, text.drop i⟩ d → t.Reaches text (i + 1) d := by
    intro d hd
    exact ⟨i, Nat.lt_succ_self i, hd⟩
  refine safe_enter ?_ (fun _ ↦ safe_accept trivial) hgood
  intro m _ _ hleads
  exact hleads

theorem Leads.safe_after {m : Nat} (h : t.Leads text i m) {x : Char}
    (hx : text.drop i = x :: text.drop (i + 1)) :
    Safe (t.Leads text (i + 1)) (t.Reaches text (i + 1) ⟨i + 1, text.drop (i + 1)⟩)
      (t.after ⟨i + 1, text.drop (i + 1)⟩ x m 0 accept) := by
  have halong : Cursor.Along ⟨i, text.drop i⟩ [x] ⟨i + 1, text.drop (i + 1)⟩ := ⟨hx, rfl⟩
  refine Track.safe_after halong ?_ safe_accept h
  intro m' _ _ hleads d hd
  exact (hleads d hd).mono (Nat.le_succ _)

end Track

namespace Walk

variable {t : Track} {text rest : List Char} {i : Nat} {x : Char} {w : Walk} {stop : Option Nat}
  {f : Front}

/-- A walk stands at nodes that lead where the track does, and has found matches alone. -/
structure Follows (t : Track) (text : List Char) (i : Nat) (w : Walk) : Prop where
  takes : ∀ m ∈ w.takes, t.Leads text i m
  stop : ∀ n ∈ w.stop, t.Reaches text n ⟨n, text.drop n⟩

theorem Follows.arrive (hf : f.Sound (t.Leads text i) (t.Reaches text i ⟨i, text.drop i⟩))
    (hstop : ∀ n ∈ stop, t.Reaches text n ⟨n, text.drop n⟩) (seeking : Bool) :
    Follows t text i (arrive t ⟨i, text.drop i⟩ seeking stop f) := by
  unfold Walk.arrive
  split
  · rename_i haccepted
    refine ⟨fun m hm ↦ hf.takes m (List.mem_reverse.1 hm), ?_⟩
    rintro n ⟨⟩
    exact hf.accepted haccepted
  · split
    · have hentered := Track.safe_begin f ⟨hf.takes, fun _ ↦ trivial⟩
      exact ⟨fun m hm ↦ hentered.takes m (List.mem_reverse.1 hm), hstop⟩
    · exact ⟨fun m hm ↦ hf.takes m (List.mem_reverse.1 hm), hstop⟩

theorem Follows.step (h : Follows t text i w) (hx : text.drop i = x :: text.drop (i + 1)) :
    Follows t text (i + 1) (step t w i x (text.drop (i + 1))) := by
  have hsafe := Front.safe_foldl fun m hm ↦ (h.takes m hm).safe_after hx
  exact Follows.arrive (hsafe {} ⟨by simp, by simp⟩) h.stop _

theorem Follows.along (h : Follows t text i w) (hrest : text.drop i = rest) :
    Follows t text (i + rest.length) (along t w i rest) := by
  induction rest generalizing w i with
  | nil => exact h
  | cons x rest ih =>
    have hnext : text.drop (i + 1) = rest := by rw [← List.tail_drop, hrest, List.tail_cons]
    have hx : text.drop i = x :: text.drop (i + 1) := by rw [hrest, hnext]
    have hlast := ih (h.step hx) hnext
    rwa [hnext, Nat.add_right_comm, Nat.add_assoc] at hlast

end Walk

namespace Track

variable {p : Track} {c d : Cursor} {greedy : Bool}

end Track

end Lookahead
