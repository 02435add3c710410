import Lookahead.Settings.Value
import Mathlib

/-!
Tables put over one another, told key by key: what is found under a key afterwards comes of what was
there and of what was put there, and of nothing else.
-/

namespace Lookahead.Settings

theorem lookup_insert (key : String) (v : Value) (entries : List (String × Value)) (other : String) :
    (insert key v entries).lookup other = if other = key then some v else entries.lookup other := by
  induction entries with
  | nil =>
    by_cases h : other = key
    · simp [insert, h]
    · simp [insert, List.lookup, h, beq_eq_false_iff_ne.mpr h]
  | cons e entries ih =>
    obtain ⟨k, w⟩ := e
    by_cases hk : k = key
    · subst hk
      by_cases h : other = k
      · simp [insert, h]
      · simp [insert, List.lookup, h, beq_eq_false_iff_ne.mpr h]
    · by_cases h : other = k
      · have hne : other ≠ key := fun h' ↦ hk (h.symm.trans h')
        simp [insert, List.lookup, hk, h]
      · simp only [insert, hk, if_false, List.lookup, beq_eq_false_iff_ne.mpr h, ih]

/-- Keys are apart if no two of them differ in nothing but case. -/
def Apart (entries : List (String × Value)) : Prop := (entries.map fun e ↦ lower e.1).Nodup

instance : DecidablePred Apart := fun entries ↦
  inferInstanceAs (Decidable (entries.map fun e ↦ lower e.1).Nodup)

/-- What entries give a key, which they may write in any case. -/
def given? (entries : List (String × Value)) (key : String) : Option Value :=
  (entries.find? fun e ↦ lower e.1 = key).map (·.2)

namespace Value

def isTable : Value → Bool
  | table _ => true
  | _ => false

theorem exists_eq_table {v : Value} (h : v.isTable = true) : ∃ entries, v = table entries := by
  cases v with
  | table entries => exact ⟨entries, rfl⟩
  | _ => contradiction

/-- What a value becomes when another one is put in its place. -/
def covered (old : Option Value) : Value → Value
  | table incoming => putAll (old.getD (table [])) incoming
  | v => v

theorem covered_of_isTable_eq_false (old : Option Value) {v : Value} (h : v.isTable = false) :
    covered old v = v := by
  cases v with
  | table => contradiction
  | _ => rfl

theorem get?_put (root : Value) (key : String) (v : Value) (other : String) :
    (put root key v).get? other =
      if other = lower key then some (covered (root.get? other) v) else root.get? other := by
  have hput : put root key v =
      table (insert (lower key) (covered (root.get? (lower key)) v) root.entries) := by
    cases v <;> simp only [put, covered]
  rw [hput, get?, entries, lookup_insert]
  split
  · next h => rw [h]
  · rfl

theorem get?_putAll {incoming : List (String × Value)} (h : Apart incoming) (root : Value)
    (key : String) :
    (putAll root incoming).get? key =
      ((given? incoming key).map (covered (root.get? key))).or (root.get? key) := by
  induction incoming generalizing root with
  | nil => simp [putAll, given?]
  | cons e incoming ih =>
    obtain ⟨hnew, hrest⟩ := List.nodup_cons.mp h
    rw [putAll, putEntry, ih hrest, get?_put]
    by_cases he : lower e.1 = key
    · -- no later entry writes the key again
      have hnone : given? incoming key = none := by
        simp only [given?, Option.map_eq_none_iff, List.find?_eq_none, decide_eq_true_eq]
        intro e' he' h'
        exact hnew (List.mem_map.mpr ⟨e', he', h'.trans he.symm⟩)
      have hfirst : given? (e :: incoming) key = some e.2 := by simp [given?, he]
      simp [hnone, hfirst, he]
    · simp [given?, he, Ne.symm he]

end Value

/-- A key without quotation marks is no path of several keys. -/
theorem path?_eq_of_forall_ne {key : String} (h : ∀ c ∈ key.toList, c ≠ '.') :
    (path? key).getD [key] = [key] := by
  have hsplit : (key.toList.splitOn '.').map String.ofList = [key] := by
    have hone : key.toList.splitOn '.' = [key.toList] :=
      List.splitOnP_eq_singleton fun c hc ↦ beq_eq_false_iff_ne.mpr (h c hc)
    simp [hone]
  simp only [path?, hsplit]
  split <;> rfl

theorem Value.overlay_eq_putAll {file : List (String × Value)}
    (h : ∀ e ∈ file, ∀ c ∈ e.1.toList, c ≠ '.') (root : Value) :
    root.overlay file = root.putAll file := by
  induction file generalizing root with
  | nil => simp [overlay, putAll]
  | cons e file ih =>
    have hput : root.putAt ((path? e.1).getD [e.1]) e.2 = putEntry root e := by
      rw [path?_eq_of_forall_ne (h e List.mem_cons_self), putAt, putEntry]
    have hrest := ih (fun e' he' ↦ h e' (List.mem_cons_of_mem _ he')) (putEntry root e)
    simp only [overlay, List.foldl_cons] at hrest ⊢
    rw [hput, hrest, putAll]

end Lookahead.Settings
