import Mathlib.Logic.Relation

/-!
Grammars in extended Backus–Naur form, and what can be derived in them. A phrase takes some of the
text and leaves the rest, so that a condition on the token behind it can be stated where it is made.
-/

namespace Lookahead

inductive Ebnf (κ σ : Type) where
  | token (kind : κ)
  | symbol (x : σ)
  | sequence (e f : Ebnf κ σ)
  | alternative (e f : Ebnf κ σ)
  | option (e : Ebnf κ σ)
  | many (e : Ebnf κ σ)
  /-- Takes nothing, and stands only where the next token is not of this kind. -/
  | notBefore (kind : κ)

namespace Ebnf

variable {κ σ : Type}

instance : Append (Ebnf κ σ) := ⟨sequence⟩

instance : OrOp (Ebnf κ σ) := ⟨alternative⟩

/-- By the rules of the symbols, the expression takes what stands in the first text before the
second. -/
inductive Derives (rules : σ → Ebnf κ σ) : Ebnf κ σ → List κ → List κ → Prop
  | token (k : κ) (r : List κ) : Derives rules (.token k) (k :: r) r
  | symbol {x : σ} {i r : List κ} : Derives rules (rules x) i r → Derives rules (.symbol x) i r
  | sequence {e f : Ebnf κ σ} {i m r : List κ} :
      Derives rules e i m → Derives rules f m r → Derives rules (.sequence e f) i r
  | left {e f : Ebnf κ σ} {i r : List κ} :
      Derives rules e i r → Derives rules (.alternative e f) i r
  | right {e f : Ebnf κ σ} {i r : List κ} :
      Derives rules f i r → Derives rules (.alternative e f) i r
  | absent (e : Ebnf κ σ) (r : List κ) : Derives rules (.option e) r r
  | present {e : Ebnf κ σ} {i r : List κ} : Derives rules e i r → Derives rules (.option e) i r
  | stop (e : Ebnf κ σ) (r : List κ) : Derives rules (.many e) r r
  | more {e : Ebnf κ σ} {i m r : List κ} :
      Derives rules e i m → Derives rules (.many e) m r → Derives rules (.many e) i r
  | notBefore {k : κ} {r : List κ} : r.head? ≠ some k → Derives rules (.notBefore k) r r

variable {rules : σ → Ebnf κ σ} {e f : Ebnf κ σ} {i r : List κ}

theorem derives_token {k : κ} : Derives rules (.token k) i r ↔ i = k :: r := by
  constructor
  · rintro ⟨⟩
    rfl
  · rintro rfl
    exact .token k r

theorem derives_symbol {x : σ} : Derives rules (.symbol x) i r ↔ Derives rules (rules x) i r := by
  constructor
  · rintro ⟨⟩
    assumption
  · exact .symbol

theorem derives_append :
    Derives rules (e ++ f) i r ↔ ∃ m, Derives rules e i m ∧ Derives rules f m r := by
  constructor
  · rintro (_ | _ | ⟨he, hf⟩)
    exact ⟨_, he, hf⟩
  · rintro ⟨m, he, hf⟩
    exact .sequence he hf

theorem derives_option : Derives rules (.option e) i r ↔ i = r ∨ Derives rules e i r := by
  constructor
  · rintro (_ | _ | _ | _ | _ | _ | h)
    · exact .inl rfl
    · exact .inr h
  · rintro (rfl | h)
    · exact .absent e i
    · exact .present h

theorem Derives.many_append {m : List κ} (h : Derives rules (.many e) i m)
    (h' : Derives rules (.many e) m r) : Derives rules (.many e) i r := by
  generalize hm : many e = f at h
  induction h with
  | stop =>
    cases hm
    exact h'
  | more he _ _ ih =>
    cases hm
    exact .more he (ih h' rfl)
  | _ => cases hm

/-! ### Ladders of operators -/

/-- What can be derived at the second place can be derived from the first on. -/
def Extends (rules : σ → Ebnf κ σ) (e : Ebnf κ σ) (i j : List κ) : Prop :=
  ∀ r, Derives rules e j r → Derives rules e i r

def Nullable (rules : σ → Ebnf κ σ) (e : Ebnf κ σ) : Prop := ∀ r, Derives rules e r r

variable {o : Ebnf κ σ} {j : List κ} {x : σ}

theorem Nullable.many : Nullable rules (.many e) := .stop e

theorem Nullable.append (he : Nullable rules e) (hf : Nullable rules f) : Nullable rules (e ++ f) :=
  fun r ↦ derives_append.2 ⟨r, he r, hf r⟩

theorem Nullable.symbol (h : Nullable rules (rules x)) : Nullable rules (.symbol x) :=
  fun r ↦ .symbol (h r)

theorem Extends.symbol (h : Extends rules (rules x) i j) : Extends rules (.symbol x) i j :=
  fun r hr ↦ .symbol (h r (derives_symbol.1 hr))

theorem Extends.many (h : Derives rules o i j) : Extends rules (.many o) i j :=
  fun _ hr ↦ .more h hr

/-- What extends the tighter level extends the looser one. -/
theorem Extends.append (h : Extends rules e i j) : Extends rules (e ++ f) i j := by
  intro r hr
  obtain ⟨m, he, hf⟩ := derives_append.1 hr
  exact derives_append.2 ⟨m, h m he, hf⟩

/-- An operation of a level, where nothing of the tighter level stands before it. -/
theorem Extends.operation (he : Nullable rules e) (h : Derives rules o i j) :
    Extends rules (e ++ .many (o ++ e)) i j := by
  intro r hr
  obtain ⟨m, hm, hs⟩ := derives_append.1 hr
  exact derives_append.2 ⟨i, he i, .more (derives_append.2 ⟨j, h, hm⟩) hs⟩

/-! ### Induction over derivations -/

/-- What an expression takes if the symbols take what `P` says. -/
def Holds (P : σ → List κ → List κ → Prop) : Ebnf κ σ → List κ → List κ → Prop
  | .token k, i, r => i = k :: r
  | .symbol x, i, r => P x i r
  | .sequence e f, i, r => ∃ m, Holds P e i m ∧ Holds P f m r
  | .alternative e f, i, r => Holds P e i r ∨ Holds P f i r
  | .option e, i, r => i = r ∨ Holds P e i r
  | .many e, i, r => Relation.ReflTransGen (Holds P e) i r
  | .notBefore k, i, r => i.head? ≠ some k ∧ i = r

/-- The derivable phrases are the least that the rules hold of. -/
theorem Derives.holds {P : σ → List κ → List κ → Prop}
    (hP : ∀ x i r, Holds P (rules x) i r → P x i r) (h : Derives rules e i r) : Holds P e i r := by
  induction h with
  | token => rfl
  | symbol _ ih => exact hP _ _ _ ih
  | sequence _ _ he hf => exact ⟨_, he, hf⟩
  | left _ ih => exact .inl ih
  | right _ ih => exact .inr ih
  | absent => exact .inl rfl
  | present _ ih => exact .inr ih
  | stop => exact .refl
  | more _ _ he hs => exact .head he hs
  | notBefore h => exact ⟨h, rfl⟩

section Ladder

variable {P : σ → List κ → List κ → Prop} {Q : List κ → List κ → Prop} [Std.Refl Q] [IsTrans _ Q]

theorem holds_many (h : Holds P (.many o) i r) (ho : ∀ i r, Holds P o i r → Q i r) : Q i r :=
  Relation.reflTransGen_le_of_le ho i r h

/-- What links the ends of the tighter level and of an operation links the ends of the level
above. -/
theorem holds_level (h : Holds P (e ++ .many (o ++ e)) i r) (he : ∀ i r, Holds P e i r → Q i r)
    (ho : ∀ i r, Holds P o i r → Q i r) : Q i r := by
  obtain ⟨m, hm, hs⟩ := h
  refine IsTrans.trans _ _ _ (he i m hm) (holds_many hs fun i r h ↦ ?_)
  obtain ⟨j, hj, hr⟩ := h
  exact IsTrans.trans _ _ _ (ho i j hj) (he j r hr)

end Ladder

/-- The expression asks for no token of this kind. -/
def Lacks (k : κ) : Ebnf κ σ → Prop
  | .token j => j ≠ k
  | .symbol _ | .notBefore _ => True
  | .sequence e f | .alternative e f => e.Lacks k ∧ f.Lacks k
  | .option e | .many e => e.Lacks k

/-- What no rule asks for stands in no phrase, but only behind it. -/
theorem Derives.mem_rest {k : κ} (hrules : ∀ x, (rules x).Lacks k) (he : e.Lacks k)
    (h : Derives rules e i r) (hk : k ∈ i) : k ∈ r := by
  induction h with
  | token j r => exact List.mem_of_ne_of_mem (Ne.symm he) hk
  | @symbol x i r _ ih => exact ih (hrules x) hk
  | sequence _ _ ihe ihf => exact ihf he.2 (ihe he.1 hk)
  | left _ ih => exact ih he.1 hk
  | right _ ih => exact ih he.2 hk
  | absent | stop | notBefore => exact hk
  | present _ ih => exact ih he hk
  | more _ _ ihe ihs => exact ihs he (ihe he hk)

/-- The kind stands in no condition on the token behind. -/
def Ignores (k : κ) : Ebnf κ σ → Prop
  | .token _ | .symbol _ => True
  | .sequence e f | .alternative e f => e.Ignores k ∧ f.Ignores k
  | .option e | .many e => e.Ignores k
  | .notBefore j => j ≠ k

theorem head?_append_ne {k : κ} {r r' : List κ} (v : List κ)
    (hr : ∀ j, j ≠ k → r.head? ≠ some j → r'.head? ≠ some j) :
    ∀ j, j ≠ k → (v ++ r).head? ≠ some j → (v ++ r').head? ≠ some j := by
  cases v with
  | nil => exact hr
  | cons a v => exact fun _ _ h ↦ h

/-- A phrase can be derived as well before another rest that starts with a token of no account. -/
theorem Derives.replace_rest {k : κ} {r' : List κ} (hrules : ∀ x, (rules x).Ignores k)
    (he : e.Ignores k) (h : Derives rules e i r)
    (hr : ∀ j, j ≠ k → r.head? ≠ some j → r'.head? ≠ some j) :
    ∃ w, i = w ++ r ∧ Derives rules e (w ++ r') r' := by
  induction h generalizing r' with
  | token j r => exact ⟨[j], rfl, .token j r'⟩
  | @symbol x i r _ ih =>
    obtain ⟨w, hw, hd⟩ := ih (hrules x) hr
    exact ⟨w, hw, .symbol hd⟩
  | @sequence e f i m r _ _ ihe ihf =>
    obtain ⟨v, rfl, hf⟩ := ihf he.2 hr
    obtain ⟨w, rfl, hd⟩ := ihe he.1 (head?_append_ne v hr)
    exact ⟨w ++ v, by simp, by simpa using Derives.sequence hd hf⟩
  | left _ ih =>
    obtain ⟨w, hw, hd⟩ := ih he.1 hr
    exact ⟨w, hw, .left hd⟩
  | right _ ih =>
    obtain ⟨w, hw, hd⟩ := ih he.2 hr
    exact ⟨w, hw, .right hd⟩
  | absent e => exact ⟨[], rfl, .absent e r'⟩
  | present _ ih =>
    obtain ⟨w, hw, hd⟩ := ih he hr
    exact ⟨w, hw, .present hd⟩
  | stop e => exact ⟨[], rfl, .stop e r'⟩
  | @more e i m r _ _ ihe ihs =>
    obtain ⟨v, rfl, hs⟩ := ihs he hr
    obtain ⟨w, rfl, hd⟩ := ihe he (head?_append_ne v hr)
    exact ⟨w ++ v, by simp, by simpa using Derives.more hd hs⟩
  | notBefore h => exact ⟨[], rfl, .notBefore (hr _ he h)⟩

/-- Whether a text can be derived does not depend on an end token behind it. -/
theorem derives_singleton_iff {k : κ} (hrules : ∀ x, (rules x).Ignores k) (he : e.Ignores k) :
    Derives rules e i [k] ↔ ∃ w, i = w ++ [k] ∧ Derives rules e w [] := by
  constructor
  · intro h
    have hr : ∀ j, j ≠ k → [k].head? ≠ some j → ([] : List κ).head? ≠ some j := by simp
    obtain ⟨w, hw, hd⟩ := h.replace_rest hrules he hr
    rw [List.append_nil] at hd
    exact ⟨w, hw, hd⟩
  · rintro ⟨w, rfl, h⟩
    have hr : ∀ j, j ≠ k → ([] : List κ).head? ≠ some j → [k].head? ≠ some j := by
      intro j hj _
      simpa using hj.symm
    obtain ⟨v, hv, hd⟩ := h.replace_rest hrules he hr
    rw [List.append_nil] at hv
    exact hv ▸ hd

end Ebnf

end Lookahead
