import Lookahead.Proofs.Ebnf

/-!
Where a symbol stands in a derivation. A text and a rest of it name a place, so an occurrence is
told by what is left where the symbol begins and where it ends.
-/

namespace Lookahead.Ebnf

variable {κ σ : Type}

/-- In a derivation of the expression, the symbol takes what stands in `j` before `q`. -/
inductive Occurs (rules : σ → Ebnf κ σ) (x : σ) (j q : List κ) :
    Ebnf κ σ → List κ → List κ → Prop
  | here : Derives rules (rules x) j q → Occurs rules x j q (.symbol x) j q
  | symbol {y : σ} {i r : List κ} :
      Occurs rules x j q (rules y) i r → Occurs rules x j q (.symbol y) i r
  | front {e f : Ebnf κ σ} {i m r : List κ} :
      Occurs rules x j q e i m → Derives rules f m r → Occurs rules x j q (.sequence e f) i r
  | back {e f : Ebnf κ σ} {i m r : List κ} :
      Derives rules e i m → Occurs rules x j q f m r → Occurs rules x j q (.sequence e f) i r
  | left {e f : Ebnf κ σ} {i r : List κ} :
      Occurs rules x j q e i r → Occurs rules x j q (.alternative e f) i r
  | right {e f : Ebnf κ σ} {i r : List κ} :
      Occurs rules x j q f i r → Occurs rules x j q (.alternative e f) i r
  | present {e : Ebnf κ σ} {i r : List κ} :
      Occurs rules x j q e i r → Occurs rules x j q (.option e) i r
  | first {e : Ebnf κ σ} {i m r : List κ} :
      Occurs rules x j q e i m → Derives rules (.many e) m r → Occurs rules x j q (.many e) i r
  | later {e : Ebnf κ σ} {i m r : List κ} :
      Derives rules e i m → Occurs rules x j q (.many e) m r → Occurs rules x j q (.many e) i r

variable {rules : σ → Ebnf κ σ} {x : σ} {j q i r : List κ} {e : Ebnf κ σ}

theorem Occurs.derives (h : Occurs rules x j q e i r) : Derives rules e i r := by
  induction h with
  | here h => exact .symbol h
  | symbol _ ih => exact .symbol ih
  | front _ hf ih => exact .sequence ih hf
  | back he _ ih => exact .sequence he ih
  | left _ ih => exact .left ih
  | right _ ih => exact .right ih
  | present _ ih => exact .present ih
  | first _ hs ih => exact .more ih hs
  | later he _ ih => exact .more he ih

/-- One of the symbols by which the expression takes its text is one of which `Q` holds. -/
def Within (rules : σ → Ebnf κ σ) (Q : σ → List κ → List κ → Prop) :
    Ebnf κ σ → List κ → List κ → Prop
  | .token _, _, _ | .notBefore _, _, _ => False
  | .symbol x, i, r => Q x i r
  | .sequence e f, i, r =>
    (∃ m, Within rules Q e i m ∧ Derives rules f m r) ∨
      ∃ m, Derives rules e i m ∧ Within rules Q f m r
  | .alternative e f, i, r => Within rules Q e i r ∨ Within rules Q f i r
  | .option e, i, r => Within rules Q e i r
  | .many e, i, r =>
    ∃ m m', Derives rules (.many e) i m ∧ Within rules Q e m m' ∧ Derives rules (.many e) m' r

/-- What holds of the symbol where it stands, and of every symbol with such a one in it, holds all
the way up. -/
theorem Occurs.within {Q : σ → List κ → List κ → Prop} (hhere : Q x j q)
    (hQ : ∀ y i r, Within rules Q (rules y) i r → Q y i r) (h : Occurs rules x j q e i r) :
    Within rules Q e i r := by
  induction h with
  | here => exact hhere
  | symbol _ ih => exact hQ _ _ _ ih
  | front _ hf ih => exact .inl ⟨_, ih, hf⟩
  | back he _ ih => exact .inr ⟨_, he, ih⟩
  | left _ ih => exact .inl ih
  | right _ ih => exact .inr ih
  | present _ ih => exact ih
  | first _ hs ih => exact ⟨_, _, .stop _ _, ih, hs⟩
  | later he _ ih =>
    obtain ⟨m, m', hm, hw, hr⟩ := ih
    exact ⟨m, m', .more he hm, hw, hr⟩

end Lookahead.Ebnf
