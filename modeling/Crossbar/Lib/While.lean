import Mathlib.Data.Nat.Basic

namespace Crossbar.Lib

/-!
# Lib — while loops

`whileLoop cond body fuel s` runs `while cond { body }` from `s` for at most `fuel` rounds; `none`
means that the loop is still running then.  `whileLoop_spec` is the rule for total correctness: an
invariant, and a variant that bounds the number of rounds.
-/

variable {σ : Type*}

/-- At most `fuel` rounds of a while loop. -/
def whileLoop (cond : σ → Bool) (body : σ → σ) : ℕ → σ → Option σ
  | 0, s => if cond s then none else some s
  | fuel + 1, s => if cond s then whileLoop cond body fuel (body s) else some s

variable {cond : σ → Bool} {body : σ → σ} {s : σ}

theorem whileLoop_of_not (h : cond s = false) (fuel : ℕ) :
    whileLoop cond body fuel s = some s := by
  cases fuel with
  | zero | succ => simp [whileLoop, h]

/-- **Loop rule.** When every round keeps the invariant and lowers the variant, the loop stops
    within as many rounds as the variant says, in a state with the invariant. -/
theorem whileLoop_spec (I : σ → Prop) (variant : σ → ℕ)
    (hround : ∀ s, I s → cond s = true → I (body s) ∧ variant (body s) < variant s)
    {fuel : ℕ} (hI : I s) (hfuel : variant s ≤ fuel) :
    ∃ s', whileLoop cond body fuel s = some s' ∧ I s' ∧ cond s' = false := by
  induction fuel generalizing s with
  | zero =>
    -- a round would have to lower the variant below 0
    have hstop : cond s = false := by
      by_contra hcond
      have hlower := (hround s hI (by simpa using hcond)).2
      omega
    exact ⟨s, whileLoop_of_not hstop 0, hI, hstop⟩
  | succ fuel ih =>
    cases hcond : cond s with
    | false => exact ⟨s, whileLoop_of_not hcond _, hI, hcond⟩
    | true =>
      obtain ⟨hkeep, hlower⟩ := hround s hI hcond
      obtain ⟨s', hrest, hI', hstop⟩ := ih hkeep (by omega)
      refine ⟨s', ?_, hI', hstop⟩
      rw [whileLoop, if_pos hcond]
      exact hrest

end Crossbar.Lib
