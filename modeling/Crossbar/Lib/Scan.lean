import Mathlib.Data.List.FinRange

namespace Crossbar.Lib

/-!
# Scans of a table

A loop over the entries `0, …, n - 1` of a table, as a program runs it: an index is counted up
to `n`.

* `scan_induction` — what holds at the end, and before an entry when it holds after it, holds at
  every index;
* `drop_finRange` — what is left of the entries at an index;
* `first_of_find` — a search ends at the first entry that fits.
-/

variable {n : ℕ}

/-- **Scan rule.** The induction runs from the end of the table back to the index. -/
@[elab_as_elim]
theorem scan_induction {motive : ℕ → Prop} (hend : motive n)
    (hentry : ∀ i : Fin n, motive (i + 1) → motive i) {k : ℕ} (hk : k ≤ n) : motive k := by
  induction hk using Nat.decreasingInduction with
  | self => exact hend
  | of_succ k hk ih => exact hentry ⟨k, hk⟩ ih

theorem drop_finRange (i : Fin n) :
    (List.finRange n).drop i = i :: (List.finRange n).drop (i + 1) := by
  have hi : i.val < (List.finRange n).length := by
    rw [List.length_finRange]
    exact i.isLt
  rw [List.drop_eq_getElem_cons hi, List.getElem_finRange]
  rfl

/-- Nothing is left behind the last entry. -/
theorem drop_finRange_end : (List.finRange n).drop n = [] :=
  List.drop_eq_nil_of_le (List.length_finRange (n := n)).le

/-- A search from the front ends at the first entry that fits. -/
theorem first_of_find {fits : Fin n → Bool} {i : Fin n}
    (h : (List.finRange n).find? fits = some i) :
    fits i = true ∧ ∀ j : Fin n, j.val < i.val → fits j = false := by
  obtain ⟨hi, k, hk, hat, hbefore⟩ := List.find?_eq_some_iff_getElem.mp h
  rw [List.getElem_finRange] at hat
  subst hat
  refine ⟨hi, fun j hj => ?_⟩
  have hnot := hbefore j.val hj
  rw [List.getElem_finRange, Bool.not_eq_true'] at hnot
  exact hnot

end Crossbar.Lib
