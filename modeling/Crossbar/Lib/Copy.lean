import Mathlib.Data.Nat.Basic

namespace Crossbar.Lib

/-!
# Lib — copying within a memory

`copy src dst n mem` is the memory `mem` after `n` cells have been copied from `src` to `dst`, for
ranges that do not overlap.

* `copy_inside` / `copy_outside` — what a cell holds afterwards;
* `copy_copy` — two copies that continue each other are one.
-/

variable {α : Type*} {src dst m n : ℕ} {mem : ℕ → α}

/-- Copy `n` cells. -/
def copy (src dst n : ℕ) (mem : ℕ → α) : ℕ → α := fun a =>
  if dst ≤ a ∧ a < dst + n then mem (src + (a - dst)) else mem a

theorem copy_inside {i : ℕ} (h : i < n) : copy src dst n mem (dst + i) = mem (src + i) := by
  rw [copy, if_pos (by omega), Nat.add_sub_cancel_left]

theorem copy_outside {a : ℕ} (h : a < dst ∨ dst + n ≤ a) : copy src dst n mem a = mem a :=
  if_neg (by omega)

@[simp]
theorem copy_zero (src dst : ℕ) (mem : ℕ → α) : copy src dst 0 mem = mem := by
  funext a
  exact copy_outside (by omega)

/-- Two copies that continue each other are one, when the first does not overwrite what the second
    reads. -/
theorem copy_copy (h : src + (m + n) ≤ dst ∨ dst + (m + n) ≤ src) :
    copy (src + m) (dst + m) n (copy src dst m mem) = copy src dst (m + n) mem := by
  funext a
  by_cases hsecond : dst + m ≤ a ∧ a < dst + m + n
  · obtain ⟨i, rfl⟩ : ∃ i, a = dst + m + i := ⟨a - (dst + m), by omega⟩
    rw [copy_inside (by omega), copy_outside (by omega), Nat.add_assoc dst, copy_inside (by omega),
      Nat.add_assoc]
  · rw [copy_outside (by omega)]
    unfold copy
    by_cases hfirst : dst ≤ a ∧ a < dst + m
    · rw [if_pos hfirst, if_pos (by omega)]
    · rw [if_neg hfirst, if_neg (by omega)]

end Crossbar.Lib
