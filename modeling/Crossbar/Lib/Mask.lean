import Mathlib.Data.Nat.Bitwise

namespace Crossbar.Lib

/-!
# Indices of a power-of-two ring

A ring whose size `n` is a power of two finds the place of a number with the mask `n - 1`.
`maskIdx` is that place; on powers of two it is the remainder (`maskIdx_val`), so numbers of
one place are a whole ring apart (`eq_of_maskIdx_eq`).
-/

variable {n : Nat}

theorem mask_lt (hn : 0 < n) (x : Nat) : x &&& (n - 1) < n := by
  have hle : x &&& (n - 1) ≤ n - 1 := Nat.and_le_right
  omega

/-- The place of `x` in a ring of `n`. -/
def maskIdx (n : Nat) (hn : 0 < n) (x : Nat) : Fin n := ⟨x &&& (n - 1), mask_lt hn x⟩

variable {hn : 0 < n}

theorem maskIdx_val (hpow : ∃ k, n = 2 ^ k) (x : Nat) : (maskIdx n hn x).val = x % n := by
  obtain ⟨k, hk⟩ := hpow
  show x &&& (n - 1) = x % n
  rw [hk, Nat.and_two_pow_sub_one_eq_mod]

/-- Two numbers have one place exactly when they are congruent. -/
theorem maskIdx_eq_iff (hpow : ∃ k, n = 2 ^ k) (a b : Nat) :
    maskIdx n hn a = maskIdx n hn b ↔ a % n = b % n := by
  rw [Fin.ext_iff, maskIdx_val hpow, maskIdx_val hpow]

/-- Numbers of one place that are less than a ring apart are equal. -/
theorem eq_of_maskIdx_eq (hpow : ∃ k, n = 2 ^ k) {a b : Nat}
    (h : maskIdx n hn a = maskIdx n hn b) (hab : a ≤ b) (hlt : b < a + n) : a = b := by
  rw [maskIdx_eq_iff hpow] at h
  have hd : (b - a) % n = 0 := Nat.sub_mod_eq_zero_of_mod_eq h.symm
  rw [Nat.mod_eq_of_lt (by omega)] at hd
  omega

end Crossbar.Lib
