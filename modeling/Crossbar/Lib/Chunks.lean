import Mathlib.Data.List.Basic
import Mathlib.Tactic.Ring

namespace Crossbar.Lib

/-!
# Lib — a list as consecutive elements of one size

`chunks size n l` reads `n` elements of `size` entries each from the front of `l`, as an array of
fixed-size elements lies in memory; the size may be 0.  On lists of the right length it is the
inverse of `flatten` (`flatten_chunks`, `chunks_flatten`).
-/

variable {α : Type*} {size n : ℕ} {l : List α}

/-- The first `n` elements of `size` entries. -/
def chunks (size : ℕ) : ℕ → List α → List (List α)
  | 0, _ => []
  | n + 1, l => l.take size :: chunks size n (l.drop size)

/-- One element less, behind the first one. -/
theorem length_drop_chunk (h : l.length = (n + 1) * size) : (l.drop size).length = n * size := by
  rw [List.length_drop, h, Nat.succ_mul]
  exact Nat.add_sub_cancel _ _

/-- There are `n` of them. -/
theorem length_chunks (size n : ℕ) (l : List α) : (chunks size n l).length = n := by
  induction n generalizing l with
  | zero => rfl
  | succ n ih => rw [chunks, List.length_cons, ih]

/-- Read and written back, a list of the right length is the same. -/
theorem flatten_chunks (h : l.length = n * size) : (chunks size n l).flatten = l := by
  induction n generalizing l with
  | zero =>
    rw [Nat.zero_mul] at h
    rw [List.length_eq_zero_iff.mp h]
    rfl
  | succ n ih =>
    rw [chunks, List.flatten_cons, ih (length_drop_chunk h), List.take_append_drop]

/-- All elements have the size. -/
theorem length_of_mem_chunks (h : l.length = n * size) :
    ∀ c ∈ chunks size n l, c.length = size := by
  induction n generalizing l with
  | zero => exact fun c hc => absurd hc List.not_mem_nil
  | succ n ih =>
    intro c hc
    rcases List.mem_cons.mp hc with rfl | hrest
    · rw [List.length_take, h, Nat.succ_mul]
      omega
    · exact ih (length_drop_chunk h) c hrest

variable {ls : List (List α)}

/-- What elements of one size take in memory. -/
theorem length_flatten_of_size (h : ∀ c ∈ ls, c.length = size) :
    ls.flatten.length = ls.length * size := by
  induction ls with
  | nil => simp
  | cons c ls ih =>
    have hc := h c List.mem_cons_self
    rw [List.flatten_cons, List.length_append, hc,
      ih (fun d hd => h d (List.mem_cons_of_mem c hd)), List.length_cons]
    ring

/-- Written and read back, elements of one size are the same. -/
theorem chunks_flatten (h : ∀ c ∈ ls, c.length = size) :
    chunks size ls.length ls.flatten = ls := by
  induction ls with
  | nil => rfl
  | cons c ls ih =>
    have hc := h c List.mem_cons_self
    rw [List.length_cons, chunks, List.flatten_cons, List.take_left' hc, List.drop_left' hc,
      ih (fun d hd => h d (List.mem_cons_of_mem c hd))]

end Crossbar.Lib
