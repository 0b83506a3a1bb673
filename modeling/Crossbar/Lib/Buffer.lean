import Mathlib.Data.List.Basic

namespace Crossbar.Lib

/-!
# Lib — bounded buffers

A `Buffer` has `cap` cells, of which the first `len` are its contents; the cells behind them hold
whatever was there before.

* `overwrite` — write a list over the cells from an offset on;
* `Buffer.replace`, `Buffer.resize`, `Buffer.append` — the three ways to change the contents, each
  with what the contents are afterwards and which cells have not changed.
-/

variable {α : Type*} {cells l : List α} {off cap : ℕ}

/-- Write `l` over the cells from `off` on. -/
def overwrite (cells : List α) (off : ℕ) (l : List α) : List α :=
  cells.take off ++ (l ++ cells.drop (off + l.length))

theorem length_overwrite (h : off + l.length ≤ cells.length) :
    (overwrite cells off l).length = cells.length := by
  simp only [overwrite, List.length_append, List.length_take, List.length_drop]
  omega

/-- What was written follows what was in front of it. -/
theorem take_overwrite (h : off ≤ cells.length) :
    (overwrite cells off l).take (off + l.length) = cells.take off ++ l := by
  rw [overwrite, ← List.append_assoc]
  apply List.take_left'
  rw [List.length_append, List.length_take, Nat.min_eq_left h]

/-- The cells behind it have not changed. -/
theorem drop_overwrite (h : off ≤ cells.length) :
    (overwrite cells off l).drop (off + l.length) = cells.drop (off + l.length) := by
  rw [overwrite, ← List.append_assoc]
  apply List.drop_left'
  rw [List.length_append, List.length_take, Nat.min_eq_left h]

/-- Two lists written one behind the other are one list. -/
theorem overwrite_overwrite (h : off ≤ cells.length) (l l' : List α) :
    overwrite (overwrite cells off l) (off + l.length) l' = overwrite cells off (l ++ l') := by
  have hdrop : (overwrite cells off l).drop (off + l.length + l'.length) =
      cells.drop (off + l.length + l'.length) := by
    rw [← List.drop_drop, drop_overwrite h, List.drop_drop]
  rw [overwrite, take_overwrite h, hdrop, overwrite, List.length_append, ← Nat.add_assoc]
  simp only [List.append_assoc]

/-- A buffer of `cap` cells. -/
@[ext]
structure Buffer (α : Type*) (cap : ℕ) where
  cells : List α
  len : ℕ
  length_cells : cells.length = cap
  len_le : len ≤ cap

namespace Buffer

variable (B : Buffer α cap)

/-- The first `len` cells. -/
def contents : List α := B.cells.take B.len

/-- `l` instead of the contents. -/
def replace (l : List α) (h : l.length ≤ cap) : Buffer α cap where
  cells := overwrite B.cells 0 l
  len := l.length
  length_cells := by rw [length_overwrite (by rw [B.length_cells]; omega), B.length_cells]
  len_le := h

/-- The first `n` cells as the contents. -/
def resize (n : ℕ) (h : n ≤ cap) : Buffer α cap where
  cells := B.cells
  len := n
  length_cells := B.length_cells
  len_le := h

/-- `l` behind the contents. -/
def append (l : List α) (h : B.len + l.length ≤ cap) : Buffer α cap where
  cells := overwrite B.cells B.len l
  len := B.len + l.length
  length_cells := by rw [length_overwrite (by rw [B.length_cells]; exact h), B.length_cells]
  len_le := h

variable {B}

@[simp]
theorem contents_replace (h : l.length ≤ cap) : (B.replace l h).contents = l := by
  have htake := take_overwrite (l := l) (Nat.zero_le B.cells.length)
  rwa [Nat.zero_add, List.take_zero, List.nil_append] at htake

theorem drop_replace (h : l.length ≤ cap) :
    (B.replace l h).cells.drop l.length = B.cells.drop l.length := by
  have hdrop := drop_overwrite (l := l) (Nat.zero_le B.cells.length)
  rwa [Nat.zero_add] at hdrop

@[simp]
theorem contents_append (h : B.len + l.length ≤ cap) :
    (B.append l h).contents = B.contents ++ l :=
  take_overwrite (by rw [B.length_cells]; exact B.len_le)

theorem drop_append (h : B.len + l.length ≤ cap) :
    (B.append l h).cells.drop (B.len + l.length) = B.cells.drop (B.len + l.length) :=
  drop_overwrite (by rw [B.length_cells]; exact B.len_le)

end Buffer

end Crossbar.Lib
