import Mathlib.Data.List.Basic
import Mathlib.Data.Nat.Basic

namespace Crossbar.Lib

/-!
# Lib — tables of records, one behind the other

A layout is a list of tables; a table has `count` records of `size` units each, and starts where
the table before it ends.

* `Layout.start` / `Layout.extent` — where a table starts, and where the last one ends;
* `Record` — a table of the layout and an index in it;
* `Record.end_le_extent` — every record ends within the layout;
* `Record.separate` — of two different records one ends before the other starts.
-/

/-- A table of `count` records. -/
structure RecordTable where
  size : ℕ
  count : ℕ

/-- The space a table takes. -/
def RecordTable.extent (a : RecordTable) : ℕ := a.count * a.size

/-- A record of a table ends before the next one starts. -/
theorem RecordTable.succ_mul_size_le (a : RecordTable) {i j : ℕ} (h : i < j) :
    i * a.size + a.size ≤ j * a.size := by
  rw [← Nat.succ_mul]
  exact Nat.mul_le_mul_right a.size h

/-- Tables in the order in which they lie. -/
abbrev Layout : Type := List RecordTable

variable {l : Layout} {k k' : ℕ} {a : RecordTable}

namespace Layout

/-- Where the last table ends. -/
def extent : Layout → ℕ
  | [] => 0
  | a :: l => a.extent + extent l

@[simp]
theorem extent_nil : extent [] = 0 := rfl

@[simp]
theorem extent_cons (a : RecordTable) (l : Layout) : extent (a :: l) = a.extent + l.extent := rfl

theorem extent_append (l l' : Layout) : extent (l ++ l') = l.extent + extent l' := by
  induction l with
  | nil => simp
  | cons a l ih => simp [ih, Nat.add_assoc]

/-- Where the table at position `k` starts. -/
def start (l : Layout) (k : ℕ) : ℕ := extent (l.take k)

theorem start_add_extent (h : l[k]? = some a) : l.start k + a.extent = l.start (k + 1) := by
  simp [start, List.take_add_one, h, extent_append]

theorem start_mono (h : k ≤ k') : l.start k ≤ l.start k' := by
  obtain ⟨n, rfl⟩ := Nat.exists_eq_add_of_le h
  rw [start, start, List.take_add, extent_append]
  exact Nat.le_add_right _ _

theorem start_le_extent (l : Layout) (k : ℕ) : l.start k ≤ l.extent := by
  have hsplit := extent_append (l.take k) (l.drop k)
  rw [List.take_append_drop] at hsplit
  rw [hsplit]
  exact Nat.le_add_right _ _

end Layout

/-- A record of a layout. -/
structure Record (l : Layout) where
  pos : ℕ
  table : RecordTable
  get : l[pos]? = some table
  idx : ℕ
  idx_lt : idx < table.count

namespace Record

/-- Where a record starts. -/
def off (r : Record l) : ℕ := l.start r.pos + r.idx * r.table.size

/-- A record ends within its table. -/
theorem end_le_start (r : Record l) : r.off + r.table.size ≤ l.start (r.pos + 1) := by
  have hin : r.idx * r.table.size + r.table.size ≤ r.table.extent :=
    r.table.succ_mul_size_le r.idx_lt
  rw [off, ← Layout.start_add_extent r.get]
  omega

/-- Every record ends within the layout. -/
theorem end_le_extent (r : Record l) : r.off + r.table.size ≤ l.extent :=
  Nat.le_trans r.end_le_start (l.start_le_extent _)

/-- The records are in the order of the tables and, within a table, of the indices. -/
theorem end_le_off {r r' : Record l}
    (h : r.pos < r'.pos ∨ r.pos = r'.pos ∧ r.idx < r'.idx) : r.off + r.table.size ≤ r'.off := by
  rcases h with hpos | ⟨hpos, hidx⟩
  · calc r.off + r.table.size ≤ l.start (r.pos + 1) := r.end_le_start
      _ ≤ l.start r'.pos := Layout.start_mono hpos
      _ ≤ r'.off := Nat.le_add_right _ _
  · have htable : r.table = r'.table := by
      have hget := r.get
      rw [hpos, r'.get] at hget
      exact (Option.some.inj hget).symm
    have hin := r.table.succ_mul_size_le hidx
    rw [off, off, ← hpos, ← htable]
    omega

/-- Of two different records one ends before the other starts. -/
theorem separate {r r' : Record l} (h : r.pos ≠ r'.pos ∨ r.idx ≠ r'.idx) :
    r.off + r.table.size ≤ r'.off ∨ r'.off + r'.table.size ≤ r.off := by
  by_cases hlt : r.pos < r'.pos ∨ r.pos = r'.pos ∧ r.idx < r'.idx
  · exact Or.inl (end_le_off hlt)
  · exact Or.inr (end_le_off (by omega))

end Record

end Crossbar.Lib
