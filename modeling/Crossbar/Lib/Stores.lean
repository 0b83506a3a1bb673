import Mathlib.Data.Set.Function

namespace Crossbar.Lib

/-!
# A sequence of stores, seen from outside

One agent performs a list of stores to a memory of cells; another one looks at single cells while
they are under way.

* `Store` — an update of the memory, with the cells that it may change;
* `after` — the memory after the first `k` stores;
* `after_eqOn_of_le`, `after_eqOn_of_ge` — cells before their first store, and after their last one;
* `racing` — what is seen by someone who reads cell `i` after `τ i` stores.
-/

/-- An update that leaves all cells but `cells`. -/
structure Store (ι β : Type*) where
  cells : Set ι
  run : (ι → β) → ι → β
  outside : ∀ m i, i ∉ cells → run m i = m i

namespace Store

variable {ι β : Type*} {m : ι → β} {ops : List (Store ι β)} {R : Set ι} {j k : ℕ}

/-- All stores, in order. -/
def runAll (ops : List (Store ι β)) (m : ι → β) : ι → β := ops.foldl (fun m s => s.run m) m

/-- The memory after the first `k` stores. -/
def after (ops : List (Store ι β)) (m : ι → β) (k : ℕ) : ι → β := runAll (ops.take k) m

@[simp] theorem runAll_cons (s : Store ι β) : runAll (s :: ops) m = runAll ops (s.run m) := rfl

theorem runAll_append (ops' : List (Store ι β)) :
    runAll (ops ++ ops') m = runAll ops' (runAll ops m) :=
  List.foldl_append ..

/-- Cells that no store touches. -/
theorem runAll_eqOn (h : ∀ s ∈ ops, ∀ i ∈ R, i ∉ s.cells) : Set.EqOn (runAll ops m) m R := by
  induction ops generalizing m with
  | nil => exact fun _ _ => rfl
  | cons s ops ih =>
    intro i hi
    rw [runAll_cons, ih (fun s' hs' => h s' (List.mem_cons_of_mem _ hs')) hi]
    exact s.outside m i (h s List.mem_cons_self i hi)

/-- Before the first store to them, cells are as they were. -/
theorem after_eqOn_of_le (h : ∀ s ∈ ops.take j, ∀ i ∈ R, i ∉ s.cells) (hk : k ≤ j) :
    Set.EqOn (after ops m k) m R := by
  refine runAll_eqOn fun s hs => h s ?_
  rw [← Nat.min_eq_left hk, ← List.take_take] at hs
  exact List.mem_of_mem_take hs

/-- After the last store to them, cells are as they will be. -/
theorem after_eqOn_of_ge (h : ∀ s ∈ ops.drop j, ∀ i ∈ R, i ∉ s.cells) (hk : j ≤ k) :
    Set.EqOn (after ops m k) (runAll ops m) R := by
  intro i hi
  have hrest : ∀ s ∈ ops.drop k, ∀ i ∈ R, i ∉ s.cells := by
    intro s hs
    rw [← Nat.add_sub_cancel' hk, ← List.drop_drop] at hs
    exact h s (List.mem_of_mem_drop hs)
  conv_rhs => rw [← List.take_append_drop k ops, runAll_append]
  exact (runAll_eqOn hrest hi).symm

/-- The reader loads cell `i` after `τ i` stores. -/
def racing (ops : List (Store ι β)) (m : ι → β) (τ : ι → ℕ) : ι → β := fun i => after ops m (τ i) i

end Store

end Crossbar.Lib
