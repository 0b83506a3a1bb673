import Mathlib.Algebra.BigOperators.Fin
import Mathlib.Algebra.Order.BigOperators.Group.Finset
import Mathlib.Algebra.Order.BigOperators.Group.List
import Mathlib.Data.Fintype.BigOperators
import Mathlib.Data.List.Basic

namespace Crossbar.Lib

open Function

open scoped BigOperators

/-!
# Tallies: weighted counts over a family of agents

`tally w g = Σ i, w (g i)` counts, with weights, what the agents `g i` of a finite family
hold.  Every step of an interleaving changes one agent, so the only fact needed about a
tally is how it moves when one entry of `g` is replaced (`tally_update`).  It is stated as
an equation between sums of naturals, ready for `omega`.  `listTally` is the same for a
list of agents that grows (`listTally_append`) and is updated in place (`listTally_set`).
`addOne f a` is the account `f` with one more of `a`.
-/

variable {ι α : Type*}

/-- The total weight of the values of `g`. -/
def tally [Fintype ι] (w : α → ℕ) (g : ι → α) : ℕ := ∑ i, w (g i)

/-- Replacing one value moves the tally by the difference of the two weights. -/
theorem tally_update [Fintype ι] [DecidableEq ι] (w : α → ℕ) (g : ι → α) (i : ι) (x : α) :
    tally w (update g i x) + w (g i) = tally w g + w x := by
  unfold tally
  have hold := Finset.sum_erase_add Finset.univ (fun j => w (g j)) (Finset.mem_univ i)
  have hnew := Finset.sum_erase_add Finset.univ (fun j => w (update g i x j))
    (Finset.mem_univ i)
  have hrest : ∑ j ∈ Finset.univ.erase i, w (update g i x j)
      = ∑ j ∈ Finset.univ.erase i, w (g j) := by
    refine Finset.sum_congr rfl (fun j hj => ?_)
    rw [update_of_ne (Finset.ne_of_mem_erase hj)]
  simp only [update_self] at hnew
  omega

/-- One value weighs at most the whole tally. -/
theorem le_tally [Fintype ι] (w : α → ℕ) (g : ι → α) (i : ι) : w (g i) ≤ tally w g :=
  Finset.single_le_sum (f := fun j => w (g j)) (fun _ _ => Nat.zero_le _) (Finset.mem_univ i)

/-- Two different agents together weigh at most the whole tally. -/
theorem add_le_tally [Fintype ι] [DecidableEq ι] (w : α → ℕ) (g : ι → α) {i j : ι} (h : i ≠ j) :
    w (g i) + w (g j) ≤ tally w g := by
  have hpair := Finset.sum_le_sum_of_subset (f := fun k => w (g k))
    (Finset.subset_univ ({i, j} : Finset ι))
  rw [Finset.sum_pair h] at hpair
  exact hpair

/-- A tally of weightless values is zero. -/
theorem tally_eq_zero [Fintype ι] (w : α → ℕ) (g : ι → α) (h : ∀ i, w (g i) = 0) :
    tally w g = 0 := Finset.sum_eq_zero (fun i _ => h i)

/-- A tally that is not zero has a value with a weight. -/
theorem exists_of_tally_pos [Fintype ι] {w : α → ℕ} {g : ι → α} (h : 0 < tally w g) :
    ∃ i, 0 < w (g i) := by
  obtain ⟨i, _, hi⟩ := Finset.exists_ne_zero_of_sum_ne_zero h.ne'
  exact ⟨i, Nat.pos_of_ne_zero hi⟩

/-- The total weight of the elements of a list. -/
def listTally (w : α → ℕ) (l : List α) : ℕ := (l.map w).sum

@[simp] theorem listTally_nil (w : α → ℕ) : listTally w [] = 0 := rfl

@[simp] theorem listTally_cons (w : α → ℕ) (x : α) (l : List α) :
    listTally w (x :: l) = w x + listTally w l := by
  simp [listTally]

@[simp] theorem listTally_append (w : α → ℕ) (l l' : List α) :
    listTally w (l ++ l') = listTally w l + listTally w l' := by
  simp [listTally]

/-- A tally of weightless elements is zero. -/
theorem listTally_eq_zero {w : α → ℕ} {l : List α} (h : ∀ x ∈ l, w x = 0) : listTally w l = 0 := by
  apply List.sum_eq_zero
  intro n hn
  obtain ⟨x, hx, rfl⟩ := List.mem_map.mp hn
  exact h x hx

/-- The tally of a family over `Fin n` is that of the list of its indices. -/
theorem tally_eq_listTally {n : ℕ} (w : α → ℕ) (g : Fin n → α) :
    tally w g = listTally (fun i => w (g i)) (List.finRange n) := by
  unfold tally listTally
  rw [Fin.sum_univ_def]

/-- Tallies of one list add up. -/
theorem listTally_add (w w' : α → ℕ) (l : List α) :
    listTally (fun x => w x + w' x) l = listTally w l + listTally w' l := by
  simp [listTally, List.sum_map_add]

/-- Replacing one element moves the tally by the difference of the two weights. -/
theorem listTally_set (w : α → ℕ) {l : List α} {k : ℕ} {x : α} (y : α) (h : l[k]? = some x) :
    listTally w (l.set k y) + w x = listTally w l + w y := by
  induction l generalizing k with
  | nil => cases h
  | cons z l ih =>
    cases k with
    | zero =>
      simp only [List.getElem?_cons_zero, Option.some.injEq] at h
      subst h
      simp only [List.set_cons_zero, listTally_cons]
      omega
    | succ k =>
      have hk := ih h
      simp only [List.set_cons_succ, listTally_cons]
      omega

/-- One element weighs at most the whole tally. -/
theorem le_listTally (w : α → ℕ) {l : List α} {k : ℕ} {x : α} (h : l[k]? = some x) :
    w x ≤ listTally w l :=
  List.single_le_sum (fun _ _ => Nat.zero_le _) _ (List.mem_map_of_mem (List.mem_of_getElem? h))

/-- Two elements at different places together weigh at most the whole tally. -/
theorem add_le_listTally (w : α → ℕ) {l : List α} {i j : ℕ} {x y : α} (hij : i ≠ j)
    (hi : l[i]? = some x) (hj : l[j]? = some y) : w x + w y ≤ listTally w l := by
  induction l generalizing i j with
  | nil => cases hi
  | cons z l ih =>
    rw [listTally_cons]
    cases i with
    | zero =>
      cases j with
      | zero => exact absurd rfl hij
      | succ j =>
        rw [List.getElem?_cons_zero, Option.some.injEq] at hi
        rw [List.getElem?_cons_succ] at hj
        have hle := le_listTally w hj
        rw [← hi]
        omega
    | succ i =>
      rw [List.getElem?_cons_succ] at hi
      cases j with
      | zero =>
        rw [List.getElem?_cons_zero, Option.some.injEq] at hj
        have hle := le_listTally w hi
        rw [← hj]
        omega
      | succ j =>
        rw [List.getElem?_cons_succ] at hj
        have hle := ih (fun heq => hij (by rw [heq])) hi hj
        omega

/-- One more of `a` in an account. -/
def addOne [DecidableEq α] (f : α → ℕ) (a : α) : α → ℕ := fun x => f x + if x = a then 1 else 0

theorem addOne_apply [DecidableEq α] (f : α → ℕ) (a x : α) :
    addOne f a x = f x + if x = a then 1 else 0 := rfl

@[simp] theorem addOne_self [DecidableEq α] (f : α → ℕ) (a : α) : addOne f a a = f a + 1 := by
  rw [addOne_apply, if_pos rfl]

end Crossbar.Lib
