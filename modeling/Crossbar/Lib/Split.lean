import Mathlib.Data.List.Basic

namespace Crossbar.Lib

/-!
# Lib — splitting a list at the last occurrence of an element

* `afterLast` / `beforeLast` — the two sides of the last `c`;
* `exists_last` — a list that has a `c` has a last one.
-/

variable {α : Type*}

/-- A list that has a `c` has a last one. -/
theorem exists_last {c : α} {l : List α} (h : c ∈ l) : ∃ a b, l = a ++ c :: b ∧ c ∉ b := by
  obtain ⟨b, a, hl, hb⟩ := List.eq_append_cons_of_mem (List.mem_reverse.mpr h)
  refine ⟨a.reverse, b.reverse, ?_, by rwa [List.mem_reverse]⟩
  rw [← List.reverse_reverse l, hl]
  simp

variable [DecidableEq α]

/-- What follows the last `c`: the whole list when there is none. -/
def afterLast (c : α) (l : List α) : List α := (l.reverse.takeWhile (· ≠ c)).reverse

/-- What comes before the last `c`, if there is one. -/
def beforeLast (c : α) (l : List α) : Option (List α) :=
  match l.reverse.dropWhile (· ≠ c) with
  | [] => none
  | _ :: rest => some rest.reverse

theorem reverse_ne_of_not_mem {c : α} {b : List α} (hb : c ∉ b) :
    ∀ x ∈ b.reverse, decide (x ≠ c) = true := by
  intro x hx
  rw [List.mem_reverse] at hx
  exact decide_eq_true fun heq => hb (heq ▸ hx)

theorem afterLast_append {c : α} (a : List α) {b : List α} (hb : c ∉ b) :
    afterLast c (a ++ c :: b) = b := by
  unfold afterLast
  rw [List.reverse_append, List.reverse_cons, List.append_assoc,
    List.takeWhile_append_of_pos (reverse_ne_of_not_mem hb)]
  simp

theorem beforeLast_append {c : α} (a : List α) {b : List α} (hb : c ∉ b) :
    beforeLast c (a ++ c :: b) = some a := by
  unfold beforeLast
  rw [List.reverse_append, List.reverse_cons, List.append_assoc,
    List.dropWhile_append_of_pos (reverse_ne_of_not_mem hb)]
  simp

theorem beforeLast_of_not_mem {c : α} {l : List α} (h : c ∉ l) : beforeLast c l = none := by
  unfold beforeLast
  rw [← List.append_nil l.reverse, List.dropWhile_append_of_pos (reverse_ne_of_not_mem h)]
  rfl

/-- A longer list splits at the same place. -/
theorem beforeLast_append_left {c : α} {l a : List α} (h : beforeLast c l = some a) (p : List α) :
    beforeLast c (p ++ l) = some (p ++ a) := by
  by_cases hc : c ∈ l
  · obtain ⟨a', b, rfl, hb⟩ := exists_last hc
    rw [beforeLast_append a' hb, Option.some.injEq] at h
    rw [← h, ← List.append_assoc, beforeLast_append (p ++ a') hb]
  · rw [beforeLast_of_not_mem hc] at h
    cases h

end Crossbar.Lib
