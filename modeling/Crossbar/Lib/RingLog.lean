import Mathlib.Data.List.Basic
import Crossbar.Lib.Mask

namespace Crossbar.Lib

/-!
# Lib — a ring that holds the end of a list

A ring of `n` slots to which a growing list is written, element after element, each at the place
of its number, holds the last `n` elements (`RingHolds`).  `cell q a` is what is written for
element number `q` with value `a`.
-/

variable {n : ℕ} {α β : Type*}

/-- The last `n` elements of `log` are in the ring. -/
def RingHolds (hn : 0 < n) (cell : ℕ → α → β) (ring : Fin n → β) (log : List α) : Prop :=
  ∀ q a, log[q]? = some a → log.length ≤ q + n → ring (maskIdx n hn q) = cell q a

variable {hn : 0 < n} {cell : ℕ → α → β} {ring : Fin n → β} {log : List α}

theorem RingHolds.nil (ring : Fin n → β) : RingHolds hn cell ring [] := by
  intro q a hq
  cases hq

/-- The next element takes the place of the one that is a whole ring older. -/
theorem RingHolds.push (hpow : ∃ k, n = 2 ^ k) (h : RingHolds hn cell ring log) (a : α) :
    RingHolds hn cell (Function.update ring (maskIdx n hn log.length) (cell log.length a))
      (log ++ [a]) := by
  intro q b hq hlen
  rw [List.length_append, List.length_singleton] at hlen
  by_cases hlast : q = log.length
  · subst hlast
    rw [List.getElem?_concat_length] at hq
    obtain rfl := Option.some.inj hq
    exact Function.update_self ..
  · have hlt : q < log.length := by
      have hle := (List.getElem?_eq_some_iff.mp hq).1
      rw [List.length_append, List.length_singleton] at hle
      omega
    rw [List.getElem?_append_left hlt] at hq
    rw [Function.update_of_ne]
    · exact h q b hq (by omega)
    · -- less than a ring apart
      intro hplace
      exact hlast (eq_of_maskIdx_eq hpow hplace (by omega) (by omega))

end Crossbar.Lib
