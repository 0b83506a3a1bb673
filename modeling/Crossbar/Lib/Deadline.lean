import Mathlib.Order.Lattice
import Mathlib.Tactic.Linarith

namespace Crossbar.Lib

/-!
# Steps with a clock

A machine makes one step after the other; `now n` is the time at which step `n` starts.

* `driven` — the states of a machine whose step may depend on its number;
* `ReachesBy now n b Q` — from step `n` on, a step with `Q` starts at time `b` at the latest;
* `ReachesBy.trans`, `ReachesBy.loop` — stages one after the other, and a loop that ends because
  time passes.
-/

/-- The state before step `n`. -/
def driven {σ : Type*} (step : ℕ → σ → σ) (s : σ) : ℕ → σ
  | 0 => s
  | n + 1 => step n (driven step s n)

/-- From step `n` on there is one with `Q`, which starts at time `b` at the latest. -/
def ReachesBy (now : ℕ → ℕ) (n b : ℕ) (Q : ℕ → Prop) : Prop := ∃ m, n ≤ m ∧ Q m ∧ now m ≤ b

namespace ReachesBy

variable {now : ℕ → ℕ} {n b c : ℕ} {P Q : ℕ → Prop}

theorem here (hQ : Q n) (hb : now n ≤ b) : ReachesBy now n b Q := ⟨n, le_rfl, hQ, hb⟩

theorem next (h : ReachesBy now (n + 1) b Q) : ReachesBy now n b Q := by
  obtain ⟨m, hm, hQ, hb⟩ := h
  exact ⟨m, Nat.le_of_succ_le hm, hQ, hb⟩

theorem mono (h : ReachesBy now n b Q) (hle : b ≤ c) : ReachesBy now n c Q := by
  obtain ⟨m, hm, hQ, hb⟩ := h
  exact ⟨m, hm, hQ, hb.trans hle⟩

/-- One stage after the other. -/
theorem trans (h : ReachesBy now n b P)
    (hPQ : ∀ m, n ≤ m → P m → now m ≤ b → ReachesBy now m c Q) : ReachesBy now n c Q := by
  obtain ⟨m, hm, hP, hb⟩ := h
  obtain ⟨k, hk, hQ, hc⟩ := hPQ m hm hP hb
  exact ⟨k, hm.trans hk, hQ, hc⟩

/-- **Loop rule.** Let every round that starts at a step with `L` end in `Q` within `d`, or in the
    start of another round, at a later time that is not after `T`.  Then `Q` is reached at `T + d`
    at the latest, or within `d` if `T` is over. -/
theorem loop {L : ℕ → Prop} {T d : ℕ}
    (hround : ∀ m, n ≤ m → L m →
      ReachesBy now m (now m + d) Q ∨ ∃ k, m ≤ k ∧ L k ∧ now m < now k ∧ now k ≤ T)
    (hL : L n) : ReachesBy now n (max (now n) T + d) Q := by
  -- the time that is left until `T`
  suffices h : ∀ r m, n ≤ m → L m → T - now m ≤ r → ReachesBy now m (max (now m) T + d) Q from
    h _ n le_rfl hL le_rfl
  intro r
  induction r with
  | zero =>
    intro m hm hLm hr
    rcases hround m hm hLm with hQ | ⟨k, -, -, hlt, hle⟩
    · exact hQ.mono (by omega)
    · omega
  | succ r ih =>
    intro m hm hLm hr
    rcases hround m hm hLm with hQ | ⟨k, hk, hLk, hlt, hle⟩
    · exact hQ.mono (by omega)
    · obtain ⟨j, hj, hQ, hb⟩ := ih k (hm.trans hk) hLk (by omega)
      exact ⟨j, hk.trans hj, hQ, by omega⟩

end ReachesBy

end Crossbar.Lib
