import Mathlib.Data.Set.Card
import Mathlib.Data.List.Nodup
import Crossbar.Lib.Tally

namespace Crossbar.Lib

/-!
# Bounded maps, and tables that store them

A `BoundedMap κ ν n` is a partial function from keys to values that is defined for at most `n`
keys.  `put` inserts a key or replaces its value, and does nothing when the key is new and the map
full; `keep` removes the keys that fail a test.

A table with `n` slots, each empty or with a key and a value, stores a map when the two have the
same entries and no key is in two slots (`Stores`).  The rules say what a change of a slot does to
the map:

* `Stores.refresh`, `Stores.fill`, `Stores.full` — the three cases of `put`;
* `Stores.keep` — emptying the slots that fail a test;
* `Stores.occupied` — the number of occupied slots is the size of the map;
* `Stores.mem_entries`, `Stores.nodup_entries` — going through the slots meets every entry once.
-/

variable {κ ν : Type*} {n : ℕ}

/-- A partial function that is defined for at most `n` keys. -/
@[ext] structure BoundedMap (κ ν : Type*) (n : ℕ) where
  get : κ → Option ν
  finite : {k | get k ≠ none}.Finite
  bounded : {k | get k ≠ none}.ncard ≤ n

namespace BoundedMap

/-- The number of keys. -/
noncomputable def size (m : BoundedMap κ ν n) : ℕ := {k | m.get k ≠ none}.ncard

/-- No keys. -/
def empty : BoundedMap κ ν n where
  get _ := none
  finite := by simp
  bounded := by simp

section

variable [DecidableEq κ]

theorem support_update (f : κ → Option ν) (k : κ) (v : ν) :
    {x | Function.update f k (some v) x ≠ none} = insert k {x | f x ≠ none} := by
  ext x
  by_cases hx : x = k <;> simp [hx]

open Classical in
/-- Insert a key, or replace its value.  A new key is ignored when there are `n` already. -/
noncomputable def put (m : BoundedMap κ ν n) (k : κ) (v : ν) : BoundedMap κ ν n :=
  if h : m.get k ≠ none ∨ m.size < n then
    { get := Function.update m.get k (some v)
      finite := by
        rw [support_update]
        exact m.finite.insert k
      bounded := by
        rw [support_update]
        rcases h with hk | hroom
        · rw [Set.insert_eq_of_mem hk]
          exact m.bounded
        · exact (Set.ncard_insert_le _ _).trans hroom }
  else m

theorem put_get (m : BoundedMap κ ν n) (k : κ) (v : ν) (h : m.get k ≠ none ∨ m.size < n) :
    (m.put k v).get = Function.update m.get k (some v) := by
  rw [put, dif_pos h]

theorem put_full (m : BoundedMap κ ν n) {k : κ} (v : ν) (hk : m.get k = none) (hn : n ≤ m.size) :
    m.put k v = m := by
  rw [put, dif_neg (not_or.mpr ⟨not_not.mpr hk, Nat.not_lt.mpr hn⟩)]

/-- A key of the map after `put` is the new one, or was there. -/
theorem put_get_some {m : BoundedMap κ ν n} {k k' : κ} {v w : ν}
    (h : (m.put k v).get k' = some w) : k' = k ∨ m.get k' = some w := by
  by_cases hput : m.get k ≠ none ∨ m.size < n
  · rw [m.put_get k v hput] at h
    by_cases hk : k' = k
    · exact Or.inl hk
    · rw [Function.update_of_ne hk] at h
      exact Or.inr h
  · rw [not_or, not_not, Nat.not_lt] at hput
    rw [m.put_full v hput.1 hput.2] at h
    exact Or.inr h

/-- The other keys keep their values. -/
theorem put_get_of_ne (m : BoundedMap κ ν n) {k k' : κ} (v : ν) (hk : k' ≠ k) :
    (m.put k v).get k' = m.get k' := by
  by_cases hput : m.get k ≠ none ∨ m.size < n
  · rw [m.put_get k v hput, Function.update_of_ne hk]
  · rw [not_or, not_not, Nat.not_lt] at hput
    rw [m.put_full v hput.1 hput.2]

end

theorem support_filter (f : κ → Option ν) (p : κ → ν → Bool) :
    {x | (f x).filter (p x) ≠ none} ⊆ {x | f x ≠ none} := by
  intro x hx hnone
  rw [Set.mem_ofPred_eq, hnone] at hx
  exact hx rfl

/-- The entries that pass the test. -/
def keep (m : BoundedMap κ ν n) (p : κ → ν → Bool) : BoundedMap κ ν n where
  get k := (m.get k).filter (p k)
  finite := m.finite.subset (support_filter m.get p)
  bounded := (Set.ncard_le_ncard (support_filter m.get p) m.finite).trans m.bounded

end BoundedMap

/-! ### Tables -/

/-- Slots, empty or with a key and a value. -/
abbrev Slots (κ ν : Type*) (n : ℕ) : Type _ := Fin n → Option (κ × ν)

/-- 1 for an occupied slot. -/
def slotWeight {α : Type*} : Option α → ℕ
  | some _ => 1
  | none => 0

/-- The entries of the table are those of the map, and no key is in two slots. -/
structure Stores (t : Slots κ ν n) (m : BoundedMap κ ν n) : Prop where
  get : ∀ k v, m.get k = some v ↔ ∃ i, t i = some (k, v)
  once : ∀ i j k v w, t i = some (k, v) → t j = some (k, w) → i = j

namespace Stores

variable {t : Slots κ ν n} {m : BoundedMap κ ν n} {i : Fin n} {k : κ}

theorem empty : Stores (fun _ => none) (BoundedMap.empty : BoundedMap κ ν n) where
  get k v := by simp [BoundedMap.empty]
  once i j k v w h := by cases h

theorem get_eq_none (h : Stores t m) : m.get k = none ↔ ∀ i v, t i ≠ some (k, v) := by
  constructor
  · intro hk i v hi
    rw [(h.get k v).mpr ⟨i, hi⟩] at hk
    cases hk
  · intro hno
    cases hk : m.get k with
    | none => rfl
    | some v =>
      obtain ⟨i, hi⟩ := (h.get k v).mp hk
      exact absurd hi (hno i v)

/-- As many slots are occupied as the map has keys. -/
theorem occupied (h : Stores t m) : tally slotWeight t = m.size := by
  have hcard : tally slotWeight t = {i | (t i).isSome = true}.ncard := by
    rw [Set.ncard_eq_toFinset_card', Set.toFinset_ofPred, Finset.card_filter]
    refine Finset.sum_congr rfl fun i _ => ?_
    cases t i <;> rfl
  rw [hcard, BoundedMap.size]
  -- a slot goes to its key
  refine Set.ncard_congr (fun i hi => ((t i).get hi).1) ?_ ?_ ?_
  · intro i hi
    obtain ⟨⟨k, v⟩, hkv⟩ := Option.isSome_iff_exists.mp hi
    have hk : ((t i).get hi).1 = k := by simp only [hkv, Option.get_some]
    rw [Set.mem_ofPred_eq, hk, (h.get k v).mpr ⟨i, hkv⟩]
    exact Option.some_ne_none v
  · intro i j hi hj heq
    obtain ⟨⟨k, v⟩, hkv⟩ := Option.isSome_iff_exists.mp hi
    obtain ⟨⟨k', v'⟩, hkv'⟩ := Option.isSome_iff_exists.mp hj
    simp only [hkv, hkv', Option.get_some] at heq
    subst heq
    exact h.once i j k v v' hkv hkv'
  · intro k hk
    obtain ⟨v, hv⟩ := Option.ne_none_iff_exists'.mp hk
    obtain ⟨i, hi⟩ := (h.get k v).mp hv
    exact ⟨i, by simp [hi], by simp [hi]⟩

/-- With an empty slot the map is not full. -/
theorem size_lt (h : Stores t m) (hi : t i = none) : m.size < n := by
  rw [← h.occupied]
  calc tally slotWeight t < ∑ _ : Fin n, 1 := by
        refine Finset.sum_lt_sum (fun j _ => ?_) ⟨i, Finset.mem_univ i, by rw [hi]; exact one_pos⟩
        cases t j <;> simp [slotWeight]
    _ = n := by simp

/-- With no empty slot it is. -/
theorem size_eq (h : Stores t m) (hfull : ∀ i, t i ≠ none) : m.size = n := by
  rw [← h.occupied]
  calc tally slotWeight t = ∑ _ : Fin n, 1 := by
        refine Finset.sum_congr rfl fun i _ => ?_
        obtain ⟨e, he⟩ := Option.ne_none_iff_exists'.mp (hfull i)
        rw [he]
        rfl
    _ = n := by simp

section

variable [DecidableEq κ]

/-- Entry `k` gets a new value in its slot, or is put into a slot that is empty while no slot has
    the key. -/
theorem update (h : Stores t m) (hslot : ∀ j w, t j = some (k, w) → j = i)
    (hi : ∀ k' w, t i = some (k', w) → k' = k) (v : ν) (hput : m.get k ≠ none ∨ m.size < n) :
    Stores (Function.update t i (some (k, v))) (m.put k v) where
  get k' v' := by
    rw [m.put_get k v hput]
    by_cases hk : k' = k
    · subst hk
      rw [Function.update_self]
      constructor
      · intro heq
        refine ⟨i, ?_⟩
        rw [Function.update_self, Option.some.inj heq]
      · rintro ⟨j, hj⟩
        by_cases hji : j = i
        · rw [hji, Function.update_self] at hj
          cases hj
          rfl
        · rw [Function.update_of_ne hji] at hj
          exact absurd (hslot j v' hj) hji
    · rw [Function.update_of_ne hk, h.get]
      refine exists_congr fun j => ?_
      by_cases hji : j = i
      · -- the slot did not hold the other key, and does not now
        subst hji
        rw [Function.update_self]
        refine iff_of_false (fun hj => hk (hi k' v' hj)) (fun hj => hk ?_)
        cases hj
        rfl
      · rw [Function.update_of_ne hji]
  once j j' k' w w' hj hj' := by
    have hown : ∀ l u, Function.update t i (some (k, v)) l = some (k', u) →
        (k' = k ∧ l = i) ∨ (k' ≠ k ∧ t l = some (k', u)) := by
      intro l u hl
      by_cases hli : l = i
      · rw [hli, Function.update_self] at hl
        cases hl
        exact Or.inl ⟨rfl, hli⟩
      · rw [Function.update_of_ne hli] at hl
        by_cases hk : k' = k
        · subst hk
          exact absurd (hslot l u hl) hli
        · exact Or.inr ⟨hk, hl⟩
    rcases hown j w hj with ⟨hk, hji⟩ | ⟨hk, hj⟩
    · rcases hown j' w' hj' with ⟨-, hji'⟩ | ⟨hk', -⟩
      · rw [hji, hji']
      · exact absurd hk hk'
    · rcases hown j' w' hj' with ⟨hk', -⟩ | ⟨-, hj'⟩
      · exact absurd hk' hk
      · exact h.once j j' k' w w' hj hj'

/-- The value of a key is replaced in its slot. -/
theorem refresh (h : Stores t m) {w : ν} (hi : t i = some (k, w)) (v : ν) :
    Stores (Function.update t i (some (k, v))) (m.put k v) := by
  apply h.update
  · intro j w' hj
    exact h.once j i k w' w hj hi
  · intro k' w' hk
    rw [hi] at hk
    cases hk
    rfl
  · rw [(h.get k w).mpr ⟨i, hi⟩]
    exact Or.inl (Option.some_ne_none w)

/-- A new key is put into an empty slot. -/
theorem fill (h : Stores t m) (hk : ∀ j w, t j ≠ some (k, w)) (hi : t i = none) (v : ν) :
    Stores (Function.update t i (some (k, v))) (m.put k v) := by
  apply h.update
  · intro j w hj
    exact absurd hj (hk j w)
  · intro k' w hk'
    rw [hi] at hk'
    cases hk'
  · exact Or.inr (h.size_lt hi)

/-- A new key finds no slot. -/
theorem full (h : Stores t m) (hk : ∀ j w, t j ≠ some (k, w)) (hfull : ∀ i, t i ≠ none) (v : ν) :
    Stores t (m.put k v) := by
  rw [m.put_full v (h.get_eq_none.mpr hk) (h.size_eq hfull).ge]
  exact h

end

/-- The slots that fail a test are emptied. -/
theorem keep (h : Stores t m) (p : κ → ν → Bool) :
    Stores (fun i => (t i).filter fun e => p e.1 e.2) (m.keep p) where
  get k v := by
    have hfilter : ∀ i, (t i).filter (fun e => p e.1 e.2) = some (k, v) ↔
        t i = some (k, v) ∧ p k v = true := by
      intro i
      rw [Option.filter_eq_some_iff]
    simp only [BoundedMap.keep, hfilter, exists_and_right, ← h.get]
    rw [Option.filter_eq_some_iff]
  once i j k v w hi hj := by
    rw [Option.filter_eq_some_iff] at hi hj
    exact h.once i j k v w hi.1 hj.1

/-- Going through the slots meets the entries of the map. -/
theorem mem_entries (h : Stores t m) (k : κ) (v : ν) :
    (k, v) ∈ (List.finRange n).filterMap t ↔ m.get k = some v := by
  rw [h.get, List.mem_filterMap]
  simp only [List.mem_finRange, true_and]

/-- No entry is met twice. -/
theorem nodup_entries (h : Stores t m) : ((List.finRange n).filterMap t).Nodup := by
  refine (List.nodup_finRange n).filterMap fun i j e hi hj => ?_
  exact h.once i j e.1 e.2 e.2 hi hj

end Stores

end Crossbar.Lib
