import Crossbar.Bus.Whole
import Mathlib.Data.List.Induction

namespace Crossbar.Bus.Whole

open Function Crossbar.Lib

/-!
# Bus — the cached backpressure check

`try_publish` on a bounded bus looks at `cached_slowest` first and scans the subscriber slots only
when that is too far behind.  The scan counts the slots of live subscribers and prunes the others
(`slowestSubscriberCursor_spec`).  Along every sequence of whole calls the slots of the live
subscribers hold their cursors, and `cached_slowest` is a lower bound of them (`State.Tracked`), so
the cached check agrees with a scan (`cached_check_agrees`), as long as the cursors fit in the 62
bits that a slot has for them.
-/

variable {P : Params} {V : Type}

/-! ### The scan -/

/-- The cursor that the scan counts at a slot. -/
def counted (alive : Nat → Bool) (slot : SubSlot) : Option Nat :=
  match slot.word with
  | .active c => if slot.pid ≠ 0 ∧ alive slot.pid = false then none else some c
  | _ => none

/-- What the scan leaves of a slot. -/
def pruned (now : Nat) (alive : Nat → Bool) (slot : SubSlot) : SubSlot :=
  match slot.word with
  | .claiming ts => if now - ts > claimTimeout then ⟨0, .free⟩ else slot
  | .active _ => if slot.pid ≠ 0 ∧ alive slot.pid = false then ⟨0, .free⟩ else slot
  | .free => slot

/-- One slot of the scan, in these terms. -/
theorem visit_eq (now : Nat) (alive : Nat → Bool) (sc : Tally) (i : SlotIdx) :
    (visit now alive sc i).slots = update sc.slots i (pruned now alive (sc.slots i)) ∧
    (counted alive (sc.slots i) = none →
      (visit now alive sc i).minCursor = sc.minCursor ∧
        (visit now alive sc i).hasActive = sc.hasActive) ∧
    ∀ c, counted alive (sc.slots i) = some c →
      (visit now alive sc i).minCursor = min c sc.minCursor ∧
        (visit now alive sc i).hasActive = true := by
  have hself : ∀ slot, slot = sc.slots i → sc.slots = update sc.slots i slot := by
    rintro slot rfl
    exact (update_eq_self _ _).symm
  unfold visit counted pruned
  cases hword : (sc.slots i).word with
  | free => exact ⟨hself _ rfl, fun _ => ⟨rfl, rfl⟩, fun c hc => by cases hc⟩
  | claiming ts =>
    dsimp only
    split
    · exact ⟨rfl, fun _ => ⟨rfl, rfl⟩, fun c hc => by cases hc⟩
    · exact ⟨hself _ rfl, fun _ => ⟨rfl, rfl⟩, fun c hc => by cases hc⟩
  | active cursor =>
    dsimp only
    split
    · exact ⟨rfl, fun _ => ⟨rfl, rfl⟩, fun c hc => by cases hc⟩
    · refine ⟨hself _ rfl, (fun hc => by cases hc), fun c hc => ?_⟩
      cases hc
      refine ⟨?_, rfl⟩
      dsimp only
      split <;> omega

/-- The scan after the slots in `done`. -/
structure Scanned (now : Nat) (alive : Nat → Bool) (slots : SlotIdx → SubSlot)
    (done : List SlotIdx) (sc : Tally) : Prop where
  left : ∀ j ∈ done, sc.slots j = pruned now alive (slots j)
  ahead : ∀ j, j ∉ done → sc.slots j = slots j
  least : ∀ j ∈ done, ∀ c, counted alive (slots j) = some c →
    sc.hasActive = true ∧ sc.minCursor ≤ c
  attained : sc.hasActive = true → ∃ j ∈ done, counted alive (slots j) = some sc.minCursor
  none_yet : sc.hasActive = false → sc.minCursor = maxU64

variable {now : Nat} {alive : Nat → Bool} {slots : SlotIdx → SubSlot}

/-- **Step** of the scan. -/
theorem Scanned.visit {done : List SlotIdx} {sc : Tally} (h : Scanned now alive slots done sc)
    (hfit : ∀ j c, counted alive (slots j) = some c → c ≤ maxU64) {i : SlotIdx} (hi : i ∉ done) :
    Scanned now alive slots (done ++ [i]) (Whole.visit now alive sc i) := by
  obtain ⟨hslots, hskip, hcount⟩ := visit_eq now alive sc i
  have hnew : sc.slots i = slots i := h.ahead i hi
  rw [hnew] at hslots hskip hcount
  have hmem : ∀ j, j ∈ done ++ [i] ↔ j ∈ done ∨ j = i := by
    intro j
    rw [List.mem_append, List.mem_singleton]
  have hleft : ∀ j ∈ done ++ [i],
      (Whole.visit now alive sc i).slots j = pruned now alive (slots j) := by
    intro j hj
    rw [hslots]
    by_cases hnow : j = i
    · subst hnow
      rw [update_self]
    · rw [update_of_ne hnow]
      exact h.left j (((hmem j).mp hj).resolve_right hnow)
  have hahead : ∀ j, j ∉ done ++ [i] → (Whole.visit now alive sc i).slots j = slots j := by
    intro j hj
    rw [hmem, not_or] at hj
    rw [hslots, update_of_ne hj.2]
    exact h.ahead j hj.1
  cases hci : counted alive (slots i) with
  | none =>
    obtain ⟨hmin, hactive⟩ := hskip hci
    refine ⟨hleft, hahead, fun j hj c hc => ?_, fun hyes => ?_, fun hno => ?_⟩
    · rw [hmin, hactive]
      rcases (hmem j).mp hj with hold | rfl
      · exact h.least j hold c hc
      · rw [hci] at hc
        cases hc
    · rw [hactive] at hyes
      rw [hmin]
      obtain ⟨j, hj, hcj⟩ := h.attained hyes
      exact ⟨j, (hmem j).mpr (Or.inl hj), hcj⟩
    · rw [hmin]
      exact h.none_yet (hactive ▸ hno)
  | some ci =>
    obtain ⟨hmin, hactive⟩ := hcount ci hci
    refine ⟨hleft, hahead, fun j hj c hc => ⟨hactive, ?_⟩, fun _ => ?_, fun hno => ?_⟩
    · rw [hmin]
      rcases (hmem j).mp hj with hold | rfl
      · exact Nat.le_trans (Nat.min_le_right _ _) (h.least j hold c hc).2
      · rw [hci] at hc
        cases hc
        exact Nat.min_le_left _ _
    · rw [hmin]
      rcases Nat.le_total ci sc.minCursor with hle | hle
      · exact ⟨i, (hmem i).mpr (Or.inr rfl), by rw [hci, Nat.min_eq_left hle]⟩
      · -- the minimum so far is attained, or it is the start value
        rw [Nat.min_eq_right hle]
        cases hbefore : sc.hasActive with
        | true =>
          obtain ⟨j, hj, hcj⟩ := h.attained hbefore
          exact ⟨j, (hmem j).mpr (Or.inl hj), hcj⟩
        | false =>
          have hmax := h.none_yet hbefore
          have hci' := hfit i ci hci
          exact ⟨i, (hmem i).mpr (Or.inr rfl), by rw [hci]; congr 1; omega⟩
    · rw [hactive] at hno
      cases hno

/-- **The scan.** It prunes every slot, and returns the least of the cursors it counts. -/
theorem slowestSubscriberCursor_spec (now : Nat) {alive : Nat → Bool} {slots : SlotIdx → SubSlot}
    (hfit : ∀ j c, counted alive (slots j) = some c → c ≤ maxU64) :
    (slowestSubscriberCursor now alive slots).1 = (fun j => pruned now alive (slots j)) ∧
    ((slowestSubscriberCursor now alive slots).2 = none →
      ∀ j, counted alive (slots j) = none) ∧
    ∀ m, (slowestSubscriberCursor now alive slots).2 = some m →
      (∃ j, counted alive (slots j) = some m) ∧
      ∀ j c, counted alive (slots j) = some c → m ≤ c := by
  -- over the slots in the order of the loop, so the list grows at its end
  have hscan : ∀ l : List SlotIdx, l.Nodup → Scanned now alive slots l
      (l.foldl (visit now alive) ⟨slots, maxU64, false⟩) := by
    intro l
    induction l using List.reverseRecOn with
    | nil =>
      intro _
      exact ⟨fun j hj => absurd hj List.not_mem_nil, fun _ _ => rfl,
        fun j hj => absurd hj List.not_mem_nil, (fun h => by cases h), fun _ => rfl⟩
    | append_singleton l i ih =>
      intro hnodup
      rw [List.nodup_append] at hnodup
      rw [List.foldl_append]
      exact (ih hnodup.1).visit hfit
        (fun hi => hnodup.2.2 i hi i (List.mem_singleton_self i) rfl)
  have h := hscan (List.finRange maxSubscriberSlots) (List.nodup_finRange _)
  have hall : ∀ j : SlotIdx, j ∈ List.finRange maxSubscriberSlots := List.mem_finRange
  unfold slowestSubscriberCursor
  generalize (List.finRange maxSubscriberSlots).foldl _ _ = sc at h ⊢
  refine ⟨funext fun j => h.left j (hall j), fun hnone j => ?_, fun m hm => ?_⟩
  · cases hc : counted alive (slots j) with
    | none => rfl
    | some c =>
      dsimp only at hnone
      rw [if_pos (h.least j (hall j) c hc).1] at hnone
      cases hnone
  · obtain ⟨hactive, hm⟩ := Option.ite_none_right_eq_some.mp hm
    cases hm
    obtain ⟨j, -, hj⟩ := h.attained hactive
    exact ⟨⟨j, hj⟩, fun j c hc => (h.least j (hall j) c hc).2⟩

/-- The scan leaves a slot as it is or frees it. -/
theorem pruned_cases (now : Nat) (alive : Nat → Bool) (slot : SubSlot) :
    pruned now alive slot = slot ∨ pruned now alive slot = ⟨0, .free⟩ := by
  unfold pruned
  split
  · split
    · exact Or.inr rfl
    · exact Or.inl rfl
  · split
    · exact Or.inr rfl
    · exact Or.inl rfl
  · exact Or.inl rfl

/-! ### The slots and the live subscribers -/

/-- The slots of the live subscribers hold their cursors, every other `ACTIVE` slot is of a dead
    process, and nobody is claiming. -/
structure Owns (live : Nat → Option Subscriber) (alive : Nat → Bool)
    (slots : SlotIdx → SubSlot) : Prop where
  running : ∀ i s, live i = some s → alive s.pid = true
  owned : ∀ i s, live i = some s →
    ∃ j, s.slotIndex = some j ∧ slots j = ⟨s.pid, .active s.cursor⟩
  apart : ∀ i i' s s', live i = some s → live i' = some s' → s.slotIndex = s'.slotIndex → i = i'
  pid : ∀ j c, (slots j).word = .active c → (slots j).pid ≠ 0
  owner : ∀ j c, (slots j).word = .active c → alive (slots j).pid = true →
    ∃ i s, live i = some s ∧ s.slotIndex = some j
  unclaimed : ∀ j ts, (slots j).word ≠ .claiming ts

namespace Owns

variable {live : Nat → Option Subscriber} {i : Nat} {s : Subscriber} {j : SlotIdx}

/-- A live subscriber finds its pid and its cursor in its slot. -/
theorem slot_eq (h : Owns live alive slots) (hs : live i = some s) (hj : s.slotIndex = some j) :
    slots j = ⟨s.pid, .active s.cursor⟩ := by
  obtain ⟨j', hj', hslot⟩ := h.owned i s hs
  obtain rfl : j = j' := Option.some.inj (hj.symm.trans hj')
  exact hslot

/-- The cursors that a scan counts are those of the live subscribers. -/
theorem counted_iff (h : Owns live alive slots) (j : SlotIdx) (c : Nat) :
    counted alive (slots j) = some c ↔
      ∃ i s, live i = some s ∧ s.slotIndex = some j ∧ s.cursor = c := by
  constructor
  · intro hc
    unfold counted at hc
    split at hc
    · rename_i c' hword
      split at hc
      · cases hc
      · rename_i hpid
        cases hc
        have halive : alive (slots j).pid = true := by
          rw [not_and, Bool.not_eq_false] at hpid
          exact hpid (h.pid j c hword)
        obtain ⟨i, s, hs, hj⟩ := h.owner j c hword halive
        rw [h.slot_eq hs hj] at hword
        cases hword
        exact ⟨i, s, hs, hj, rfl⟩
    · cases hc
  · rintro ⟨i, s, hs, hj, rfl⟩
    unfold counted
    rw [h.slot_eq hs hj]
    dsimp only
    rw [if_neg (by rw [h.running i s hs]; simp)]

/-- A scan leaves the slot of a live subscriber. -/
theorem pruned_owned (h : Owns live alive slots) (hs : live i = some s)
    (hj : s.slotIndex = some j) (now : Nat) : pruned now alive (slots j) = slots j := by
  unfold pruned
  rw [h.slot_eq hs hj]
  dsimp only
  rw [if_neg (by rw [h.running i s hs]; simp)]

/-- After a scan. -/
theorem prune (h : Owns live alive slots) (now : Nat) :
    Owns live alive (fun j => pruned now alive (slots j)) := by
  have hactive : ∀ j c, (pruned now alive (slots j)).word = .active c →
      pruned now alive (slots j) = slots j := by
    intro j c hword
    rcases pruned_cases now alive (slots j) with hsame | hfree
    · exact hsame
    · rw [hfree] at hword
      cases hword
  refine ⟨h.running, fun i s hs => ?_, h.apart, fun j c hword => ?_, fun j c hword halive => ?_,
    fun j ts => ?_⟩
  · obtain ⟨j, hj, hslot⟩ := h.owned i s hs
    exact ⟨j, hj, (h.pruned_owned hs hj now).trans hslot⟩
  · have hsame := hactive j c hword
    rw [hsame] at hword ⊢
    exact h.pid j c hword
  · have hsame := hactive j c hword
    rw [hsame] at hword halive
    exact h.owner j c hword halive
  · rcases pruned_cases now alive (slots j) with hsame | hfree
    · rw [hsame]
      exact h.unclaimed j ts
    · rw [hfree]
      exact fun hword => by cases hword

/-- A subscriber has taken a free slot. -/
theorem join (h : Owns live alive slots) (hi : live i = none) (hfree : (slots j).word = .free)
    (hj : s.slotIndex = some j) (hpid : s.pid ≠ 0) (halive : alive s.pid = true) :
    Owns (update live i (some s)) alive
      (update slots j ⟨s.pid, .active s.cursor⟩) := by
  -- nobody else has this slot: it was free
  have hother : ∀ i' s', live i' = some s' → i' ≠ i ∧ s'.slotIndex ≠ some j := by
    intro i' s' hs'
    constructor
    · rintro rfl
      rw [hi] at hs'
      cases hs'
    · intro hj'
      rw [h.slot_eq hs' hj'] at hfree
      cases hfree
  have hcases : ∀ i' s', update live i (some s) i' = some s' →
      i' = i ∧ s' = s ∨ live i' = some s' := by
    intro i' s' hs'
    by_cases heq : i' = i
    · subst heq
      rw [update_self] at hs'
      cases hs'
      exact Or.inl ⟨rfl, rfl⟩
    · rw [update_of_ne heq] at hs'
      exact Or.inr hs'
  refine ⟨fun i' s' hs' => ?_, fun i' s' hs' => ?_, fun i₁ i₂ s₁ s₂ h₁ h₂ hidx => ?_,
    (forall_update_iff slots fun _ slot => ∀ c, slot.word = .active c → slot.pid ≠ 0).mpr
      ⟨fun _ _ => hpid, fun j' _ => h.pid j'⟩, fun j' c hword hlive => ?_,
    (forall_update_iff slots fun _ slot => ∀ ts, slot.word ≠ .claiming ts).mpr
      ⟨fun _ hword => (by cases hword), fun j' _ => h.unclaimed j'⟩⟩
  · rcases hcases i' s' hs' with ⟨rfl, rfl⟩ | hold
    · exact halive
    · exact h.running i' s' hold
  · rcases hcases i' s' hs' with ⟨rfl, rfl⟩ | hold
    · exact ⟨j, hj, update_self ..⟩
    · obtain ⟨j', hj', hslot⟩ := h.owned i' s' hold
      refine ⟨j', hj', (update_of_ne ?_ ..).trans hslot⟩
      rintro rfl
      exact (hother i' s' hold).2 hj'
  · rcases hcases i₁ s₁ h₁ with ⟨rfl, rfl⟩ | hold₁
    · rcases hcases i₂ s₂ h₂ with ⟨rfl, rfl⟩ | hold₂
      · rfl
      · exact absurd (hidx.symm.trans hj) (hother i₂ s₂ hold₂).2
    · rcases hcases i₂ s₂ h₂ with ⟨rfl, rfl⟩ | hold₂
      · exact absurd (hidx.trans hj) (hother i₁ s₁ hold₁).2
      · exact h.apart i₁ i₂ s₁ s₂ hold₁ hold₂ hidx
  · by_cases heq : j' = j
    · subst heq
      exact ⟨i, s, update_self .., hj⟩
    · rw [update_of_ne heq] at hword hlive
      obtain ⟨i', s', hs', hj'⟩ := h.owner j' c hword hlive
      exact ⟨i', s', (update_of_ne (hother i' s' hs').1 ..).trans hs', hj'⟩

/-- A subscriber has given its slot back. -/
theorem leave (h : Owns live alive slots) (hs : live i = some s) (hj : s.slotIndex = some j) :
    Owns (update live i none) alive (update slots j ⟨0, .free⟩) := by
  have hcases : ∀ i' s', update live i none i' = some s' → i' ≠ i ∧ live i' = some s' := by
    intro i' s' hs'
    have hne : i' ≠ i := by
      rintro rfl
      rw [update_self] at hs'
      cases hs'
    rw [update_of_ne hne] at hs'
    exact ⟨hne, hs'⟩
  refine ⟨fun i' s' hs' => h.running i' s' (hcases i' s' hs').2, fun i' s' hs' => ?_,
    fun i₁ i₂ s₁ s₂ h₁ h₂ => h.apart i₁ i₂ s₁ s₂ (hcases i₁ s₁ h₁).2 (hcases i₂ s₂ h₂).2,
    (forall_update_iff slots fun _ slot => ∀ c, slot.word = .active c → slot.pid ≠ 0).mpr
      ⟨fun _ hword => (by cases hword), fun j' _ => h.pid j'⟩, fun j' c hword hlive => ?_,
    (forall_update_iff slots fun _ slot => ∀ ts, slot.word ≠ .claiming ts).mpr
      ⟨fun _ hword => (by cases hword), fun j' _ => h.unclaimed j'⟩⟩
  · obtain ⟨hne, hold⟩ := hcases i' s' hs'
    obtain ⟨j', hj', hslot⟩ := h.owned i' s' hold
    refine ⟨j', hj', (update_of_ne ?_ ..).trans hslot⟩
    rintro rfl
    exact hne (h.apart i' i s' s hold hs (hj'.trans hj.symm))
  · have hne : j' ≠ j := by
      rintro rfl
      rw [update_self] at hword
      cases hword
    rw [update_of_ne hne] at hword hlive
    obtain ⟨i', s', hs', hj'⟩ := h.owner j' c hword hlive
    refine ⟨i', s', (update_of_ne ?_ ..).trans hs', hj'⟩
    rintro rfl
    rw [hs] at hs'
    cases hs'
    exact hne (Option.some.inj (hj'.symm.trans hj))

/-- A subscriber has stored a new cursor: as if it had left and joined again. -/
theorem advance (h : Owns live alive slots) (hs : live i = some s) (hj : s.slotIndex = some j)
    (cursor lagged : Nat) :
    Owns (update live i (some { s with cursor := cursor, totalLagged := lagged })) alive
      (update slots j ⟨s.pid, .active cursor⟩) := by
  have hpid : s.pid ≠ 0 := by
    have hne := h.pid j s.cursor (by rw [h.slot_eq hs hj])
    rw [h.slot_eq hs hj] at hne
    exact hne
  have hjoin := (h.leave hs hj).join (i := i) (j := j)
    (s := { s with cursor := cursor, totalLagged := lagged }) (update_self ..)
    (by rw [update_self]) hj hpid (h.running i s hs)
  rw [update_idem, update_idem] at hjoin
  exact hjoin

/-- A process has died. -/
theorem die (h : Owns live alive slots) (pid : Nat) :
    Owns (fun i => (live i).filter (fun s => s.pid ≠ pid)) (update alive pid false)
      slots := by
  have hcases : ∀ i s, (live i).filter (fun s => decide (s.pid ≠ pid)) = some s →
      live i = some s ∧ s.pid ≠ pid := by
    intro i s hs
    obtain ⟨hlive, hne⟩ := Option.filter_eq_some_iff.mp hs
    exact ⟨hlive, of_decide_eq_true hne⟩
  refine ⟨fun i s hs => ?_, fun i s hs => h.owned i s (hcases i s hs).1,
    fun i₁ i₂ s₁ s₂ h₁ h₂ => h.apart i₁ i₂ s₁ s₂ (hcases i₁ s₁ h₁).1 (hcases i₂ s₂ h₂).1, h.pid,
    fun j c hword hlive => ?_, h.unclaimed⟩
  · obtain ⟨hs, hne⟩ := hcases i s hs
    rw [update_of_ne hne]
    exact h.running i s hs
  · have hne : (slots j).pid ≠ pid := by
      intro heq
      rw [heq, update_self] at hlive
      cases hlive
    rw [update_of_ne hne] at hlive
    obtain ⟨i, s, hs, hj⟩ := h.owner j c hword hlive
    rw [h.slot_eq hs hj] at hne
    exact ⟨i, s, Option.filter_eq_some_iff.mpr ⟨hs, decide_eq_true hne⟩, hj⟩

end Owns

/-! ### The live subscribers after a call -/

variable {st st' : State P V}

/-- Subscriber `i` is replaced by one of the same process, or dropped. -/
theorem live_set {i : Nat} {s : Subscriber} (hs : st.live i = some s) (bus : Bus P V)
    {o : Option Subscriber} (ho : ∀ s' ∈ o, s'.pid = s.pid) :
    State.live { st with bus := bus, subs := st.subs.set i o } =
      update st.live i o := by
  obtain ⟨hsub, halive⟩ := live_eq_some.mp hs
  have hlt := (List.getElem?_eq_some_iff.mp hsub).1
  funext k
  by_cases hk : k = i
  · subst hk
    rw [update_self]
    unfold State.live
    dsimp only
    rw [List.getElem?_set_self hlt]
    cases o with
    | none => rfl
    | some s' =>
      dsimp only
      rw [ho s' rfl, if_pos halive]
  · rw [update_of_ne hk]
    unfold State.live
    dsimp only
    rw [List.getElem?_set_ne (Ne.symm hk)]

/-- A new subscriber comes at the end of the list. -/
theorem live_append {s : Subscriber} (halive : st.alive s.pid = true) (bus : Bus P V) :
    State.live { st with bus := bus, subs := st.subs ++ [some s] } =
      update st.live st.subs.length (some s) := by
  funext k
  by_cases hk : k = st.subs.length
  · subst hk
    rw [update_self]
    exact live_eq_some.mpr ⟨List.getElem?_concat_length .., halive⟩
  · rw [update_of_ne hk]
    unfold State.live
    dsimp only
    rcases Nat.lt_or_gt_of_ne hk with hlt | hgt
    · rw [List.getElem?_append_left hlt]
    · rw [List.getElem?_eq_none (by simp; omega), List.getElem?_eq_none (by omega)]

/-- There is no subscriber yet under the next number. -/
theorem live_length : st.live st.subs.length = none := by
  unfold State.live
  rw [List.getElem?_eq_none (Nat.le_refl _)]

/-- The subscribers of a dead process are no longer live. -/
theorem live_exit (pid : Nat) :
    State.live { st with alive := update st.alive pid false } =
      fun i => (st.live i).filter (fun s => s.pid ≠ pid) := by
  funext i
  refine Option.ext fun s => ?_
  rw [live_eq_some, Option.filter_eq_some_iff, live_eq_some, and_assoc]
  refine and_congr_right fun _ => ?_
  by_cases hpid : s.pid = pid
  · simp [hpid]
  · simp [hpid]

/-! ### The cached check -/

/-- `slots` are those of the live subscribers, and `cachedSlowest` is behind every one. -/
structure State.Tracks (st : State P V) (slots : SlotIdx → SubSlot) (cachedSlowest : Nat) :
    Prop where
  owns : Owns st.live st.alive slots
  cached : cachedSlowest ≤ st.log.length
  cached_live : ∀ i s, st.live i = some s → cachedSlowest ≤ s.cursor

/-- The invariant, for the words of the bus itself. -/
abbrev State.Tracked (st : State P V) : Prop := st.Tracks st.bus.slots st.bus.cachedSlowest

/-- A live subscriber holds an `ACTIVE` slot with a cursor that the publisher may not leave
    further behind. -/
def State.Backlogged (st : State P V) (w : Nat) : Prop :=
  ∃ i s j c, st.live i = some s ∧ s.slotIndex = some j ∧ (st.bus.slots j).word = .active c ∧
    st.bus.writeSeq ≥ c + P.ringSize - w

/-- In terms of the subscribers' own cursors. -/
theorem State.Tracks.backlogged_iff (h : st.Tracked) (w : Nat) :
    st.Backlogged w ↔ ∃ i s, st.live i = some s ∧ st.bus.writeSeq ≥ s.cursor + P.ringSize - w := by
  constructor
  · rintro ⟨i, s, j, c, hs, hj, hword, hge⟩
    rw [h.owns.slot_eq hs hj] at hword
    cases hword
    exact ⟨i, s, hs, hge⟩
  · rintro ⟨i, s, hs, hge⟩
    obtain ⟨j, hj, hslot⟩ := h.owns.owned i s hs
    exact ⟨i, s, j, s.cursor, hs, hj, by rw [hslot], hge⟩

/-- A power of two below `2 ^ 64` is at most `2 ^ 63`. -/
theorem Params.ringSize_le (P : Params) : P.ringSize ≤ 2 ^ 63 := by
  obtain ⟨k, hk⟩ := P.ringSize_isPow
  have hlt := P.ringSize_lt
  rw [hk] at hlt ⊢
  have hexp : k < 64 := (Nat.pow_lt_pow_iff_right (by omega)).mp hlt
  exact Nat.pow_le_pow_right (by omega) (by omega)

/-- **`try_publish` on a bounded bus**: it is refused when the bus is backlogged, and publishes
    otherwise. -/
theorem State.Tracks.tryPublish {w : Nat} (hw : P.watermark = some w) (h : st.Tracked)
    (hinv : st.Inv) (hn : st.log.length < 2 ^ 62) (v : V) :
    ∃ slots cached, st.Tracks slots cached ∧
      (st.Backlogged w ∧ st.bus.tryPublish st.now st.alive v =
          (⟨st.bus.writeSeq, st.bus.ring, slots, cached⟩, .error .full) ∨
        ¬st.Backlogged w ∧ st.bus.tryPublish st.now st.alive v =
          (Bus.publishUnchecked ⟨st.bus.writeSeq, st.bus.ring, slots, cached⟩ v, .ok ())) := by
  have hlt := P.watermark_lt w hw
  have hsize := P.ringSize_le
  have hcursor : ∀ i s, st.live i = some s → s.cursor ≤ st.log.length := by
    intro i s hs
    exact (hinv.subs s (List.mem_of_getElem? (live_eq_some.mp hs).1)).2.1
  have hfit : ∀ j c, counted st.alive (st.bus.slots j) = some c → c ≤ st.log.length := by
    intro j c hc
    obtain ⟨i, s, hs, -, rfl⟩ := (h.owns.counted_iff j c).mp hc
    exact hcursor i s hs
  have hwrap : ∀ c, c ≤ st.log.length →
      wrap64 (c + (P.ringSize - w)) = c + P.ringSize - w := by
    intro c hc
    rw [wrap64_of_lt (by omega)]
    omega
  have hcached := h.cached
  obtain ⟨hslots, hnone, hsome⟩ := slowestSubscriberCursor_spec st.now
    (fun j c hc => Nat.le_trans (hfit j c hc) (by unfold maxU64; omega))
  rw [h.backlogged_iff]
  by_cases hslow : st.bus.writeSeq ≥ wrap64 (st.bus.cachedSlowest + (P.ringSize - w))
  · -- the slow path: what the scan returns is the least live cursor
    cases hscan : slowestSubscriberCursor st.now st.alive st.bus.slots with
    | mk slots slowest =>
      rw [hscan] at hslots hnone hsome
      obtain rfl : slots = _ := hslots
      cases slowest with
      | some m =>
        rw [Bus.tryPublish_of_scan hw hslow hscan]
        obtain ⟨⟨j, hj⟩, hleast⟩ := hsome m rfl
        have hle : ∀ i s, st.live i = some s → m ≤ s.cursor := by
          intro i s hs
          obtain ⟨j, hj, -⟩ := h.owns.owned i s hs
          exact hleast j s.cursor ((h.owns.counted_iff j _).mpr ⟨i, s, hs, hj, rfl⟩)
        refine ⟨_, m, ⟨h.owns.prune st.now, hfit j m hj, hle⟩, ?_⟩
        rw [hwrap m (hfit j m hj)]
        obtain ⟨i, s, hs, -, hm⟩ := (h.owns.counted_iff j m).mp hj
        by_cases hfull : st.bus.writeSeq ≥ m + P.ringSize - w
        · rw [if_pos hfull]
          exact Or.inl ⟨⟨i, s, hs, by rw [hm]; exact hfull⟩, rfl⟩
        · rw [if_neg hfull]
          refine Or.inr ⟨?_, rfl⟩
          rintro ⟨i', s', hs', hge'⟩
          have := hle i' s' hs'
          omega
      | none =>
        rw [Bus.tryPublish_of_nobody hw hslow hscan]
        -- the cached cursor is kept: it is not ahead of whoever joins next
        refine ⟨_, st.bus.cachedSlowest, ⟨h.owns.prune st.now, hcached, h.cached_live⟩,
          Or.inr ⟨?_, rfl⟩⟩
        rintro ⟨i, s, hs, -⟩
        obtain ⟨j, hj, -⟩ := h.owns.owned i s hs
        have hcount := (h.owns.counted_iff j s.cursor).mpr ⟨i, s, hs, hj, rfl⟩
        rw [hnone rfl j] at hcount
        cases hcount
  · rw [Bus.tryPublish_of_room hw hslow]
    refine ⟨st.bus.slots, st.bus.cachedSlowest, ⟨h.owns, hcached, h.cached_live⟩,
      Or.inr ⟨?_, rfl⟩⟩
    rw [hwrap _ hcached] at hslow
    -- the cached cursor is behind every other
    rintro ⟨i, s, hs, hge⟩
    have := h.cached_live i s hs
    omega

/-- Small numbers fit into the 62 bits. -/
theorem value62_of_lt {n : Nat} (h : n < 2 ^ 62) : value62 n = n := Nat.mod_eq_of_lt h

namespace State.Tracks

/-- After a publish. -/
theorem publish {slots : SlotIdx → SubSlot} {cached : Nat} (h : st.Tracks slots cached) (v : V) :
    State.Tracked { st with
      bus := Bus.publishUnchecked ⟨st.bus.writeSeq, st.bus.ring, slots, cached⟩ v
      log := st.log ++ [v] } := by
  refine ⟨h.owns, ?_, h.cached_live⟩
  have hle := h.cached
  show cached ≤ (st.log ++ [v]).length
  rw [List.length_append]
  omega

/-- Subscriber `i` is replaced, with its slot. -/
theorem set {i : Nat} {s : Subscriber} (h : st.Tracked) (hs : st.live i = some s)
    {slots : SlotIdx → SubSlot} {o : Option Subscriber}
    (howns : Owns (update st.live i o) st.alive slots)
    (ho : ∀ s' ∈ o, s'.pid = s.pid ∧ s.cursor ≤ s'.cursor) :
    State.Tracked { st with
      bus := ⟨st.bus.writeSeq, st.bus.ring, slots, st.bus.cachedSlowest⟩
      subs := st.subs.set i o } := by
  have hlive := live_set hs ⟨st.bus.writeSeq, st.bus.ring, slots, st.bus.cachedSlowest⟩
    (fun s' hs' => (ho s' hs').1)
  refine ⟨hlive ▸ howns, h.cached, fun k t ht => ?_⟩
  rw [hlive] at ht
  by_cases hk : k = i
  · subst hk
    rw [update_self] at ht
    exact Nat.le_trans (h.cached_live k s hs) (ho t ht).2
  · rw [update_of_ne hk] at ht
    exact h.cached_live k t ht

/-- A subscriber of a live process has joined at the head. -/
theorem join (h : st.Tracked) (hseq : st.bus.writeSeq = st.log.length) {pid : Nat} (hpid : pid ≠ 0)
    (halive : st.alive pid = true) {j : SlotIdx} (hfree : (st.bus.slots j).word = .free) :
    State.Tracked { st with
      bus := ⟨st.bus.writeSeq, st.bus.ring,
        update st.bus.slots j ⟨pid, .active st.bus.writeSeq⟩, st.bus.cachedSlowest⟩
      subs := st.subs ++ [some ⟨pid, st.bus.writeSeq, 0, some j⟩] } := by
  have hlive := live_append (s := ⟨pid, st.bus.writeSeq, 0, some j⟩) halive
    ⟨st.bus.writeSeq, st.bus.ring,
      update st.bus.slots j ⟨pid, .active st.bus.writeSeq⟩, st.bus.cachedSlowest⟩
  refine ⟨hlive ▸ h.owns.join live_length hfree rfl hpid halive, h.cached, fun k t ht => ?_⟩
  rw [hlive] at ht
  by_cases hk : k = st.subs.length
  · subst hk
    rw [update_self] at ht
    cases ht
    exact hseq ▸ h.cached
  · rw [update_of_ne hk] at ht
    exact h.cached_live k t ht

/-- A subscriber has moved on, and has stored its cursor in its slot. -/
theorem advance {i : Nat} {s : Subscriber} (h : st.Tracked) (hs : st.live i = some s)
    {cursor : Nat} (hle : s.cursor ≤ cursor) (hfit : cursor < 2 ^ 62) (lagged : Nat) :
    State.Tracked { st with
      bus := st.bus.updateShmCursor { s with cursor := cursor, totalLagged := lagged }
      subs := st.subs.set i (some { s with cursor := cursor, totalLagged := lagged }) } := by
  obtain ⟨j, hj, hslot⟩ := h.owns.owned i s hs
  have hset := h.set hs (h.owns.advance hs hj cursor lagged) (fun s' hs' => by
    cases hs'
    exact ⟨rfl, hle⟩)
  simp only [hj] at hset
  simp only [Bus.updateShmCursor, hj, setWordAt, hslot]
  rw [value62_of_lt hfit]
  exact hset

/-- **Step.** -/
theorem step {w : Nat} (hw : P.watermark = some w) (h : st.Tracked) (hinv : st.Inv)
    (hn : st.log.length < 2 ^ 62) {a : Act V} (hstep : Whole.step st a = some st') :
    st'.Tracked := by
  cases a with
  | publish v =>
    obtain ⟨slots, cached, hkept, ⟨-, hfull⟩ | ⟨-, hok⟩⟩ := h.tryPublish hw hinv hn v
    · simp only [Whole.step, hfull] at hstep
      cases hstep
    · simp only [Whole.step, hok] at hstep
      cases hstep
      exact hkept.publish v
  | tryPublish v =>
    cases hstep
    obtain ⟨slots, cached, hkept, ⟨-, hfull⟩ | ⟨-, hok⟩⟩ := h.tryPublish hw hinv hn v
    · rw [hfull]
      exact ⟨hkept.owns, hkept.cached, hkept.cached_live⟩
    · rw [hok]
      exact hkept.publish v
  | connect pid =>
    obtain ⟨hpid, halive, rfl | ⟨slots, i, hjoin, rfl⟩⟩ := step_connect hstep
    · exact h
    · obtain ⟨j, rfl, hfree, rfl⟩ := hjoin.bounded hw
      have hseq := hinv.logs.seq
      rw [value62_of_lt (by omega)]
      exact h.join hseq hpid halive hfree
  | tryRecv i =>
    obtain rfl | ⟨s, m, s', hs, hle, hlt, rfl, rfl⟩ := hinv.tryRecv_cases hn hstep
    · exact h
    · exact h.advance hs (Nat.le_succ_of_le hle) (by omega) _
  | drop i =>
    obtain ⟨s, hs, rfl⟩ := step_drop hstep
    obtain ⟨j, hj, -⟩ := h.owns.owned i s hs
    have hset := h.set hs (h.owns.leave hs hj) (fun s' hs' => by cases hs')
    simp only [Bus.drop, hj]
    exact hset
  | exit pid =>
    cases hstep
    refine ⟨?_, h.cached, fun i s hs => ?_⟩
    · rw [live_exit]
      exact h.owns.die pid
    · rw [live_exit] at hs
      exact h.cached_live i s (Option.filter_eq_some_iff.mp hs).1
  | tick n =>
    cases hstep
    exact ⟨h.owns, h.cached, h.cached_live⟩

end State.Tracks

/-- Nobody has joined. -/
theorem tracked_init [Inhabited V] : (init P V).Tracked := by
  have hnobody : ∀ i s, (init P V).live i ≠ some s := by
    intro i s hs
    exact absurd (List.mem_of_getElem? (live_eq_some.mp hs).1) List.not_mem_nil
  refine ⟨⟨fun i s hs => absurd hs (hnobody i s), fun i s hs => absurd hs (hnobody i s),
    fun i i' s s' hs => absurd hs (hnobody i s), fun j c hword => ?_, fun j c hword => ?_,
    fun j ts hword => ?_⟩, Nat.le_refl _, fun i s hs => absurd hs (hnobody i s)⟩
  · cases hword
  · cases hword
  · cases hword

/-- **Run.** -/
theorem tracked_run [Inhabited V] {w : Nat} (hw : P.watermark = some w) {as : List (Act V)}
    (hrun : Run step (fun _ _ => True) (init P V) as st) (hn : st.log.length < 2 ^ 62) :
    st.Inv ∧ st.Tracked :=
  below_run hrun hn (X := fun st => st.Inv ∧ st.Tracked) ⟨inv_init, tracked_init⟩
    fun hn h hstep => ⟨h.1.step hn hstep, h.2.step hw h.1 hn hstep⟩

/-- **The cached check agrees with a full rescan.** After any sequence of whole calls on a bounded
    bus, with fewer than `2 ^ 62` values published, `try_publish` is refused exactly when a live
    subscriber holds an `ACTIVE` slot whose cursor `c` satisfies `write_seq >= c + R - w`; then it
    leaves `write_seq`, the ring and the slots of the live subscribers unchanged.  Otherwise it
    publishes the value as number `write_seq`. -/
theorem cached_check_agrees [Inhabited V] {w : Nat} (hw : P.watermark = some w)
    {as : List (Act V)} (hrun : Run step (fun _ _ => True) (init P V) as st)
    (hn : st.log.length < 2 ^ 62) (v : V) :
    (st.Backlogged w → ∃ bus, st.bus.tryPublish st.now st.alive v = (bus, .error .full) ∧
      bus.writeSeq = st.bus.writeSeq ∧ bus.ring = st.bus.ring ∧
      ∀ i s j, st.live i = some s → s.slotIndex = some j → bus.slots j = st.bus.slots j) ∧
    (¬st.Backlogged w → ∃ bus, st.bus.tryPublish st.now st.alive v = (bus, .ok ()) ∧
      bus.writeSeq = st.bus.writeSeq + 1 ∧
      bus.ring = update st.bus.ring (P.slotOf st.bus.writeSeq)
        ⟨st.bus.writeSeq * 2 + 2, v⟩) := by
  obtain ⟨hinv, htracked⟩ := tracked_run hw hrun hn
  have hseq := hinv.logs.seq
  obtain ⟨slots, cached, hkept, ⟨hback, hfull⟩ | ⟨hback, hok⟩⟩ := htracked.tryPublish hw hinv hn v
  · refine ⟨fun _ => ⟨_, hfull, rfl, rfl, fun i s j hs hj => ?_⟩, fun hno => absurd hback hno⟩
    exact (hkept.owns.slot_eq hs hj).trans (htracked.owns.slot_eq hs hj).symm
  · refine ⟨fun hyes => absurd hyes hback, fun _ => ⟨_, hok, ?_, ?_⟩⟩
    · show wrap64 (st.bus.writeSeq + 1) = _
      exact wrap64_of_lt (by omega)
    · show update st.bus.ring _ ⟨wrap64 (st.bus.writeSeq * 2 + 2), v⟩ = _
      rw [wrap64_of_lt (by omega)]

/-- Four slots, of which one is to stay free. -/
def quadBus : Params where
  ringSize := 4
  watermark := some 1
  ringSize_lt := by norm_num
  ringSize_pow := rfl
  watermark_lt := by simp

/-- A subscriber that reads nothing. -/
def backlogSteps : List (Act Nat) := [.connect 7, .tryPublish 10, .tryPublish 20, .tryPublish 30]

/-- The fourth value is refused. -/
theorem cached_check_refuses : ∃ st : State quadBus Nat,
    Run step (fun _ _ => True) (init quadBus Nat) backlogSteps st ∧ st.Backlogged 1 ∧
    ∃ bus, st.bus.tryPublish st.now st.alive 40 = (bus, .error .full) ∧ bus.ring = st.bus.ring := by
  obtain ⟨st, hrun, hlen, hseq, s, hs, hcursor⟩ := exists_run_of_exec step (fun _ _ => True)
    (s := init quadBus Nat) (l := backlogSteps) (p := fun st => st.log.length = 3 ∧
      st.bus.writeSeq = 3 ∧ ∃ s ∈ st.live 0, s.cursor = 0) (by decide +kernel)
  have hn : st.log.length < 2 ^ 62 := by
    rw [hlen]
    norm_num
  have hback : st.Backlogged 1 := by
    refine ((tracked_run rfl hrun hn).2.backlogged_iff 1).mpr ⟨0, s, hs, ?_⟩
    rw [hseq, hcursor]
    decide
  obtain ⟨bus, hfull, -, hring, -⟩ := (cached_check_agrees (w := 1) rfl hrun hn 40).1 hback
  exact ⟨st, hrun, hback, bus, hfull, hring⟩

/-! ### After `2 ^ 62` publishes

A subscriber that takes every value at once is never behind.  When its cursor has 63 bits, its
slot has the low 62 of them: the bus is backlogged by what the slot says, and the check does not
see it until `cached_slowest` is three values old. -/

/-- The subscriber is one value behind. -/
theorem Bus.tryRecv_next {b : Bus P V} {s : Subscriber} {v : V} (hseq : b.writeSeq = s.cursor + 1)
    (hcell : b.ring (P.slotOf s.cursor) = cell s.cursor v) (hlag : s.totalLagged ≤ s.cursor)
    (hn : s.cursor + 1 < 2 ^ 63) :
    b.tryRecv s = some (b.updateShmCursor { s with cursor := s.cursor + 1 },
      { s with cursor := s.cursor + 1 }, some v) := by
  have hpos := P.ringSize_pos
  have hnext : nextNumber P b.writeSeq s.cursor = s.cursor := by
    unfold nextNumber
    omega
  unfold Bus.tryRecv
  rw [if_neg (by omega), skipAhead_eq hlag (by omega) (by omega), hnext, Nat.sub_self,
    Nat.add_zero]
  show b.readSlot s (b.ring (P.slotOf s.cursor)) = _
  rw [hcell]
  exact readSlot_eq v hn

/-- Only slot `j` is taken. -/
def onlySlot (j : SlotIdx) (cursor : Nat) : SlotIdx → SubSlot :=
  update (fun _ => ⟨0, .free⟩) j ⟨7, .active cursor⟩

/-- The scan finds the cursor of the only subscriber. -/
theorem scan_onlySlot (hlive : alive 7 = true) (j : SlotIdx) {c : Nat} (hc : c ≤ maxU64)
    (now : Nat) : slowestSubscriberCursor now alive (onlySlot j c) = (onlySlot j c, some c) := by
  have hcount : ∀ j', counted alive (onlySlot j c j') = if j' = j then some c else none := by
    intro j'
    unfold onlySlot
    by_cases hj : j' = j
    · subst hj
      simp [counted, hlive]
    · rw [update_of_ne hj, if_neg hj]
      rfl
  have hfit : ∀ j' c', counted alive (onlySlot j c j') = some c' → c' ≤ maxU64 := by
    intro j' c' hc'
    rw [hcount] at hc'
    obtain ⟨-, hc'⟩ := Option.ite_none_right_eq_some.mp hc'
    cases hc'
    exact hc
  obtain ⟨hslots, hnone, hsome⟩ := slowestSubscriberCursor_spec now hfit
  have hleft : (fun j' => pruned now alive (onlySlot j c j')) = onlySlot j c := by
    funext j'
    unfold onlySlot
    by_cases hj : j' = j
    · subst hj
      simp [pruned, hlive]
    · rw [update_of_ne hj]
      rfl
  refine Prod.ext (hslots.trans hleft) ?_
  cases hres : (slowestSubscriberCursor now alive (onlySlot j c)).2 with
  | none =>
    have hj := hnone hres j
    rw [hcount, if_pos rfl] at hj
    cases hj
  | some m =>
    obtain ⟨⟨j', hj'⟩, -⟩ := hsome m hres
    rw [hcount] at hj'
    exact (Option.ite_none_right_eq_some.mp hj').2.symm

/-- The subscriber has taken all `k` values. -/
structure CaughtUp (st : State quadBus Nat) (j : SlotIdx) (k cached : Nat) : Prop where
  seq : st.bus.writeSeq = k
  cached : st.bus.cachedSlowest = cached
  subs : st.subs = [some ⟨7, k, 0, some j⟩]
  running : st.alive 7 = true
  slots : st.bus.slots = onlySlot j (value62 k)

namespace CaughtUp

variable {st : State quadBus Nat} {j : SlotIdx} {k c : Nat}

/-- The cached cursor will do. -/
theorem tryPublish_fast (h : CaughtUp st j k c) (hc : c < 2 ^ 63) (hk : k < c + 3) :
    st.bus.tryPublish st.now st.alive 0 = (st.bus.publishUnchecked 0, .ok ()) := by
  have hfast : ¬st.bus.writeSeq ≥ wrap64 (st.bus.cachedSlowest + (quadBus.ringSize - 1)) := by
    rw [h.seq, h.cached]
    show ¬k ≥ wrap64 (c + 3)
    rw [wrap64_of_lt (by omega)]
    omega
  exact Bus.tryPublish_of_room rfl hfast

/-- Otherwise the slot is read. -/
theorem tryPublish_slow (h : CaughtUp st j k c) (hk : c + 3 ≤ k) (hlt : k < 2 ^ 63) :
    st.bus.tryPublish st.now st.alive 0 =
      if k ≥ value62 k + 3 then ({ st.bus with cachedSlowest := value62 k }, .error .full)
      else (Bus.publishUnchecked { st.bus with cachedSlowest := value62 k } 0, .ok ()) := by
  have hslow : st.bus.writeSeq ≥ wrap64 (st.bus.cachedSlowest + (quadBus.ringSize - 1)) := by
    rw [h.seq, h.cached]
    show k ≥ wrap64 (c + 3)
    rw [wrap64_of_lt (by omega)]
    omega
  have hle : value62 k ≤ k := Nat.mod_le _ _
  have hscan := scan_onlySlot h.running j (show value62 k ≤ maxU64 by unfold maxU64; omega) st.now
  rw [← h.slots] at hscan
  rw [Bus.tryPublish_of_scan (w := 1) rfl hslow hscan, h.seq]
  show (if k ≥ wrap64 (value62 k + 3) then _ else _) = _
  rw [wrap64_of_lt (by omega), ← h.seq]

/-- One more value is published and taken. -/
theorem cycle (h : CaughtUp st j k c) (hk : k + 1 < 2 ^ 63) {c' : Nat}
    (hpub : st.bus.tryPublish st.now st.alive 0 =
      (Bus.publishUnchecked { st.bus with cachedSlowest := c' } 0, .ok ())) :
    ∃ st', Run step (fun _ _ => True) st [.tryPublish 0, .tryRecv 0] st' ∧
      CaughtUp st' j (k + 1) c' := by
  obtain ⟨bus, hbus⟩ : ∃ bus, bus = Bus.publishUnchecked { st.bus with cachedSlowest := c' } 0 :=
    ⟨_, rfl⟩
  rw [← hbus] at hpub
  have hseq : bus.writeSeq = k + 1 := by
    rw [hbus]
    show wrap64 (st.bus.writeSeq + 1) = _
    rw [h.seq, wrap64_of_lt (by omega)]
  have hcell : bus.ring (quadBus.slotOf k) = Bus.cell k 0 := by
    rw [hbus]
    show update st.bus.ring (quadBus.slotOf st.bus.writeSeq) _ _ = _
    rw [h.seq, update_self, wrap64_of_lt (by omega)]
    rfl
  have hrecv := Bus.tryRecv_next (s := ⟨7, k, 0, some j⟩) hseq hcell (Nat.zero_le _) hk
  have hpublish : step st (.tryPublish 0) =
      some { st with bus := bus, log := st.log ++ [0] } := by
    show some (st.published 0 _) = _
    rw [hpub]
    rfl
  have hreceive : step { st with bus := bus, log := st.log ++ [0] } (.tryRecv 0) =
      some { st with
        bus := bus.updateShmCursor ⟨7, k + 1, 0, some j⟩
        subs := [some ⟨7, k + 1, 0, some j⟩]
        log := st.log ++ [0] } := by
    have hlive : State.live { st with bus := bus, log := st.log ++ [0] } 0 =
        some ⟨7, k, 0, some j⟩ := by
      refine live_eq_some.mpr ⟨?_, h.running⟩
      show st.subs[0]? = _
      rw [h.subs]
      rfl
    show (State.live _ 0).bind _ = _
    rw [hlive, Option.bind_some]
    show (bus.tryRecv _).bind _ = _
    rw [hrecv, Option.bind_some, h.subs]
    rfl
  refine ⟨_, (Run.single trivial hpublish).append (Run.single trivial hreceive),
    hseq, ?_, rfl, h.running, ?_⟩
  · show bus.cachedSlowest = c'
    rw [hbus]
    rfl
  · show setWordAt bus.slots j _ = _
    have hslots : bus.slots = onlySlot j (value62 k) := by
      rw [hbus]
      exact h.slots
    rw [hslots, setWordAt, onlySlot, onlySlot, update_self, update_idem]

/-- The first `2 ^ 62` values: the slot is read at every third. -/
theorem cycle_fast (h : CaughtUp st j k c) (hc : c < 2 ^ 62) (hk : k < c + 3) :
    ∃ st', Run step (fun _ _ => True) st [.tryPublish 0, .tryRecv 0] st' ∧
      CaughtUp st' j (k + 1) c := by
  refine h.cycle (by omega) ((h.tryPublish_fast (by omega) hk).trans ?_)
  rw [← h.cached]

/-- The cached cursor is too old, and a scan replaces it. -/
theorem cycle_slow (h : CaughtUp st j k c) (hc : c + 3 ≤ k) (hk : k < 2 ^ 62) :
    ∃ st', Run step (fun _ _ => True) st [.tryPublish 0, .tryRecv 0] st' ∧
      CaughtUp st' j (k + 1) k := by
  refine h.cycle (by omega) ((h.tryPublish_slow hc (by omega)).trans ?_)
  rw [value62_of_lt hk, if_neg (by omega)]

end CaughtUp

/-- A run to such a state. -/
def Reaches (j : SlotIdx) (k c : Nat) : Prop :=
  ∃ as st, Run step (fun _ _ => True) (init quadBus Nat) as st ∧ CaughtUp st j k c

namespace Reaches

variable {j : SlotIdx} {k c : Nat}

/-- A run to a new subscriber. -/
theorem start : ∃ j, Reaches j 0 0 := by
  rcases (init quadBus Nat).bus.connect_cases 7 with ⟨slots, i, hok, hjoin⟩ | ⟨e, herr⟩
  · obtain ⟨j, rfl, -, rfl⟩ := hjoin.bounded rfl
    refine ⟨j, [.connect 7], { init quadBus Nat with
      bus := ⟨0, fun _ => ⟨0, default⟩, onlySlot j (value62 0), 0⟩
      subs := [some ⟨7, 0, 0, some j⟩] }, .single trivial ?_, rfl, rfl, rfl, rfl, rfl⟩
    simp only [step, hok]
    rfl
  · have hjoins : ((init quadBus Nat).bus.connect 7).2.isOk = true := by decide +kernel
    rw [herr] at hjoins
    cases hjoins

/-- One more publish without a scan. -/
theorem fast (h : Reaches j k c) (hc : c < 2 ^ 62) (hk : k < c + 3) : Reaches j (k + 1) c := by
  obtain ⟨as, st, hrun, hup⟩ := h
  obtain ⟨st', hmore, hup'⟩ := hup.cycle_fast hc hk
  exact ⟨_, st', hrun.append hmore, hup'⟩

/-- One more publish with a scan. -/
theorem slow (h : Reaches j k c) (hc : c + 3 ≤ k) (hk : k < 2 ^ 62) : Reaches j (k + 1) k := by
  obtain ⟨as, st, hrun, hup⟩ := h
  obtain ⟨st', hmore, hup'⟩ := hup.cycle_slow hc hk
  exact ⟨_, st', hrun.append hmore, hup'⟩

/-- Between two scans there are three values. -/
theorem thrice (h : Reaches j 0 0) (t : Nat) (ht : 3 * t + 3 < 2 ^ 62) :
    Reaches j (3 * t + 3) (3 * t) := by
  induction t with
  | zero =>
    have h₁ := h.fast (by omega) (by omega)
    have h₂ := h₁.fast (by omega) (by omega)
    exact h₂.fast (by omega) (by omega)
  | succ t ih =>
    have h₁ := (ih (by omega)).slow (Nat.le_refl _) (by omega)
    have h₂ := h₁.fast (by omega) (by omega)
    exact h₂.fast (by omega) (by omega)

end Reaches

/-- **The check and the slots disagree.** A run after which a live subscriber's `ACTIVE` slot has
    cursor `c` with `write_seq >= c + R - w`, and `try_publish` publishes; and one after which the
    only subscriber has taken every value, and `try_publish` is refused. -/
theorem cached_check_misses_wrap :
    (∃ as, ∃ st : State quadBus Nat, Run step (fun _ _ => True) (init quadBus Nat) as st ∧
      st.Backlogged 1 ∧ ∃ bus, st.bus.tryPublish st.now st.alive 0 = (bus, .ok ())) ∧
    ∃ as, ∃ st : State quadBus Nat, Run step (fun _ _ => True) (init quadBus Nat) as st ∧
      (∀ i s, st.live i = some s → s.cursor = st.bus.writeSeq) ∧
      ∃ bus, st.bus.tryPublish st.now st.alive 0 = (bus, .error .full) := by
  obtain ⟨j, h₀⟩ := Reaches.start
  have h₁ := h₀.thrice ((2 ^ 62 - 4) / 3) (by norm_num)
  -- the last scan below the limit, and then two more values on the fast path
  have h₂ : Reaches j (2 ^ 62) (2 ^ 62 - 1) := h₁.slow (Nat.le_refl _) (by norm_num)
  have h₃ : Reaches j (2 ^ 62 + 1) (2 ^ 62 - 1) := h₂.fast (by norm_num) (by norm_num)
  have h₄ : Reaches j (2 ^ 62 + 2) (2 ^ 62 - 1) := h₃.fast (by norm_num) (by norm_num)
  constructor
  · -- the slot has cursor 0 again, and the cached cursor is not read from it
    obtain ⟨as, st, hrun, hup⟩ := h₂
    refine ⟨as, st, hrun, ⟨0, ⟨7, 2 ^ 62, 0, some j⟩, j, 0, ?_, rfl, ?_, ?_⟩, _,
      hup.tryPublish_fast (by norm_num) (by norm_num)⟩
    · refine live_eq_some.mpr ⟨?_, hup.running⟩
      rw [hup.subs]
      rfl
    · rw [hup.slots, onlySlot, update_self]
      rfl
    · rw [hup.seq]
      decide
  · -- the scan reads cursor 2 from the slot
    obtain ⟨as, st, hrun, hup⟩ := h₄
    refine ⟨as, st, hrun, fun i s hs => ?_, _, (hup.tryPublish_slow (by norm_num)
      (by norm_num)).trans (if_pos ?_)⟩
    · have hmem := List.mem_of_getElem? (live_eq_some.mp hs).1
      rw [hup.subs, List.mem_singleton] at hmem
      cases hmem
      exact hup.seq.symm
    · decide

end Crossbar.Bus.Whole
