import Crossbar.Bus.Rescan

namespace Crossbar.Bus.Whole

open Function Crossbar.Lib

/-!
# Bus — a bounded bus makes room

`publish` on a bounded bus spins until `try_publish` succeeds.  With whole calls this ends as soon
as the subscribers read: no live subscriber is ever more than `ring_size - watermark` values behind
(`State.Near`), so one that holds the publisher up is exactly that far behind, and its next
`try_recv` returns a value and lets the publisher go on.

* `near_run` — the bound, along every sequence of calls;
* `blocked_receives` — what a `try_recv` of a subscriber at the bound does;
* `bounded_bus_makes_room` — one `try_recv` of each of them, and `publish` returns.
-/

variable {P : Params} {V : Type} {st st' : State P V} {w : Nat}

/-! ### No subscriber is too far behind -/

/-- Live subscribers are at most `ring_size - watermark` behind. -/
def State.Near (st : State P V) (w : Nat) : Prop :=
  ∀ i s, st.live i = some s → st.log.length + w ≤ s.cursor + P.ringSize

/-- Subscriber `i` holds the publisher up. -/
def State.BlockedBy (st : State P V) (w i : Nat) : Prop :=
  ∃ s, st.live i = some s ∧ st.log.length + w = s.cursor + P.ringSize

/-- At the bound there is no room. -/
theorem State.Near.backlogged_iff (h : st.Near w) (htracked : st.Tracked) (hinv : st.Inv)
    (hw : P.watermark = some w) : st.Backlogged w ↔ ∃ i, st.BlockedBy w i := by
  have hlt := P.watermark_lt w hw
  have hseq := hinv.logs.seq
  rw [htracked.backlogged_iff]
  constructor
  · rintro ⟨i, s, hs, hge⟩
    have hle := h i s hs
    exact ⟨i, s, hs, by omega⟩
  · rintro ⟨i, s, hs, heq⟩
    exact ⟨i, s, hs, by omega⟩

namespace State.Near

/-- After a publish that was not refused. -/
theorem publish (h : st.Near w) (htracked : st.Tracked) (hinv : st.Inv) (hw : P.watermark = some w)
    (hroom : ¬st.Backlogged w) (bus : Bus P V) (v : V) :
    State.Near { st with bus := bus, log := st.log ++ [v] } w := by
  rw [h.backlogged_iff htracked hinv hw] at hroom
  intro i s hs
  have hle := h i s hs
  have hne : st.log.length + w ≠ s.cursor + P.ringSize := fun heq => hroom ⟨i, s, hs, heq⟩
  show (st.log ++ [v]).length + w ≤ _
  rw [List.length_append, List.length_singleton]
  omega

/-- A subscriber is replaced by one that is further, or dropped. -/
theorem set {i : Nat} {s : Subscriber} (h : st.Near w) (hs : st.live i = some s) (bus : Bus P V)
    {o : Option Subscriber} (ho : ∀ s' ∈ o, s'.pid = s.pid ∧ s.cursor ≤ s'.cursor) :
    State.Near { st with bus := bus, subs := st.subs.set i o } w := by
  intro k t ht
  rw [live_set hs bus (fun s' hs' => (ho s' hs').1)] at ht
  by_cases hk : k = i
  · subst hk
    rw [update_self] at ht
    have hle := h k s hs
    have hge := (ho t ht).2
    exact hle.trans (Nat.add_le_add_right hge _)
  · rw [update_of_ne hk] at ht
    exact h k t ht

/-- **Step.** -/
theorem step (h : st.Near w) (hw : P.watermark = some w) (htracked : st.Tracked) (hinv : st.Inv)
    (hn : st.log.length < 2 ^ 62) {a : Act V} (hstep : Whole.step st a = some st') :
    st'.Near w := by
  cases a with
  | publish v =>
    obtain ⟨slots, cached, -, ⟨-, hfull⟩ | ⟨hroom, hok⟩⟩ := htracked.tryPublish hw hinv hn v
    · simp only [Whole.step, hfull] at hstep
      cases hstep
    · simp only [Whole.step, hok] at hstep
      cases hstep
      exact h.publish htracked hinv hw hroom _ v
  | tryPublish v =>
    cases hstep
    obtain ⟨slots, cached, -, ⟨-, hfull⟩ | ⟨hroom, hok⟩⟩ := htracked.tryPublish hw hinv hn v
    · rw [hfull]
      exact h
    · rw [hok]
      exact h.publish htracked hinv hw hroom _ v
  | connect pid =>
    obtain ⟨-, halive, rfl | ⟨slots, i, -, rfl⟩⟩ := step_connect hstep
    · exact h
    · intro k t ht
      rw [live_append (s := ⟨pid, st.bus.writeSeq, 0, i⟩) halive] at ht
      by_cases hk : k = st.subs.length
      · -- it starts at the head
        subst hk
        rw [update_self] at ht
        cases ht
        have hlt := P.watermark_lt w hw
        have hseq := hinv.logs.seq
        show st.log.length + w ≤ st.bus.writeSeq + P.ringSize
        omega
      · rw [update_of_ne hk] at ht
        exact h k t ht
  | tryRecv i =>
    obtain rfl | ⟨s, m, s', hs, hle, -, rfl, rfl⟩ := hinv.tryRecv_cases hn hstep
    · exact h
    · refine h.set hs _ fun s' hs' => ?_
      cases hs'
      exact ⟨rfl, Nat.le_succ_of_le hle⟩
  | drop i =>
    obtain ⟨s, hs, rfl⟩ := step_drop hstep
    exact h.set hs _ fun s' hs' => by cases hs'
  | exit pid =>
    cases hstep
    intro i s hs
    rw [live_exit] at hs
    exact h i s (Option.filter_eq_some_iff.mp hs).1
  | tick n =>
    cases hstep
    exact h

end State.Near

/-- The state between calls on a bounded bus. -/
structure State.Flowing (st : State P V) (w : Nat) : Prop where
  inv : st.Inv
  tracked : st.Tracked
  near : st.Near w
  lt : st.log.length < 2 ^ 62

/-- **Run.** -/
theorem near_run [Inhabited V] (hw : P.watermark = some w) {as : List (Act V)}
    (hrun : Run step (fun _ _ => True) (init P V) as st) (hn : st.log.length < 2 ^ 62) :
    st.Flowing w := by
  have h₀ : (init P V).Near w := by
    intro i s hs
    exact absurd (List.mem_of_getElem? (live_eq_some.mp hs).1) List.not_mem_nil
  obtain ⟨hinv, htracked, hnear⟩ :=
    below_run hrun hn (X := fun st => st.Inv ∧ st.Tracked ∧ st.Near w)
      ⟨inv_init, tracked_init, h₀⟩ fun hn h hstep =>
        ⟨h.1.step hn hstep, h.2.1.step hw h.1 hn hstep, h.2.2.step hw h.2.1 h.1 hn hstep⟩
  exact ⟨hinv, htracked, hnear, hn⟩

/-! ### Making room -/

/-- The call is a `try_recv` that returns a value. -/
def Receives (st : State P V) (a : Act V) : Prop :=
  ∃ i s bus s' v, a = .tryRecv i ∧ st.live i = some s ∧ st.bus.tryRecv s = some (bus, s', some v)

/-- A subscriber at the bound gets a value, and nobody else is at the bound because of it. -/
theorem blocked_receives (h : st.Flowing w) (hw : P.watermark = some w) {i : Nat}
    (hi : st.BlockedBy w i) :
    ∃ st', step st (.tryRecv i) = some st' ∧ Receives st (.tryRecv i) ∧ st'.Flowing w ∧
      st'.log = st.log ∧ ∀ k, st'.BlockedBy w k ↔ k ≠ i ∧ st.BlockedBy w k := by
  obtain ⟨s, hs, heq⟩ := hi
  have hlt := P.watermark_lt w hw
  obtain ⟨hlag, -, -⟩ := h.inv.subs s (List.mem_of_getElem? (live_eq_some.mp hs).1)
  obtain ⟨v, s', hv, hs', hrecv⟩ := Bus.tryRecv_eq h.inv.logs h.lt hlag (by omega)
  have hstep : step st (.tryRecv i) = some
      { st with bus := st.bus.updateShmCursor s', subs := st.subs.set i (some s') } := by
    simp only [step, hs, Option.bind_eq_bind, Option.bind_some, hrecv]
  have hpid : s'.pid = s.pid := by rw [hs']
  have hcursor : s.cursor + 1 ≤ s'.cursor := by
    rw [hs']
    exact Nat.succ_le_succ (Nat.le_max_left ..)
  refine ⟨_, hstep, ⟨i, s, _, s', v, rfl, hs, hrecv⟩, ?_, rfl, fun k => ?_⟩
  · exact ⟨h.inv.step h.lt hstep, h.tracked.step hw h.inv h.lt hstep,
      h.near.step hw h.tracked h.inv h.lt hstep, h.lt⟩
  · unfold State.BlockedBy
    rw [live_set hs _ (fun t ht => by rw [← Option.some.inj ht, hpid])]
    by_cases hk : k = i
    · subst hk
      rw [update_self]
      constructor
      · rintro ⟨t, ht, hat⟩
        cases ht
        replace hat : st.log.length + w = s'.cursor + P.ringSize := hat
        omega
      · rintro ⟨hne, -⟩
        exact absurd rfl hne
    · rw [update_of_ne hk]
      exact (and_iff_right hk).symm

/-- Each subscriber at the bound reads once. -/
theorem drain (hw : P.watermark = some w) : ∀ (is : List Nat) {st : State P V}, st.Flowing w →
    is.Nodup → (∀ i, st.BlockedBy w i ↔ i ∈ is) →
    ∃ st', Run step Receives st (is.map .tryRecv) st' ∧ st'.Flowing w ∧ st'.log = st.log ∧
      ∀ i, ¬st'.BlockedBy w i := by
  intro is
  induction is with
  | nil =>
    intro st h _ hall
    exact ⟨st, .nil st, h, rfl, fun i hi => List.not_mem_nil ((hall i).mp hi)⟩
  | cons i is ih =>
    intro st h hnodup hall
    obtain ⟨hi, hnodup⟩ := List.nodup_cons.mp hnodup
    obtain ⟨st₁, hstep, hrecv, h₁, hlog, hleft⟩ :=
      blocked_receives h hw ((hall i).mpr List.mem_cons_self)
    have hrest : ∀ k, st₁.BlockedBy w k ↔ k ∈ is := by
      intro k
      rw [hleft, hall, List.mem_cons]
      constructor
      · rintro ⟨hne, rfl | hk⟩
        · exact absurd rfl hne
        · exact hk
      · intro hk
        refine ⟨?_, Or.inr hk⟩
        rintro rfl
        exact hi hk
    obtain ⟨st', hrun, h', hlog', hnone⟩ := ih h₁ hnodup hrest
    exact ⟨st', .cons hrecv hstep hrun, h', hlog'.trans hlog, hnone⟩

/-- The subscribers at the bound, once each. -/
theorem State.exists_blocked (st : State P V) (w : Nat) :
    ∃ is : List Nat, is.Nodup ∧ ∀ i, st.BlockedBy w i ↔ i ∈ is := by
  classical
  refine ⟨(List.range st.subs.length).filter fun i => st.BlockedBy w i,
    List.nodup_range.filter _, fun i => ?_⟩
  rw [List.mem_filter, List.mem_range, decide_eq_true_iff]
  refine ⟨?_, And.right⟩
  rintro ⟨s, hs, hat⟩
  exact ⟨(List.getElem?_eq_some_iff.mp (live_eq_some.mp hs).1).1, s, hs, hat⟩

/-- **A bounded bus makes room.** After any sequence of whole calls, with fewer than `2 ^ 62`
    values published: no live subscriber is more than `ring_size - watermark` behind, and after one
    `try_recv` of each that is as far behind, in any order, which returns a value, `publish`
    returns. -/
theorem bounded_bus_makes_room [Inhabited V] (hw : P.watermark = some w) {as : List (Act V)}
    (hrun : Run step (fun _ _ => True) (init P V) as st) (hn : st.log.length < 2 ^ 62) (v : V) :
    (∀ i s, st.live i = some s → st.log.length - s.cursor ≤ P.ringSize - w) ∧
    (∃ is : List Nat, is.Nodup ∧ ∀ i, st.BlockedBy w i ↔ i ∈ is) ∧
    ∀ is : List Nat, is.Nodup → (∀ i, st.BlockedBy w i ↔ i ∈ is) → ∃ st' st'' : State P V,
      Run step Receives st (is.map .tryRecv) st' ∧
      step st' (.publish v) = some st'' ∧ st''.log = st.log ++ [v] := by
  have h := near_run hw hrun hn
  refine ⟨fun i s hs => ?_, st.exists_blocked w, fun is hnodup hall => ?_⟩
  · have hle := h.near i s hs
    omega
  obtain ⟨st', hdrain, h', hlog, hnone⟩ := drain hw is h hnodup hall
  obtain ⟨slots, cached, -, ⟨hback, -⟩ | ⟨-, hok⟩⟩ := h'.tracked.tryPublish hw h'.inv h'.lt v
  · obtain ⟨i, hi⟩ := (h'.near.backlogged_iff h'.tracked h'.inv hw).mp hback
    exact absurd hi (hnone i)
  · refine ⟨st', { st' with
      bus := Bus.publishUnchecked ⟨st'.bus.writeSeq, st'.bus.ring, slots, cached⟩ v
      log := st'.log ++ [v] }, hdrain, ?_, ?_⟩
    · simp only [step, hok]
    · rw [hlog]

/-- Two subscribers, and as many values as fit. -/
def fullSteps : List (Act Nat) := .connect 8 :: backlogSteps

/-- The fourth value waits for both subscribers; the second one reads first. -/
theorem bounded_bus_makes_room_once : ∃ st st' st'' : State quadBus Nat,
    Run step (fun _ _ => True) (init quadBus Nat) fullSteps st ∧ step st (.publish 40) = none ∧
    Run step Receives st [.tryRecv 1, .tryRecv 0] st' ∧ step st' (.publish 40) = some st'' := by
  obtain ⟨st, hrun, hlog, hwait, hsubs, hlive⟩ := exists_run_of_exec step (fun _ _ => True)
    (s := init quadBus Nat) (l := fullSteps)
    (p := fun st => st.log.length = 3 ∧ (step st (.publish 40)).isNone = true ∧
      st.subs.length = 2 ∧ [1, 0].all fun i => (st.live i).any (·.cursor == 0)) (by decide +kernel)
  -- both are at the bound, and there is nobody else
  have hblocked : ∀ i, st.BlockedBy 1 i ↔ i ∈ [1, 0] := by
    intro i
    constructor
    · rintro ⟨s, hs, -⟩
      have hlt := (List.getElem?_eq_some_iff.mp (live_eq_some.mp hs).1).1
      simp only [List.mem_cons, List.not_mem_nil, or_false]
      omega
    · intro hi
      obtain ⟨s, hs, hcursor⟩ := (Option.any_eq_true _ _).mp (List.all_eq_true.mp hlive i hi)
      refine ⟨s, hs, ?_⟩
      rw [hlog, beq_iff_eq.mp hcursor]
      rfl
  obtain ⟨st', st'', hdrain, hstep, -⟩ :=
    (bounded_bus_makes_room rfl hrun (by rw [hlog]; norm_num) 40).2.2 [1, 0] (by decide) hblocked
  exact ⟨st, st', st'', hrun, Option.isNone_iff_eq_none.mp hwait, hdrain, hstep⟩

end Crossbar.Bus.Whole
