import Crossbar.Bus.Model
import Crossbar.Lib.RingLog

namespace Crossbar.Bus.Whole

open Function Crossbar.Lib

/-!
# Bus — whole calls

The calls of `src/platform/pod_bus.rs`, one call a step, for every ring size that `create` accepts
and any type of values.  Nothing comes between the operations of a call here: the odd stamp
of `publish_unchecked` is overwritten before anybody can see it, and the second stamp that
`try_recv` loads is the first one.

* `Bus.tryPublish` — with `slowestSubscriberCursor`, the scan over the subscriber slots;
* `Bus.connect` — with the first free slot claimed;
* `Bus.tryRecv` — `none` is an unsigned subtraction that underflows;
* `step` — one call, the death of a process, or the clock.

The publisher's process is the one that never dies.  A pid is never given to another process, so
`is_pid_alive` is exact.  Heartbeats and the checks of the file in `connect` are left out: they
only make `connect` fail, which changes nothing.

An unbounded bus is the list of the published values (`unbounded_bus_is_log`).
-/

/-! ### Parameters and shared memory -/

/-- The parameters that `create` and `create_bounded` accept. -/
structure Params where
  ringSize : Nat
  watermark : Option Nat
  ringSize_lt : ringSize < 2 ^ 64
  ringSize_pow : Config.isPowerOfTwo ringSize = true
  watermark_lt : ∀ w ∈ watermark, w < ringSize

namespace Params

variable (P : Params)

/-- The ring size is a power of two. -/
theorem ringSize_isPow : ∃ k, P.ringSize = 2 ^ k := (isPowerOfTwo_iff _).mp P.ringSize_pow

/-- The ring has a slot. -/
theorem ringSize_pos : 0 < P.ringSize := by
  obtain ⟨k, hk⟩ := P.ringSize_isPow
  rw [hk]
  positivity

/-- The ring slot of a sequence number, `seq & mask`. -/
def slotOf (seq : Nat) : Fin P.ringSize := maskIdx P.ringSize P.ringSize_pos seq

end Params

/-- The variants of `Error` that the calls return. -/
inductive Error where
  | full
  | invalidRegion
  | poolExhausted
  deriving DecidableEq

section

variable (P : Params) (V : Type)

/-- A slot of the ring. -/
structure Slot where
  stamp : Nat
  value : V

/-- The shared memory, and `cached_slowest` of the publisher. -/
structure Bus where
  writeSeq : Nat
  ring : Fin P.ringSize → Slot V
  slots : SlotIdx → SubSlot
  cachedSlowest : Nat

end

/-- A `BusSubscriber`, with the process it runs in. -/
structure Subscriber where
  pid : Nat
  cursor : Nat
  totalLagged : Nat
  slotIndex : Option SlotIdx
  deriving DecidableEq

variable {P : Params} {V : Type}

/-! ### Publishing -/

/-- The locals of `slowest_subscriber_cursor`. -/
structure Tally where
  slots : SlotIdx → SubSlot
  minCursor : Nat
  hasActive : Bool

/-- One slot of the scan: a slot whose claim is too old or whose process is dead is pruned. -/
def visit (now : Nat) (alive : Nat → Bool) (sc : Tally) (i : SlotIdx) : Tally :=
  match (sc.slots i).word with
  | .claiming ts =>
    -- `saturating_sub`: a claim from the future is a new one
    if now - ts > claimTimeout then { sc with slots := update sc.slots i ⟨0, .free⟩ }
    else sc
  | .active cursor =>
    if (sc.slots i).pid ≠ 0 ∧ alive (sc.slots i).pid = false then
      { sc with slots := update sc.slots i ⟨0, .free⟩ }
    else
      { sc with
        hasActive := true
        minCursor := if cursor < sc.minCursor then cursor else sc.minCursor }
  | .free => sc

/-- `PodBus::slowest_subscriber_cursor`. -/
def slowestSubscriberCursor (now : Nat) (alive : Nat → Bool) (slots : SlotIdx → SubSlot) :
    (SlotIdx → SubSlot) × Option Nat :=
  let sc := (List.finRange maxSubscriberSlots).foldl (visit now alive) ⟨slots, maxU64, false⟩
  (sc.slots, if sc.hasActive then some sc.minCursor else none)

namespace Bus

/-- `PodBus::publish_unchecked`. -/
def publishUnchecked (b : Bus P V) (v : V) : Bus P V :=
  { b with
    ring := update b.ring (P.slotOf b.writeSeq) ⟨wrap64 (b.writeSeq * 2 + 2), v⟩
    writeSeq := wrap64 (b.writeSeq + 1) }

/-- `PodBus::try_publish`. -/
def tryPublish (now : Nat) (alive : Nat → Bool) (b : Bus P V) (v : V) :
    Bus P V × Except Error Unit :=
  match P.watermark with
  | none => (b.publishUnchecked v, .ok ())
  | some w =>
    -- the fast path needs no scan; both checks compute `slowest + effective` in 64 bits
    if b.writeSeq ≥ wrap64 (b.cachedSlowest + (P.ringSize - w)) then
      match slowestSubscriberCursor now alive b.slots with
      | (slots, some slowest) =>
        if b.writeSeq ≥ wrap64 (slowest + (P.ringSize - w)) then
          ({ b with slots := slots, cachedSlowest := slowest }, .error .full)
        else
          (Bus.publishUnchecked { b with slots := slots, cachedSlowest := slowest } v, .ok ())
      -- no subscribers: the cached cursor stays, and the next call scans again
      | (slots, none) => (Bus.publishUnchecked { b with slots := slots } v, .ok ())
    else (b.publishUnchecked v, .ok ())

/-! ### Subscribers -/

/-- `BusSubscriber::connect` from a process: the header has the ring size in 32 bits. -/
def connect (pid : Nat) (b : Bus P V) : Bus P V × Except Error Subscriber :=
  if Config.isPowerOfTwo (wrap32 P.ringSize) = false then (b, .error .invalidRegion)
  else
    match P.watermark with
    | none => (b, .ok ⟨pid, b.writeSeq, 0, none⟩)
    | some _ =>
      match (List.finRange maxSubscriberSlots).find? fun i => (b.slots i).word = .free with
      | some i =>
        ({ b with
          slots := update b.slots i ⟨pid, .active (value62 b.writeSeq)⟩ },
          .ok ⟨pid, b.writeSeq, 0, some i⟩)
      | none => (b, .error .poolExhausted)

/-- `update_shm_cursor`. -/
def updateShmCursor (b : Bus P V) (s : Subscriber) : Bus P V :=
  match s.slotIndex with
  | some i => { b with slots := setWordAt b.slots i (.active (value62 s.cursor)) }
  | none => b

/-- The skip of `try_recv` to the oldest value in the ring. -/
def skipAhead (b : Bus P V) (s : Subscriber) : Option Subscriber := do
  let behind ← checkedSub b.writeSeq s.cursor
  if behind > P.ringSize then
    let oldest ← checkedSub b.writeSeq P.ringSize
    let skipped ← checkedSub oldest s.cursor
    some { s with totalLagged := wrap64 (s.totalLagged + skipped), cursor := oldest }
  else some s

/-- The rest of `try_recv`, with the slot of the cursor. -/
def readSlot (b : Bus P V) (s : Subscriber) (slot : Slot V) :
    Option (Bus P V × Subscriber × Option V) :=
  if slot.stamp &&& 1 ≠ 0 then some (b, s, none)
  else if slot.stamp = 0 then some (b, s, none)
  else if slot.stamp ≠ wrap64 (s.cursor * 2 + 2) then do
    -- overwritten: the cursor goes behind the value that is there, and the slot in the shared
    -- memory keeps the old one
    let writtenSeq ← checkedSub (slot.stamp / 2) 1
    let skipped ← checkedSub (wrap64 (writtenSeq + 1)) s.cursor
    some (b, { s with
      totalLagged := wrap64 (s.totalLagged + skipped)
      cursor := wrap64 (writtenSeq + 1) }, none)
  else
    let s := { s with cursor := wrap64 (s.cursor + 1) }
    some (b.updateShmCursor s, s, some slot.value)

/-- `BusSubscriber::try_recv`. -/
def tryRecv (b : Bus P V) (s : Subscriber) : Option (Bus P V × Subscriber × Option V) :=
  if s.cursor ≥ b.writeSeq then some (b, s, none)
  else do
    let s ← b.skipAhead s
    b.readSlot s (b.ring (P.slotOf s.cursor))

/-- `Drop for BusSubscriber`. -/
def drop (b : Bus P V) (s : Subscriber) : Bus P V :=
  match s.slotIndex with
  | some i => { b with slots := update b.slots i ⟨0, .free⟩ }
  | none => b

end Bus

/-! ### Sequences of calls -/

variable (P V) in
/-- The bus with its subscribers (`none` stands for one that has been dropped), the clock and
    the live processes; `log` records the published values. -/
structure State where
  bus : Bus P V
  subs : List (Option Subscriber)
  now : Nat
  alive : Nat → Bool
  log : List V

variable (V) in
/-- A call, the death of a process, or the clock. -/
inductive Act where
  | publish (v : V)
  | tryPublish (v : V)
  | connect (pid : Nat)
  | tryRecv (i : Nat)
  | drop (i : Nat)
  | exit (pid : Nat)
  | tick (n : Nat)

namespace State

variable (st : State P V)

/-- Subscriber `i` can make calls: it has not been dropped and its process is alive. -/
def live (i : Nat) : Option Subscriber :=
  match st.subs[i]? with
  | some (some s) => if st.alive s.pid then some s else none
  | _ => none

/-- The publisher's call has returned. -/
def published (v : V) (r : Bus P V × Except Error Unit) : State P V :=
  match r with
  | (bus, .ok _) => { st with bus := bus, log := st.log ++ [v] }
  | (bus, .error _) => { st with bus := bus }

end State

/-- One call.  `none` when there is nobody to make it, or when it does not return: `publish` on
    a bounded bus that is full waits for a subscriber. -/
def step (st : State P V) : Act V → Option (State P V)
  | .publish v =>
    match st.bus.tryPublish st.now st.alive v with
    | (bus, .ok _) => some { st with bus := bus, log := st.log ++ [v] }
    | (_, .error _) => none
  | .tryPublish v => some (st.published v (st.bus.tryPublish st.now st.alive v))
  | .connect pid =>
    if pid = 0 ∨ st.alive pid = false then none
    else
      match st.bus.connect pid with
      | (bus, .ok s) => some { st with bus := bus, subs := st.subs ++ [some s] }
      | (bus, .error _) => some { st with bus := bus }
  | .tryRecv i => do
    let s ← st.live i
    let (bus, s', _) ← st.bus.tryRecv s
    some { st with bus := bus, subs := st.subs.set i (some s') }
  | .drop i => do
    let s ← st.live i
    some { st with bus := st.bus.drop s, subs := st.subs.set i none }
  | .exit pid => some { st with alive := update st.alive pid false }
  | .tick n => some { st with now := st.now + n }

variable (P V) in
/-- The bus right after `create`. -/
def init [Inhabited V] : State P V where
  bus := ⟨0, fun _ => ⟨0, default⟩, fun _ => ⟨0, .free⟩, 0⟩
  subs := []
  now := 0
  alive := fun _ => true
  log := []

/-! ### What the calls do -/

namespace Bus

variable {b : Bus P V} {s : Subscriber}

section

variable {now : Nat} {alive : Nat → Bool} {v : V} {w : Nat} {slots : SlotIdx → SubSlot}

/-- Without a watermark there is no check. -/
theorem tryPublish_of_unbounded (hP : P.watermark = none) :
    b.tryPublish now alive v = (b.publishUnchecked v, .ok ()) := by
  unfold tryPublish
  rw [hP]

/-- The cached cursor will do. -/
theorem tryPublish_of_room (hw : P.watermark = some w)
    (hroom : ¬b.writeSeq ≥ wrap64 (b.cachedSlowest + (P.ringSize - w))) :
    b.tryPublish now alive v = (b.publishUnchecked v, .ok ()) := by
  unfold tryPublish
  rw [hw]
  exact if_neg hroom

/-- Otherwise the slots are scanned. -/
theorem tryPublish_of_scan (hw : P.watermark = some w)
    (hslow : b.writeSeq ≥ wrap64 (b.cachedSlowest + (P.ringSize - w))) {slowest : Nat}
    (hscan : slowestSubscriberCursor now alive b.slots = (slots, some slowest)) :
    b.tryPublish now alive v =
      if b.writeSeq ≥ wrap64 (slowest + (P.ringSize - w)) then
        (⟨b.writeSeq, b.ring, slots, slowest⟩, .error .full)
      else (Bus.publishUnchecked ⟨b.writeSeq, b.ring, slots, slowest⟩ v, .ok ()) := by
  unfold tryPublish
  rw [hw]
  dsimp only
  rw [if_pos hslow, hscan]

/-- Without subscribers there is nobody to wait for. -/
theorem tryPublish_of_nobody (hw : P.watermark = some w)
    (hslow : b.writeSeq ≥ wrap64 (b.cachedSlowest + (P.ringSize - w)))
    (hscan : slowestSubscriberCursor now alive b.slots = (slots, none)) :
    b.tryPublish now alive v =
      (Bus.publishUnchecked ⟨b.writeSeq, b.ring, slots, b.cachedSlowest⟩ v, .ok ()) := by
  unfold tryPublish
  rw [hw]
  dsimp only
  rw [if_pos hslow, hscan]

end

/-- `try_publish` publishes or is refused; what else it changes are the subscriber slots and
    `cached_slowest`. -/
theorem tryPublish_cases (now : Nat) (alive : Nat → Bool) (b : Bus P V) (v : V) :
    ∃ slots cached,
      b.tryPublish now alive v =
        (Bus.publishUnchecked ⟨b.writeSeq, b.ring, slots, cached⟩ v, .ok ()) ∨
      b.tryPublish now alive v = (⟨b.writeSeq, b.ring, slots, cached⟩, .error .full) := by
  unfold tryPublish
  split
  · exact ⟨b.slots, b.cachedSlowest, Or.inl rfl⟩
  · split
    · split
      · split
        · exact ⟨_, _, Or.inr rfl⟩
        · exact ⟨_, _, Or.inl rfl⟩
      · exact ⟨_, b.cachedSlowest, Or.inl rfl⟩
    · exact ⟨b.slots, b.cachedSlowest, Or.inl rfl⟩

/-- The cell of value number `q`. -/
def cell (q : Nat) (v : V) : Slot V := ⟨q * 2 + 2, v⟩

/-- The ring holds the end of the log. -/
structure Logs (b : Bus P V) (log : List V) : Prop where
  seq : b.writeSeq = log.length
  ring : RingHolds P.ringSize_pos cell b.ring log

variable {log : List V}

/-- The subscriber slots and `cached_slowest` do not matter. -/
theorem Logs.with_slots (h : b.Logs log) (slots : SlotIdx → SubSlot) (cached : Nat) :
    Bus.Logs ⟨b.writeSeq, b.ring, slots, cached⟩ log := ⟨h.seq, h.ring⟩

/-- A publish appends to the log. -/
theorem Logs.publish (h : b.Logs log) (hn : log.length < 2 ^ 62) (v : V) :
    (b.publishUnchecked v).Logs (log ++ [v]) := by
  refine ⟨?_, ?_⟩
  · show wrap64 (b.writeSeq + 1) = _
    rw [h.seq, List.length_append, List.length_singleton, wrap64_of_lt (by omega)]
  · have hpush := h.ring.push P.ringSize_isPow v
    show RingHolds _ cell (update b.ring (P.slotOf b.writeSeq) _) _
    rw [h.seq, wrap64_of_lt (by omega)]
    exact hpush

/-- The number of the value that a subscriber at cursor `c` gets next. -/
def nextNumber (P : Params) (n c : Nat) : Nat := max c (n - P.ringSize)

/-- A lagging cursor goes to the oldest value that is kept. -/
theorem skipAhead_eq (hlag : s.totalLagged ≤ s.cursor) (hlt : s.cursor < b.writeSeq)
    (hn : b.writeSeq < 2 ^ 64) :
    b.skipAhead s = some { s with
      cursor := nextNumber P b.writeSeq s.cursor
      totalLagged := s.totalLagged + (nextNumber P b.writeSeq s.cursor - s.cursor) } := by
  unfold skipAhead nextNumber
  rw [checkedSub_of_le (Nat.le_of_lt hlt)]
  by_cases hbehind : b.writeSeq - s.cursor > P.ringSize
  · have hmax : max s.cursor (b.writeSeq - P.ringSize) = b.writeSeq - P.ringSize := by omega
    rw [hmax]
    simp only [Option.bind_eq_bind, Option.bind_some, if_pos hbehind]
    rw [checkedSub_of_le (by omega), Option.bind_some, checkedSub_of_le (by omega),
      Option.bind_some, wrap64_of_lt (by omega)]
  · have hmax : max s.cursor (b.writeSeq - P.ringSize) = s.cursor := by omega
    rw [hmax, Nat.sub_self, Nat.add_zero]
    simp only [Option.bind_eq_bind, Option.bind_some, if_neg hbehind]

/-- A slot that holds the value of the cursor. -/
theorem readSlot_eq (v : V) (hn : s.cursor + 1 < 2 ^ 63) :
    b.readSlot s (cell s.cursor v) = some (b.updateShmCursor { s with cursor := s.cursor + 1 },
      { s with cursor := s.cursor + 1 }, some v) := by
  have heven : (s.cursor * 2 + 2) &&& 1 = 0 := by
    rw [Nat.and_one_is_mod]
    omega
  unfold readSlot cell
  dsimp only
  rw [if_neg (not_not.mpr heven), if_neg (by omega), wrap64_of_lt (by omega),
    if_neg (not_not.mpr rfl), wrap64_of_lt (by omega)]

/-- **`try_recv` on the log.** A subscriber behind the head gets the value of its cursor, or the
    oldest one in the ring. -/
theorem tryRecv_eq (h : b.Logs log) (hn : log.length < 2 ^ 62) (hlag : s.totalLagged ≤ s.cursor)
    (hlt : s.cursor < log.length) :
    ∃ v s', log[nextNumber P log.length s.cursor]? = some v ∧
      s' = { s with
        cursor := nextNumber P log.length s.cursor + 1
        totalLagged := s.totalLagged + (nextNumber P log.length s.cursor - s.cursor) } ∧
      b.tryRecv s = some (b.updateShmCursor s', s', some v) := by
  have hpos := P.ringSize_pos
  have hm : nextNumber P log.length s.cursor < log.length := by
    unfold nextNumber
    omega
  refine ⟨log[nextNumber P log.length s.cursor], _, List.getElem?_eq_getElem hm, rfl, ?_⟩
  have hcell := h.ring _ _ (List.getElem?_eq_getElem hm) (by unfold nextNumber; omega)
  unfold tryRecv
  rw [if_neg (by rw [h.seq]; omega), skipAhead_eq hlag (by rw [h.seq]; exact hlt)
    (by rw [h.seq]; omega), h.seq]
  show b.readSlot _ (b.ring (maskIdx P.ringSize P.ringSize_pos _)) = _
  rw [hcell]
  have hm' : nextNumber P log.length s.cursor + 1 < 2 ^ 63 := by omega
  exact readSlot_eq _ hm'

/-- A subscriber at the head gets nothing. -/
theorem tryRecv_of_head (h : b.writeSeq ≤ s.cursor) : b.tryRecv s = some (b, s, none) := if_pos h

/-- A new subscriber of `pid` has slot `i`, and the slots are then `slots`: there is none on an
    unbounded bus, and on a bounded bus it was free. -/
structure Joined (b : Bus P V) (pid : Nat) (slots : SlotIdx → SubSlot) (i : Option SlotIdx) :
    Prop where
  unbounded : P.watermark = none → slots = b.slots ∧ i = none
  bounded : ∀ {w}, P.watermark = some w → ∃ j, i = some j ∧ (b.slots j).word = .free ∧
    slots = update b.slots j ⟨pid, .active (value62 b.writeSeq)⟩

/-- `connect` changes the slots of a bounded bus only, and starts at the head. -/
theorem connect_cases (pid : Nat) (b : Bus P V) :
    (∃ slots i, b.connect pid = (⟨b.writeSeq, b.ring, slots, b.cachedSlowest⟩,
      .ok ⟨pid, b.writeSeq, 0, i⟩) ∧ b.Joined pid slots i) ∨
    ∃ e, b.connect pid = (b, .error e) := by
  unfold connect
  split
  · exact Or.inr ⟨_, rfl⟩
  · split
    · rename_i hw
      refine Or.inl ⟨b.slots, none, rfl, fun _ => ⟨rfl, rfl⟩, fun hw' => ?_⟩
      rw [hw] at hw'
      cases hw'
    · rename_i w hw
      split
      · rename_i j hj
        refine Or.inl ⟨_, _, rfl, fun hw' => ?_, fun _ => ⟨j, rfl, ?_, rfl⟩⟩
        · rw [hw] at hw'
          cases hw'
        · have hfree := List.find?_some (p := fun i => decide ((b.slots i).word = .free)) hj
          exact of_decide_eq_true hfree
      · exact Or.inr ⟨_, rfl⟩

/-- `connect` to a bounded bus takes the first free slot. -/
theorem connect_of_free (hsize : P.ringSize < 2 ^ 32) {w : Nat} (hw : P.watermark = some w)
    (pid : Nat) {i : SlotIdx} (hfind : (List.finRange maxSubscriberSlots).find?
      (fun i => decide ((b.slots i).word = .free)) = some i) :
    b.connect pid =
      (⟨b.writeSeq, b.ring, update b.slots i ⟨pid, .active (value62 b.writeSeq)⟩,
        b.cachedSlowest⟩, .ok ⟨pid, b.writeSeq, 0, some i⟩) := by
  unfold connect
  rw [wrap32_of_lt hsize, P.ringSize_pow, if_neg (by decide), hw]
  dsimp only
  rw [hfind]

/-- `connect` fails when all slots are taken. -/
theorem connect_of_taken (hsize : P.ringSize < 2 ^ 32) {w : Nat} (hw : P.watermark = some w)
    (pid : Nat) (hfind : (List.finRange maxSubscriberSlots).find?
      (fun i => decide ((b.slots i).word = .free)) = none) :
    b.connect pid = (b, .error .poolExhausted) := by
  unfold connect
  rw [wrap32_of_lt hsize, P.ringSize_pow, if_neg (by decide), hw]
  dsimp only
  rw [hfind]

/-- A ring of `2 ^ 32` slots or more has no subscribers: the header has the size 0. -/
theorem connect_unbounded (hP : P.watermark = none) (pid : Nat) (b : Bus P V) :
    b.connect pid =
      if P.ringSize < 2 ^ 32 then (b, .ok ⟨pid, b.writeSeq, 0, none⟩)
      else (b, .error .invalidRegion) := by
  unfold connect
  by_cases hlt : P.ringSize < 2 ^ 32
  · rw [if_pos hlt, wrap32_of_lt hlt, P.ringSize_pow, if_neg (by decide), hP]
  · have hzero : wrap32 P.ringSize = 0 := by
      obtain ⟨k, hk⟩ := P.ringSize_isPow
      have hle : 32 ≤ k := by
        by_contra hk'
        exact hlt (hk ▸ Nat.pow_lt_pow_right (by omega) (by omega))
      rw [wrap32, hk]
      exact Nat.mod_eq_zero_of_dvd (Nat.pow_dvd_pow 2 hle)
    rw [if_neg hlt, hzero, if_pos (by decide)]

end Bus

/-! ### The invariant -/

variable {st st' : State P V}

/-- The ring holds the end of the log; a subscriber is not ahead of it and has skipped no more
    numbers than it has passed; on an unbounded bus it has no slot. -/
structure State.Inv (st : State P V) : Prop where
  logs : st.bus.Logs st.log
  subs : ∀ s, some s ∈ st.subs → s.totalLagged ≤ s.cursor ∧ s.cursor ≤ st.log.length ∧
    (P.watermark = none → s.slotIndex = none)

/-- A live subscriber is one of a live process. -/
theorem live_eq_some {i : Nat} {s : Subscriber} :
    st.live i = some s ↔ st.subs[i]? = some (some s) ∧ st.alive s.pid = true := by
  unfold State.live
  constructor
  · intro h
    split at h
    · rename_i s' hs
      split at h
      · rename_i halive
        cases h
        exact ⟨hs, halive⟩
      · cases h
    · cases h
  · rintro ⟨hs, halive⟩
    simp only [hs, halive, if_true]

/-- What a call of `try_recv` leaves. -/
theorem step_tryRecv {i : Nat} (h : step st (.tryRecv i) = some st') :
    ∃ s bus s' r, st.live i = some s ∧ st.bus.tryRecv s = some (bus, s', r) ∧
      st' = { st with bus := bus, subs := st.subs.set i (some s') } := by
  obtain ⟨s, hs, h⟩ := Option.bind_eq_some_iff.mp h
  obtain ⟨⟨bus, s', r⟩, hr, h⟩ := Option.bind_eq_some_iff.mp h
  cases h
  exact ⟨s, bus, s', r, hs, hr, rfl⟩

/-- What dropping a subscriber leaves. -/
theorem step_drop {i : Nat} (h : step st (.drop i) = some st') :
    ∃ s, st.live i = some s ∧
      st' = { st with bus := st.bus.drop s, subs := st.subs.set i none } := by
  obtain ⟨s, hs, h⟩ := Option.bind_eq_some_iff.mp h
  cases h
  exact ⟨s, hs, rfl⟩

/-- What `connect` leaves: nothing is different, or there is a new subscriber. -/
theorem step_connect {pid : Nat} (h : step st (.connect pid) = some st') :
    pid ≠ 0 ∧ st.alive pid = true ∧
      (st' = st ∨ ∃ slots i, st.bus.Joined pid slots i ∧
        st' = { st with
          bus := ⟨st.bus.writeSeq, st.bus.ring, slots, st.bus.cachedSlowest⟩
          subs := st.subs ++ [some ⟨pid, st.bus.writeSeq, 0, i⟩] }) := by
  simp only [step] at h
  split at h
  · cases h
  · rename_i hpid
    rw [not_or, Bool.not_eq_false] at hpid
    refine ⟨hpid.1, hpid.2, ?_⟩
    rcases st.bus.connect_cases pid with ⟨slots, i, hok, hjoin⟩ | ⟨e, herr⟩
    · simp only [hok] at h
      cases h
      exact Or.inr ⟨slots, i, hjoin, rfl⟩
    · simp only [herr] at h
      cases h
      exact Or.inl rfl

/-- A subscriber's calls leave the ring alone. -/
theorem Bus.updateShmCursor_logs {b : Bus P V} {log : List V} (h : b.Logs log) (s : Subscriber) :
    (b.updateShmCursor s).Logs log := by
  unfold Bus.updateShmCursor
  split
  · exact h.with_slots _ _
  · exact h

/-- `drop` does not touch the ring. -/
theorem Bus.drop_logs {b : Bus P V} {log : List V} (h : b.Logs log) (s : Subscriber) :
    (b.drop s).Logs log := by
  unfold Bus.drop
  split
  · exact h.with_slots _ _
  · exact h

namespace State.Inv

/-- What `try_recv` leaves: nothing is different, or the subscriber has passed a value. -/
theorem tryRecv_cases (h : st.Inv) (hn : st.log.length < 2 ^ 62) {i : Nat}
    (hstep : Whole.step st (.tryRecv i) = some st') :
    st' = st ∨ ∃ s m s', st.live i = some s ∧ s.cursor ≤ m ∧ m < st.log.length ∧
      s' = { s with cursor := m + 1, totalLagged := s.totalLagged + (m - s.cursor) } ∧
      st' = { st with bus := st.bus.updateShmCursor s', subs := st.subs.set i (some s') } := by
  obtain ⟨s, bus, s', r, hs, hr, rfl⟩ := step_tryRecv hstep
  have hmem := (live_eq_some.mp hs).1
  obtain ⟨hlag, -, -⟩ := h.subs s (List.mem_of_getElem? hmem)
  by_cases hlt : s.cursor < st.log.length
  · obtain ⟨v, s₁, hv, hs₁, hrecv⟩ := Bus.tryRecv_eq h.logs hn hlag hlt
    rw [hrecv] at hr
    cases hr
    have hm := (List.getElem?_eq_some_iff.mp hv).1
    exact Or.inr ⟨s, _, s', hs, Nat.le_max_left .., hm, hs₁, rfl⟩
  · rw [Bus.tryRecv_of_head (by rw [h.logs.seq]; omega)] at hr
    cases hr
    obtain ⟨hi, hget⟩ := List.getElem?_eq_some_iff.mp hmem
    left
    rw [← hget, List.set_getElem_self]

/-- The subscribers after a publish. -/
theorem subs_append (h : st.Inv) (v : V) {bus : Bus P V} (hlogs : bus.Logs (st.log ++ [v])) :
    State.Inv { st with bus := bus, log := st.log ++ [v] } := by
  refine ⟨hlogs, fun s hs => ?_⟩
  obtain ⟨hlag, hle, hslot⟩ := h.subs s hs
  refine ⟨hlag, ?_, hslot⟩
  show s.cursor ≤ (st.log ++ [v]).length
  rw [List.length_append]
  omega

/-- One subscriber changes, within the bounds of the log. -/
theorem subs_set (h : st.Inv) {bus : Bus P V} (hlogs : bus.Logs st.log) (i : Nat)
    {o : Option Subscriber} (hnew : ∀ s, o = some s → s.totalLagged ≤ s.cursor ∧
      s.cursor ≤ st.log.length ∧ (P.watermark = none → s.slotIndex = none)) :
    State.Inv { st with bus := bus, subs := st.subs.set i o } := by
  refine ⟨hlogs, fun s hs => ?_⟩
  rcases List.mem_or_eq_of_mem_set hs with hold | heq
  · exact h.subs s hold
  · exact hnew s heq.symm

/-- **Step.** -/
theorem step (h : st.Inv) (hn : st.log.length < 2 ^ 62) {a : Act V}
    (hstep : Whole.step st a = some st') : st'.Inv := by
  cases a with
  | publish v =>
    obtain ⟨slots, cached, hok | hfull⟩ := st.bus.tryPublish_cases st.now st.alive v
    · simp only [Whole.step, hok] at hstep
      cases hstep
      exact h.subs_append v ((h.logs.with_slots slots cached).publish hn v)
    · simp only [Whole.step, hfull] at hstep
      cases hstep
  | tryPublish v =>
    cases hstep
    obtain ⟨slots, cached, hok | hfull⟩ := st.bus.tryPublish_cases st.now st.alive v
    · rw [hok]
      exact h.subs_append v ((h.logs.with_slots slots cached).publish hn v)
    · rw [hfull]
      exact ⟨h.logs.with_slots slots cached, h.subs⟩
  | connect pid =>
    obtain ⟨-, -, rfl | ⟨slots, i, hjoin, rfl⟩⟩ := step_connect hstep
    · exact h
    · refine ⟨h.logs.with_slots slots _, fun s hs => ?_⟩
      rcases List.mem_append.mp hs with hold | hnew
      · exact h.subs s hold
      · cases Option.some.inj (List.mem_singleton.mp hnew)
        exact ⟨Nat.zero_le _, Nat.le_of_eq h.logs.seq, fun hP => (hjoin.unbounded hP).2⟩
  | tryRecv i =>
    obtain rfl | ⟨s, m, s', hs, hle, hlt, rfl, rfl⟩ := h.tryRecv_cases hn hstep
    · exact h
    · obtain ⟨hlag, -, hslot⟩ := h.subs s (List.mem_of_getElem? (live_eq_some.mp hs).1)
      refine h.subs_set (Bus.updateShmCursor_logs h.logs _) i (fun s' hs' => ?_)
      cases hs'
      refine ⟨?_, hlt, hslot⟩
      show s.totalLagged + (m - s.cursor) ≤ m + 1
      omega
  | drop i =>
    obtain ⟨s, hs, rfl⟩ := step_drop hstep
    exact h.subs_set (Bus.drop_logs h.logs s) i (fun s hs => by cases hs)
  | exit | tick =>
    cases hstep
    exact ⟨h.logs, h.subs⟩

end State.Inv

/-- The log only grows. -/
theorem log_step {a : Act V} (hstep : step st a = some st') :
    st'.log = st.log ∨ ∃ v, st'.log = st.log ++ [v] := by
  cases a with
  | publish v =>
    simp only [step] at hstep
    split at hstep <;> cases hstep
    exact Or.inr ⟨v, rfl⟩
  | tryPublish v =>
    cases hstep
    unfold State.published
    split
    · exact Or.inr ⟨v, rfl⟩
    · exact Or.inl rfl
  | connect pid =>
    obtain ⟨-, -, rfl | ⟨_, _, _, rfl⟩⟩ := step_connect hstep
    · exact Or.inl rfl
    · exact Or.inl rfl
  | tryRecv i =>
    obtain ⟨_, _, _, _, _, _, rfl⟩ := step_tryRecv hstep
    exact Or.inl rfl
  | drop i =>
    obtain ⟨_, _, rfl⟩ := step_drop hstep
    exact Or.inl rfl
  | exit | tick =>
    cases hstep
    exact Or.inl rfl

/-- What every call keeps below `2 ^ 62` publishes, every run keeps. -/
theorem below_run [Inhabited V] {X : State P V → Prop} {as : List (Act V)}
    (hrun : Run step (fun _ _ => True) (init P V) as st) (hn : st.log.length < 2 ^ 62)
    (h₀ : X (init P V))
    (hX : ∀ {st a st'}, st.log.length < 2 ^ 62 → X st → step st a = some st' → X st') : X st := by
  refine hrun.invariant (I := fun st => st.log.length < 2 ^ 62 → X st) (fun _ => h₀)
    (fun st a st' hI _ hstep hn' => ?_) hn
  have hlt : st.log.length < 2 ^ 62 := by
    rcases log_step hstep with hsame | ⟨v, hmore⟩
    · rw [← hsame]
      exact hn'
    · rw [hmore, List.length_append] at hn'
      omega
  exact hX hlt (hI hlt) hstep

/-- An empty log, and nobody has joined. -/
theorem inv_init [Inhabited V] : (init P V).Inv :=
  ⟨⟨rfl, RingHolds.nil _⟩, fun s hs => absurd hs List.not_mem_nil⟩

/-- **Run.** -/
theorem inv_run [Inhabited V] {as : List (Act V)}
    (hrun : Run step (fun _ _ => True) (init P V) as st) (hn : st.log.length < 2 ^ 62) : st.Inv :=
  below_run hrun hn inv_init fun hn h hstep => h.step hn hstep

/-! ### The unbounded bus -/

/-- The subscriber that makes a call; a new one comes at the end of the list. -/
def Act.caller (st : State P V) : Act V → Option Nat
  | .connect _ => some st.subs.length
  | .tryRecv i | .drop i => some i
  | _ => none

/-- A subscriber's call leaves an unbounded bus and the other subscribers alone. -/
theorem caller_frame (hP : P.watermark = none) (h : st.Inv) (hn : st.log.length < 2 ^ 62)
    {a : Act V} {i : Nat} (hi : a.caller st = some i) (hstep : step st a = some st') :
    st'.bus = st.bus ∧ ∀ j, j ≠ i → st'.subs[j]? = st.subs[j]? := by
  cases a with
  | connect pid =>
    cases hi
    obtain ⟨-, -, rfl | ⟨slots, i, hjoin, rfl⟩⟩ := step_connect hstep
    · exact ⟨rfl, fun _ _ => rfl⟩
    · obtain ⟨rfl, -⟩ := hjoin.unbounded hP
      refine ⟨rfl, fun j hj => ?_⟩
      show (st.subs ++ [_])[j]? = _
      rcases Nat.lt_or_gt_of_ne hj with hlt | hgt
      · exact List.getElem?_append_left hlt
      · rw [List.getElem?_eq_none (by simp; omega), List.getElem?_eq_none (by omega)]
  | tryRecv i =>
    cases hi
    obtain rfl | ⟨s, m, s', hs, -, -, rfl, rfl⟩ := h.tryRecv_cases hn hstep
    · exact ⟨rfl, fun _ _ => rfl⟩
    · obtain ⟨-, -, hslot⟩ := h.subs s (List.mem_of_getElem? (live_eq_some.mp hs).1)
      refine ⟨?_, fun j hj => List.getElem?_set_ne (Ne.symm hj)⟩
      simp only [Bus.updateShmCursor, hslot hP]
  | drop i =>
    cases hi
    obtain ⟨s, hs, rfl⟩ := step_drop hstep
    obtain ⟨-, -, hslot⟩ := h.subs s (List.mem_of_getElem? (live_eq_some.mp hs).1)
    refine ⟨?_, fun j hj => List.getElem?_set_ne (Ne.symm hj)⟩
    simp only [Bus.drop, hslot hP]
  | _ => cases hi

/-- **An unbounded bus is the list of the published values.** After any sequence of whole calls,
    with a ring of any power of two and fewer than `2 ^ 62` values published: every publish adds a
    value; a subscriber at cursor `c` gets nothing from `try_recv` if `c` is the number `n` of
    values, and otherwise value number `m = max c (n - R)`, with which its cursor becomes `m + 1`
    and `m - c` is added to `total_lagged`; a new subscriber starts at cursor `n`; and no call of
    a subscriber changes the bus or another subscriber. -/
theorem unbounded_bus_is_log [Inhabited V] (hP : P.watermark = none) {as : List (Act V)}
    (hrun : Run step (fun _ _ => True) (init P V) as st) (hn : st.log.length < 2 ^ 62) :
    (∀ v, ∃ st', step st (.publish v) = some st' ∧ step st (.tryPublish v) = some st' ∧
      st'.log = st.log ++ [v]) ∧
    (∀ (i : Nat) (s : Subscriber), st.subs[i]? = some (some s) → s.cursor ≤ st.log.length ∧
      (s.cursor = st.log.length → st.bus.tryRecv s = some (st.bus, s, none)) ∧
      (s.cursor < st.log.length → ∃ v,
        st.log[max s.cursor (st.log.length - P.ringSize)]? = some v ∧
        st.bus.tryRecv s = some (st.bus, { s with
          cursor := max s.cursor (st.log.length - P.ringSize) + 1
          totalLagged := s.totalLagged +
            (max s.cursor (st.log.length - P.ringSize) - s.cursor) }, some v))) ∧
    (∀ pid, st.bus.connect pid =
      if P.ringSize < 2 ^ 32 then (st.bus, .ok ⟨pid, st.log.length, 0, none⟩)
      else (st.bus, .error .invalidRegion)) ∧
    ∀ (a : Act V) (i : Nat) (st' : State P V), a.caller st = some i → step st a = some st' →
      st'.bus = st.bus ∧ ∀ j, j ≠ i → st'.subs[j]? = st.subs[j]? := by
  have h := inv_run hrun hn
  have hpublish : ∀ v, st.bus.tryPublish st.now st.alive v =
      (st.bus.publishUnchecked v, .ok ()) := fun v => Bus.tryPublish_of_unbounded hP
  refine ⟨fun v => ?_, fun i s hs => ?_, fun pid => ?_,
    fun a i st' hi hstep => caller_frame hP h hn hi hstep⟩
  · refine ⟨{ st with bus := st.bus.publishUnchecked v, log := st.log ++ [v] }, ?_, ?_, rfl⟩
    · simp only [step, hpublish]
    · simp only [step, hpublish, State.published]
  · obtain ⟨hlag, hle, hslot⟩ := h.subs s (List.mem_of_getElem? hs)
    refine ⟨hle, fun heq => Bus.tryRecv_of_head (by rw [h.logs.seq]; omega), fun hlt => ?_⟩
    obtain ⟨v, s', hv, rfl, hrecv⟩ := Bus.tryRecv_eq h.logs hn hlag hlt
    refine ⟨v, hv, hrecv.trans ?_⟩
    simp only [Bus.updateShmCursor, hslot hP]
    rfl
  · rw [Bus.connect_unbounded hP, h.logs.seq]

/-- Eight slots, unbounded. -/
def openBus : Params where
  ringSize := 8
  watermark := none
  ringSize_lt := by norm_num
  ringSize_pow := rfl
  watermark_lt := fun _ hw => absurd hw (Option.not_mem_none _)

/-- A subscriber that is one value more than the ring behind. -/
def lappedSteps : List (Act Nat) := .connect 7 :: (List.range 9).map (fun n => .publish (10 * n))

/-- It gets value number 1, and has lagged by one. -/
theorem unbounded_bus_lapped : ∃ (st : State openBus Nat) (s : Subscriber),
    Run step (fun _ _ => True) (init openBus Nat) lappedSteps st ∧ st.subs[0]? = some (some s) ∧
    s = ⟨7, 0, 0, none⟩ ∧ st.bus.tryRecv s = some (st.bus, ⟨7, 2, 1, none⟩, some 10) := by
  obtain ⟨st, hrun, hlog, hs⟩ := exists_run_of_exec step (fun _ _ => True) (s := init openBus Nat)
    (l := lappedSteps) (p := fun st => st.log = (List.range 9).map (10 * ·) ∧
      st.subs[0]? = some (some (Subscriber.mk 7 0 0 none))) (by decide +kernel)
  have hlen : st.log.length = 9 := by rw [hlog]; rfl
  obtain ⟨-, hrecv, -⟩ := unbounded_bus_is_log rfl hrun (by rw [hlen]; norm_num)
  obtain ⟨v, hv, hget⟩ := (hrecv 0 _ hs).2.2 (by rw [hlen]; decide)
  rw [hlen] at hv hget
  rw [hlog] at hv
  obtain rfl : 10 = v := Option.some.inj hv
  exact ⟨st, _, hrun, hs, rfl, hget⟩

end Crossbar.Bus.Whole
