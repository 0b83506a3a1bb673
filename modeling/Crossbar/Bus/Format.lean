import Crossbar.Mapping.Create

namespace Crossbar.BusFormat

open Crossbar.Lib
open Crossbar.Mapping (Mem Agree passed passedWith)

/-!
# Bus — the file that `create` writes and `connect` reads

The header of a `PodBus` segment, the subscriber slots of a bounded bus behind it, and the ring.
`create_inner` computes the length of the file and writes them; `BusSubscriber::connect` maps
the file and checks the header before it derives its pointers from it.

* `connect` — the checks in their order; the `View` it returns carries what they guarantee;
* `createInner` — every write to the new file, and whether one goes behind its mapping;
* `create_stays_in_mapping` — its own writes stay in the mapping exactly when the length does not
  overflow: the arithmetic is not checked;
* `created_bus_connects` — which types connect to the bus, and what they see.  The ring size is
  stored in 32 bits, so nobody connects to a larger ring;
* `bus_accesses_stay_in_mapping` — and whatever a file holds that `connect` accepts, the accesses
  of the subscriber stay in its mapping.

`usize` has 64 bits.  The claim of a subscriber slot, the last step of `connect`, is in
`Crossbar.Bus.Model`.
-/

/-! ### The layout -/

/-- `POD_BUS_MAGIC`, `b"XPOD_ZC\0"`. -/
def podBusMagic : List UInt8 := [0x58, 0x50, 0x4f, 0x44, 0x5f, 0x5a, 0x43, 0x00]

/-- `POD_BUS_VERSION_V1`: unbounded. -/
def podBusVersionV1 : Nat := 1

/-- `POD_BUS_VERSION_V2`, which `connect` rejects. -/
def podBusVersionV2 : Nat := 2

/-- `POD_BUS_VERSION_V3`: bounded. -/
def podBusVersionV3 : Nat := 3

/-- `POD_BUS_HEADER_SIZE`. -/
def podBusHeaderSize : Nat := 64

/-- `SUBSCRIBER_SLOT_SIZE`. -/
def subscriberSlotSize : Nat := 16

/-- `SUBSCRIBER_SLOTS_SECTION_SIZE`. -/
def subscriberSlotsSectionSize : Nat := 64 * subscriberSlotSize

/-- `PH_MAGIC`. -/
def phMagic : Nat := 0

/-- `PH_VERSION`. -/
def phVersion : Nat := 8

/-- `PH_RING_SIZE`. -/
def phRingSize : Nat := 12

/-- `PH_VALUE_SIZE`. -/
def phValueSize : Nat := 16

/-- `PH_VALUE_ALIGN`. -/
def phValueAlign : Nat := 20

/-- `PH_HEARTBEAT_US`. -/
def phHeartbeatUs : Nat := 24

/-- `PH_WRITE_SEQ`. -/
def phWriteSeq : Nat := 32

/-- `PH_PUBLISHER_PID`. -/
def phPublisherPid : Nat := 40

/-- `PH_WATERMARK`. -/
def phWatermark : Nat := 48

/-- `SS_PID`. -/
def ssPid : Nat := 0

/-- `SS_STATE_CURSOR`. -/
def ssStateCursor : Nat := 8

/-- `HEARTBEAT_STALE_US`. -/
def heartbeatStaleUs : Nat := 5000000

/-- `MAX_POD_ALIGN`. -/
def maxPodAlign : Nat := 8

/-- A `Pod` type, by the size and the alignment of its values. -/
structure PodType where
  size : Nat
  align : Nat
  size_lt : size < 2 ^ 63

/-- `slot_size`, for an alignment of at most 8: the stamp, the value, and padding to a multiple of
    a cache line. -/
def slotSize (T : PodType) : Nat := (8 + T.size + 63) / 64 * 64

/-- Where the ring of a bus of this version starts. -/
def ringOffset (version : Nat) : Nat :=
  if podBusVersionV3 ≤ version then podBusHeaderSize + subscriberSlotsSectionSize
  else podBusHeaderSize

/-- `region_size_for_version`, in the arithmetic of `usize`. -/
def regionSizeForVersion (T : PodType) (ringSize version : Nat) : Nat :=
  wrap64 (ringOffset version + wrap64 (ringSize * slotSize T))

/-- Where `slot` and `slot_mut` find a slot of the ring, in the arithmetic of `usize`. -/
def slotOff (T : PodType) (version idx : Nat) : Nat :=
  ringOffset version + wrap64 (idx * slotSize T)

/-- Where a slot of the subscriber table is. -/
def subscriberSlotOff (idx : Nat) : Nat := podBusHeaderSize + idx * subscriberSlotSize

/-- What `region_size_for_version` means to compute. -/
def exactSize (T : PodType) (ringSize version : Nat) : Nat :=
  ringOffset version + ringSize * slotSize T

/-- A slot has room for stamp and value, and wastes less than 64 bytes. -/
theorem slotSize_bounds (T : PodType) : 8 + T.size ≤ slotSize T ∧ slotSize T ≤ T.size + 71 := by
  unfold slotSize
  omega

/-- Slots are whole cache lines. -/
theorem slotSize_dvd (T : PodType) : 64 ∣ slotSize T := Nat.dvd_mul_left ..

/-- The ring begins at a cache line. -/
theorem ringOffset_dvd (version : Nat) : 64 ∣ ringOffset version := by
  unfold ringOffset
  split <;> decide

/-- The ring begins after 64 bytes at least and 1088 at most. -/
theorem ringOffset_le (version : Nat) : 64 ≤ ringOffset version ∧ ringOffset version ≤ 1088 := by
  unfold ringOffset
  split <;> decide

/-- Every slot begins at a cache line. -/
theorem slotOff_dvd (T : PodType) (version idx : Nat) : 64 ∣ slotOff T version idx := by
  have hmul : 64 ∣ idx * slotSize T := Nat.dvd_mul_left_of_dvd (slotSize_dvd T) idx
  exact Nat.dvd_add (ringOffset_dvd version) ((Nat.dvd_mod_iff (by decide)).mpr hmul)

/-- Slot offsets that do not wrap. -/
theorem slotOff_of_lt {T : PodType} {idx : Nat} (version : Nat) (h : idx * slotSize T < 2 ^ 64) :
    slotOff T version idx = ringOffset version + idx * slotSize T :=
  congrArg _ (Nat.mod_eq_of_lt h)

/-- The slots of a ring end where it ends. -/
theorem slotOff_add_le (T : PodType) (version : Nat) {idx ringSize : Nat} (h : idx < ringSize) :
    slotOff T version idx + slotSize T ≤ exactSize T ringSize version := by
  have hwrap : wrap64 (idx * slotSize T) ≤ idx * slotSize T := Nat.mod_le ..
  have hmul : idx * slotSize T + slotSize T ≤ ringSize * slotSize T := by
    rw [← Nat.succ_mul]
    exact Nat.mul_le_mul_right _ h
  unfold slotOff exactSize
  omega

/-- The computed size is the exact one, wrapped. -/
theorem regionSizeForVersion_eq (T : PodType) (ringSize version : Nat) :
    regionSizeForVersion T ringSize version = exactSize T ringSize version % 2 ^ 64 := by
  unfold regionSizeForVersion exactSize wrap64
  rw [Nat.add_mod_mod]

/-- The ring of a header fits in memory: it has at most 2³¹ slots, and a value at most 2³² bytes. -/
theorem exactSize_lt {T : PodType} {ringSize : Nat} (hpow : Config.isPowerOfTwo ringSize = true)
    (hring : ringSize < 2 ^ 32) (hsize : T.size < 2 ^ 32) (version : Nat) :
    exactSize T ringSize version < 2 ^ 64 := by
  obtain ⟨k, rfl⟩ := (isPowerOfTwo_iff _).mp hpow
  have hk : k ≤ 31 := by
    have := (Nat.pow_lt_pow_iff_right (by decide : 1 < 2)).mp hring
    omega
  have hle : 2 ^ k ≤ 2 ^ 31 := Nat.pow_le_pow_right (by decide) hk
  have hslot := (slotSize_bounds T).2
  have hmul : 2 ^ k * slotSize T ≤ 2 ^ 31 * (2 ^ 32 + 71) := Nat.mul_le_mul hle (by omega)
  have hoff := (ringOffset_le version).2
  unfold exactSize
  omega

/-! ### `BusSubscriber::connect` -/

/-- The errors of `create_inner` and `connect` around the file. -/
inductive Error where
  | alignmentError (align max : Nat)
  | io
  | invalidRegion (msg : String)
  | clockError
  | publisherDead
  deriving DecidableEq

/-- What a subscriber derives from a mapping of `len` bytes.  The ring is in it. -/
structure View (T : PodType) (len : Nat) where
  version : Nat
  ringSize : Nat
  cursor : Nat
  pow : Config.isPowerOfTwo ringSize = true
  fits : exactSize T ringSize version ≤ len

/-- `BusSubscriber::connect` from the mapping on, up to the claim of a slot; `now` is the clock,
    `none` when it is behind the epoch. -/
def connect (T : PodType) (len : Nat) (mem : Mem) (now : Option Nat) :
    Except Error (View T len) :=
  let version := mem.readLe phVersion 4
  let ringSize := mem.readLe phRingSize 4
  let valueSize := mem.readLe phValueSize 4
  let valueAlign := mem.readLe phValueAlign 4
  if maxPodAlign < T.align then .error (.alignmentError T.align maxPodAlign)
  else if len < podBusHeaderSize then
    .error (.invalidRegion "PodBus region too small for header")
  else if (List.range 8).map (fun i => mem (phMagic + i)) ≠ podBusMagic then
    .error (.invalidRegion "invalid PodBus magic (expected XPOD_ZC)")
  else if version = podBusVersionV2 then
    .error (.invalidRegion
      ("PodBus v2 is no longer supported (split-atomic race window); " ++
        "publisher must be upgraded to v3"))
  else if version ≠ podBusVersionV1 ∧ version ≠ podBusVersionV3 then
    .error (.invalidRegion
      ("unsupported PodBus version " ++ toString version ++ ", expected " ++
        toString podBusVersionV1 ++ " or " ++ toString podBusVersionV3))
  else if hring : ringSize = 0 ∨ Config.isPowerOfTwo ringSize = false then
    .error (.invalidRegion
      ("PodBus ring_size " ++ toString ringSize ++ " is not a power of two"))
  else if hsize : valueSize ≠ T.size then
    .error (.invalidRegion
      ("PodBus value_size mismatch: file has " ++ toString valueSize ++ ", type needs " ++
        toString T.size))
  else if valueAlign ≠ T.align then
    .error (.invalidRegion
      ("PodBus value_align mismatch: file has " ++ toString valueAlign ++ ", type needs " ++
        toString T.align))
  else if hfit : len < regionSizeForVersion T ringSize version then
    .error (.invalidRegion
      ("PodBus region size " ++ toString len ++ " < expected " ++
        toString (regionSizeForVersion T ringSize version)))
  else
    match now with
    | none => .error .clockError
    | some now =>
      if heartbeatStaleUs < now - mem.readLe phHeartbeatUs 8 then .error .publisherDead
      else
        .ok
          { version := version
            ringSize := ringSize
            cursor := mem.readLe phWriteSeq 8
            pow := by
              rw [not_or] at hring
              exact Bool.eq_true_of_not_eq_false hring.2
            fits := by
              rw [not_or] at hring
              have hexact := exactSize_lt (T := T) (Bool.eq_true_of_not_eq_false hring.2)
                (mem.readLe_lt phRingSize 4) (not_not.mp hsize ▸ mem.readLe_lt phValueSize 4)
                version
              rw [regionSizeForVersion_eq, Nat.mod_eq_of_lt hexact] at hfit
              exact Nat.le_of_not_lt hfit }

namespace View

variable {T : PodType} {len : Nat} (v : View T len)

/-- `cursor & mask`: the slot that `try_recv` looks at. -/
def slotIdx (cursor : Nat) : Nat := cursor &&& (v.ringSize - 1)

/-- A slot index is one of the ring. -/
theorem slotIdx_lt (cursor : Nat) : v.slotIdx cursor < v.ringSize := by
  obtain ⟨k, hk⟩ := (isPowerOfTwo_iff _).mp v.pow
  rw [slotIdx, hk, Nat.and_two_pow_sub_one_eq_mod]
  exact Nat.mod_lt _ (by positivity)

/-- Every slot of an accepted file is in the mapping. -/
theorem slot_in_mapping (cursor : Nat) :
    slotOff T v.version (v.slotIdx cursor) + slotSize T ≤ len :=
  (slotOff_add_le T v.version (v.slotIdx_lt cursor)).trans v.fits

end View

section

variable {T : PodType} {len : Nat} {mem : Mem} {now : Option Nat}

/-- A check was passed. -/
theorem checked {p : Prop} [Decidable p] {ε α : Type} {e : ε} {x : Except ε α} {y : α}
    (h : (if p then .error e else x) = .ok y) : ¬ p ∧ x = .ok y := by
  by_cases hp : p
  · rw [if_pos hp] at h
    cases h
  · rw [if_neg hp] at h
    exact ⟨hp, h⟩

/-- What a header has passed that `connect` accepts, and the view it gives. -/
structure Accepted (mem : Mem) (v : View T len) : Prop where
  version_eq : v.version = mem.readLe phVersion 4
  version : v.version = podBusVersionV1 ∨ v.version = podBusVersionV3
  ringSize_eq : v.ringSize = mem.readLe phRingSize 4
  cursor_eq : v.cursor = mem.readLe phWriteSeq 8
  valueSize : mem.readLe phValueSize 4 = T.size
  valueAlign : mem.readLe phValueAlign 4 = T.align
  len_ge : podBusHeaderSize ≤ len

/-- `connect` makes all the checks that `Accepted` lists. -/
theorem connect_ok {v : View T len} (h : connect T len mem now = .ok v) : Accepted mem v := by
  obtain ⟨-, h⟩ := checked h
  obtain ⟨hlen, h⟩ := checked h
  obtain ⟨hversion, h⟩ := checked (passed (passed h))
  obtain ⟨_, h⟩ := passedWith h
  obtain ⟨hsize, h⟩ := passedWith h
  obtain ⟨halign, h⟩ := checked h
  obtain ⟨_, h⟩ := passedWith h
  cases now with
  | none => cases h
  | some now =>
    cases passed h
    rw [not_and_or, not_not, not_not] at hversion
    exact ⟨rfl, hversion, rfl, rfl, not_not.mp hsize, not_not.mp halign, Nat.le_of_not_lt hlen⟩

/-- A header that passes every check. -/
theorem connect_of_header {now : Nat} (halign : T.align ≤ maxPodAlign)
    (hlen : podBusHeaderSize ≤ len)
    (hmagic : (List.range 8).map (fun i => mem (phMagic + i)) = podBusMagic)
    (hversion : mem.readLe phVersion 4 = podBusVersionV1 ∨
      mem.readLe phVersion 4 = podBusVersionV3)
    (hring : Config.isPowerOfTwo (mem.readLe phRingSize 4) = true)
    (hsize : mem.readLe phValueSize 4 = T.size) (hvalueAlign : mem.readLe phValueAlign 4 = T.align)
    (hfit : regionSizeForVersion T (mem.readLe phRingSize 4) (mem.readLe phVersion 4) ≤ len)
    (hfresh : now - mem.readLe phHeartbeatUs 8 ≤ heartbeatStaleUs) :
    ∃ v, connect T len mem (some now) = .ok v := by
  have hv2 : mem.readLe phVersion 4 ≠ podBusVersionV2 := by
    rcases hversion with h | h <;> rw [h] <;> decide
  have hknown : ¬ (mem.readLe phVersion 4 ≠ podBusVersionV1 ∧
      mem.readLe phVersion 4 ≠ podBusVersionV3) := by
    rwa [not_and_or, not_not, not_not]
  have hpow : ¬ (mem.readLe phRingSize 4 = 0 ∨
      Config.isPowerOfTwo (mem.readLe phRingSize 4) = false) := by
    rintro (hzero | hnot)
    · rw [hzero] at hring
      cases hring
    · rw [hring] at hnot
      cases hnot
  unfold connect
  simp only [if_neg (Nat.not_lt.mpr halign), if_neg (Nat.not_lt.mpr hlen),
    if_neg (not_not.mpr hmagic), if_neg hv2, if_neg hknown, dif_neg hpow,
    dif_neg (not_not.mpr hsize), if_neg (not_not.mpr hvalueAlign),
    dif_neg (Nat.not_lt.mpr hfit), if_neg (Nat.not_lt.mpr hfresh)]
  exact ⟨_, rfl⟩

end

/-! ### `PodBus::create_inner` -/

/-- The arguments of `create` and `create_bounded` that pass their assertions. -/
structure BusArgs where
  ringSize : Nat
  watermark : Option Nat
  pow : Config.isPowerOfTwo ringSize = true
  watermark_lt : ∀ w ∈ watermark, w < ringSize

/-- The version that `create_inner` writes. -/
def BusArgs.version (b : BusArgs) : Nat :=
  if b.watermark.isSome then podBusVersionV3 else podBusVersionV1

/-- The header but for the heartbeat. -/
def writeHeader (T : PodType) (b : BusArgs) (pid : Nat) (mem : Mem) : Mem :=
  let mem := mem.writeBytes phMagic podBusMagic
  let mem := mem.writeLe phVersion 4 b.version
  let mem := mem.writeLe phRingSize 4 b.ringSize
  let mem := mem.writeLe phValueSize 4 T.size
  let mem := mem.writeLe phValueAlign 4 T.align
  let mem := mem.writeLe phWriteSeq 8 0
  let mem := mem.writeLe phPublisherPid 8 pid
  mem.writeLe phWatermark 4 (b.watermark.getD 0)

/-- A free subscriber slot. -/
def initSubscriberSlot (mem : Mem) (idx : Nat) : Mem :=
  (mem.writeLe (subscriberSlotOff idx + ssPid) 4 0).writeLe
    (subscriberSlotOff idx + ssStateCursor) 8 0

/-- The loop over the subscriber slots, on a bounded bus. -/
def initSubscriberSlots (b : BusArgs) (mem : Mem) : Mem :=
  if b.watermark.isSome then (List.range 64).foldl initSubscriberSlot mem else mem

/-- The loop over the stamps of the ring. -/
def initStamps (T : PodType) (b : BusArgs) (mem : Mem) : Mem :=
  (List.range b.ringSize).foldl (fun mem i => mem.writeLe (slotOff T b.version i) 8 0) mem

/-- The contents of the new file, which starts out zeroed. -/
def createdBus (T : PodType) (b : BusArgs) (pid now : Nat) : Mem :=
  let mem := initSubscriberSlots b (writeHeader T b pid fun _ => 0)
  (initStamps T b mem).writeLe phHeartbeatUs 8 now

/-- The end of the last page of a mapping. -/
def pageEnd (len : Nat) : Nat := (len + 4095) / 4096 * 4096

/-- Every store of the loop over the stamps is to a page of the mapping. -/
def StampsInside (T : PodType) (b : BusArgs) (len : Nat) : Prop :=
  ∀ i < b.ringSize, slotOff T b.version i + 8 ≤ pageEnd len

instance (T : PodType) (b : BusArgs) (len : Nat) : Decidable (StampsInside T b len) :=
  inferInstanceAs (Decidable (∀ i < b.ringSize, _))

/-- How `create_inner` ends. -/
inductive Outcome where
  /-- it returns an error, or the length of the new file and its contents -/
  | returned (r : Except Error (Nat × Mem))
  /-- a store goes behind the last page of the mapping: it does not return, and the process is
      killed at the first address where nothing is mapped -/
  | strays

/-- `PodBus::create_inner` for a valid name that no other publisher holds.  `set_len` refuses a
    length beyond `i64`, and `from_file_with_len` an empty mapping.  The header and the subscriber
    slots are in the first page. -/
def createInner (T : PodType) (b : BusArgs) (pid : Nat) (now : Option Nat) : Outcome :=
  let size := regionSizeForVersion T b.ringSize b.version
  if maxPodAlign < T.align then .returned (.error (.alignmentError T.align maxPodAlign))
  else if 2 ^ 63 ≤ size ∨ size = 0 then .returned (.error .io)
  else if StampsInside T b size then
    match now with
    | none => .returned (.error .clockError)
    | some now => .returned (.ok (size, createdBus T b pid now))
  else .strays

section

variable {T : PodType} {b : BusArgs} {pid len : Nat} {mem : Mem}

/-- A new bus has version 1 or 3. -/
theorem BusArgs.version_cases (b : BusArgs) :
    b.version = podBusVersionV1 ∨ b.version = podBusVersionV3 := by
  unfold version
  split
  · exact Or.inr rfl
  · exact Or.inl rfl

/-- A new bus has a slot. -/
theorem BusArgs.ringSize_pos (b : BusArgs) : 0 < b.ringSize := by
  obtain ⟨k, hk⟩ := (isPowerOfTwo_iff _).mp b.pow
  rw [hk]
  positivity

/-- When the size overflows and is then small enough for a file, some slot is beyond its end. -/
theorem slot_beyond {T : PodType} {ringSize version : Nat} (hpos : 0 < ringSize)
    (hover : 2 ^ 64 ≤ exactSize T ringSize version)
    (hlen : exactSize T ringSize version % 2 ^ 64 < 2 ^ 63) :
    ∃ i < ringSize, pageEnd (exactSize T ringSize version % 2 ^ 64) < slotOff T version i + 8 := by
  have hslot := slotSize_bounds T
  have hlt := T.size_lt
  by_cases hring : ringSize * slotSize T < 2 ^ 64
  · -- only the header does not fit: the last slot is where it should be
    refine ⟨ringSize - 1, by omega, ?_⟩
    have hlast : (ringSize - 1) * slotSize T + slotSize T = ringSize * slotSize T := by
      rw [← Nat.succ_mul, Nat.succ_eq_add_one, Nat.sub_add_cancel hpos]
    have hmod : exactSize T ringSize version % 2 ^ 64 ≤ exactSize T ringSize version - 2 ^ 64 := by
      rw [Nat.mod_eq_sub_mod hover]
      exact Nat.mod_le ..
    have hoff := (ringOffset_le version).2
    rw [slotOff_of_lt version (by omega)]
    unfold pageEnd
    unfold exactSize at hmod hover ⊢
    omega
  · -- the last slot that starts below 2⁶⁴ starts in the upper half
    have hpos' : 0 < slotSize T := by omega
    refine ⟨(2 ^ 64 - 1) / slotSize T, ?_, ?_⟩
    · rw [Nat.div_lt_iff_lt_mul hpos']
      omega
    · have hdiv := Nat.div_add_mod (2 ^ 64 - 1) (slotSize T)
      have hmod := Nat.mod_lt (2 ^ 64 - 1) hpos'
      have hone : slotSize T ≤ slotSize T * ((2 ^ 64 - 1) / slotSize T) :=
        Nat.le_mul_of_pos_right _ (Nat.div_pos (by omega) hpos')
      rw [Nat.mul_comm] at hdiv hone
      have hoff := (ringOffset_le version).1
      rw [slotOff_of_lt version (by omega)]
      unfold pageEnd
      omega

/-- The whole slots are in the file when its size does not overflow. -/
theorem slots_inside {i : Nat} (hexact : exactSize T b.ringSize b.version < 2 ^ 64)
    (hi : i < b.ringSize) :
    slotOff T b.version i + slotSize T ≤ regionSizeForVersion T b.ringSize b.version := by
  rw [regionSizeForVersion_eq, Nat.mod_eq_of_lt hexact]
  exact slotOff_add_le T b.version hi

/-- The loop stays in the mapping exactly when the size does not overflow. -/
theorem stampsInside_iff (hlen : regionSizeForVersion T b.ringSize b.version < 2 ^ 63) :
    StampsInside T b (regionSizeForVersion T b.ringSize b.version) ↔
      exactSize T b.ringSize b.version < 2 ^ 64 := by
  constructor
  · intro hall
    by_contra hover
    rw [StampsInside, regionSizeForVersion_eq] at hall
    rw [regionSizeForVersion_eq] at hlen
    obtain ⟨i, hi, hbeyond⟩ := slot_beyond b.ringSize_pos (Nat.le_of_not_lt hover) hlen
    exact absurd (hall i hi) (Nat.not_le.mpr hbeyond)
  · intro hexact i hi
    have hin := slots_inside hexact hi
    have hslot := slotSize_bounds T
    unfold pageEnd
    omega

/-- The checks of `create_inner` were passed, and its loop. -/
theorem createInner_ok {created : Option Nat}
    (h : createInner T b pid created = .returned (.ok (len, mem))) :
    T.align ≤ maxPodAlign ∧ len = exactSize T b.ringSize b.version ∧ len < 2 ^ 64 ∧
      ∃ now, created = some now ∧ mem = createdBus T b pid now := by
  unfold createInner at h
  simp only at h
  split at h
  · cases h
  rename_i halign
  split at h
  · cases h
  rename_i hsize
  split at h
  · rename_i hinside
    have hexact := (stampsInside_iff (by omega)).mp hinside
    cases created with
    | none => cases h
    | some now =>
      cases h
      rw [regionSizeForVersion_eq, Nat.mod_eq_of_lt hexact]
      exact ⟨Nat.le_of_not_lt halign, rfl, hexact, now, rfl, rfl⟩
  · cases h

/-- `create_inner` when it gets to its loop. -/
theorem createInner_eq (halign : T.align ≤ maxPodAlign)
    (hpos : 0 < regionSizeForVersion T b.ringSize b.version)
    (hlen : regionSizeForVersion T b.ringSize b.version < 2 ^ 63) (now : Nat) :
    createInner T b pid (some now) =
      if exactSize T b.ringSize b.version < 2 ^ 64 then
        .returned (.ok (exactSize T b.ringSize b.version, createdBus T b pid now))
      else .strays := by
  unfold createInner
  simp only [if_neg (Nat.not_lt.mpr halign), if_neg (not_or.mpr ⟨Nat.not_le.mpr hlen, hpos.ne'⟩),
    stampsInside_iff hlen]
  by_cases hexact : exactSize T b.ringSize b.version < 2 ^ 64
  · simp only [if_pos hexact]
    rw [regionSizeForVersion_eq, Nat.mod_eq_of_lt hexact]
  · simp only [if_neg hexact]

/-- **Where the stores of `create_inner` go.** When the size that it computes is accepted by
    `set_len` and `mmap`, it returns exactly when the true size of the region is below 2⁶⁴, and
    then all slots are in the file.  The arithmetic of `region_size_for_version` is not checked: for
    a ring whose size wraps to a small number, the loop over the stamps leaves the mapping. -/
theorem create_stays_in_mapping (T : PodType) (b : BusArgs) (pid now : Nat)
    (halign : T.align ≤ maxPodAlign)
    (hpos : 0 < regionSizeForVersion T b.ringSize b.version)
    (hlen : regionSizeForVersion T b.ringSize b.version < 2 ^ 63) :
    ((∃ len mem, createInner T b pid (some now) = .returned (.ok (len, mem)) ∧
        ∀ i < b.ringSize, slotOff T b.version i + slotSize T ≤ len) ↔
      exactSize T b.ringSize b.version < 2 ^ 64) ∧
    (createInner T b pid (some now) = .strays ↔ 2 ^ 64 ≤ exactSize T b.ringSize b.version) := by
  rw [createInner_eq halign hpos hlen]
  by_cases hexact : exactSize T b.ringSize b.version < 2 ^ 64
  · rw [if_pos hexact]
    refine ⟨iff_of_true ⟨_, _, rfl, fun i hi => ?_⟩ hexact, iff_of_false ?_ (Nat.not_le.mpr hexact)⟩
    · exact slotOff_add_le T b.version hi
    · rintro ⟨⟩
  · rw [if_neg hexact]
    refine ⟨iff_of_false ?_ hexact, iff_of_true rfl (Nat.le_of_not_lt hexact)⟩
    rintro ⟨len, mem, ⟨⟩, -⟩

end

/-- `u64`. -/
def u64 : PodType := ⟨8, 8, by decide⟩

/-- An unbounded bus with `2 ^ k` slots. -/
def unbounded (k : Nat) : BusArgs where
  ringSize := 2 ^ k
  watermark := none
  pow := (isPowerOfTwo_iff _).mpr ⟨k, rfl⟩
  watermark_lt := fun _ h => nomatch h

/-- A ring of 16 slots is made; one of 2⁵⁸ slots of 64 bytes gets a file as long as the header, and
    the loop leaves it. -/
theorem create_stays_in_mapping_wraps :
    (∃ len mem, createInner u64 (unbounded 4) 7 (some 100) = .returned (.ok (len, mem)) ∧
      ∀ i < 16, slotOff u64 podBusVersionV1 i + slotSize u64 ≤ len) ∧
    regionSizeForVersion u64 (2 ^ 58) podBusVersionV1 = 64 ∧
      createInner u64 (unbounded 58) 7 (some 100) = .strays :=
  ⟨(create_stays_in_mapping u64 (unbounded 4) 7 100 (by decide) (by decide) (by decide)).1.mpr
      (by decide), by decide,
    (create_stays_in_mapping u64 (unbounded 58) 7 100 (by decide) (by decide) (by decide)).2.mpr
      (by decide)⟩

/-! ### Connecting to a new bus -/

section

variable (T : PodType) (b : BusArgs) (pid now : Nat)

/-- Slots lie behind the header. -/
theorem slotOff_ge (version idx : Nat) : podBusHeaderSize ≤ slotOff T version idx :=
  Nat.le_add_right_of_le (ringOffset_le version).1

/-- The subscriber slots and the ring come after the header. -/
theorem init_agree (mem : Mem) :
    Agree 0 podBusHeaderSize mem (initStamps T b (initSubscriberSlots b mem)) := by
  have hslots : Agree 0 podBusHeaderSize mem (initSubscriberSlots b mem) := by
    unfold initSubscriberSlots
    split
    · refine List.foldlRecOn (List.range 64) initSubscriberSlot (fun _ _ _ => rfl) ?_
      intro mem' h idx _
      have hge : podBusHeaderSize ≤ subscriberSlotOff idx := Nat.le_add_right ..
      exact (h.writeLe (Or.inl (by omega)) 0).writeLe (Or.inl (by omega)) 0
    · exact fun _ _ _ => rfl
  refine List.foldlRecOn (List.range b.ringSize) _ hslots ?_
  intro mem' h i _
  exact h.writeLe (Or.inl (slotOff_ge T b.version i)) 0

/-- A field of the new header but for the heartbeat is what `writeHeader` has stored. -/
theorem createdBus_readLe {off n : Nat} (hoff : off + n ≤ podBusHeaderSize)
    (hout : off + n ≤ phHeartbeatUs ∨ phHeartbeatUs + 8 ≤ off) :
    (createdBus T b pid now).readLe off n = (writeHeader T b pid fun _ => 0).readLe off n := by
  unfold createdBus
  rw [Mem.readLe_writeLe_of_disjoint hout]
  exact (init_agree T b _).readLe (Nat.zero_le _) hoff

/-- `connect` reads the magic that `create` has written. -/
theorem createdBus_magic :
    (List.range 8).map (fun i => createdBus T b pid now (phMagic + i)) = podBusMagic := by
  have hbytes : ∀ i ∈ List.range 8,
      createdBus T b pid now (phMagic + i) = podBusMagic.getD i 0 := by
    intro i hi
    rw [List.mem_range] at hi
    have hlt : phMagic + i < phVersion := by
      unfold phMagic phVersion
      omega
    have hbeat : phVersion ≤ phHeartbeatUs := by decide
    have hhead : phVersion ≤ podBusHeaderSize := by decide
    have hout : ∀ {off : Nat} (n v : Nat) (mem : Mem), phVersion ≤ off →
        mem.writeLe off n v (phMagic + i) = mem (phMagic + i) :=
      fun n v mem hoff => Mem.writeLe_of_outside (Or.inl (by omega))
    unfold createdBus
    rw [hout _ _ _ hbeat, init_agree T b _ _ (Nat.zero_le _) (by omega)]
    simp (disch := decide) only [writeHeader, hout]
    rw [Mem.writeBytes, if_pos ⟨by omega, Nat.add_lt_add_left hi phMagic⟩,
      Nat.add_sub_cancel_left]
  rw [List.map_congr_left hbytes]
  rfl

/-- `connect` reads the version of the bus. -/
theorem createdBus_version : (createdBus T b pid now).readLe phVersion 4 = b.version := by
  rw [createdBus_readLe T b pid now (by decide) (by decide)]
  simp (disch := decide) only [writeHeader, Mem.readLe_writeLe_of_disjoint]
  rw [Mem.readLe_writeLe]
  rcases b.version_cases with h | h <;> rw [h] <;> rfl

/-- `connect` reads the ring size, in 32 bits. -/
theorem createdBus_ringSize :
    (createdBus T b pid now).readLe phRingSize 4 = b.ringSize % 2 ^ 32 := by
  rw [createdBus_readLe T b pid now (by decide) (by decide)]
  simp (disch := decide) only [writeHeader, Mem.readLe_writeLe_of_disjoint]
  exact Mem.readLe_writeLe ..

/-- `connect` reads the size of the type. -/
theorem createdBus_valueSize :
    (createdBus T b pid now).readLe phValueSize 4 = T.size % 2 ^ 32 := by
  rw [createdBus_readLe T b pid now (by decide) (by decide)]
  simp (disch := decide) only [writeHeader, Mem.readLe_writeLe_of_disjoint]
  exact Mem.readLe_writeLe ..

/-- `connect` reads the alignment of the type. -/
theorem createdBus_valueAlign (halign : T.align ≤ maxPodAlign) :
    (createdBus T b pid now).readLe phValueAlign 4 = T.align := by
  rw [createdBus_readLe T b pid now (by decide) (by decide)]
  simp (disch := decide) only [writeHeader, Mem.readLe_writeLe_of_disjoint]
  rw [Mem.readLe_writeLe]
  unfold maxPodAlign at halign
  exact Nat.mod_eq_of_lt (by omega)

/-- `connect` finds no values. -/
theorem createdBus_writeSeq : (createdBus T b pid now).readLe phWriteSeq 8 = 0 := by
  rw [createdBus_readLe T b pid now (by decide) (by decide)]
  simp (disch := decide) only [writeHeader, Mem.readLe_writeLe_of_disjoint]
  rw [Mem.readLe_writeLe]
  rfl

/-- `connect` reads the time of creation as the heartbeat. -/
theorem createdBus_heartbeat (hnow : now < 2 ^ 64) :
    (createdBus T b pid now).readLe phHeartbeatUs 8 = now := by
  unfold createdBus
  rw [Mem.readLe_writeLe]
  exact Nat.mod_eq_of_lt (by omega)

end

/-- The low word of a ring size: itself, or 0. -/
theorem isPowerOfTwo_mod_iff {n : Nat} (hn : Config.isPowerOfTwo n = true) :
    Config.isPowerOfTwo (n % 2 ^ 32) = true ↔ n < 2 ^ 32 := by
  obtain ⟨k, rfl⟩ := (isPowerOfTwo_iff _).mp hn
  by_cases hk : k < 32
  · have hlt : 2 ^ k < 2 ^ 32 := Nat.pow_lt_pow_right (by decide) hk
    rw [Nat.mod_eq_of_lt hlt]
    exact iff_of_true hn hlt
  · have hle : 2 ^ 32 ≤ 2 ^ k := Nat.pow_le_pow_right (by decide) (Nat.le_of_not_lt hk)
    have hdvd : 2 ^ 32 ∣ 2 ^ k := Nat.pow_dvd_pow 2 (Nat.le_of_not_lt hk)
    rw [Nat.mod_eq_zero_of_dvd hdvd]
    exact iff_of_false (by decide) (Nat.not_lt.mpr hle)

/-- A larger value needs no smaller slot. -/
theorem slotSize_mono {T T' : PodType} (h : T'.size ≤ T.size) : slotSize T' ≤ slotSize T := by
  unfold slotSize
  omega

/-- The size of a slot depends on the size of the value alone. -/
theorem slotSize_congr {T T' : PodType} (h : T'.size = T.size) : slotSize T' = slotSize T := by
  rw [slotSize, slotSize, h]

/-- A subscriber connects to a new bus when the words of the header are those of its own type. -/
theorem connect_created {T T' : PodType} {b : BusArgs} {pid len created now : Nat}
    (halign : T.align ≤ maxPodAlign) (hlen : len = exactSize T b.ringSize b.version)
    (hcreated : created < 2 ^ 64) (hnow : now - created ≤ heartbeatStaleUs)
    (hring : b.ringSize < 2 ^ 32) (hsize : T'.size = T.size % 2 ^ 32) (hsame : T'.align = T.align) :
    ∃ v, connect T' len (createdBus T b pid created) (some now) = .ok v := by
  have hringSize := createdBus_ringSize T b pid created
  rw [Nat.mod_eq_of_lt hring] at hringSize
  -- a smaller type needs no more than the mapping has
  have hfit : regionSizeForVersion T' b.ringSize b.version ≤ len := by
    have hmono : slotSize T' ≤ slotSize T := slotSize_mono (hsize ▸ Nat.mod_le ..)
    have hmul : b.ringSize * slotSize T' ≤ b.ringSize * slotSize T :=
      Nat.mul_le_mul_left _ hmono
    rw [regionSizeForVersion_eq, hlen]
    exact (Nat.mod_le ..).trans (Nat.add_le_add_left hmul _)
  apply connect_of_header
  · rwa [hsame]
  · rw [hlen]
    exact Nat.le_add_right_of_le (ringOffset_le _).1
  · exact createdBus_magic T b pid created
  · rw [createdBus_version]
    exact b.version_cases
  · rw [hringSize]
    exact b.pow
  · rw [createdBus_valueSize, hsize]
  · rw [createdBus_valueAlign _ _ _ _ halign, hsame]
  · rwa [hringSize, createdBus_version]
  · rwa [createdBus_heartbeat _ _ _ _ hcreated]

/-- **Which types connect to a new bus, and what they see.** When `create_inner` has returned and
    the heartbeat is fresh, `connect` succeeds for a type exactly when the ring has fewer than 2³²
    slots, the alignment is that of the publisher's type, and the size is the low word of its size.
    The view is then that of the publisher: the same ring size, the same kind of bus, a cursor at
    the start, and, when the size fits the word, the same offset for every slot. -/
theorem created_bus_connects (T T' : PodType) {b : BusArgs} {pid len created : Nat} {mem : Mem}
    (now : Nat) (hcreate : createInner T b pid (some created) = .returned (.ok (len, mem)))
    (hcreated : created < 2 ^ 64) (hnow : now - created ≤ heartbeatStaleUs) :
    ((∃ v, connect T' len mem (some now) = .ok v) ↔
      b.ringSize < 2 ^ 32 ∧ T'.size = T.size % 2 ^ 32 ∧ T'.align = T.align) ∧
    ∀ v, connect T' len mem (some now) = .ok v →
      v.ringSize = b.ringSize ∧ v.version = b.version ∧ v.cursor = 0 ∧
        (T.size < 2 ^ 32 → ∀ idx, slotOff T' v.version idx = slotOff T b.version idx) := by
  obtain ⟨halign, hlen, -, _, hsome, rfl⟩ := createInner_ok hcreate
  cases hsome
  have hneeds : ∀ v, connect T' len (createdBus T b pid created) (some now) = .ok v →
      b.ringSize < 2 ^ 32 ∧ T'.size = T.size % 2 ^ 32 ∧ T'.align = T.align := by
    intro v hv
    have hacc := connect_ok hv
    have hpow := v.pow
    rw [hacc.ringSize_eq, createdBus_ringSize, isPowerOfTwo_mod_iff b.pow] at hpow
    rw [← hacc.valueSize, ← hacc.valueAlign, createdBus_valueSize,
      createdBus_valueAlign _ _ _ _ halign]
    exact ⟨hpow, rfl, rfl⟩
  refine ⟨⟨fun ⟨v, hv⟩ => hneeds v hv, ?_⟩, ?_⟩
  · rintro ⟨hring, hsize, hsame⟩
    exact connect_created halign hlen hcreated hnow hring hsize hsame
  · intro v hv
    obtain ⟨hring, hsize, -⟩ := hneeds v hv
    have hacc := connect_ok hv
    have hversion : v.version = b.version := hacc.version_eq.trans (createdBus_version ..)
    refine ⟨?_, hversion, hacc.cursor_eq.trans (createdBus_writeSeq ..), ?_⟩
    · rw [hacc.ringSize_eq, createdBus_ringSize, Nat.mod_eq_of_lt hring]
    · intro hword idx
      have hslot : slotSize T' = slotSize T :=
        slotSize_congr (hsize.trans (Nat.mod_eq_of_lt hword))
      rw [slotOff, slotOff, hversion, hslot]

/-- A ring of 16 slots is seen by a subscriber of the same type; a ring of 2³² slots by none. -/
theorem created_bus_connects_sixteen :
    (∃ len mem v, createInner u64 (unbounded 4) 7 (some 100) = .returned (.ok (len, mem)) ∧
      connect u64 len mem (some 200) = .ok v ∧ v.ringSize = 16) ∧
    ∃ len mem, createInner u64 (unbounded 32) 7 (some 100) = .returned (.ok (len, mem)) ∧
      ∀ T, ¬ ∃ v, connect T len mem (some 200) = .ok v := by
  have hsmall : createInner u64 (unbounded 4) 7 (some 100) =
      .returned (.ok (1088, createdBus u64 (unbounded 4) 7 100)) :=
    createInner_eq (by decide) (by decide) (by decide) 100
  have hlarge : createInner u64 (unbounded 32) 7 (some 100) =
      .returned (.ok (274877907008, createdBus u64 (unbounded 32) 7 100)) :=
    createInner_eq (by decide) (by decide) (by decide) 100
  refine ⟨?_, _, _, hlarge, fun T => ?_⟩
  · obtain ⟨hiff, hview⟩ := created_bus_connects u64 u64 200 hsmall (by decide) (by decide)
    obtain ⟨v, hv⟩ := hiff.mpr ⟨by decide, rfl, rfl⟩
    exact ⟨_, _, v, hsmall, hv, (hview v hv).1⟩
  · rw [(created_bus_connects u64 T 200 hlarge (by decide) (by decide)).1]
    exact fun h => absurd h.1 (by decide)

/-! ### Connecting to any file -/

/-- **A subscriber stays in its mapping, whatever the file holds.** For every contents and length of
    a file that `connect` accepts, the ring the subscriber uses is the one of the header, for
    values of its own size and alignment.  Whatever the cursor, the slot it selects lies behind the
    header and in the mapping, on a cache line, with room for the stamp and the value; and the
    subscriber slots of a bounded bus lie between the header and the ring. -/
theorem bus_accesses_stay_in_mapping {T : PodType} {len : Nat} {mem : Mem} {now : Option Nat}
    {v : View T len} (h : connect T len mem now = .ok v) (cursor : Nat) :
    v.ringSize = mem.readLe phRingSize 4 ∧ mem.readLe phValueSize 4 = T.size ∧
      mem.readLe phValueAlign 4 = T.align ∧ podBusHeaderSize ≤ len ∧
      podBusHeaderSize ≤ slotOff T v.version (v.slotIdx cursor) ∧
      slotOff T v.version (v.slotIdx cursor) + slotSize T ≤ len ∧
      64 ∣ slotOff T v.version (v.slotIdx cursor) ∧ 8 + T.size ≤ slotSize T ∧
      (mem.readLe phVersion 4 = podBusVersionV3 → ∀ idx < 64,
        subscriberSlotOff idx + subscriberSlotSize ≤ ringOffset v.version) := by
  have hacc := connect_ok h
  refine ⟨hacc.ringSize_eq, hacc.valueSize, hacc.valueAlign, hacc.len_ge, ?_,
    v.slot_in_mapping cursor, slotOff_dvd .., (slotSize_bounds T).1, ?_⟩
  · exact Nat.le_add_right_of_le (ringOffset_le _).1
  · intro hversion idx hidx
    rw [hacc.version_eq, hversion]
    show 64 + idx * 16 + 16 ≤ 1088
    omega

/-- A new bus of 16 slots: the slot of a cursor far ahead. -/
theorem bus_accesses_stay_in_mapping_sixteen : ∃ v : View u64 1088,
    connect u64 1088 (createdBus u64 (unbounded 4) 7 100) (some 200) = .ok v ∧
      slotOff u64 v.version (v.slotIdx 1000) + slotSize u64 ≤ 1088 := by
  have hconnect : ∃ v : View u64 1088,
      connect u64 1088 (createdBus u64 (unbounded 4) 7 100) (some 200) = .ok v :=
    connect_created (by decide) rfl (by decide) (by decide) (by decide) rfl rfl
  obtain ⟨v, hv⟩ := hconnect
  obtain ⟨-, -, -, -, -, hin, -⟩ := bus_accesses_stay_in_mapping hv 1000
  exact ⟨v, hv, hin⟩

end Crossbar.BusFormat
