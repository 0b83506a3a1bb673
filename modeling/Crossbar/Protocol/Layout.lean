import Mathlib.Tactic.NormNum
import Crossbar.Lib.Mask

namespace Crossbar

open Crossbar.Lib

/-!
# Protocol — configuration, layout constants and the ring slot of a sequence number

The constants and pure helpers of `src/protocol/layout.rs` and `src/protocol/config.rs`
that the models below read.

* `Config` — the four `u32` fields of a region; `Config.accepted` is the validation of
  `Publisher::create`, in its order;
* `ValidConfig` — a configuration a region can really have: the fields fit `u32` and
  `create` accepts them, so no later proof has to ask for a power of two again;
* `ValidConfig.slotOf` — `seq & (ring_depth - 1)`;
* `wrap32` / `wrap64` — the wrap-around of the fixed-width counters.
-/

/-- `NO_BLOCK`: the `u32` that is not a block index. -/
def noBlock : Nat := 2 ^ 32 - 1

/-- `SEQ_WRITING`: the `u64` that marks a ring entry as being written. -/
def seqWriting : Nat := 2 ^ 64 - 1

/-- `HEADER_SIZE`. -/
def headerSize : Nat := 128

/-- `TOPIC_ENTRY_SIZE`. -/
def topicEntrySize : Nat := 128

/-- `RING_ENTRY_SIZE`. -/
def ringEntrySize : Nat := 16

/-- `BLOCK_DATA_OFFSET`: the payload starts after the free-list link and the refcount. -/
def blockDataOffset : Nat := 8

/-- Reduce to 32 bits. -/
def wrap32 (n : Nat) : Nat := n % 2 ^ 32

/-- Reduce to 64 bits. -/
def wrap64 (n : Nat) : Nat := n % 2 ^ 64

theorem wrap32_of_lt {n : Nat} (h : n < 2 ^ 32) : wrap32 n = n := Nat.mod_eq_of_lt h

theorem wrap64_of_lt {n : Nat} (h : n < 2 ^ 64) : wrap64 n = n := Nat.mod_eq_of_lt h

/-- `fetch_sub(1)` on an `AtomicU32`: the stored value wraps below zero. -/
def dec32 (n : Nat) : Nat := wrap32 (n + (2 ^ 32 - 1))

theorem dec32_of_pos {n : Nat} (h : 0 < n) (hn : n < 2 ^ 32) : dec32 n = n - 1 := by
  unfold dec32 wrap32
  omega

/-! ### Configurations -/

/-- The size fields of a region's configuration, `u32` each. -/
structure Config where
  maxTopics : Nat
  blockCount : Nat
  blockSize : Nat
  ringDepth : Nat
  deriving DecidableEq, Repr

namespace Config

/-- `usize::checked_mul`. -/
def checkedMul (a b : Nat) : Option Nat := if a * b < 2 ^ 64 then some (a * b) else none

/-- `usize::checked_add`. -/
def checkedAdd (a b : Nat) : Option Nat := if a + b < 2 ^ 64 then some (a + b) else none

/-- `ring_base`: the rings follow the header and the topic entries. -/
def ringBase (c : Config) : Nat := headerSize + c.maxTopics * topicEntrySize

/-- `block_pool_offset_checked`. -/
def blockPoolOffsetChecked (c : Config) : Option Nat := do
  let rings ← checkedMul c.maxTopics c.ringDepth
  let ringSize ← checkedMul rings ringEntrySize
  checkedAdd c.ringBase ringSize

/-- `region_size_checked`. -/
def regionSizeChecked (c : Config) : Option Nat := do
  let poolOff ← c.blockPoolOffsetChecked
  let poolSize ← checkedMul c.blockCount c.blockSize
  checkedAdd poolOff poolSize

/-- `u32::is_power_of_two`, as the usual bit test. -/
def isPowerOfTwo (n : Nat) : Bool := n != 0 && n &&& (n - 1) == 0

/-- The validation of `Publisher::create`, check by check. -/
def accepted (c : Config) : Bool :=
  !decide (c.blockSize < blockDataOffset + 1) && isPowerOfTwo c.ringDepth &&
    c.blockCount != 0 && c.maxTopics != 0 && c.regionSizeChecked.isSome

end Config

/-- A configuration of an existing region: `u32` fields that `Publisher::create` accepts. -/
structure ValidConfig extends Config where
  maxTopics_lt : maxTopics < 2 ^ 32
  blockCount_lt : blockCount < 2 ^ 32
  blockSize_lt : blockSize < 2 ^ 32
  ringDepth_lt : ringDepth < 2 ^ 32
  accepted : toConfig.accepted = true

/-- The bit test `n & (n - 1) == 0` recognises the powers of two. -/
theorem isPowerOfTwo_iff (n : Nat) : Config.isPowerOfTwo n = true ↔ ∃ k, n = 2 ^ k := by
  simp only [Config.isPowerOfTwo, bne_iff_ne, beq_iff_eq, Bool.and_eq_true]
  constructor
  · rintro ⟨hne, hand⟩
    refine ⟨n.log2, ?_⟩
    -- below the top bit `n` has no bit left: `n - 1` would still carry the top bit
    by_contra hlt
    have hle : 2 ^ n.log2 ≤ n := Nat.log2_self_le hne
    have htop : n < 2 ^ (n.log2 + 1) := Nat.lt_log2_self
    have hgt : 2 ^ n.log2 ≤ n - 1 := by omega
    have h1 : n.testBit n.log2 = true := Nat.testBit_of_two_pow_le_and_two_pow_add_one_gt hle htop
    have h2 : (n - 1).testBit n.log2 = true :=
      Nat.testBit_of_two_pow_le_and_two_pow_add_one_gt hgt (by omega)
    have h3 : (n &&& (n - 1)).testBit n.log2 = true := by rw [Nat.testBit_and, h1, h2]; rfl
    rw [hand, Nat.zero_testBit] at h3
    cases h3
  · rintro ⟨k, rfl⟩
    refine ⟨by positivity, ?_⟩
    rw [Nat.and_two_pow_sub_one_eq_mod, Nat.mod_self]

namespace ValidConfig

variable (cfg : ValidConfig)

/-- What the validation of `create` guarantees, one conjunct a check. -/
theorem checks : blockDataOffset + 1 ≤ cfg.blockSize ∧ (∃ k, cfg.ringDepth = 2 ^ k) ∧
    0 < cfg.blockCount ∧ 0 < cfg.maxTopics := by
  have h := cfg.accepted
  simp only [Config.accepted, Bool.and_eq_true, Bool.not_eq_eq_eq_not, Bool.not_true,
    decide_eq_false_iff_not, bne_iff_ne, isPowerOfTwo_iff] at h
  obtain ⟨⟨⟨⟨hsize, hpow⟩, hblocks⟩, htopics⟩, _⟩ := h
  exact ⟨by omega, hpow, by omega, by omega⟩

theorem ringDepth_pos : 0 < cfg.ringDepth := by
  obtain ⟨_, ⟨k, hk⟩, _⟩ := cfg.checks
  rw [hk]
  positivity

/-- `Region::data_capacity`: the block size minus its 8-byte header. -/
def dataCapacity : Nat := cfg.blockSize - blockDataOffset

/-- A topic index of the region. -/
abbrev Topic : Type := Fin cfg.maxTopics

/-- A ring slot of a topic. -/
abbrev Slot : Type := Fin cfg.ringDepth

/-- A ring entry of the region: a topic and a slot. -/
abbrev EntryIdx : Type := Fin cfg.maxTopics × Fin cfg.ringDepth

/-- The ring slot of a sequence number, `seq & (ring_depth - 1)`. -/
def slotOf (seq : Nat) : cfg.Slot := maskIdx cfg.ringDepth cfg.ringDepth_pos seq

/-- Sequence numbers of one slot that are less than a ring apart are equal. -/
theorem eq_of_slotOf_eq {a b : Nat} (h : cfg.slotOf a = cfg.slotOf b) (hab : a ≤ b)
    (hlt : b < a + cfg.ringDepth) : a = b :=
  eq_of_maskIdx_eq cfg.checks.2.1 h hab hlt

end ValidConfig

/-- An index below `block_count` is never `NO_BLOCK`. -/
theorem ne_noBlock {cfg : ValidConfig} {b : Nat} (hb : b < cfg.blockCount) : b ≠ noBlock := by
  have hlt := cfg.blockCount_lt
  unfold noBlock
  omega

/-! ### Small regions for worked runs -/

/-- One topic, four blocks of 8 payload bytes, a ring of one entry. -/
def oneSlot : ValidConfig where
  maxTopics := 1
  blockCount := 4
  blockSize := 16
  ringDepth := 1
  maxTopics_lt := by decide
  blockCount_lt := by decide
  blockSize_lt := by decide
  ringDepth_lt := by decide
  accepted := by decide

/-- The same with a ring of two entries. -/
def twoSlots : ValidConfig where
  maxTopics := 1
  blockCount := 4
  blockSize := 16
  ringDepth := 2
  maxTopics_lt := by decide
  blockCount_lt := by decide
  blockSize_lt := by decide
  ringDepth_lt := by decide
  accepted := by decide

/-- A region with two topics. -/
def twoTopics : ValidConfig where
  maxTopics := 2
  blockCount := 4
  blockSize := 16
  ringDepth := 1
  maxTopics_lt := twoSlots.ringDepth_lt
  blockCount_lt := oneSlot.blockCount_lt
  blockSize_lt := oneSlot.blockSize_lt
  ringDepth_lt := oneSlot.ringDepth_lt
  accepted := by decide

/-- The first topic of a region. -/
def ValidConfig.topic0 (cfg : ValidConfig) : cfg.Topic := ⟨0, cfg.checks.2.2.2⟩

end Crossbar
