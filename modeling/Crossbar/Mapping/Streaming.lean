import Crossbar.Mapping.Layout
import Crossbar.Lib.Copy
import Crossbar.Lib.While

namespace Crossbar.Mapping

open Crossbar.Lib Crossbar.Region

/-!
# Mapping — the streaming copy of large payloads

On x86-64 `Loan::set_data` copies payloads of 2 MiB and more with `nontemporal_copy`: a head up to
the next 16-byte boundary, streaming stores of 16 bytes, and a tail.  The model works on the memory
of the process, by address, and records the address of every streaming store.

* `nontemporalCopy` — head, loop and tail; the test of the loop adds on a 64-bit `usize`;
* `streamStep_inv` — what one round of the loop keeps: the bytes up to `offset` are copied;
* `nontemporalCopy_eq` — the result is the plain copy, after at most `len / 16` rounds;
* `LoanView.setData` — `set_data` with and without the streaming path;
* `streaming_copy_exact` — both paths store the same bytes, those of `Loan.setData`.
-/

/-! ### `nontemporal_copy` -/

/-- `align_offset`: the distance to the next multiple. -/
def alignOffset (a align : Nat) : Nat := (align - a % align) % align

theorem dvd_add_alignOffset (a : Nat) : 16 ∣ a + alignOffset a 16 := by
  unfold alignOffset
  omega

/-- `_mm_loadu_si128`. -/
def loadu (mem : Mem) (a : Nat) : List UInt8 := (List.range 16).map fun i => mem (a + i)

/-- `_mm_stream_si128`. -/
def streamStore (mem : Mem) (a : Nat) (chunk : List UInt8) : Mem := fun i =>
  if a ≤ i ∧ i < a + 16 then chunk.getD (i - a) 0 else mem i

/-- A load and a store are a copy. -/
theorem streamStore_loadu (mem : Mem) (src dst : Nat) :
    streamStore mem dst (loadu mem src) = copy src dst 16 mem := by
  funext a
  unfold streamStore copy
  by_cases h : dst ≤ a ∧ a < dst + 16
  · have hidx : a - dst < (List.range 16).length := by
      rw [List.length_range]
      omega
    rw [if_pos h, if_pos h, loadu, List.getD_eq_getElem?_getD, List.getElem?_map,
      List.getElem?_eq_getElem hidx, List.getElem_range]
    rfl
  · rw [if_neg h, if_neg h]

/-- The memory, the local `offset`, and the addresses of the streaming stores so far. -/
structure Streamed where
  mem : Mem
  offset : Nat
  stores : List Nat

/-- One round of the loop. -/
def streamStep (src dst : Nat) (s : Streamed) : Streamed where
  mem := streamStore s.mem (dst + s.offset) (loadu s.mem (src + s.offset))
  offset := wrap64 (s.offset + 16)
  stores := s.stores ++ [dst + s.offset]

/-- The unaligned head. -/
def streamHead (src dst len : Nat) (mem : Mem) : Streamed :=
  let head := min (alignOffset dst 16) len
  if head > 0 then ⟨copy src dst head mem, head, []⟩ else ⟨mem, 0, []⟩

/-- The remainder behind the last round. -/
def streamTail (src dst len : Nat) (s : Streamed) : Streamed :=
  if s.offset < len then
    { s with mem := copy (src + s.offset) (dst + s.offset) (len - s.offset) s.mem }
  else s

/-- `nontemporal_copy`, with at most `fuel` rounds of its loop; the fence at the end orders the
    stores for other processors and has no effect on the memory. -/
def nontemporalCopy (fuel src dst len : Nat) (mem : Mem) : Option Streamed :=
  (whileLoop (fun s => decide (wrap64 (s.offset + 16) ≤ len)) (streamStep src dst) fuel
    (streamHead src dst len mem)).map (streamTail src dst len)

/-- Two buffers of `len` bytes in a 64-bit address space that do not overlap: what the safety
    comment of `nontemporal_copy` asks for. -/
structure Buffers (src dst len : Nat) : Prop where
  src_le : src + len ≤ 2 ^ 64
  dst_le : dst + len ≤ 2 ^ 64
  apart : src + len ≤ dst ∨ dst + len ≤ src

/-- What holds before every round: the first `offset` bytes are copied and nothing else has
    changed, the next store is aligned, and so were those made. -/
structure StreamInv (src dst len : Nat) (mem : Mem) (s : Streamed) : Prop where
  mem_eq : s.mem = copy src dst s.offset mem
  offset_le : s.offset ≤ len
  aligned : s.offset + 16 ≤ len → 16 ∣ dst + s.offset
  stores : ∀ a ∈ s.stores, 16 ∣ a ∧ dst ≤ a ∧ a + 16 ≤ dst + len

variable {src dst len : Nat} {mem : Mem} {s : Streamed}

theorem streamHead_inv (src dst len : Nat) (mem : Mem) :
    StreamInv src dst len mem (streamHead src dst len mem) := by
  have haligned := dvd_add_alignOffset dst
  unfold streamHead
  by_cases hhead : min (alignOffset dst 16) len > 0
  · rw [if_pos hhead]
    refine ⟨rfl, Nat.min_le_right _ _, fun hmore => ?_, by simp⟩
    -- a head cut off at `len` would leave no room for a store
    simp only at hmore ⊢
    rwa [Nat.min_eq_left (by omega)]
  · rw [if_neg hhead]
    refine ⟨by simp, Nat.zero_le _, fun hmore => ?_, by simp⟩
    simp only at hmore ⊢
    have hzero : alignOffset dst 16 = 0 := by omega
    rwa [hzero] at haligned

/-- Non-overlapping buffers are at most half the address space long, so that `offset + 16` does
    not wrap. -/
theorem Buffers.wrap64_add (h : Buffers src dst len) {offset : Nat} (hoff : offset ≤ len) :
    wrap64 (offset + 16) = offset + 16 := by
  obtain ⟨hsrc, hdst, hapart⟩ := h
  exact wrap64_of_lt (by omega)

/-- Copying goes on where it has stopped. -/
theorem StreamInv.copy_next (h : Buffers src dst len) (hs : StreamInv src dst len mem s) {n : Nat}
    (hn : s.offset + n ≤ len) :
    copy (src + s.offset) (dst + s.offset) n s.mem = copy src dst (s.offset + n) mem := by
  have hapart := h.apart
  rw [hs.mem_eq]
  exact copy_copy (by omega)

/-- **One round.** The invariant is kept, and 16 bytes less are left. -/
theorem streamStep_inv (h : Buffers src dst len) (hs : StreamInv src dst len mem s)
    (hcond : decide (wrap64 (s.offset + 16) ≤ len) = true) :
    StreamInv src dst len mem (streamStep src dst s) ∧
      (len - (streamStep src dst s).offset) / 16 < (len - s.offset) / 16 := by
  have hoff : (streamStep src dst s).offset = s.offset + 16 := h.wrap64_add hs.offset_le
  have hmore : s.offset + 16 ≤ len := by
    rwa [decide_eq_true_eq, h.wrap64_add hs.offset_le] at hcond
  have haligned := hs.aligned hmore
  refine ⟨⟨?_, by omega, fun _ => by omega, ?_⟩, by omega⟩
  · rw [hoff, ← hs.copy_next h hmore]
    exact streamStore_loadu s.mem (src + s.offset) (dst + s.offset)
  · intro a ha
    rcases List.mem_append.mp ha with hold | hnew
    · exact hs.stores a hold
    · obtain rfl := List.mem_singleton.mp hnew
      exact ⟨haligned, by omega, by omega⟩

/-- The tail copies what is left. -/
theorem streamTail_mem (h : Buffers src dst len) (hs : StreamInv src dst len mem s) :
    (streamTail src dst len s).mem = copy src dst len mem := by
  have hle := hs.offset_le
  unfold streamTail
  split
  case isTrue hlt =>
    have hlen : s.offset + (len - s.offset) = len := by omega
    simpa only [hlen] using hs.copy_next h (n := len - s.offset) (by omega)
  case isFalse hge =>
    have hlen : s.offset = len := by omega
    rw [hs.mem_eq, hlen]

theorem streamTail_stores (s : Streamed) : (streamTail src dst len s).stores = s.stores := by
  unfold streamTail
  split <;> rfl

/-- **The streaming copy is the copy.** The loop ends within `len / 16` rounds. -/
theorem nontemporalCopy_eq (h : Buffers src dst len) (mem : Mem) {fuel : Nat}
    (hfuel : len / 16 ≤ fuel) :
    ∃ out, nontemporalCopy fuel src dst len mem = some out ∧ out.mem = copy src dst len mem ∧
      ∀ a ∈ out.stores, 16 ∣ a ∧ dst ≤ a ∧ a + 16 ≤ dst + len := by
  have hstart := streamHead_inv src dst len mem
  obtain ⟨s, hloop, hs, -⟩ := whileLoop_spec (StreamInv src dst len mem)
    (fun s => (len - s.offset) / 16) (fun s hs hcond => streamStep_inv h hs hcond) hstart
    (Nat.le_trans (Nat.div_le_div_right (Nat.sub_le _ _)) hfuel)
  refine ⟨streamTail src dst len s, ?_, streamTail_mem h hs, ?_⟩
  · rw [nontemporalCopy, hloop, Option.map_some]
  · rw [streamTail_stores]
    exact hs.stores

/-- A destination 8 bytes into a 16-byte unit: a head of 8 bytes and two stores. -/
example : (nontemporalCopy 2 100 1000 43 fun a => .ofNat a).map (·.stores) = some [1008, 1024] := by
  decide

/-! ### `Loan::set_data` on the memory of the process -/

/-- The fields of a `Loan` that `set_data` uses. -/
structure LoanView where
  dataPtr : Nat
  capacity : Nat
  len : Nat

/-- `Loan::set_data` for the `n` bytes at `ptr`; `streaming` is the configuration for x86-64. -/
def LoanView.setData (streaming : Bool) (fuel : Nat) (v : LoanView) (ptr n : Nat) (mem : Mem) :
    Option (Mem × LoanView × Except Error Unit) :=
  if v.capacity < n then some (mem, v, .error (.dataTooLarge n v.capacity))
  else if streaming ∧ 2097152 ≤ n then
    (nontemporalCopy fuel ptr v.dataPtr n mem).map fun out => (out.mem, { v with len := n }, .ok ())
  else some (copy ptr v.dataPtr n mem, { v with len := n }, .ok ())

/-- The path that is taken makes no difference. -/
theorem LoanView.setData_streaming {v : LoanView} {ptr n fuel : Nat}
    (h : n ≤ v.capacity → Buffers ptr v.dataPtr n) (mem : Mem) (hfuel : n / 16 ≤ fuel)
    (streaming : Bool) :
    v.setData streaming fuel ptr n mem =
      if v.capacity < n then some (mem, v, .error (.dataTooLarge n v.capacity))
      else some (copy ptr v.dataPtr n mem, { v with len := n }, .ok ()) := by
  unfold setData
  by_cases hlarge : v.capacity < n
  · rw [if_pos hlarge, if_pos hlarge]
  · rw [if_neg hlarge, if_neg hlarge]
    by_cases hstream : streaming ∧ 2097152 ≤ n
    · obtain ⟨out, hout, hmem, -⟩ := nontemporalCopy_eq (h (Nat.le_of_not_lt hlarge)) mem hfuel
      rw [if_pos hstream, hout, Option.map_some, hmem]
    · rw [if_neg hstream]

variable {cfg : ValidConfig} {base : Nat} {shm : Shm cfg}

/-- Where the payload of a block starts in a process that has mapped the region at `base`. -/
def payloadAddr (base : Nat) (c : Config) (b : Nat) : Nat := base + (blockOff c b + blockDataOffset)

/-- The memory of the process shows the payloads of all blocks. -/
def ShowsBlocks (base : Nat) (mem : Mem) (shm : Shm cfg) : Prop :=
  ∀ b < cfg.blockCount, ∀ i < cfg.dataCapacity,
    mem (payloadAddr base cfg.toConfig b + i) = shm.data b i

/-- A slice with these bytes. -/
def ShowsSlice (ptr : Nat) (mem : Mem) (data : List UInt8) : Prop :=
  ∀ i < data.length, mem (ptr + i) = data.getD i 0

/-- A loan as its holder's process has it. -/
def loanView (base : Nat) (l : Loan cfg) : LoanView :=
  ⟨payloadAddr base cfg.toConfig l.blockIdx, cfg.dataCapacity, l.len⟩

/-- The payloads of different blocks do not meet. -/
theorem payloadAddr_apart (base : Nat) {b b' i : Nat} (hb : b < cfg.blockCount)
    (hb' : b' < cfg.blockCount) (hne : b' ≠ b) (hi : i < cfg.dataCapacity) :
    payloadAddr base cfg.toConfig b' + i < payloadAddr base cfg.toConfig b ∨
      payloadAddr base cfg.toConfig b + cfg.dataCapacity ≤
        payloadAddr base cfg.toConfig b' + i := by
  have hsep : blockOff cfg.toConfig b' + cfg.blockSize ≤ blockOff cfg.toConfig b ∨
      blockOff cfg.toConfig b + cfg.blockSize ≤ blockOff cfg.toConfig b' :=
    Part.separate (x := .block b') (y := .block b) hb' hb (fun heq => hne (Part.block.inj heq))
  unfold payloadAddr
  unfold ValidConfig.dataCapacity at hi ⊢
  omega

/-- The copied slice is the new front of the block, in the memory and in the model. -/
theorem ShowsBlocks.poke {mem : Mem} (hmem : ShowsBlocks base mem shm) {b ptr : Nat}
    {data : List UInt8} (hb : b < cfg.blockCount) (hfits : data.length ≤ cfg.dataCapacity)
    (hdata : ShowsSlice ptr mem data) :
    ShowsBlocks base (copy ptr (payloadAddr base cfg.toConfig b) data.length mem)
      (shm.poke b 0 data) := by
  intro b' hb' i hi
  by_cases hsame : b' = b
  · subst hsame
    simp only [Shm.poke, Function.update_self, Nat.zero_le, true_and, Nat.zero_add, Nat.sub_zero]
    by_cases hnew : i < data.length
    · rw [copy_inside hnew, if_pos hnew, hdata i hnew]
    · rw [copy_outside (by omega), if_neg hnew, hmem b' hb' i hi]
  · have hapart := payloadAddr_apart base hb hb' hsame hi
    rw [copy_outside (by omega), hmem b' hb' i hi]
    simp only [Shm.poke, Function.update_of_ne hsame]

/-- **The streaming copy equals the plain copy.** For buffers that do not overlap
    `nontemporal_copy` returns; it leaves the source in the first `len` bytes of the destination and
    every other byte as it was, and each of its 16-byte stores is aligned and inside the
    destination.  So `set_data` stores the bytes of the ordinary copy, with and without the
    streaming path. -/
theorem streaming_copy_exact :
    (∀ {src dst len : Nat}, Buffers src dst len → ∀ (mem : Mem) (fuel : Nat), len / 16 ≤ fuel →
      ∃ out, nontemporalCopy fuel src dst len mem = some out ∧
        (∀ i < len, out.mem (dst + i) = mem (src + i)) ∧
        (∀ a, a < dst ∨ dst + len ≤ a → out.mem a = mem a) ∧
        ∀ a ∈ out.stores, 16 ∣ a ∧ dst ≤ a ∧ a + 16 ≤ dst + len) ∧
    ∀ {cfg : ValidConfig} (base : Nat) (shm : Shm cfg) (l : Loan cfg) (ptr : Nat)
      (data : List UInt8) (mem : Mem) (fuel : Nat), l.blockIdx < cfg.blockCount →
      ShowsBlocks base mem shm → ShowsSlice ptr mem data → data.length / 16 ≤ fuel →
      (data.length ≤ cfg.dataCapacity →
        Buffers ptr (payloadAddr base cfg.toConfig l.blockIdx) data.length) →
      ∃ mem', ShowsBlocks base mem' (l.setData shm data).1 ∧
        ∀ streaming, (loanView base l).setData streaming fuel ptr data.length mem =
          some (mem', loanView base (l.setData shm data).2.1, (l.setData shm data).2.2) := by
  constructor
  · intro src dst len h mem fuel hfuel
    obtain ⟨out, hout, hmem, hstores⟩ := nontemporalCopy_eq h mem hfuel
    refine ⟨out, hout, fun i hi => ?_, fun a ha => ?_, hstores⟩
    · rw [hmem, copy_inside hi]
    · rw [hmem, copy_outside ha]
  · intro cfg base shm l ptr data mem fuel hb hmem hdata hfuel hbuf
    have hpath := LoanView.setData_streaming (v := loanView base l) hbuf mem hfuel
    unfold Loan.setData
    by_cases hlarge : cfg.dataCapacity < data.length
    · rw [if_pos hlarge]
      exact ⟨mem, hmem, fun streaming => (hpath streaming).trans (if_pos hlarge)⟩
    · rw [if_neg hlarge]
      exact ⟨_, hmem.poke hb (Nat.le_of_not_lt hlarge) hdata,
        fun streaming => (hpath streaming).trans (if_neg hlarge)⟩

/-- Blocks that hold payloads of more than 2 MiB. -/
def largeBlocks : ValidConfig where
  maxTopics := 1
  blockCount := 4
  blockSize := 2097168
  ringDepth := 1
  maxTopics_lt := oneSlot.maxTopics_lt
  blockCount_lt := oneSlot.blockCount_lt
  blockSize_lt := by decide
  ringDepth_lt := oneSlot.ringDepth_lt
  accepted := by decide

/-- Zeros, with sevens from 2³⁰ on. -/
def sevens : Mem := fun a => if a < 2 ^ 30 then 0 else 7

/-- 2 MiB and 5 bytes are copied from 2³⁰ into the first block. -/
theorem streaming_copy_exact_large :
    Buffers (2 ^ 30) (payloadAddr 4096 largeBlocks.toConfig 0) 2097157 ∧
    (∃ out, nontemporalCopy 131072 (2 ^ 30) (payloadAddr 4096 largeBlocks.toConfig 0) 2097157
        sevens = some out ∧
      out.mem (payloadAddr 4096 largeBlocks.toConfig 0 + 2097156) = 7 ∧
      out.mem (payloadAddr 4096 largeBlocks.toConfig 0 + 2097157) = 0) ∧
    ∃ mem' v, ShowsBlocks 4096 mem' ((Region.create largeBlocks 0).shm.poke 0 0
        (List.replicate 2097157 7)) ∧
      (loanView 4096 (⟨.untyped, largeBlocks.topic0, 0, 0⟩ : Loan largeBlocks)).setData true 131072
        (2 ^ 30) 2097157 sevens = some (mem', v, .ok ()) := by
  have hbuf : Buffers (2 ^ 30) (payloadAddr 4096 largeBlocks.toConfig 0) 2097157 :=
    ⟨by decide, by decide, Or.inr (by decide)⟩
  obtain ⟨out, hout, hinside, houtside, -⟩ :=
    streaming_copy_exact.1 hbuf sevens 131072 (by decide)
  have hblocks : ShowsBlocks 4096 sevens (Region.create largeBlocks 0).shm := by
    intro b hb i hi
    refine if_pos ?_
    simp only [payloadAddr, blockOff, blockPoolOffset, Config.ringBase, ValidConfig.dataCapacity,
      largeBlocks, headerSize, topicEntrySize, ringEntrySize, blockDataOffset] at hb hi ⊢
    omega
  have hslice : ShowsSlice (2 ^ 30) sevens (List.replicate 2097157 7) := by
    intro i hi
    rw [List.length_replicate] at hi
    rw [sevens, if_neg (by omega), List.getD_eq_getElem?_getD, List.getElem?_replicate, if_pos hi]
    rfl
  have hset := streaming_copy_exact.2 4096 (Region.create largeBlocks 0).shm
    ⟨.untyped, largeBlocks.topic0, 0, 0⟩ (2 ^ 30) (List.replicate 2097157 7) sevens 131072
    (by decide) hblocks hslice
  simp only [List.length_replicate] at hset
  obtain ⟨mem', hshows, hpath⟩ := hset (by decide) (fun _ => hbuf)
  have hfits : ¬largeBlocks.dataCapacity < 2097157 := by decide
  simp only [Loan.setData, List.length_replicate, if_neg hfits] at hshows hpath
  refine ⟨hbuf, ⟨out, hout, ?_, ?_⟩, mem', _, hshows, hpath true⟩
  · exact (hinside 2097156 (by decide)).trans (if_neg (by decide))
  · exact (houtside _ (Or.inr le_rfl)).trans (if_pos (by decide))

end Crossbar.Mapping
