import Crossbar.Region.Model
import Crossbar.Lib.Records

namespace Crossbar.Mapping

open Crossbar.Lib

/-!
# Mapping — what a subscriber reads from a hostile region

`open_and_validate_region` copies the configuration out of the header and checks it against the
length of the mapping; every other word of the region may hold anything, and may change at any
time.  The receive calls are modelled here by the memory accesses they make: an access has an
offset and a size, and what it finds is read from contents that the action brings along, so that
two accesses need not see the same bytes.

* `openAndValidateRegion` — the checks of the header, in their order; the `Region` it returns
  carries what they guarantee;
* `Part` — the header, a topic entry, a ring entry or a block, with its byte range;
* `Pc.access` / `resume` — the next access of `try_recv`, `try_recv_pinned` or a drop, and what
  follows from the value it finds;
* `accesses_stay_in_mapping` — every access and every sample stays in its part and in the
  mapping, whatever the words hold;
* `reads_stay_in_mapping` — so does every guard, exactly when the length in the packed word of a
  pinned publish is at most the capacity of a block.  `try_recv` checks the length it loads,
  `try_recv_pinned` does not: `guard_leaves_mapping`.
-/

/-! ### Bytes -/

/-- The contents of the mapping, by offset. -/
abbrev Mem : Type := Nat → UInt8

/-- The little-endian value of `n` bytes. -/
def Mem.readLe (mem : Mem) : Nat → Nat → Nat
  | _, 0 => 0
  | off, n + 1 => (mem off).toNat + 256 * mem.readLe (off + 1) n

theorem Mem.readLe_lt (mem : Mem) (off n : Nat) : mem.readLe off n < 256 ^ n := by
  induction n generalizing off with
  | zero => exact Nat.one_pos
  | succ n ih =>
    have hbyte : (mem off).toNat < 256 := (mem off).toNat_lt
    have hrest := ih (off + 1)
    rw [readLe, Nat.pow_succ]
    omega

/-! ### The header -/

/-- `MAGIC`, `b"XBAR_ZC\0"`. -/
def magic : List UInt8 := [0x58, 0x42, 0x41, 0x52, 0x5f, 0x5a, 0x43, 0x00]

/-- `VERSION`. -/
def version : Nat := 3

/-- `MAX_TOPICS_LIMIT`. -/
def maxTopicsLimit : Nat := 4096

/-- `GH_MAGIC`. -/
def ghMagic : Nat := 0

/-- `GH_VERSION`. -/
def ghVersion : Nat := 8

/-- `GH_MAX_TOPICS`. -/
def ghMaxTopics : Nat := 0x0C

/-- `GH_BLOCK_COUNT`. -/
def ghBlockCount : Nat := 0x10

/-- `GH_BLOCK_SIZE`. -/
def ghBlockSize : Nat := 0x14

/-- `GH_RING_DEPTH`. -/
def ghRingDepth : Nat := 0x18

/-- `GH_POOL_HEAD`. -/
def ghPoolHead : Nat := 0x20

/-- `GH_HEARTBEAT`. -/
def ghHeartbeat : Nat := 0x28

/-- `GH_STALE_TIMEOUT_US`. -/
def ghStaleTimeoutUs : Nat := 0x38

/-- The configuration in the header. -/
def Mem.config (mem : Mem) : Config where
  maxTopics := mem.readLe ghMaxTopics 4
  blockCount := mem.readLe ghBlockCount 4
  blockSize := mem.readLe ghBlockSize 4
  ringDepth := mem.readLe ghRingDepth 4

/-- The errors of `open_and_validate_region` once the file is mapped. -/
inductive OpenError where
  | invalidRegion (msg : String)
  | regionSizeOverflow
  | clockError
  | publisherDead
  deriving DecidableEq

/-- A region in a mapping of `len` bytes: a configuration that `create` would accept too, whose
    computed size the mapping covers. -/
structure Region (len : Nat) extends ValidConfig where
  /-- `stale_timeout`, in microseconds -/
  staleTimeout : Nat
  size : Nat
  maxTopics_le : maxTopics ≤ maxTopicsLimit
  regionSize : toConfig.regionSizeChecked = some size
  size_le : size ≤ len

/-- The `stale_timeout` that `open_and_validate_region` puts in the region, in microseconds. -/
def Mem.staleTimeout (mem : Mem) : Nat := mem.readLe ghStaleTimeoutUs 8

/-- `Region::check_heartbeat`; `now` is the clock, `none` when it is behind the epoch. -/
def checkHeartbeat (mem : Mem) (now : Option Nat) : Except OpenError Unit :=
  match now with
  | none => .error .clockError
  | some now =>
    if mem.staleTimeout < now - mem.readLe ghHeartbeat 8 then .error .publisherDead
    else .ok ()

/-- `open_and_validate_region`, from the mapping on. -/
def openAndValidateRegion (len : Nat) (mem : Mem) (now : Option Nat) :
    Except OpenError (Region len) :=
  let c := mem.config
  if len < headerSize then .error (.invalidRegion "region too small for header")
  else if (List.range 8).map (fun i => mem (ghMagic + i)) ≠ magic then
    .error (.invalidRegion "invalid magic (expected XBAR_ZC)")
  else if mem.readLe ghVersion 4 ≠ version then
    .error (.invalidRegion
      ("unsupported version " ++ toString (mem.readLe ghVersion 4) ++ ", expected " ++
        toString version))
  else if hblock : c.blockSize < blockDataOffset + 1 then
    .error (.invalidRegion ("header block_size " ++ toString c.blockSize ++ " too small"))
  else if hring : ¬ Config.isPowerOfTwo c.ringDepth ∨ c.ringDepth = 0 then
    .error (.invalidRegion
      ("header ring_depth " ++ toString c.ringDepth ++ " is not a power of 2"))
  else if hcount : c.blockCount = 0 then .error (.invalidRegion "header block_count is 0")
  else if htopics : c.maxTopics = 0 then .error (.invalidRegion "header max_topics is 0")
  else if hlimit : maxTopicsLimit < c.maxTopics then
    .error (.invalidRegion
      ("header max_topics " ++ toString c.maxTopics ++ " exceeds limit " ++
        toString maxTopicsLimit))
  else
    match hsize : c.regionSizeChecked with
    | none => .error .regionSizeOverflow
    | some size =>
      if hfit : len < size then
        .error (.invalidRegion
          ("region size " ++ toString len ++ " < expected " ++ toString size))
      else
        match checkHeartbeat mem now with
        | .error e => .error e
        | .ok () =>
          .ok
            { toConfig := c
              maxTopics_lt := mem.readLe_lt ..
              blockCount_lt := mem.readLe_lt ..
              blockSize_lt := mem.readLe_lt ..
              ringDepth_lt := mem.readLe_lt ..
              accepted := by
                rw [not_or, not_not] at hring
                simp only [Config.accepted, Bool.and_eq_true, Bool.not_eq_true',
                  decide_eq_false_iff_not, bne_iff_ne, hsize, Option.isSome_some, and_true]
                exact ⟨⟨⟨hblock, hring.1⟩, hcount⟩, htopics⟩
              staleTimeout := mem.staleTimeout
              size := size
              maxTopics_le := Nat.le_of_not_lt hlimit
              regionSize := hsize
              size_le := Nat.le_of_not_lt hfit }

/-- A check that returns an error was passed. -/
theorem passed {p : Prop} [Decidable p] {ε α : Type} {e : ε} {x : Except ε α} {y : α}
    (h : (if p then .error e else x) = .ok y) : x = .ok y := by
  by_cases hp : p
  · rw [if_pos hp] at h
    cases h
  · rwa [if_neg hp] at h

/-- A check whose outcome is used later on was passed. -/
theorem passedWith {p : Prop} [Decidable p] {ε α : Type} {e : ε} {x : ¬p → Except ε α} {y : α}
    (h : (if hp : p then .error e else x hp) = .ok y) : ∃ hp, x hp = .ok y := by
  by_cases hp : p
  · rw [dif_pos hp] at h
    cases h
  · rw [dif_neg hp] at h
    exact ⟨hp, h⟩

/-- An open region has what the header had then, and has passed the check of the heartbeat. -/
theorem openAndValidateRegion_ok {len : Nat} {mem : Mem} {now : Option Nat} {rgn : Region len}
    (h : openAndValidateRegion len mem now = .ok rgn) :
    rgn.toConfig = mem.config ∧ rgn.staleTimeout = mem.staleTimeout ∧
      checkHeartbeat mem now = .ok () := by
  unfold openAndValidateRegion at h
  -- the first three checks carry nothing over, the others a field of the region each
  obtain ⟨_, h⟩ := passedWith (passed (passed (passed h)))
  obtain ⟨_, h⟩ := passedWith h
  obtain ⟨_, h⟩ := passedWith h
  obtain ⟨_, h⟩ := passedWith h
  obtain ⟨_, h⟩ := passedWith h
  split at h
  · cases h
  obtain ⟨_, h⟩ := passedWith h
  split at h
  · cases h
  · rename_i hfresh
    cases h
    exact ⟨rfl, rfl, hfresh⟩

/-! ### The parts of a region -/

/-- `topic_entry_off`. -/
def topicEntryOff (t : Nat) : Nat := headerSize + t * topicEntrySize

/-- `ring_entry_off`. -/
def ringEntryOff (c : Config) (t slot : Nat) : Nat :=
  c.ringBase + t * c.ringDepth * ringEntrySize + slot * ringEntrySize

/-- `block_pool_offset`. -/
def blockPoolOffset (c : Config) : Nat := c.ringBase + c.maxTopics * c.ringDepth * ringEntrySize

/-- `Region::block_ptr`, as an offset. -/
def blockOff (c : Config) (b : Nat) : Nat := blockPoolOffset c + b * c.blockSize

/-- A part of the region: the header, a topic entry, a ring entry, or a block. -/
inductive Part where
  | header
  | topic (t : Nat)
  | ring (t slot : Nat)
  | block (b : Nat)

namespace Part

/-- Where a part starts. -/
def off (c : Config) : Part → Nat
  | .header => 0
  | .topic t => topicEntryOff t
  | .ring t slot => ringEntryOff c t slot
  | .block b => blockOff c b

/-- The size of a part. -/
def size (c : Config) : Part → Nat
  | .header => headerSize
  | .topic _ => topicEntrySize
  | .ring .. => ringEntrySize
  | .block _ => c.blockSize

/-- The region has such a part. -/
def Exists (c : Config) : Part → Prop
  | .header => True
  | .topic t => t < c.maxTopics
  | .ring t slot => t < c.maxTopics ∧ slot < c.ringDepth
  | .block b => b < c.blockCount

end Part

/-- The computed size, without the overflow checks. -/
theorem regionSizeChecked_eq {c : Config} {size : Nat} (h : c.regionSizeChecked = some size) :
    size = blockPoolOffset c + c.blockCount * c.blockSize := by
  simp only [Config.regionSizeChecked, Config.blockPoolOffsetChecked, Config.checkedMul,
    Config.checkedAdd, Option.bind_eq_bind, Option.bind_eq_some_iff, Option.ite_none_right_eq_some,
    Option.some.injEq] at h
  obtain ⟨poolOff, ⟨rings, ⟨-, rfl⟩, ringSize, ⟨-, rfl⟩, -, rfl⟩, poolSize, ⟨-, rfl⟩, -, rfl⟩ := h
  rfl

/-- The tables of a region, in their order: the header, the topic entries, the ring entries of all
    topics, and the blocks. -/
def tables (c : Config) : Layout :=
  [⟨headerSize, 1⟩, ⟨topicEntrySize, c.maxTopics⟩, ⟨ringEntrySize, c.maxTopics * c.ringDepth⟩,
    ⟨c.blockSize, c.blockCount⟩]

theorem extent_tables (c : Config) :
    (tables c).extent = blockPoolOffset c + c.blockCount * c.blockSize := by
  simp [tables, RecordTable.extent, blockPoolOffset, Config.ringBase, Nat.add_assoc]

/-- The ring entries of all topics are one table. -/
theorem ringIdx_lt {topics depth t slot : Nat} (ht : t < topics) (hslot : slot < depth) :
    t * depth + slot < topics * depth :=
  calc t * depth + slot < (t + 1) * depth := by rw [Nat.succ_mul]; omega
    _ ≤ topics * depth := Nat.mul_le_mul_right depth ht

/-- A part of a region is a record of its tables. -/
def Part.record {c : Config} : (x : Part) → x.Exists c → Record (tables c)
  | .header, _ => ⟨0, ⟨headerSize, 1⟩, rfl, 0, Nat.one_pos⟩
  | .topic t, h => ⟨1, ⟨topicEntrySize, c.maxTopics⟩, rfl, t, h⟩
  | .ring t slot, h =>
    ⟨2, ⟨ringEntrySize, c.maxTopics * c.ringDepth⟩, rfl, t * c.ringDepth + slot,
      ringIdx_lt h.1 h.2⟩
  | .block b, h => ⟨3, ⟨c.blockSize, c.blockCount⟩, rfl, b, h⟩

/-- The offsets that the code computes are those of the tables. -/
theorem Part.off_record {c : Config} {x : Part} (h : x.Exists c) : (x.record h).off = x.off c := by
  cases x with
  | header => simp [record, Record.off, off, Layout.start]
  | topic t =>
    simp [record, Record.off, off, Layout.start, tables, RecordTable.extent, topicEntryOff]
  | ring t slot =>
    simp [record, Record.off, off, Layout.start, tables, RecordTable.extent, ringEntryOff,
      Config.ringBase, Nat.add_mul, Nat.add_assoc]
  | block b =>
    simp [record, Record.off, off, Layout.start, tables, RecordTable.extent, blockOff,
      blockPoolOffset, Config.ringBase, Nat.add_assoc]

theorem Part.size_record {c : Config} {x : Part} (h : x.Exists c) :
    (x.record h).table.size = x.size c := by
  cases x <;> rfl

/-- Every part lies within the computed size. -/
theorem Part.end_le_size {c : Config} {size : Nat} (hsize : c.regionSizeChecked = some size)
    {x : Part} (h : x.Exists c) : x.off c + x.size c ≤ size := by
  rw [regionSizeChecked_eq hsize, ← extent_tables, ← off_record h, ← size_record h]
  exact (x.record h).end_le_extent

/-- Every part of a region lies in the mapping. -/
theorem Part.end_le {len : Nat} (rgn : Region len) {x : Part} (h : x.Exists rgn.toConfig) :
    x.off rgn.toConfig + x.size rgn.toConfig ≤ len :=
  (end_le_size rgn.regionSize h).trans rgn.size_le

/-! ### The calls, access by access -/

/-- `TE_WRITE_SEQ`. -/
def teWriteSeq : Nat := 8

/-- `TE_PINNED_BLOCK`. -/
def tePinnedBlock : Nat := 0x64

/-- `TE_PINNED_READERS`. -/
def tePinnedReaders : Nat := 0x68

/-- `TE_PINNED_SEQ`. -/
def tePinnedSeq : Nat := 0x70

/-- `RE_SEQ`. -/
def reSeq : Nat := 0

/-- `RE_BLOCK_IDX`. -/
def reBlockIdx : Nat := 8

/-- `RE_DATA_LEN`. -/
def reDataLen : Nat := 12

/-- `BK_REFCOUNT`. -/
def bkRefcount : Nat := 4

/-- The window scan of `try_recv`: the loaded `write_seq` and the number it is at. -/
structure Scan where
  cur : Nat
  pos : Nat

/-- Who has called `release_block`: the scan, to undo its increment, or the drop of a sample. -/
inductive Caller where
  | scan (sc : Scan)
  | drop

/-- The next access of a subscriber, with the locals it needs. -/
inductive Pc where
  | idle
  -- `try_recv`
  | loadWriteSeq
  | check (sc : Scan)
  | loadBlock (sc : Scan)
  | loadLen (sc : Scan) (b : Nat)
  | loadRc (sc : Scan) (b len : Nat)
  | casRc (sc : Scan) (b len rc : Nat)
  | recheck (sc : Scan) (b len : Nat)
  -- `release_block` and `free_block`
  | release (k : Caller) (b : Nat)
  | loadHead (k : Caller) (b : Nat)
  | storeLink (k : Caller) (b head : Nat)
  | casHead (k : Caller) (b head : Nat)
  -- `try_recv_pinned`
  | loadPacked
  | loadPinnedBlock (packed : Nat)
  | loadReaders (packed b : Nat)
  | casReaders (packed b current : Nat)
  | recheckPacked (packed b : Nat)
  | undoReaders
  -- the drop of a `PinnedGuard`
  | dropReaders

/-- A `Sample`. -/
structure Sample where
  blockIdx : Nat
  len : Nat

/-- A `PinnedGuard`: its `data_ptr` is the payload of block `blockIdx`. -/
structure PinnedGuard where
  blockIdx : Nat
  len : Nat
  deriving DecidableEq

/-- A stream with its live samples and guards. -/
structure State where
  lastSeq : Nat
  pc : Pc
  samples : List Sample
  guards : List PinnedGuard

/-- A stream that starts at a number. -/
def init (lastSeq : Nat) : State := ⟨lastSeq, .idle, [], []⟩

/-- A call, or the next access of a running one.  The access finds `mem`; `spurious` lets a weak
    CAS fail for no reason. -/
inductive Act where
  | tryRecv
  | tryRecvPinned
  | dropSample (k : Nat)
  | dropGuard (k : Nat)
  | access (mem : Mem) (spurious : Bool)

/-- An access: `size` bytes at offset `rel` of a part. -/
structure Access where
  part : Part
  rel : Nat
  size : Nat

section

variable (cfg : ValidConfig) (t : cfg.Topic)

/-- A word of the stream's topic entry. -/
def topicWord (rel size : Nat) : Option Access := some ⟨.topic t, rel, size⟩

/-- A word of the ring entry of a number. -/
def ringWord (q rel size : Nat) : Option Access := some ⟨.ring t (cfg.slotOf q), rel, size⟩

/-- The access that comes next. -/
def Pc.access : Pc → Option Access
  | .idle => none
  | .loadWriteSeq => topicWord cfg t teWriteSeq 8
  | .check sc => ringWord cfg t sc.pos reSeq 8
  | .loadBlock sc => ringWord cfg t sc.pos reBlockIdx 4
  | .loadLen sc _ => ringWord cfg t sc.pos reDataLen 4
  | .loadRc _ b _ => some ⟨.block b, bkRefcount, 4⟩
  | .casRc _ b _ _ => some ⟨.block b, bkRefcount, 4⟩
  | .recheck sc _ _ => ringWord cfg t sc.pos reSeq 8
  | .release _ b => some ⟨.block b, bkRefcount, 4⟩
  | .loadHead _ _ => some ⟨.header, ghPoolHead, 8⟩
  | .storeLink _ b _ => some ⟨.block b, 0, 4⟩
  | .casHead _ _ _ => some ⟨.header, ghPoolHead, 8⟩
  | .loadPacked => topicWord cfg t tePinnedSeq 8
  | .loadPinnedBlock _ => topicWord cfg t tePinnedBlock 4
  | .loadReaders _ _ => topicWord cfg t tePinnedReaders 4
  | .casReaders _ _ _ => topicWord cfg t tePinnedReaders 4
  | .recheckPacked _ _ => topicWord cfg t tePinnedSeq 8
  | .undoReaders => topicWord cfg t tePinnedReaders 4
  | .dropReaders => topicWord cfg t tePinnedReaders 4

/-- The scan goes on to the next number, or `try_recv` returns `None`. -/
def Scan.next (sc : Scan) : Pc := if sc.pos < sc.cur then .check ⟨sc.cur, sc.pos + 1⟩ else .idle

/-- `release_block` returns. -/
def Caller.ret : Caller → Pc
  | .scan sc => sc.next
  | .drop => .idle

/-- `release_block`, up to its first access. -/
def releaseBlock (k : Caller) (b : Nat) : Pc := if b < cfg.blockCount then .release k b else k.ret

/-- `free_block`, up to its first access. -/
def freeBlock (k : Caller) (b : Nat) : Pc := if b < cfg.blockCount then .loadHead k b else k.ret

/-- What follows when the access of `s.pc` finds `v`. -/
def resume (s : State) (v : Nat) (spurious : Bool) : State :=
  match s.pc with
  | .idle => s
  | .loadWriteSeq =>
    if v ≤ s.lastSeq then { s with pc := .idle }
    else { s with pc := .check ⟨v, Ring.scanStart cfg.ringDepth s.lastSeq v⟩ }
  | .check sc => { s with pc := if v ≠ sc.pos then sc.next else .loadBlock sc }
  | .loadBlock sc => { s with pc := .loadLen sc v }
  | .loadLen sc b =>
    { s with
      pc :=
        if b = noBlock then sc.next
        else if cfg.blockCount ≤ b then sc.next
        else if cfg.dataCapacity < v then sc.next
        else .loadRc sc b v }
  | .loadRc sc b len => { s with pc := if v = 0 then sc.next else .casRc sc b len v }
  | .casRc sc b len rc =>
    { s with pc := if v = rc ∧ spurious = false then .recheck sc b len else .loadRc sc b len }
  | .recheck sc b len =>
    if v ≠ sc.pos then { s with pc := releaseBlock cfg (.scan sc) b }
    else { s with pc := .idle, lastSeq := sc.pos, samples := s.samples ++ [⟨b, len⟩] }
  | .release k b => { s with pc := if v = 1 then freeBlock cfg k b else k.ret }
  | .loadHead k b => { s with pc := .storeLink k b v }
  | .storeLink k b head => { s with pc := .casHead k b head }
  | .casHead k b head =>
    { s with pc := if v = head ∧ spurious = false then k.ret else .storeLink k b v }
  | .loadPacked =>
    { s with
      pc :=
        if v = 0 then .idle
        else if v >>> 32 ≤ s.lastSeq then .idle
        else .loadPinnedBlock v }
  | .loadPinnedBlock packed =>
    { s with
      pc :=
        if v = noBlock then .idle
        else if cfg.blockCount ≤ v then .idle
        else .loadReaders packed v }
  | .loadReaders packed b =>
    { s with
      pc := if v = Crossbar.Region.pinnedWriterActive then .idle else .casReaders packed b v }
  | .casReaders packed b current =>
    { s with
      pc := if v = current ∧ spurious = false then .recheckPacked packed b
        else .loadReaders packed b }
  | .recheckPacked packed b =>
    if v ≠ packed then { s with pc := .undoReaders }
    else
      { s with
        pc := .idle, lastSeq := packed >>> 32, guards := s.guards ++ [⟨b, wrap32 packed⟩] }
  | .undoReaders => { s with pc := .idle }
  | .dropReaders => { s with pc := .idle }

/-- The offset of an access. -/
def Access.off (a : Access) : Nat := a.part.off cfg.toConfig + a.rel

/-- One action. -/
def step (s : State) : Act → Option State
  | .tryRecv =>
    match s.pc with
    | .idle => some { s with pc := .loadWriteSeq }
    | _ => none
  | .tryRecvPinned =>
    match s.pc with
    | .idle => some { s with pc := .loadPacked }
    | _ => none
  | .dropSample k =>
    match s.pc, s.samples[k]? with
    | .idle, some x =>
      some { s with pc := releaseBlock cfg .drop x.blockIdx, samples := s.samples.eraseIdx k }
    | _, _ => none
  | .dropGuard k =>
    match s.pc, s.guards[k]? with
    | .idle, some _ => some { s with pc := .dropReaders, guards := s.guards.eraseIdx k }
    | _, _ => none
  | .access mem spurious =>
    (s.pc.access cfg t).map fun a => resume cfg s (mem.readLe (a.off cfg) a.size) spurious

end

/-- The packed word of `try_recv_pinned`, when the action is its second load and finds it
    unchanged. -/
def packedFound (t : Nat) (s : State) (a : Act) : Option Nat :=
  match s.pc, a with
  | .recheckPacked packed _, .access mem _ =>
    if mem.readLe (topicEntryOff t + tePinnedSeq) 8 = packed then some packed else none
  | _, _ => none

/-- The length in the packed word fits a block. -/
def PackedFits (cfg : ValidConfig) (t : cfg.Topic) (s : State) (a : Act) : Prop :=
  ∀ packed ∈ packedFound t s a, wrap32 packed ≤ cfg.dataCapacity

instance (cfg : ValidConfig) (t : cfg.Topic) (s : State) (a : Act) :
    Decidable (PackedFits cfg t s a) :=
  inferInstanceAs (Decidable (∀ packed ∈ packedFound t s a, _))

/-! ### Bounds -/

/-- What is true of the locals: a block index that is used has been checked, and so has the
    length that `try_recv` has loaded. -/
def PcInv (cfg : ValidConfig) : Pc → Prop
  | .loadRc _ b len | .casRc _ b len _ | .recheck _ b len =>
    b < cfg.blockCount ∧ len ≤ cfg.dataCapacity
  | .release _ b | .loadHead _ b | .storeLink _ b _ | .casHead _ b _ => b < cfg.blockCount
  | .loadReaders _ b | .casReaders _ b _ | .recheckPacked _ b => b < cfg.blockCount
  | _ => True

/-- What the checks of the calls guarantee: the locals and the samples are in bounds, and the
    guards are on blocks of the region. -/
structure Inv (cfg : ValidConfig) (s : State) : Prop where
  pc : PcInv cfg s.pc
  samples : ∀ x ∈ s.samples, x.blockIdx < cfg.blockCount ∧ x.len ≤ cfg.dataCapacity
  guards : ∀ g ∈ s.guards, g.blockIdx < cfg.blockCount

section

variable {cfg : ValidConfig}

theorem next_inv (sc : Scan) : PcInv cfg sc.next := by
  unfold Scan.next
  split
  · trivial
  · trivial

theorem ret_inv (k : Caller) : PcInv cfg k.ret := by
  cases k with
  | scan sc => exact next_inv sc
  | drop => trivial

theorem releaseBlock_inv (k : Caller) (b : Nat) : PcInv cfg (releaseBlock cfg k b) := by
  unfold releaseBlock
  split
  · assumption
  · exact ret_inv k

theorem freeBlock_inv (k : Caller) (b : Nat) : PcInv cfg (freeBlock cfg k b) := by
  unfold freeBlock
  split
  · assumption
  · exact ret_inv k

/-- The subscriber goes on without a new sample or guard. -/
theorem Inv.setPc {s : State} (h : Inv cfg s) {pc : Pc} (hpc : PcInv cfg pc) :
    Inv cfg { s with pc := pc } :=
  ⟨hpc, h.samples, h.guards⟩

/-- Whatever an access finds, the locals stay in bounds: a block index is checked before it is
    used, and so is the length that `try_recv` loads. -/
theorem inv_resume {s : State} (h : Inv cfg s) (v : Nat) (spurious : Bool) :
    Inv cfg (resume cfg s v spurious) := by
  have hpc := h.pc
  unfold resume
  cases hat : s.pc with
  | idle => exact h
  | loadWriteSeq =>
    dsimp only
    split
    · exact h.setPc trivial
    · exact h.setPc trivial
  | check sc =>
    refine h.setPc ?_
    split
    · exact next_inv sc
    · trivial
  | loadBlock | undoReaders | dropReaders => exact h.setPc trivial
  | loadLen sc b =>
    refine h.setPc ?_
    split
    · exact next_inv sc
    split
    · exact next_inv sc
    split
    · exact next_inv sc
    · rename_i hb hlen
      exact ⟨Nat.lt_of_not_le hb, Nat.le_of_not_lt hlen⟩
  | loadRc sc b len =>
    rw [hat] at hpc
    refine h.setPc ?_
    split
    · exact next_inv sc
    · exact hpc
  | casRc | casReaders =>
    rw [hat] at hpc
    refine h.setPc ?_
    split
    · exact hpc
    · exact hpc
  | recheck sc b len =>
    rw [hat] at hpc
    dsimp only
    split
    · exact h.setPc (releaseBlock_inv _ b)
    · -- the sample takes the index and the length that were checked
      refine ⟨trivial, fun x hx => ?_, h.guards⟩
      rcases List.mem_append.mp hx with hold | hnew
      · exact h.samples x hold
      · rw [List.mem_singleton] at hnew
        subst hnew
        exact hpc
  | release k b =>
    refine h.setPc ?_
    split
    · exact freeBlock_inv k b
    · exact ret_inv k
  | loadHead | storeLink =>
    rw [hat] at hpc
    exact h.setPc hpc
  | casHead k b head =>
    rw [hat] at hpc
    refine h.setPc ?_
    split
    · exact ret_inv k
    · exact hpc
  | loadPacked =>
    refine h.setPc ?_
    split
    · trivial
    split
    · trivial
    · trivial
  | loadPinnedBlock packed =>
    refine h.setPc ?_
    split
    · trivial
    split
    · trivial
    · rename_i hb
      exact Nat.lt_of_not_le hb
  | loadReaders packed b =>
    rw [hat] at hpc
    refine h.setPc ?_
    split
    · trivial
    · exact hpc
  | recheckPacked packed b =>
    rw [hat] at hpc
    dsimp only
    split
    · exact h.setPc trivial
    · -- the guard takes the index that was checked; nothing is known of its length
      refine ⟨trivial, h.samples, fun g hg => ?_⟩
      rcases List.mem_append.mp hg with hold | hnew
      · exact h.guards g hold
      · rw [List.mem_singleton] at hnew
        subst hnew
        exact hpc

/-- What an action does: it starts a call, starts the drop of a sample or of a guard, or makes
    the next access and goes on with the word it finds. -/
theorem step_cases {t : cfg.Topic} {s s' : State} {a : Act} (hstep : step cfg t s a = some s') :
    (∃ pc, (pc = .loadWriteSeq ∨ pc = .loadPacked) ∧ s' = { s with pc := pc }) ∨
    (∃ k x, s' =
      { s with pc := releaseBlock cfg .drop x, samples := s.samples.eraseIdx k }) ∨
    (∃ k, s' = { s with pc := .dropReaders, guards := s.guards.eraseIdx k }) ∨
    (∃ mem spurious acc, a = .access mem spurious ∧ s.pc.access cfg t = some acc ∧
      s' = resume cfg s (mem.readLe (acc.off cfg) acc.size) spurious) := by
  cases a with
  | tryRecv =>
    simp only [step] at hstep
    split at hstep
    · cases hstep
      exact .inl ⟨_, .inl rfl, rfl⟩
    · cases hstep
  | tryRecvPinned =>
    simp only [step] at hstep
    split at hstep
    · cases hstep
      exact .inl ⟨_, .inr rfl, rfl⟩
    · cases hstep
  | dropSample k =>
    simp only [step] at hstep
    split at hstep
    · cases hstep
      exact .inr (.inl ⟨k, _, rfl⟩)
    · cases hstep
  | dropGuard k =>
    simp only [step] at hstep
    split at hstep
    · cases hstep
      exact .inr (.inr (.inl ⟨k, rfl⟩))
    · cases hstep
  | access mem spurious =>
    simp only [step, Option.map_eq_some_iff] at hstep
    obtain ⟨acc, hacc, rfl⟩ := hstep
    exact .inr (.inr (.inr ⟨mem, spurious, acc, rfl, hacc, rfl⟩))

/-- **Step.** Calls, accesses and drops keep the bounds. -/
theorem inv_step {t : cfg.Topic} {s s' : State} {a : Act} (h : Inv cfg s)
    (hstep : step cfg t s a = some s') : Inv cfg s' := by
  obtain ⟨pc, hpc, rfl⟩ | ⟨k, b, rfl⟩ | ⟨k, rfl⟩ | ⟨mem, spurious, acc, -, -, rfl⟩ :=
    step_cases hstep
  · refine h.setPc ?_
    rcases hpc with rfl | rfl
    · trivial
    · trivial
  · exact ⟨releaseBlock_inv _ b, fun x hx => h.samples x (List.mem_of_mem_eraseIdx hx), h.guards⟩
  · exact ⟨trivial, h.samples, fun g hg => h.guards g (List.mem_of_mem_eraseIdx hg)⟩
  · exact inv_resume h _ spurious

/-! ### The length of a guard -/

/-- A guard is returned when the second load of the packed word finds it unchanged; its length
    is the one in the word, as it is. -/
theorem resume_guards (cfg : ValidConfig) (s : State) (v : Nat) (spurious : Bool) :
    (resume cfg s v spurious).guards = s.guards ∨
      ∃ b, s.pc = .recheckPacked v b ∧
        (resume cfg s v spurious).guards = s.guards ++ [⟨b, wrap32 v⟩] := by
  unfold resume
  cases hat : s.pc with
  | loadWriteSeq | recheck =>
    left
    dsimp only
    split
    · rfl
    · rfl
  | recheckPacked packed b =>
    dsimp only
    split
    · exact Or.inl rfl
    · rename_i hsame
      rw [not_not] at hsame
      subst hsame
      exact Or.inr ⟨b, rfl, rfl⟩
  | _ => exact Or.inl rfl

/-- The action at which `try_recv_pinned` finds the packed word unchanged returns a guard. -/
theorem packedFound_returns {t : cfg.Topic} {s s' : State} {a : Act} {packed : Nat}
    (hfound : packedFound t s a = some packed) (hstep : step cfg t s a = some s') :
    ∃ b, s'.guards = s.guards ++ [⟨b, wrap32 packed⟩] := by
  unfold packedFound at hfound
  split at hfound
  · rename_i packed' b mem spurious hat
    split at hfound
    · rename_i hword
      cases hfound
      simp only [step, hat] at hstep
      obtain ⟨acc, hacc, rfl⟩ := Option.map_eq_some_iff.mp hstep
      cases hacc
      refine ⟨b, ?_⟩
      unfold resume
      rw [hat]
      exact congrArg State.guards (if_neg (not_not.mpr hword))
    · cases hfound
  · cases hfound

/-- What an action does to the guards: it drops some, or returns one for a packed word that it
    has found unchanged. -/
theorem step_guards {t : cfg.Topic} {s s' : State} {a : Act} (hstep : step cfg t s a = some s')
    {g : PinnedGuard} (hg : g ∈ s'.guards) :
    g ∈ s.guards ∨ ∃ packed, packedFound t s a = some packed ∧ g.len = wrap32 packed := by
  obtain ⟨pc, -, rfl⟩ | ⟨k, b, rfl⟩ | ⟨k, rfl⟩ | ⟨mem, spurious, acc, rfl, hacc, rfl⟩ :=
    step_cases hstep
  · exact Or.inl hg
  · exact Or.inl hg
  · exact Or.inl (List.mem_of_mem_eraseIdx hg)
  · rcases resume_guards cfg s (mem.readLe (acc.off cfg) acc.size) spurious with
      hsame | ⟨b, hat, hnew⟩
    · rw [hsame] at hg
      exact Or.inl hg
    rw [hnew, List.mem_append, List.mem_singleton] at hg
    rcases hg with hold | rfl
    · exact Or.inl hold
    · -- the access before it was that of the packed word
      refine Or.inr ⟨_, ?_, rfl⟩
      have hword : acc = ⟨.topic t, tePinnedSeq, 8⟩ := by
        rw [hat] at hacc
        exact (Option.some.inj hacc).symm
      subst hword
      unfold packedFound
      rw [hat]
      exact if_pos rfl

/-! ### Accesses -/

/-- A word of the topic entry. -/
theorem topicWord_within {t : cfg.Topic} {rel size : Nat} (hle : rel + size ≤ topicEntrySize)
    {a : Access} (ha : topicWord cfg t rel size = some a) :
    a.part.Exists cfg.toConfig ∧ a.rel + a.size ≤ a.part.size cfg.toConfig := by
  cases ha
  exact ⟨t.isLt, hle⟩

/-- A word of a ring entry: the mask keeps the slot below `ring_depth`. -/
theorem ringWord_within {t : cfg.Topic} {q rel size : Nat} (hle : rel + size ≤ ringEntrySize)
    {a : Access} (ha : ringWord cfg t q rel size = some a) :
    a.part.Exists cfg.toConfig ∧ a.rel + a.size ≤ a.part.size cfg.toConfig := by
  cases ha
  exact ⟨⟨t.isLt, (cfg.slotOf q).isLt⟩, hle⟩

/-- A word in front of the payload of a block. -/
theorem blockWord_within {b rel size : Nat} (hb : b < cfg.blockCount)
    (hle : rel + size ≤ blockDataOffset) {a : Access} (ha : some ⟨.block b, rel, size⟩ = some a) :
    a.part.Exists cfg.toConfig ∧ a.rel + a.size ≤ a.part.size cfg.toConfig := by
  cases ha
  have hsize := cfg.checks.1
  refine ⟨hb, ?_⟩
  change rel + size ≤ cfg.blockSize
  omega

/-- An access with locals in bounds is to a part of the region, and inside it. -/
theorem access_within {t : cfg.Topic} {pc : Pc} (h : PcInv cfg pc) {a : Access}
    (ha : pc.access cfg t = some a) :
    a.part.Exists cfg.toConfig ∧ a.rel + a.size ≤ a.part.size cfg.toConfig := by
  cases pc with
  | idle => cases ha
  | loadWriteSeq | loadPacked | loadPinnedBlock | loadReaders | casReaders | recheckPacked
  | undoReaders | dropReaders => exact topicWord_within (by decide) ha
  | check | loadBlock | loadLen | recheck => exact ringWord_within (by decide) ha
  | loadRc | casRc => exact blockWord_within h.1 (by decide) ha
  | release | storeLink => exact blockWord_within h (by decide) ha
  | loadHead | casHead =>
    cases ha
    exact ⟨trivial, (by decide : ghPoolHead + 8 ≤ headerSize)⟩

end

/-- The bytes of block `b` that a sample or guard of this length dereferences to lie inside the
    block, and the block inside the mapping. -/
structure PayloadWithin {len : Nat} (rgn : Region len) (b n : Nat) : Prop where
  block_lt : b < rgn.blockCount
  length_le : n ≤ rgn.blockSize - blockDataOffset
  inside : blockDataOffset + n ≤ rgn.blockSize
  mapped : blockOff rgn.toConfig b + blockDataOffset + n ≤ len

theorem payloadWithin {len : Nat} (rgn : Region len) {b n : Nat} (hb : b < rgn.blockCount)
    (hn : n ≤ rgn.dataCapacity) : PayloadWithin rgn b n := by
  have hsize := rgn.checks.1
  have hend : blockOff rgn.toConfig b + rgn.blockSize ≤ len :=
    Part.end_le rgn (x := .block b) hb
  unfold ValidConfig.dataCapacity at hn
  exact ⟨hb, hn, by omega, by omega⟩

/-- Without any condition: each access of `try_recv`, `try_recv_pinned` and the drops is inside
    a part that the region has, and inside the mapping; and every sample dereferences to bytes
    of one block. -/
theorem accesses_stay_in_mapping {len : Nat} {rgn : Region len} {t : rgn.Topic} {lastSeq : Nat}
    {as : List Act} {s : State}
    (hrun : Run (step rgn.toValidConfig t) (fun _ _ => True) (init lastSeq) as s) :
    (∀ a, s.pc.access rgn.toValidConfig t = some a →
      a.part.Exists rgn.toConfig ∧ a.rel + a.size ≤ a.part.size rgn.toConfig ∧
      a.off rgn.toValidConfig + a.size ≤ len) ∧
    (∀ x ∈ s.samples, PayloadWithin rgn x.blockIdx x.len) ∧
    (∀ g ∈ s.guards, g.blockIdx < rgn.blockCount) := by
  have h : Inv rgn.toValidConfig s :=
    hrun.invariant ⟨trivial, nofun, nofun⟩ (fun _ _ _ h _ hstep => inv_step h hstep)
  refine ⟨fun a ha => ?_, fun x hx => ?_, h.guards⟩
  · -- the access is in its part, and the part in the mapping
    obtain ⟨hexists, hwithin⟩ := access_within h.pc ha
    have hend := Part.end_le rgn hexists
    refine ⟨hexists, hwithin, ?_⟩
    change a.part.off rgn.toConfig + a.rel + a.size ≤ len
    omega
  · exact payloadWithin rgn (h.samples x hx).1 (h.samples x hx).2

/-- The guards are inside the mapping after a step exactly when the length in the packed word
    fits a block. -/
theorem guards_within_iff {len : Nat} {rgn : Region len} {t : rgn.Topic} {s s' : State} {a : Act}
    (h : Inv rgn.toValidConfig s) (hguards : ∀ g ∈ s.guards, PayloadWithin rgn g.blockIdx g.len)
    (hstep : step rgn.toValidConfig t s a = some s') :
    (∀ g ∈ s'.guards, PayloadWithin rgn g.blockIdx g.len) ↔
      PackedFits rgn.toValidConfig t s a := by
  constructor
  · intro hwithin packed hfound
    obtain ⟨b, hnew⟩ := packedFound_returns hfound hstep
    refine (hwithin ⟨b, wrap32 packed⟩ ?_).length_le
    rw [hnew]
    exact List.mem_append_right _ (List.mem_singleton_self _)
  · intro hfits g hg
    have hlt := (inv_step h hstep).guards g hg
    rcases step_guards hstep hg with hold | ⟨packed, hfound, hlen⟩
    · exact hguards g hold
    · refine payloadWithin rgn hlt ?_
      rw [hlen]
      exact hfits packed hfound

/-- **Reads stay in the mapping.** A region that `open_and_validate_region` accepts has the
    configuration of its header.  Whatever every access of the stream finds, as long as the
    length in a packed word that `try_recv_pinned` finds unchanged fits a block: each access of
    `try_recv`, `try_recv_pinned` and the drops is inside a part that the region has, and inside
    the mapping; and every sample and guard dereferences to bytes of one block, inside the
    mapping.  At the first step that does not meet the condition, a guard does not. -/
theorem reads_stay_in_mapping {len : Nat} {mem : Mem} {now : Option Nat} {rgn : Region len}
    (hopen : openAndValidateRegion len mem now = .ok rgn) {t : rgn.Topic} {lastSeq : Nat}
    {as : List Act} {s : State}
    (hrun : Run (step rgn.toValidConfig t) (PackedFits rgn.toValidConfig t) (init lastSeq) as s) :
    rgn.toConfig = mem.config ∧
    (∀ a, s.pc.access rgn.toValidConfig t = some a →
      a.part.Exists rgn.toConfig ∧ a.rel + a.size ≤ a.part.size rgn.toConfig ∧
      a.off rgn.toValidConfig + a.size ≤ len) ∧
    (∀ x ∈ s.samples, PayloadWithin rgn x.blockIdx x.len) ∧
    (∀ g ∈ s.guards, PayloadWithin rgn g.blockIdx g.len) ∧
    (∀ a s', step rgn.toValidConfig t s a = some s' →
      ((∀ g ∈ s'.guards, PayloadWithin rgn g.blockIdx g.len) ↔
        PackedFits rgn.toValidConfig t s a)) := by
  obtain ⟨hinv, hguards⟩ : Inv rgn.toValidConfig s ∧
      ∀ g ∈ s.guards, PayloadWithin rgn g.blockIdx g.len :=
    hrun.invariant (I := fun s => Inv rgn.toValidConfig s ∧
        ∀ g ∈ s.guards, PayloadWithin rgn g.blockIdx g.len)
      ⟨⟨trivial, nofun, nofun⟩, nofun⟩
      (fun _ _ _ h hok hstep => ⟨inv_step h.1 hstep, (guards_within_iff h.1 h.2 hstep).mpr hok⟩)
  obtain ⟨haccess, hsamples, _⟩ :=
    accesses_stay_in_mapping (hrun.mono (fun _ _ _ => trivial))
  exact ⟨(openAndValidateRegion_ok hopen).1, haccess, hsamples, hguards,
    fun _ _ hstep => guards_within_iff hinv hguards hstep⟩

/-! ### A length that is not checked -/

/-- A region of one topic, one ring entry and one block of 16 bytes.  Its packed word says
    number 1 with length `n`; all other bytes after the header are zero. -/
def pinnedMem (n : Nat) : Mem := fun i =>
  match i with
  | 0 => 0x58 | 1 => 0x42 | 2 => 0x41 | 3 => 0x52 | 4 => 0x5f | 5 => 0x5a | 6 => 0x43
  | 8 => 3
  | 0x0C => 1
  | 0x10 => 1
  | 0x14 => 16
  | 0x18 => 1
  | 240 => UInt8.ofNat n
  | 241 => UInt8.ofNat (n / 256)
  | 244 => 1
  | _ => 0

/-- One `try_recv_pinned`, during which the contents stay as they are. -/
def pinnedSteps (mem : Mem) : List Act := .tryRecvPinned :: List.replicate 5 (.access mem false)

/-- The region of `pinnedMem`. -/
def pinnedRegion : Region 288 where
  maxTopics := 1
  blockCount := 1
  blockSize := 16
  ringDepth := 1
  maxTopics_lt := oneSlot.maxTopics_lt
  blockCount_lt := oneSlot.maxTopics_lt
  blockSize_lt := oneSlot.blockSize_lt
  ringDepth_lt := oneSlot.ringDepth_lt
  accepted := by decide
  staleTimeout := 0
  size := 288
  maxTopics_le := by decide
  regionSize := by decide
  size_le := by decide

/-- A guard of all 8 payload bytes of the block. -/
theorem reads_stay_in_mapping_full_block :
    openAndValidateRegion 288 (pinnedMem 8) (some 0) = .ok pinnedRegion ∧
      ∃ s, Run (step pinnedRegion.toValidConfig pinnedRegion.topic0)
          (PackedFits pinnedRegion.toValidConfig pinnedRegion.topic0) (init 0)
          (pinnedSteps (pinnedMem 8)) s ∧
        s.guards = [⟨0, 8⟩] ∧ ∀ g ∈ s.guards, PayloadWithin pinnedRegion g.blockIdx g.len := by
  have hopen : openAndValidateRegion 288 (pinnedMem 8) (some 0) = .ok pinnedRegion := rfl
  obtain ⟨s, hrun, hguards⟩ := exists_run_of_exec
    (step pinnedRegion.toValidConfig pinnedRegion.topic0)
    (PackedFits pinnedRegion.toValidConfig pinnedRegion.topic0) (s := init 0)
    (l := pinnedSteps (pinnedMem 8)) (p := fun s => s.guards = [⟨0, 8⟩]) (by decide +kernel)
  exact ⟨hopen, s, hrun, hguards, (reads_stay_in_mapping hopen hrun).2.2.2.1⟩

/-- **A guard leaves the mapping.** The contents never change and `open_and_validate_region`
    accepts them; the packed word says 65535 bytes.  `try_recv_pinned` returns a guard of that
    length on a block with 8 payload bytes, whose range ends after the mapping. -/
theorem guard_leaves_mapping :
    openAndValidateRegion 288 (pinnedMem 65535) (some 0) = .ok pinnedRegion ∧
      ∃ s, Run (step pinnedRegion.toValidConfig pinnedRegion.topic0) (fun _ _ => True) (init 0)
          (pinnedSteps (pinnedMem 65535)) s ∧
        ∃ g ∈ s.guards, pinnedRegion.blockSize - blockDataOffset < g.len ∧
          288 < blockOff pinnedRegion.toConfig g.blockIdx + blockDataOffset + g.len :=
  ⟨rfl, exists_run_of_exec _ _ (by decide +kernel)⟩

end Crossbar.Mapping
