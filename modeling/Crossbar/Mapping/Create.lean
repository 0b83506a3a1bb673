import Crossbar.Mapping.Reads

namespace Crossbar.Mapping

open Crossbar.Lib

/-!
# Mapping — the header that `create` writes and `open` reads

`Publisher::create` validates a configuration, writes it to the header of a zeroed file, builds
the free list, stores the heartbeat and empties the ring entries; `open_and_validate_region`
reads the header back with checks of its own.  The two lists of checks differ in one place: only
the reader knows `MAX_TOPICS_LIMIT`.

* `Mem.writeLe` — the store of a fixed-width integer, read back by `Mem.readLe`;
* `create` — validation and every write to the file;
* `create_header` — what the header holds once `create` has returned;
* `created_region_opens` — `open_and_validate_region` accepts the file, with the configuration
  of the creator, exactly when `max_topics` is at most 4096;
* `created_region_rejected` — a region of 4097 topics is created and cannot be opened.
-/

/-! ### Stores -/

/-- Store `n` bytes of a little-endian value. -/
def Mem.writeLe (mem : Mem) (off n v : Nat) : Mem := fun i =>
  if off ≤ i ∧ i < off + n then UInt8.ofNat (v / 256 ^ (i - off)) else mem i

/-- `copy_nonoverlapping` of a byte string. -/
def Mem.writeBytes (mem : Mem) (off : Nat) (bytes : List UInt8) : Mem := fun i =>
  if off ≤ i ∧ i < off + bytes.length then bytes.getD (i - off) 0 else mem i

theorem Mem.writeLe_of_outside {mem : Mem} {off n v i : Nat} (h : i < off ∨ off + n ≤ i) :
    mem.writeLe off n v i = mem i :=
  if_neg (by omega)

/-- A value is read from its own bytes only. -/
theorem Mem.readLe_congr {mem mem' : Mem} {off n : Nat}
    (h : ∀ i, off ≤ i → i < off + n → mem i = mem' i) : mem.readLe off n = mem'.readLe off n := by
  induction n generalizing off with
  | zero => rfl
  | succ n ih =>
    rw [readLe, readLe, h off (by omega) (by omega)]
    rw [ih fun i hlow hhigh => h i (by omega) (by omega)]

/-- The value whose base-256 digits the bytes are. -/
theorem Mem.readLe_of_digits {mem : Mem} {off n v : Nat}
    (h : ∀ i < n, mem (off + i) = UInt8.ofNat (v / 256 ^ i)) :
    mem.readLe off n = v % 256 ^ n := by
  induction n generalizing off v with
  | zero =>
    rw [Nat.pow_zero, Nat.mod_one]
    rfl
  | succ n ih =>
    have hfirst : (mem off).toNat = v % 256 := by
      have hbyte := h 0 (by omega)
      rw [Nat.add_zero, Nat.pow_zero, Nat.div_one] at hbyte
      rw [hbyte, UInt8.toNat_ofNat']
    -- the other bytes are the digits of the quotient
    have hrest : mem.readLe (off + 1) n = v / 256 % 256 ^ n := by
      apply ih
      intro i hi
      rw [Nat.add_assoc, Nat.add_comm 1, h (i + 1) (by omega), Nat.pow_succ',
        Nat.div_div_eq_div_mul]
    rw [readLe, hfirst, hrest, Nat.pow_succ', Nat.mod_mul]

/-- A stored value is read back, up to its width. -/
theorem Mem.readLe_writeLe (mem : Mem) (off n v : Nat) :
    (mem.writeLe off n v).readLe off n = v % 256 ^ n := by
  apply readLe_of_digits
  intro i hi
  rw [writeLe, if_pos (by omega), Nat.add_sub_cancel_left]

/-- A store elsewhere is not seen. -/
theorem Mem.readLe_writeLe_of_disjoint {mem : Mem} {off n off' n' v : Nat}
    (h : off + n ≤ off' ∨ off' + n' ≤ off) :
    (mem.writeLe off' n' v).readLe off n = mem.readLe off n :=
  readLe_congr fun i hlow hhigh => writeLe_of_outside (by omega)

/-! ### `Publisher::create` -/

/-- `GH_PID`. -/
def ghPid : Nat := 0x30

/-- `Duration::as_micros`, for a duration in nanoseconds. -/
def asMicros (nanos : Nat) : Nat := nanos / 1000

/-- The global header. -/
def writeHeader (c : Config) (staleTimeout pid : Nat) (mem : Mem) : Mem :=
  let mem := mem.writeBytes ghMagic magic
  let mem := mem.writeLe ghVersion 4 version
  let mem := mem.writeLe ghMaxTopics 4 c.maxTopics
  let mem := mem.writeLe ghBlockCount 4 c.blockCount
  let mem := mem.writeLe ghBlockSize 4 c.blockSize
  let mem := mem.writeLe ghRingDepth 4 c.ringDepth
  let mem := mem.writeLe ghPid 8 pid
  mem.writeLe ghStaleTimeoutUs 8 (asMicros staleTimeout)

/-- The link and the refcount of block `i` in `init_free_list`. -/
def initBlock (c : Config) (mem : Mem) (i : Nat) : Mem :=
  let next := if i + 1 < c.blockCount then i + 1 else noBlock
  (mem.writeLe (blockOff c i) 4 next).writeLe (blockOff c i + bkRefcount) 4 0

/-- `Region::init_free_list`. -/
def initFreeList (c : Config) (mem : Mem) : Mem :=
  ((List.range c.blockCount).foldl (initBlock c) mem).writeLe ghPoolHead 8 0

/-- `Region::update_heartbeat`: `fetch_max` with the clock. -/
def updateHeartbeat (mem : Mem) (now : Nat) : Mem :=
  mem.writeLe ghHeartbeat 8 (max (mem.readLe ghHeartbeat 8) now)

/-- An empty ring entry. -/
def initEntry (c : Config) (t : Nat) (mem : Mem) (slot : Nat) : Mem :=
  let off := ringEntryOff c t slot
  let mem := mem.writeLe (off + reSeq) 8 0
  let mem := mem.writeLe (off + reBlockIdx) 4 noBlock
  mem.writeLe (off + reDataLen) 4 0

/-- The loop of `create` over the ring entries. -/
def initRings (c : Config) (mem : Mem) : Mem :=
  (List.range c.maxTopics).foldl
    (fun mem t => (List.range c.ringDepth).foldl (initEntry c t) mem) mem

/-- The contents of the new file, which starts out zeroed. -/
def createdMem (c : Config) (staleTimeout pid now : Nat) : Mem :=
  let mem := initFreeList c (writeHeader c staleTimeout pid fun _ => 0)
  initRings c (updateHeartbeat mem now)

/-- `Publisher::create` for a valid segment name: the length of the new file and its contents.
    `now` is the clock, `none` when it is behind the epoch. -/
def create (c : Config) (staleTimeout pid : Nat) (now : Option Nat) :
    Except OpenError (Nat × Mem) :=
  if c.blockSize < blockDataOffset + 1 then
    .error (.invalidRegion
      ("block_size must be at least " ++ toString (blockDataOffset + 1) ++ " (got " ++
        toString c.blockSize ++ ")"))
  else if ¬ Config.isPowerOfTwo c.ringDepth then
    .error (.invalidRegion
      ("ring_depth must be a power of 2 (got " ++ toString c.ringDepth ++ ")"))
  else if c.blockCount = 0 then .error (.invalidRegion "block_count must be at least 1")
  else if c.maxTopics = 0 then .error (.invalidRegion "max_topics must be at least 1")
  else
    match c.regionSizeChecked with
    | none => .error .regionSizeOverflow
    | some size =>
      match now with
      | none => .error .clockError
      | some now => .ok (size, createdMem c staleTimeout pid now)

/-! ### What is left in the header -/

/-- Two memories that hold the same bytes from `lo` up to `hi`. -/
def Agree (lo hi : Nat) (mem mem' : Mem) : Prop := ∀ i, lo ≤ i → i < hi → mem' i = mem i

theorem Agree.trans {lo hi : Nat} {mem mem' mem'' : Mem} (h : Agree lo hi mem mem')
    (h' : Agree lo hi mem' mem'') : Agree lo hi mem mem'' :=
  fun i hlo hhi => (h' i hlo hhi).trans (h i hlo hhi)

/-- A store outside the range. -/
theorem Agree.writeLe {lo hi off n : Nat} {mem mem' : Mem} (h : Agree lo hi mem mem')
    (hout : hi ≤ off ∨ off + n ≤ lo) (v : Nat) : Agree lo hi mem (mem'.writeLe off n v) := by
  intro i hlo hhi
  rw [Mem.writeLe_of_outside (by omega)]
  exact h i hlo hhi

theorem Agree.readLe {lo hi off n : Nat} {mem mem' : Mem} (h : Agree lo hi mem mem')
    (hlo : lo ≤ off) (hhi : off + n ≤ hi) : mem'.readLe off n = mem.readLe off n :=
  Mem.readLe_congr fun i hlow hhigh => h i (by omega) (by omega)

theorem blockOff_ge (c : Config) (i : Nat) : headerSize ≤ blockOff c i := by
  unfold blockOff blockPoolOffset Config.ringBase
  omega

theorem ringEntryOff_ge (c : Config) (t slot : Nat) : headerSize ≤ ringEntryOff c t slot := by
  unfold ringEntryOff Config.ringBase
  omega

/-- `init_free_list` writes one word of the header. -/
theorem initFreeList_agree (c : Config) (mem : Mem) (lo hi : Nat) (hhi : hi ≤ headerSize)
    (hout : hi ≤ ghPoolHead ∨ ghHeartbeat ≤ lo) : Agree lo hi mem (initFreeList c mem) := by
  refine Agree.writeLe ?_ hout 0
  -- the loop: the stores to a block are behind the header
  refine List.foldlRecOn (List.range c.blockCount) (initBlock c) (fun _ _ _ => rfl) ?_
  intro mem' h i _
  have hge := blockOff_ge c i
  exact (h.writeLe (Or.inl (by omega)) _).writeLe (Or.inl (by omega)) 0

/-- The ring entries come after the header. -/
theorem initRings_agree (c : Config) (mem : Mem) (lo hi : Nat) (hhi : hi ≤ headerSize) :
    Agree lo hi mem (initRings c mem) := by
  refine List.foldlRecOn (List.range c.maxTopics) _ (fun _ _ _ => rfl) ?_
  intro mem' h t _
  refine List.foldlRecOn (List.range c.ringDepth) (initEntry c t) h ?_
  intro mem'' h' slot _
  have hge := ringEntryOff_ge c t slot
  exact ((h'.writeLe (Or.inl (by omega)) 0).writeLe (Or.inl (by omega)) _).writeLe
    (Or.inl (by omega)) 0

/-- The rest of `create` leaves the header but for the pool head and the heartbeat. -/
theorem createdMem_agree (c : Config) (staleTimeout pid now lo hi : Nat)
    (hhi : hi ≤ headerSize) (hout : hi ≤ ghPoolHead ∨ ghPid ≤ lo) :
    Agree lo hi (writeHeader c staleTimeout pid fun _ => 0)
      (createdMem c staleTimeout pid now) := by
  have hpid : ghPid = ghHeartbeat + 8 := rfl
  have hbeat : ghHeartbeat = ghPoolHead + 8 := rfl
  apply Agree.trans (initFreeList_agree c _ lo hi hhi (by omega))
  apply Agree.trans _ (initRings_agree c _ lo hi hhi)
  exact Agree.writeLe (fun _ _ _ => rfl) (by omega) _

/-- The heartbeat of a new region is not older than the clock of `create`. -/
theorem createdMem_heartbeat (c : Config) (staleTimeout pid : Nat) {now : Nat}
    (hnow : now < 2 ^ 64) :
    now ≤ (createdMem c staleTimeout pid now).readLe ghHeartbeat 8 := by
  unfold createdMem
  rw [(initRings_agree c _ 0 headerSize le_rfl).readLe (Nat.zero_le _) (by decide), updateHeartbeat,
    Mem.readLe_writeLe]
  have hold := (initFreeList c (writeHeader c staleTimeout pid fun _ => 0)).readLe_lt ghHeartbeat 8
  rw [Nat.mod_eq_of_lt (by omega)]
  exact le_max_right _ _

/-- `create` accepts what the validation accepts, when the clock is not behind the epoch. -/
theorem create_of_accepted {c : Config} {len : Nat} (hc : c.accepted = true)
    (hsize : c.regionSizeChecked = some len) (staleTimeout pid now : Nat) :
    create c staleTimeout pid (some now) = .ok (len, createdMem c staleTimeout pid now) := by
  simp only [Config.accepted, Bool.and_eq_true, Bool.not_eq_true', decide_eq_false_iff_not,
    bne_iff_ne] at hc
  obtain ⟨⟨⟨⟨hblock, hring⟩, hcount⟩, htopics⟩, -⟩ := hc
  rw [create, if_neg hblock, if_neg (not_not.mpr hring), if_neg hcount, if_neg htopics, hsize]

/-- The checks of `create` were passed. -/
theorem create_ok {c : Config} {staleTimeout pid len : Nat} {created : Option Nat} {mem : Mem}
    (h : create c staleTimeout pid created = .ok (len, mem)) :
    c.accepted = true ∧ c.regionSizeChecked = some len ∧
      ∃ now, created = some now ∧ mem = createdMem c staleTimeout pid now := by
  unfold create at h
  split at h
  · cases h
  rename_i hblock
  split at h
  · cases h
  rename_i hring
  split at h
  · cases h
  rename_i hcount
  split at h
  · cases h
  rename_i htopics
  cases hsize : c.regionSizeChecked with
  | none =>
    rw [hsize] at h
    cases h
  | some size =>
    cases created with
    | none =>
      rw [hsize] at h
      cases h
    | some now =>
      simp only [hsize, Except.ok.injEq, Prod.mk.injEq] at h
      obtain ⟨rfl, rfl⟩ := h
      refine ⟨?_, rfl, now, rfl, rfl⟩
      simp only [Config.accepted, Bool.and_eq_true, Bool.not_eq_true', decide_eq_false_iff_not,
        bne_iff_ne, hsize, Option.isSome_some, and_true]
      exact ⟨⟨⟨hblock, not_not.mp hring⟩, hcount⟩, htopics⟩

/-- The fields of a configuration are `u32`. -/
def Fits32 (c : Config) : Prop :=
  c.maxTopics < 2 ^ 32 ∧ c.blockCount < 2 ^ 32 ∧ c.blockSize < 2 ^ 32 ∧ c.ringDepth < 2 ^ 32

instance (c : Config) : Decidable (Fits32 c) := inferInstanceAs (Decidable (_ ∧ _))

/-- Every field of the configuration is stored once; the other stores are elsewhere. -/
theorem writeHeader_config {c : Config} (hc : Fits32 c) (staleTimeout pid : Nat)
    (mem : Mem) : (writeHeader c staleTimeout pid mem).config = c := by
  obtain ⟨htopics, hcount, hsize, hdepth⟩ := hc
  have hread (mem : Mem) (off : Nat) {v : Nat} (hv : v < 2 ^ 32) :
      (mem.writeLe off 4 v).readLe off 4 = v := by
    rw [Mem.readLe_writeLe]
    exact Nat.mod_eq_of_lt (by omega)
  -- each field is read past the stores that come after it, which are elsewhere
  simp (disch := decide) only [writeHeader, Mem.config, Mem.readLe_writeLe_of_disjoint]
  rw [hread _ _ htopics, hread _ _ hcount, hread _ _ hsize, hread _ _ hdepth]

theorem writeHeader_version (c : Config) (staleTimeout pid : Nat) (mem : Mem) :
    (writeHeader c staleTimeout pid mem).readLe ghVersion 4 = version := by
  simp (disch := decide) only [writeHeader, Mem.readLe_writeLe_of_disjoint]
  rw [Mem.readLe_writeLe]
  rfl

theorem writeHeader_staleTimeout (c : Config) {staleTimeout : Nat} (pid : Nat) (mem : Mem)
    (h : asMicros staleTimeout < 2 ^ 64) :
    (writeHeader c staleTimeout pid mem).staleTimeout = asMicros staleTimeout := by
  unfold writeHeader Mem.staleTimeout
  rw [Mem.readLe_writeLe]
  exact Nat.mod_eq_of_lt (by omega)

theorem writeHeader_magic (c : Config) (staleTimeout pid : Nat) (mem : Mem) {i : Nat}
    (hi : i < 8) : writeHeader c staleTimeout pid mem (ghMagic + i) = magic.getD i 0 := by
  have hlt : ghMagic + i < ghVersion := by
    unfold ghMagic ghVersion
    omega
  have hout : ∀ {off : Nat} (n v : Nat) (mem : Mem), ghVersion ≤ off →
      mem.writeLe off n v (ghMagic + i) = mem (ghMagic + i) :=
    fun n v mem hoff => Mem.writeLe_of_outside (Or.inl (by omega))
  simp (disch := decide) only [writeHeader, hout]
  rw [Mem.writeBytes, if_pos ⟨by omega, Nat.add_lt_add_left hi ghMagic⟩, Nat.add_sub_cancel_left]

/-- Within the timeout the heartbeat of `create` is fresh. -/
theorem createdMem_fresh (c : Config) (staleTimeout pid created now : Nat)
    (hstale : asMicros staleTimeout < 2 ^ 64) (hcreated : created < 2 ^ 64)
    (hnow : now - created ≤ asMicros staleTimeout) :
    checkHeartbeat (createdMem c staleTimeout pid created) (some now) = .ok () := by
  have hbeat := createdMem_heartbeat c staleTimeout pid hcreated
  have htimeout : (createdMem c staleTimeout pid created).staleTimeout =
      asMicros staleTimeout := by
    rw [Mem.staleTimeout, (createdMem_agree c staleTimeout pid created ghPid headerSize le_rfl
      (Or.inr le_rfl)).readLe (by decide) (by decide)]
    exact writeHeader_staleTimeout c pid _ hstale
  rw [checkHeartbeat, htimeout, if_neg (by omega)]

/-! ### Opening the region again -/

/-- What `open_and_validate_region` does with a header that `create` would have written, up to
    the one check that `create` does not have. -/
theorem openAndValidateRegion_of_header {len : Nat} {mem : Mem} {now : Option Nat}
    (hmagic : (List.range 8).map (fun i => mem (ghMagic + i)) = magic)
    (hversion : mem.readLe ghVersion 4 = version) (haccepted : mem.config.accepted = true)
    (hsize : mem.config.regionSizeChecked = some len) (hfresh : checkHeartbeat mem now = .ok ()) :
    (mem.config.maxTopics ≤ maxTopicsLimit ∧
      ∃ rgn, openAndValidateRegion len mem now = .ok rgn) ∨
    (maxTopicsLimit < mem.config.maxTopics ∧
      openAndValidateRegion len mem now = .error (.invalidRegion
        ("header max_topics " ++ toString mem.config.maxTopics ++ " exceeds limit " ++
          toString maxTopicsLimit))) := by
  have hlen : headerSize ≤ len := by
    rw [regionSizeChecked_eq hsize]
    unfold blockPoolOffset Config.ringBase
    omega
  simp only [Config.accepted, Bool.and_eq_true, Bool.not_eq_true', decide_eq_false_iff_not,
    bne_iff_ne] at haccepted
  obtain ⟨⟨⟨⟨hblock, hpow⟩, hcount⟩, htopics⟩, -⟩ := haccepted
  have hring : ¬(¬Config.isPowerOfTwo mem.config.ringDepth ∨ mem.config.ringDepth = 0) := by
    rintro (hnot | hzero)
    · exact hnot hpow
    · rw [hzero] at hpow
      cases hpow
  unfold openAndValidateRegion
  simp only [if_neg (Nat.not_lt.mpr hlen), if_neg (not_not.mpr hmagic),
    if_neg (not_not.mpr hversion), dif_neg hblock, dif_neg hring, dif_neg hcount, dif_neg htopics]
  -- the one check that `create` does not make
  by_cases hlimit : maxTopicsLimit < mem.config.maxTopics
  · rw [dif_pos hlimit]
    exact Or.inr ⟨hlimit, rfl⟩
  · rw [dif_neg hlimit]
    refine Or.inl ⟨Nat.le_of_not_lt hlimit, ?_⟩
    split
    · rename_i hnone
      rw [hsize] at hnone
      cases hnone
    · rename_i size hsome
      have hfit : ¬ len < size := by
        rw [hsize] at hsome
        cases hsome
        exact lt_irrefl _
      rw [dif_neg hfit]
      split
      · rename_i herr
        rw [hfresh] at herr
        cases herr
      · exact ⟨_, rfl⟩

/-- The header of a new region passes the checks that both sides make. -/
theorem create_header {c : Config} {staleTimeout pid len : Nat} {created : Option Nat} {mem : Mem}
    (hc : Fits32 c) (hstale : asMicros staleTimeout < 2 ^ 64)
    (hcreate : create c staleTimeout pid created = .ok (len, mem)) :
    (List.range 8).map (fun i => mem (ghMagic + i)) = magic ∧
      mem.readLe ghVersion 4 = version ∧ mem.config = c ∧
      mem.staleTimeout = asMicros staleTimeout := by
  obtain ⟨_, _, now, _, rfl⟩ := create_ok hcreate
  have hlow := createdMem_agree c staleTimeout pid now 0 ghPoolHead (by decide)
    (Or.inl le_rfl)
  have hhigh := createdMem_agree c staleTimeout pid now ghPid headerSize le_rfl
    (Or.inr le_rfl)
  refine ⟨?_, ?_, ?_, ?_⟩
  · have hbytes : ∀ i ∈ List.range 8,
        createdMem c staleTimeout pid now (ghMagic + i) = magic.getD i 0 := by
      intro i hi
      rw [List.mem_range] at hi
      have hlt : ghMagic + i < ghPoolHead := by
        unfold ghMagic ghPoolHead
        omega
      rw [hlow _ (Nat.zero_le _) hlt, writeHeader_magic _ _ _ _ hi]
    rw [List.map_congr_left hbytes]
    rfl
  · rw [hlow.readLe (Nat.zero_le _) (by decide)]
    exact writeHeader_version c staleTimeout pid _
  · have hconfig := writeHeader_config hc staleTimeout pid fun _ => 0
    unfold Mem.config at hconfig ⊢
    simp (disch := decide) only [hlow.readLe (Nat.zero_le _)]
    exact hconfig
  · unfold Mem.staleTimeout
    rw [hhigh.readLe (by decide) (by decide)]
    exact writeHeader_staleTimeout c pid _ hstale

/-- Both outcomes for a region that `create` has made. -/
theorem open_created {c : Config} {staleTimeout pid len : Nat} {created now : Option Nat}
    {mem : Mem} (hc : Fits32 c) (hstale : asMicros staleTimeout < 2 ^ 64)
    (hcreate : create c staleTimeout pid created = .ok (len, mem))
    (hfresh : checkHeartbeat mem now = .ok ()) :
    (c.maxTopics ≤ maxTopicsLimit ∧ ∃ rgn, openAndValidateRegion len mem now = .ok rgn) ∨
    (maxTopicsLimit < c.maxTopics ∧
      openAndValidateRegion len mem now = .error (.invalidRegion
        ("header max_topics " ++ toString c.maxTopics ++ " exceeds limit " ++
          toString maxTopicsLimit))) := by
  obtain ⟨haccepted, hsize, _⟩ := create_ok hcreate
  obtain ⟨hmagic, hversion, hconfig, _⟩ := create_header hc hstale hcreate
  rw [← hconfig] at haccepted hsize
  rw [← hconfig]
  exact openAndValidateRegion_of_header hmagic hversion haccepted hsize hfresh

/-- **A created region opens.** When `create` accepts a configuration and the heartbeat is fresh,
    `open_and_validate_region` succeeds on the new file with the same sizes, the same
    `stale_timeout` in microseconds and the same offsets, exactly when there are at most
    `MAX_TOPICS_LIMIT` topics. -/
theorem created_region_opens {c : Config} {staleTimeout pid len : Nat} {created now : Option Nat}
    {mem : Mem} (hc : Fits32 c) (hstale : asMicros staleTimeout < 2 ^ 64)
    (hcreate : create c staleTimeout pid created = .ok (len, mem))
    (hfresh : checkHeartbeat mem now = .ok ()) :
    (∃ rgn, openAndValidateRegion len mem now = .ok rgn ∧ rgn.toConfig = c ∧
      rgn.staleTimeout = asMicros staleTimeout ∧
      ∀ x : Part, x.off rgn.toConfig = x.off c ∧ x.size rgn.toConfig = x.size c) ↔
    c.maxTopics ≤ maxTopicsLimit := by
  obtain ⟨_, _, hconfig, htimeout⟩ := create_header hc hstale hcreate
  rcases open_created hc hstale hcreate hfresh with ⟨hle, rgn, hok⟩ | ⟨hlt, herr⟩
  · obtain ⟨hheader, hsameTimeout, -⟩ := openAndValidateRegion_ok hok
    have hsame : rgn.toConfig = c := hheader.trans hconfig
    refine iff_of_true ⟨rgn, hok, hsame, hsameTimeout.trans htimeout, fun x => ?_⟩ hle
    rw [hsame]
    exact ⟨rfl, rfl⟩
  · refine iff_of_false ?_ (Nat.not_le.mpr hlt)
    rintro ⟨rgn, hok, -⟩
    rw [herr] at hok
    cases hok

/-- One block and one ring entry, with this number of topics. -/
def flat (maxTopics : Nat) : Config := ⟨maxTopics, 1, 16, 1⟩

/-- With 4096 topics the region opens. -/
theorem created_region_opens_limit : ∃ len mem,
    create (flat 4096) 5000000000 7 (some 100) = .ok (len, mem) ∧
      checkHeartbeat mem (some 200) = .ok () ∧
      ∃ rgn, openAndValidateRegion len mem (some 200) = .ok rgn ∧ rgn.toConfig = flat 4096 := by
  have hcreate := create_of_accepted (c := flat 4096) (by decide) rfl 5000000000 7 100
  have hfresh := createdMem_fresh (flat 4096) 5000000000 7 100 200 (by decide) (by decide)
    (by decide)
  obtain ⟨rgn, hopen, hsame, -⟩ := (created_region_opens (by decide) (by decide) hcreate hfresh).mpr
    (by decide)
  exact ⟨_, _, hcreate, hfresh, rgn, hopen, hsame⟩

/-- **A region that only its creator can use.** `create` accepts 4097 topics; opening the new file
    fails. -/
theorem created_region_rejected : ∃ len mem,
    create (flat 4097) 5000000000 7 (some 100) = .ok (len, mem) ∧
      checkHeartbeat mem (some 200) = .ok () ∧
      openAndValidateRegion len mem (some 200) =
        .error (.invalidRegion "header max_topics 4097 exceeds limit 4096") := by
  have hcreate := create_of_accepted (c := flat 4097) (by decide) rfl 5000000000 7 100
  have hfresh := createdMem_fresh (flat 4097) 5000000000 7 100 200 (by decide) (by decide)
    (by decide)
  refine ⟨_, _, hcreate, hfresh, ?_⟩
  rcases open_created (by decide) (by decide) hcreate hfresh with ⟨hle, -⟩ | ⟨-, herr⟩
  · exact absurd hle (by decide)
  · exact herr

end Crossbar.Mapping
