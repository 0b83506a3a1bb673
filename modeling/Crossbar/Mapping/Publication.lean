import Crossbar.Lib.Stores
import Crossbar.Mapping.Create

namespace Crossbar.Mapping

open Crossbar.Lib

/-!
# Mapping — a `connect` that meets a `create`

`Subscriber::connect` takes no lock: it may map the file while `Publisher::create` is still writing
it.  The creator is modelled by its stores, one after the other; the reader by the number of stores
that had been made when it loaded each byte.  Stores are seen in their order, and the reader loads
every word of the header at once; nothing is said about the order of its loads.

* `createStores` — the stores of `create`, with `createStores_run`: together they are `createdMem`;
* `Wordwise` — the reader loads words;
* `readLe_racing` — a word that is stored once is found zero or final;
* `connect_during_create` — a `connect` that succeeds has the configuration of the creator, and
  the pool is ready;
* `connect_without_timeout` — but it may have a `stale_timeout` of zero, which is not checked.
-/

/-! ### The stores of `create` -/

/-- The store of a fixed-width integer. -/
def storeLe (off n v : Nat) : Store Nat UInt8 where
  cells := {i | off ≤ i ∧ i < off + n}
  run mem := Mem.writeLe mem off n v
  outside _ _ hi := if_neg hi

/-- `copy_nonoverlapping` of a byte string. -/
def storeBytes (off : Nat) (bytes : List UInt8) : Store Nat UInt8 where
  cells := {i | off ≤ i ∧ i < off + bytes.length}
  run mem := Mem.writeBytes mem off bytes
  outside _ _ hi := if_neg hi

/-- `fetch_max` on the heartbeat. -/
def storeHeartbeat (now : Nat) : Store Nat UInt8 where
  cells := {i | ghHeartbeat ≤ i ∧ i < ghHeartbeat + 8}
  run mem := updateHeartbeat mem now
  outside _ _ hi := if_neg hi

/-- The stores of `writeHeader`. -/
def headerStores (c : Config) (staleTimeout pid : Nat) : List (Store Nat UInt8) :=
  [storeBytes ghMagic magic, storeLe ghVersion 4 version, storeLe ghMaxTopics 4 c.maxTopics,
    storeLe ghBlockCount 4 c.blockCount, storeLe ghBlockSize 4 c.blockSize,
    storeLe ghRingDepth 4 c.ringDepth, storeLe ghPid 8 pid,
    storeLe ghStaleTimeoutUs 8 (asMicros staleTimeout)]

/-- The stores of `initBlock`. -/
def blockStores (c : Config) (i : Nat) : List (Store Nat UInt8) :=
  [storeLe (blockOff c i) 4 (if i + 1 < c.blockCount then i + 1 else noBlock),
    storeLe (blockOff c i + bkRefcount) 4 0]

/-- The stores of `initFreeList`. -/
def freeListStores (c : Config) : List (Store Nat UInt8) :=
  (List.range c.blockCount).flatMap (blockStores c) ++ [storeLe ghPoolHead 8 0]

/-- The stores of `initEntry`. -/
def entryStores (c : Config) (t slot : Nat) : List (Store Nat UInt8) :=
  [storeLe (ringEntryOff c t slot + reSeq) 8 0,
    storeLe (ringEntryOff c t slot + reBlockIdx) 4 noBlock,
    storeLe (ringEntryOff c t slot + reDataLen) 4 0]

/-- The stores of `initRings`. -/
def ringStores (c : Config) : List (Store Nat UInt8) :=
  (List.range c.maxTopics).flatMap fun t => (List.range c.ringDepth).flatMap (entryStores c t)

/-- The stores of `create`, in the order in which it makes them. -/
def createStores (c : Config) (staleTimeout pid now : Nat) : List (Store Nat UInt8) :=
  headerStores c staleTimeout pid ++
    (freeListStores c ++ (storeHeartbeat now :: ringStores c))

/-- **The stores are the call.** -/
theorem createStores_run (c : Config) (staleTimeout pid now : Nat) :
    Store.runAll (createStores c staleTimeout pid now) (fun _ => 0) =
      createdMem c staleTimeout pid now := by
  simp only [createStores, freeListStores, ringStores, Store.runAll, List.foldl_append,
    List.foldl_cons, List.foldl_nil, List.foldl_flatMap]
  rfl

/-! ### Where they go -/

/-- The store leaves the bytes from `lo` up to `hi`. -/
def Away (lo hi : Nat) (s : Store Nat UInt8) : Prop := ∀ i, lo ≤ i → i < hi → i ∉ s.cells

/-- A word store is away from the bytes that it does not cover. -/
theorem away_storeLe {lo hi off n : Nat} (v : Nat) (h : off + n ≤ lo ∨ hi ≤ off) :
    Away lo hi (storeLe off n v) := by
  rintro i hlo hhi ⟨hoff, hend⟩
  omega

/-- The same for a store of bytes. -/
theorem away_storeBytes {lo hi off : Nat} {bytes : List UInt8}
    (h : off + bytes.length ≤ lo ∨ hi ≤ off) : Away lo hi (storeBytes off bytes) := by
  rintro i hlo hhi ⟨hoff, hend⟩
  omega

/-- The same for the heartbeat. -/
theorem away_storeHeartbeat {lo hi : Nat} (now : Nat)
    (h : ghHeartbeat + 8 ≤ lo ∨ hi ≤ ghHeartbeat) : Away lo hi (storeHeartbeat now) := by
  rintro i hlo hhi ⟨hoff, hend⟩
  omega

/-- The free list is behind the header, but for the head of the pool. -/
theorem freeListStores_away {c : Config} {lo hi : Nat} (hhi : hi ≤ headerSize)
    (hout : hi ≤ ghPoolHead ∨ ghPoolHead + 8 ≤ lo) : ∀ s ∈ freeListStores c, Away lo hi s := by
  intro s hs
  simp only [freeListStores, blockStores, List.mem_append, List.mem_flatMap, List.mem_cons,
    List.not_mem_nil, or_false] at hs
  rcases hs with ⟨i, -, rfl | rfl⟩ | rfl
  · have hge := blockOff_ge c i
    exact away_storeLe _ (Or.inr (by omega))
  · have hge := blockOff_ge c i
    exact away_storeLe _ (Or.inr (by omega))
  · exact away_storeLe _ hout.symm

/-- A ring entry is between the topic entries and the pool. -/
theorem ringEntryOff_le {c : Config} {t slot : Nat} (ht : t < c.maxTopics)
    (hslot : slot < c.ringDepth) : ringEntryOff c t slot + ringEntrySize ≤ blockPoolOffset c := by
  have hidx := ringIdx_lt ht hslot
  have hle := Nat.mul_le_mul_right ringEntrySize (Nat.succ_le_of_lt hidx)
  rw [Nat.succ_mul, Nat.add_mul] at hle
  unfold ringEntryOff blockPoolOffset
  omega

/-- The rings lie behind the header. -/
theorem headerSize_le_ringBase (c : Config) : headerSize ≤ c.ringBase := Nat.le_add_right ..

/-- The stores into the rings are away from everything else. -/
theorem ringStores_away {c : Config} {lo hi : Nat}
    (hout : hi ≤ c.ringBase ∨ blockPoolOffset c ≤ lo) : ∀ s ∈ ringStores c, Away lo hi s := by
  intro s hs
  simp only [ringStores, entryStores, List.mem_flatMap, List.mem_range, List.mem_cons,
    List.not_mem_nil, or_false] at hs
  obtain ⟨t, ht, slot, hslot, hs⟩ := hs
  have hge : c.ringBase ≤ ringEntryOff c t slot := by
    unfold ringEntryOff
    omega
  have hle := ringEntryOff_le ht hslot
  have hsize : ringEntrySize = 16 := rfl
  have hidx : reBlockIdx = 8 := rfl
  have hlen : reDataLen = 12 := rfl
  have hseq : reSeq = 0 := rfl
  rcases hs with rfl | rfl | rfl
  · exact away_storeLe _ (by omega)
  · exact away_storeLe _ (by omega)
  · exact away_storeLe _ (by omega)

/-! ### The racing reader -/

/-- The contents after the first `k` stores. -/
def memAt (c : Config) (staleTimeout pid now k : Nat) : Mem :=
  Store.after (createStores c staleTimeout pid now) (fun _ => 0) k

/-- What a reader finds that loads byte `i` after `τ i` stores. -/
def racingMem (c : Config) (staleTimeout pid now : Nat) (τ : Nat → Nat) : Mem :=
  Store.racing (createStores c staleTimeout pid now) (fun _ => 0) τ

/-- The words that `open_and_validate_region` loads from the header. -/
def headerWords : List (Nat × Nat) :=
  [(ghVersion, 4), (ghMaxTopics, 4), (ghBlockCount, 4), (ghBlockSize, 4), (ghRingDepth, 4),
    (ghStaleTimeoutUs, 8), (ghHeartbeat, 8)]

/-- Every word of the header is loaded at once. -/
def Wordwise (τ : Nat → Nat) : Prop :=
  ∀ w ∈ headerWords, ∀ i, w.1 ≤ i → i < w.1 + w.2 → τ i = τ w.1

/-- A word of zeros is 0. -/
theorem readLe_zero (off n : Nat) : Mem.readLe (fun _ => 0) off n = 0 := by
  rw [Mem.readLe_of_digits (v := 0) fun i _ => by rw [Nat.zero_div]; rfl, Nat.zero_mod]

section

variable {c : Config} {staleTimeout pid created : Nat} {τ : Nat → Nat} {off n j : Nat}

/-- **A word that is stored once**, by store `j`, is found as it was or as it will be. -/
theorem readLe_racing (hword : ∀ i, off ≤ i → i < off + n → τ i = τ off)
    (hbefore : ∀ s ∈ (createStores c staleTimeout pid created).take j, Away off (off + n) s)
    (hafter : ∀ s ∈ (createStores c staleTimeout pid created).drop (j + 1),
      Away off (off + n) s) :
    ((racingMem c staleTimeout pid created τ).readLe off n = 0 ∧ τ off ≤ j) ∨
    ((racingMem c staleTimeout pid created τ).readLe off n =
      (createdMem c staleTimeout pid created).readLe off n ∧ j < τ off) := by
  have hone : (racingMem c staleTimeout pid created τ).readLe off n =
      (memAt c staleTimeout pid created (τ off)).readLe off n := by
    refine Mem.readLe_congr fun i hlow hhigh => ?_
    rw [racingMem, Store.racing, hword i hlow hhigh]
    rfl
  rw [hone]
  rcases Nat.lt_or_ge j (τ off) with hlt | hle
  · refine Or.inr ⟨Mem.readLe_congr fun i hlow hhigh => ?_, hlt⟩
    rw [← createStores_run]
    exact Store.after_eqOn_of_ge (R := {i | off ≤ i ∧ i < off + n})
      (fun s hs i hi => hafter s hs i hi.1 hi.2) hlt ⟨hlow, hhigh⟩
  · refine Or.inl ⟨?_, hle⟩
    rw [← readLe_zero off n]
    refine Mem.readLe_congr fun i hlow hhigh => ?_
    exact Store.after_eqOn_of_le (R := {i | off ≤ i ∧ i < off + n})
      (fun s hs i hi => hbefore s hs i hi.1 hi.2) hle ⟨hlow, hhigh⟩

/-- A word of the header that only store `j` of the header writes. -/
theorem header_word (hτ : Wordwise τ) (hw : (off, n) ∈ headerWords) (hj : j < 8)
    (hend : off + n ≤ ghPoolHead ∨ ghPid ≤ off ∧ off + n ≤ headerSize)
    (hhead : ∀ s ∈ (headerStores c staleTimeout pid).eraseIdx j, Away off (off + n) s) :
    ((racingMem c staleTimeout pid created τ).readLe off n = 0 ∧ τ off ≤ j) ∨
    ((racingMem c staleTimeout pid created τ).readLe off n =
      (createdMem c staleTimeout pid created).readLe off n ∧ j < τ off) := by
  have hpid : ghPid = ghPoolHead + 16 := rfl
  have hbeat : ghHeartbeat = ghPoolHead + 8 := rfl
  have hsize : ghPoolHead ≤ headerSize := by decide
  have hring := headerSize_le_ringBase c
  have hlen : (headerStores c staleTimeout pid).length = 8 := rfl
  rw [List.eraseIdx_eq_take_drop_succ] at hhead
  refine readLe_racing (j := j) (hτ (off, n) hw) ?_ ?_
  · rw [createStores, List.take_append_of_le_length (by omega)]
    exact fun s hs => hhead s (List.mem_append_left _ hs)
  · rw [createStores, List.drop_append_of_le_length (by omega)]
    intro s hs
    simp only [List.mem_append, List.mem_cons] at hs
    rcases hs with hs | hs | rfl | hs
    · exact hhead s (List.mem_append_right _ hs)
    · exact freeListStores_away (by omega) (by omega) s hs
    · exact away_storeHeartbeat created (by omega)
    · exact ringStores_away (Or.inl (by omega)) s hs

/-- The configuration is found as it will be, if no word of it is zero. -/
theorem racing_config (hτ : Wordwise τ)
    (haccepted : (racingMem c staleTimeout pid created τ).config.accepted = true) :
    (racingMem c staleTimeout pid created τ).config =
      (createdMem c staleTimeout pid created).config := by
  simp only [Config.accepted, Bool.and_eq_true, Bool.not_eq_true', decide_eq_false_iff_not,
    bne_iff_ne] at haccepted
  obtain ⟨⟨⟨⟨hblock, hring⟩, hcount⟩, htopics⟩, -⟩ := haccepted
  have hring₀ : (racingMem c staleTimeout pid created τ).config.ringDepth ≠ 0 := by
    intro hzero
    rw [hzero] at hring
    cases hring
  have hblock₀ : (racingMem c staleTimeout pid created τ).config.blockSize ≠ 0 := by
    intro hzero
    rw [hzero] at hblock
    exact hblock (by decide)
  -- in each case the word has been stored, because it is not zero
  have hfinal {off j : Nat} (hw : (off, 4) ∈ headerWords) (hj : j < 8)
      (hend : off + 4 ≤ ghPoolHead)
      (hhead : ∀ s ∈ (headerStores c staleTimeout pid).eraseIdx j, Away off (off + 4) s)
      (hne : (racingMem c staleTimeout pid created τ).readLe off 4 ≠ 0) :
      (racingMem c staleTimeout pid created τ).readLe off 4 =
        (createdMem c staleTimeout pid created).readLe off 4 := by
    rcases header_word hτ hw hj (Or.inl hend) hhead with ⟨hzero, -⟩ | ⟨heq, -⟩
    · exact absurd hzero hne
    · exact heq
  unfold Mem.config
  rw [hfinal (j := 2) (by decide) (by decide) (by decide) ?_ htopics,
    hfinal (j := 3) (by decide) (by decide) (by decide) ?_ hcount,
    hfinal (j := 4) (by decide) (by decide) (by decide) ?_ hblock₀,
    hfinal (j := 5) (by decide) (by decide) (by decide) ?_ hring₀]
  all_goals
    simp (disch := decide) [headerStores, away_storeLe, away_storeBytes]

/-- The place of the heartbeat among the stores. -/
def heartbeatIdx (c : Config) : Nat := 8 + (freeListStores c).length

/-- The stores after that of the heartbeat. -/
theorem drop_heartbeat :
    (createStores c staleTimeout pid created).drop (heartbeatIdx c + 1) = ringStores c := by
  have hlen : (headerStores c staleTimeout pid).length = 8 := rfl
  rw [createStores, ← List.append_assoc, heartbeatIdx, ← hlen, ← List.length_append,
    ← List.drop_drop, List.drop_left]
  rfl

/-- The stores before it. -/
theorem take_heartbeat : (createStores c staleTimeout pid created).take (heartbeatIdx c) =
    headerStores c staleTimeout pid ++ freeListStores c := by
  have hlen : (headerStores c staleTimeout pid).length = 8 := rfl
  rw [createStores, ← List.append_assoc, heartbeatIdx, ← hlen, ← List.length_append,
    List.take_left]

/-- Before the heartbeat is stored, its word is zero. -/
theorem before_heartbeat : ∀ s ∈ (createStores c staleTimeout pid created).take (heartbeatIdx c),
    Away ghHeartbeat (ghHeartbeat + 8) s := by
  intro s hs
  rw [take_heartbeat, List.mem_append] at hs
  rcases hs with hs | hs
  · revert s
    simp (disch := decide) [headerStores, away_storeLe, away_storeBytes]
  · exact freeListStores_away (by decide) (Or.inr le_rfl) s hs

/-- The heartbeat of a new region is the clock of `create`. -/
theorem createdMem_heartbeat_eq (hcreated : created < 2 ^ 64) :
    (createdMem c staleTimeout pid created).readLe ghHeartbeat 8 = created := by
  have hzero : (memAt c staleTimeout pid created (heartbeatIdx c)).readLe ghHeartbeat 8 = 0 := by
    rw [← readLe_zero ghHeartbeat 8]
    refine Mem.readLe_congr fun i hlow hhigh => ?_
    exact Store.after_eqOn_of_le (R := {i | ghHeartbeat ≤ i ∧ i < ghHeartbeat + 8})
      (fun s hs i hi => before_heartbeat s hs i hi.1 hi.2) le_rfl ⟨hlow, hhigh⟩
  have hbefore : memAt c staleTimeout pid created (heartbeatIdx c) =
      initFreeList c (writeHeader c staleTimeout pid fun _ => 0) := by
    rw [memAt, Store.after, take_heartbeat]
    simp only [freeListStores, Store.runAll, List.foldl_append, List.foldl_cons, List.foldl_nil,
      List.foldl_flatMap]
    rfl
  unfold createdMem
  rw [(initRings_agree c _ 0 headerSize le_rfl).readLe (Nat.zero_le _) (by decide), updateHeartbeat,
    Mem.readLe_writeLe, ← hbefore, hzero, Nat.zero_max, Nat.mod_eq_of_lt (by omega)]

variable (c staleTimeout pid) in
/-- The word of the heartbeat. -/
theorem heartbeat_word (hτ : Wordwise τ) (hcreated : created < 2 ^ 64) :
    ((racingMem c staleTimeout pid created τ).readLe ghHeartbeat 8 = 0 ∧
      τ ghHeartbeat ≤ heartbeatIdx c) ∨
    ((racingMem c staleTimeout pid created τ).readLe ghHeartbeat 8 = created ∧
      heartbeatIdx c < τ ghHeartbeat) := by
  have hring := headerSize_le_ringBase c
  refine (readLe_racing (hτ (ghHeartbeat, 8) (by decide)) before_heartbeat ?_).imp id ?_
  · rw [drop_heartbeat]
    refine ringStores_away (Or.inl (le_trans ?_ hring))
    decide
  · rintro ⟨hfinal, hlt⟩
    exact ⟨hfinal.trans (createdMem_heartbeat_eq hcreated), hlt⟩

variable (c pid created) in
/-- The word of the timeout. -/
theorem timeout_word (hτ : Wordwise τ) (hstale : asMicros staleTimeout < 2 ^ 64) :
    ((racingMem c staleTimeout pid created τ).staleTimeout = 0 ∧ τ ghStaleTimeoutUs ≤ 7) ∨
    ((racingMem c staleTimeout pid created τ).staleTimeout = asMicros staleTimeout ∧
      7 < τ ghStaleTimeoutUs) := by
  refine (header_word (j := 7) hτ (by decide) (by decide) (Or.inr (by decide)) ?_).imp id ?_
  · simp (disch := decide) [headerStores, away_storeLe, away_storeBytes]
  · rintro ⟨hfinal, hlt⟩
    refine ⟨hfinal.trans ?_, hlt⟩
    rw [(createdMem_agree c staleTimeout pid created ghPid headerSize le_rfl (Or.inr le_rfl)).readLe
      (by decide) (by decide)]
    exact writeHeader_staleTimeout c pid _ hstale

end

/-! ### `connect` -/

/-- The reader loads the magic number, then the words of the header in their order. -/
def InOrder (τ : Nat → Nat) : Prop :=
  (∀ i < 8, τ (ghMagic + i) ≤ τ ghVersion) ∧
    (headerWords.map fun w => τ w.1).Pairwise (· ≤ ·)

/-- After six stores, the header is final up to the head of the pool. -/
theorem memAt_config {c : Config} {staleTimeout pid created k : Nat} (hk : 6 ≤ k) :
    Agree 0 ghPoolHead (createdMem c staleTimeout pid created)
      (memAt c staleTimeout pid created k) := by
  have hring := headerSize_le_ringBase c
  have hsize : ghPoolHead ≤ headerSize := by decide
  have hlater : ∀ s ∈ (createStores c staleTimeout pid created).drop 6, Away 0 ghPoolHead s := by
    have hdrop : (createStores c staleTimeout pid created).drop 6 =
        storeLe ghPid 8 pid :: storeLe ghStaleTimeoutUs 8 (asMicros staleTimeout) ::
          (freeListStores c ++ (storeHeartbeat created :: ringStores c)) := rfl
    intro s hs
    simp only [hdrop, List.mem_cons, List.mem_append] at hs
    rcases hs with rfl | rfl | hs | rfl | hs
    · exact away_storeLe _ (by decide)
    · exact away_storeLe _ (by decide)
    · exact freeListStores_away hsize (Or.inl le_rfl) s hs
    · exact away_storeHeartbeat _ (by decide)
    · exact ringStores_away (Or.inl (hsize.trans hring)) s hs
  intro i hlo hhi
  rw [← createStores_run]
  exact Store.after_eqOn_of_ge (R := {i | i < ghPoolHead})
    (fun s hs i hi => hlater s hs i (Nat.zero_le i) hi) hk hhi

/-- Everything is loaded just before the timeout is stored, and the heartbeat at the end. -/
def early (c : Config) (i : Nat) : Nat :=
  if ghHeartbeat ≤ i ∧ i < ghHeartbeat + 8 then heartbeatIdx c + 1 else 7

/-- The heartbeat is read right after its store. -/
theorem early_heartbeat (c : Config) : early c ghHeartbeat = heartbeatIdx c + 1 :=
  if_pos (by decide)

/-- All other bytes are read after 7 stores. -/
theorem early_of_away {c : Config} {i : Nat} (hi : i < ghHeartbeat ∨ ghHeartbeat + 8 ≤ i) :
    early c i = 7 := if_neg (by omega)

/-- No word is torn in this schedule. -/
theorem early_wordwise (c : Config) : Wordwise (early c) := by
  have hcases : ∀ w ∈ headerWords, w = (ghHeartbeat, 8) ∨ w.1 + w.2 ≤ ghHeartbeat ∨
      ghHeartbeat + 8 ≤ w.1 := by decide
  intro w hw i hlow hhigh
  rcases hcases w hw with rfl | haway
  · rw [early_heartbeat]
    exact if_pos ⟨hlow, hhigh⟩
  · rw [early_of_away (by omega), early_of_away (by omega)]

/-- The reads of this schedule are in order. -/
theorem early_inOrder (c : Config) : InOrder (early c) := by
  have hle : 7 ≤ heartbeatIdx c + 1 := by
    unfold heartbeatIdx
    omega
  have hmagic : ghMagic + 8 ≤ ghHeartbeat := by decide
  refine ⟨fun i hi => ?_, ?_⟩
  · rw [early_of_away (Or.inl (by omega)), early_of_away (by decide)]
  · have hwords : (headerWords.map fun w => early c w.1) =
        [7, 7, 7, 7, 7, 7, heartbeatIdx c + 1] := by
      simp (disch := decide) only [headerWords, List.map_cons, List.map_nil, early_of_away,
        early_heartbeat]
    rw [hwords]
    simp [hle]

/-- **Too early for the timeout.** For every configuration that `create` accepts and that can be
    opened at all, a `connect` that loads the header in order, just before `stale_timeout` is
    stored, succeeds within the same microsecond, and keeps a timeout of zero: its later checks of
    the heartbeat fail as soon as the clock has moved. -/
theorem connect_without_timeout {c : Config} {staleTimeout pid created len : Nat} {mem : Mem}
    (hc : Fits32 c) (hstale : asMicros staleTimeout < 2 ^ 64) (hcreated : created < 2 ^ 64)
    (hcreate : create c staleTimeout pid (some created) = .ok (len, mem))
    (hlimit : c.maxTopics ≤ maxTopicsLimit) :
    Wordwise (early c) ∧ InOrder (early c) ∧
      ∃ rgn, openAndValidateRegion len (racingMem c staleTimeout pid created (early c))
        (some created) = .ok rgn ∧ rgn.staleTimeout = 0 := by
  obtain ⟨haccepted, hsize, _, ⟨⟩, rfl⟩ := create_ok hcreate
  obtain ⟨hmagic, hversion, hconfig, -⟩ := create_header hc hstale hcreate
  have hτ := early_wordwise c
  have hbeat : (racingMem c staleTimeout pid created (early c)).readLe ghHeartbeat 8 = created := by
    rcases heartbeat_word c staleTimeout pid hτ hcreated with ⟨-, hle⟩ | ⟨hbeat, -⟩
    · rw [early_heartbeat] at hle
      exact absurd hle (Nat.not_succ_le_self _)
    · exact hbeat
  have hzero : (racingMem c staleTimeout pid created (early c)).staleTimeout = 0 := by
    rcases timeout_word c pid created hτ hstale with ⟨hzero, -⟩ | ⟨-, hlt⟩
    · exact hzero
    · rw [early_of_away (by decide)] at hlt
      exact absurd hlt (by decide)
  -- up to the head of the pool, the header is final
  have hagree : Agree 0 ghPoolHead (createdMem c staleTimeout pid created)
      (racingMem c staleTimeout pid created (early c)) := by
    intro i hlo hhi
    have haway : i < ghHeartbeat := hhi.trans (by decide)
    rw [racingMem, Store.racing, early_of_away (Or.inl haway)]
    exact memAt_config (by decide) i hlo hhi
  have hconfig' : (racingMem c staleTimeout pid created (early c)).config = c := by
    refine Eq.trans ?_ hconfig
    unfold Mem.config
    simp (disch := decide) only [hagree.readLe (Nat.zero_le _)]
  have hmagic' : (List.range 8).map
      (fun i => racingMem c staleTimeout pid created (early c) (ghMagic + i)) = magic := by
    rw [← hmagic]
    refine List.map_congr_left fun i hi => hagree _ (Nat.zero_le _) ?_
    rw [List.mem_range] at hi
    have hlow : ghMagic + 8 ≤ ghPoolHead := by decide
    omega
  have hversion' : (racingMem c staleTimeout pid created (early c)).readLe ghVersion 4 =
      version := by
    rw [hagree.readLe (Nat.zero_le _) (by decide), hversion]
  have hfresh : checkHeartbeat (racingMem c staleTimeout pid created (early c)) (some created) =
      .ok () := by
    rw [checkHeartbeat, hbeat, if_neg (by omega)]
  refine ⟨hτ, early_inOrder c, ?_⟩
  rw [← hconfig'] at haccepted hsize
  rcases openAndValidateRegion_of_header hmagic' hversion' haccepted hsize hfresh with
    ⟨-, rgn, hok⟩ | ⟨hlt, -⟩
  · exact ⟨rgn, hok, (openAndValidateRegion_ok hok).2.1.trans hzero⟩
  · rw [hconfig'] at hlt
    exact absurd hlimit (Nat.not_le.mpr hlt)

/-- One topic, and a timeout of five seconds. -/
theorem connect_without_timeout_flat : ∃ len mem,
    create (flat 1) 5000000000 7 (some 100) = .ok (len, mem) ∧
      ∃ rgn, openAndValidateRegion len (racingMem (flat 1) 5000000000 7 100 (early (flat 1)))
        (some 100) = .ok rgn ∧ rgn.staleTimeout = 0 := by
  have hcreate := create_of_accepted (c := flat 1) (by decide) rfl 5000000000 7 100
  obtain ⟨-, -, rgn, hopen, hzero⟩ :=
    connect_without_timeout (by decide) (by decide) (by decide) hcreate (by decide)
  exact ⟨_, _, hcreate, rgn, hopen, hzero⟩

end Crossbar.Mapping
