import Crossbar.Region.Typed
import Crossbar.Mapping.Create

namespace Crossbar.Region

open Function Crossbar.Lib Crossbar.Pool Crossbar.Mapping

/-!
# Region — the bytes that a typed publish writes

The blocks of the pool follow one another, each with its free-list link and its refcount first.
`Loan` compares every length with the capacity of a block; `TypedLoan::send` writes a `T` at the
payload of its block without doing so, and `loan_typed` does not compare the size of `T` either.

* `Shm.poolBytes` — the pool as it lies in memory;
* `Shm.writeRaw` — `ptr::write` of a value of any size at any place of the pool;
* `Publisher.publishTypedBytes` — `publish_typed` with that write; for a type that fits in a block
  it is `Publisher.publishTyped` (`publishTypedBytes_eq`);
* `typed_publish_writes_own_block` — it changes no byte of another block, but for the refcount of
  the block it replaces in the ring, exactly when the type fits in a block or the block is the
  last one of the pool, and no byte behind the pool exactly when the type fits;
* `typed_publish_overruns` — a type of 24 bytes overwrites the block after its own.
-/

variable {cfg : ValidConfig}

/-! ### The pool in memory -/

/-- The bytes of the pool: the link, the refcount and the payload of every block. -/
def Shm.poolBytes (shm : Shm cfg) : Mem := fun o =>
  let b := o / cfg.blockSize
  let i := o % cfg.blockSize
  if i < bkRefcount then UInt8.ofNat (shm.pool.link b / 256 ^ i)
  else if i < blockDataOffset then UInt8.ofNat (shm.refcount b / 256 ^ (i - bkRefcount))
  else shm.data b (i - blockDataOffset)

/-- `size` bytes from `off` on hold the value, the others what the pool held. -/
def Shm.overwritten (shm : Shm cfg) (off size : Nat) (value : Ring.Payload) : Mem := fun o =>
  if off ≤ o ∧ o < off + size then value (o - off) else shm.poolBytes o

/-- `ptr::write` of `size` bytes at offset `off` of the pool: every word and every payload byte
    that it reaches is read anew. -/
def Shm.writeRaw (shm : Shm cfg) (off size : Nat) (value : Ring.Payload) : Shm cfg :=
  let mem := shm.overwritten off size value
  let word (o old : Nat) : Nat := if off < o + 4 ∧ o < off + size then mem.readLe o 4 else old
  { shm with
    pool :=
      { shm.pool with link := fun b => word (b * cfg.blockSize) (shm.pool.link b) }
    refcount := fun b => word (b * cfg.blockSize + bkRefcount) (shm.refcount b)
    data := fun b i =>
      if i < cfg.dataCapacity then mem (b * cfg.blockSize + blockDataOffset + i)
      else shm.data b i }

/-- `TypedLoan::send`, for a value of any size: `size_of::<T>()` is reduced to a `u32`. -/
def Loan.send (l : Loan cfg) (shm : Shm cfg) (p : Publisher cfg) (value : Ring.Payload) :
    Shm cfg × Publisher cfg :=
  commitToRing (shm.writeRaw (l.blockIdx * cfg.blockSize + blockDataOffset) l.len value) p
    l.blockIdx (wrap32 l.len) l.topic

/-- `Publisher::publish_typed`, for a type of any size. -/
def Publisher.publishTypedBytes (size : Nat) (shm : Shm cfg) (p : Publisher cfg) (h : Handle cfg)
    (value : Ring.Payload) : Shm cfg × Publisher cfg × Except Error Unit :=
  match p.loanTyped size shm h with
  | (shm, p, .error e) => (shm, p, .error e)
  | (shm, p, .ok l) => ((l.send shm p value).1, (l.send shm p value).2, .ok ())

/-! ### Reading the pool -/

theorem blockSize_ge (cfg : ValidConfig) : blockDataOffset + 1 ≤ cfg.blockSize := cfg.checks.1

/-- The byte at offset `i` of block `b`. -/
theorem Shm.poolBytes_at (shm : Shm cfg) (b : Nat) {i : Nat} (hi : i < cfg.blockSize) :
    shm.poolBytes (b * cfg.blockSize + i) =
      if i < bkRefcount then UInt8.ofNat (shm.pool.link b / 256 ^ i)
      else if i < blockDataOffset then UInt8.ofNat (shm.refcount b / 256 ^ (i - bkRefcount))
      else shm.data b (i - blockDataOffset) := by
  have hdiv : (b * cfg.blockSize + i) / cfg.blockSize = b := by
    rw [Nat.mul_comm, Nat.mul_add_div (by omega), Nat.div_eq_of_lt hi, Nat.add_zero]
  have hmod : (b * cfg.blockSize + i) % cfg.blockSize = i := by
    rw [Nat.mul_comm, Nat.mul_add_mod, Nat.mod_eq_of_lt hi]
  simp only [poolBytes, hdiv, hmod]

/-- Every offset is one of a block. -/
theorem exists_block_offset (cfg : ValidConfig) (o : Nat) :
    ∃ b i, i < cfg.blockSize ∧ o = b * cfg.blockSize + i := by
  have hpos := blockSize_ge cfg
  refine ⟨o / cfg.blockSize, o % cfg.blockSize, Nat.mod_lt _ (by omega), ?_⟩
  rw [Nat.mul_comm, Nat.div_add_mod]

/-- A byte of a word that was read. -/
theorem byte_readLe (mem : Mem) {off n i : Nat} (hi : i < n) :
    UInt8.ofNat (mem.readLe off n / 256 ^ i) = mem (off + i) := by
  induction n generalizing off i with
  | zero => omega
  | succ n ih =>
    rw [Mem.readLe]
    have hbyte : (mem off).toNat < 256 := (mem off).toNat_lt
    cases i with
    | zero =>
      apply UInt8.toNat.inj
      rw [Nat.add_zero off, Nat.pow_zero, Nat.div_one, UInt8.toNat_ofNat']
      omega
    | succ i =>
      have hrest : ((mem off).toNat + 256 * mem.readLe (off + 1) n) / 256 =
          mem.readLe (off + 1) n := by omega
      rw [Nat.pow_succ', ← Nat.div_div_eq_div_mul, hrest, ih (by omega)]
      congr 1
      omega

/-- After the write, the pool holds the value there and what it held elsewhere. -/
theorem Shm.poolBytes_writeRaw (shm : Shm cfg) (off size : Nat) (value : Ring.Payload) :
    (shm.writeRaw off size value).poolBytes = shm.overwritten off size value := by
  have hsize := blockSize_ge cfg
  have hlink : bkRefcount = 4 := rfl
  have hdata : blockDataOffset = 8 := rfl
  ext1 o
  obtain ⟨b, i, hi, rfl⟩ := exists_block_offset cfg o
  rw [poolBytes_at _ b hi]
  -- a word that is not reached has none of its bytes written
  have hword : ∀ o' old j, j < 4 → o' + j = b * cfg.blockSize + i →
      shm.poolBytes (b * cfg.blockSize + i) = UInt8.ofNat (old / 256 ^ j) →
      UInt8.ofNat ((if off < o' + 4 ∧ o' < off + size then
        (shm.overwritten off size value).readLe o' 4 else old) / 256 ^ j) =
      shm.overwritten off size value (b * cfg.blockSize + i) := by
    intro o' old j hj ho hold
    split
    · rw [byte_readLe _ hj, ho]
    · rw [overwritten, if_neg (by omega), hold]
  by_cases h4 : i < bkRefcount
  · rw [if_pos h4]
    refine hword _ _ i (by omega) rfl ?_
    rw [poolBytes_at _ b hi, if_pos h4]
  rw [if_neg h4]
  by_cases h8 : i < blockDataOffset
  · rw [if_pos h8]
    refine hword _ _ (i - bkRefcount) (by omega) (by omega) ?_
    rw [poolBytes_at _ b hi, if_neg h4, if_pos h8]
  · rw [if_neg h8]
    have hcap : i - blockDataOffset < cfg.dataCapacity := by
      unfold ValidConfig.dataCapacity
      omega
    show (if i - blockDataOffset < cfg.dataCapacity then _ else _) = _
    rw [if_pos hcap, Nat.add_assoc, Nat.add_sub_cancel' (by omega)]

/-! ### What allocation and commit write -/

theorem refill_link (cfg : ValidConfig) (n : Nat) (pool : FreeList) (cache : List Nat) :
    (refill cfg n pool cache).1.link = pool.link := by
  induction n generalizing pool cache with
  | zero => rfl
  | succ n ih =>
    -- whichever way it ends, `alloc_block` moves the head only
    have hlink : (allocBlock cfg pool).1.link = pool.link := by
      unfold allocBlock
      split_ifs <;> rfl
    unfold refill
    cases halloc : allocBlock cfg pool with
    | mk pool' r =>
      rw [halloc] at hlink
      cases r with
      | block b => exact (ih pool' (cache ++ [b])).trans hlink
      | exhausted => exact hlink
      | corrupted => exact hlink

/-- A block that `alloc_cached` returns is gone from `last_freed`, and no link was written. -/
theorem Publisher.allocCached_ok {shm shm' : Shm cfg} {p p' : Publisher cfg} {b : Nat}
    (halloc : p.allocCached shm = (shm', p', .ok (some b))) :
    p'.lastFreed = noBlock ∧ ∃ head, shm' = { shm with pool := ⟨head, shm.pool.link⟩ } := by
  have hrefill := refill_link cfg (cacheSize - p.cache.length) shm.pool p.cache
  unfold allocCached allocRecycled at halloc
  split at halloc
  · rename_i p₁ b₁ hrec
    obtain rfl : _ = p₁ := congrArg Prod.fst hrec
    cases halloc
    exact ⟨rfl, shm.pool.head, rfl⟩
  · rename_i p₁ hrec
    obtain rfl : _ = p₁ := congrArg Prod.fst hrec
    split at halloc
    · cases halloc
      exact ⟨rfl, shm.pool.head, rfl⟩
    · split at halloc
      · cases halloc
      · rename_i pool cache hpool
        rw [hpool] at hrefill
        split at halloc
        · cases halloc
          refine ⟨rfl, pool.head, ?_⟩
          rw [← hrefill]
        · cases halloc

theorem Publisher.loanTyped_ok {shm shm' : Shm cfg} {p p' : Publisher cfg} {h : Handle cfg}
    {size : Nat} {l : Loan cfg} (hloan : p.loanTyped size shm h = (shm', p', .ok l)) :
    p'.lastFreed = noBlock ∧ (∃ head, shm' = { shm with pool := ⟨head, shm.pool.link⟩ }) ∧
      l = ⟨.typed, h.topicIdx, l.blockIdx, size⟩ := by
  unfold loanTyped loanWith obtainBlock at hloan
  split at hloan
  · cases hloan
  · cases halloc : p.allocCached shm with
    | mk shm₁ r =>
      obtain ⟨p₁, r⟩ := r
      rw [halloc] at hloan
      rcases r with e | _ | b
      · cases hloan
      · cases hloan
      · cases hloan
        exact ⟨(allocCached_ok halloc).1, (allocCached_ok halloc).2, rfl⟩

/-- The block whose place in the ring the next publish on `t` takes. -/
def Shm.replaced (shm : Shm cfg) (t : cfg.Topic) : Nat :=
  (shm.entry (t, cfg.slotOf (shm.nextSeq t))).blockIdx

/-- `o` is not in the refcount of block `b`. -/
def OutsideRefcount (cfg : ValidConfig) (b o : Nat) : Prop :=
  ¬(b * cfg.blockSize + bkRefcount ≤ o ∧ o < b * cfg.blockSize + blockDataOffset)

/-- `o` is not in the data area `[8, block_size)` of block `b`. -/
def OutsideData (cfg : ValidConfig) (b o : Nat) : Prop :=
  ¬(b * cfg.blockSize + blockDataOffset ≤ o ∧ o < b * cfg.blockSize + cfg.blockSize)

/-- With nothing in `last_freed`, the commit writes the refcounts of the two blocks only. -/
theorem commitToRing_poolBytes {shm : Shm cfg} {p : Publisher cfg} {b len : Nat} {t : cfg.Topic}
    (hfreed : p.lastFreed = noBlock) {o : Nat} (hb : OutsideRefcount cfg b o)
    (hold : OutsideRefcount cfg (shm.replaced t) o) :
    (commitToRing shm p b len t).1.poolBytes o = shm.poolBytes o := by
  obtain ⟨c, i, hi, rfl⟩ := exists_block_offset cfg o
  -- the release is of the replaced block, or does nothing
  have hrelease : ∀ shm' : Shm cfg, ∀ old, OutsideRefcount cfg old (c * cfg.blockSize + i) →
      (releaseOld shm' p old).1.poolBytes (c * cfg.blockSize + i) =
        shm'.poolBytes (c * cfg.blockSize + i) := by
    intro shm' old hout
    have hdec : (shm'.decRef old).poolBytes (c * cfg.blockSize + i) =
        shm'.poolBytes (c * cfg.blockSize + i) := by
      rw [Shm.poolBytes_at _ c hi, Shm.poolBytes_at _ c hi]
      by_cases hc : c = old
      · subst hc
        rw [OutsideRefcount] at hout
        split
        · rfl
        · rw [if_neg (by omega), if_neg (by omega)]
          rfl
      · simp only [Shm.decRef, update_of_ne hc]
    unfold releaseOld
    split
    · split
      · rw [if_neg (not_not.mpr hfreed)]
        exact hdec
      · exact hdec
    · rfl
  rw [commitToRing]
  refine (hrelease _ _ hold).trans ?_
  rw [Shm.poolBytes_at _ c hi, Shm.poolBytes_at _ c hi]
  by_cases hc : c = b
  · subst hc
    rw [OutsideRefcount] at hb
    split
    · rfl
    · rw [if_neg (by omega), if_neg (by omega)]
      rfl
  · simp only [Shm.storeEntry, Shm.setTopic, update_of_ne hc]

/-! ### A type that fits in a block -/

/-- Within its block, the write is one of payload bytes. -/
theorem Shm.writeRaw_of_fits (shm : Shm cfg) (b : Nat) {size : Nat} (value : Ring.Payload)
    (hfits : size ≤ cfg.dataCapacity) :
    shm.writeRaw (b * cfg.blockSize + blockDataOffset) size value =
      { shm with
        data := update shm.data b fun i =>
          if i < size then value i else shm.data b i } := by
  have hsize := blockSize_ge cfg
  have hlink : bkRefcount = 4 := rfl
  have hdata : blockDataOffset = 8 := rfl
  have hcap : cfg.dataCapacity = cfg.blockSize - blockDataOffset := rfl
  -- where block `c` starts, compared with block `b`
  have hapart : ∀ c, c = b ∨ c * cfg.blockSize + cfg.blockSize ≤ b * cfg.blockSize ∨
      b * cfg.blockSize + cfg.blockSize ≤ c * cfg.blockSize := by
    intro c
    rw [← Nat.succ_mul, ← Nat.succ_mul]
    rcases Nat.lt_trichotomy c b with hlt | heq | hgt
    · exact Or.inr (Or.inl (Nat.mul_le_mul_right _ hlt))
    · exact Or.inl heq
    · exact Or.inr (Or.inr (Nat.mul_le_mul_right _ hgt))
  rw [writeRaw, Shm.mk.injEq]
  refine ⟨congrArg (FreeList.mk shm.pool.head) ?_, ?_, ?_, rfl, rfl, rfl, rfl⟩
  · ext c
    rcases hapart c with rfl | h | h <;> exact if_neg (by omega)
  · ext c
    rcases hapart c with rfl | h | h <;> exact if_neg (by omega)
  · ext c i
    by_cases hc : c = b
    · subst hc
      rw [update_self]
      by_cases hi : i < cfg.dataCapacity
      · rw [if_pos hi, overwritten]
        by_cases hin : i < size
        · rw [if_pos ⟨by omega, by omega⟩, if_pos hin, Nat.add_sub_cancel_left]
        · rw [if_neg (by omega), if_neg hin, Nat.add_assoc, poolBytes_at _ c (by omega),
            if_neg (by omega), if_neg (by omega), Nat.add_sub_cancel_left]
      · rw [if_neg hi, if_neg (by omega)]
    · rw [update_of_ne hc]
      split
      · rename_i hi
        have hout := (hapart c).resolve_left hc
        rw [overwritten, if_neg (by omega), Nat.add_assoc, poolBytes_at _ c (by omega),
          if_neg (by omega), if_neg (by omega), Nat.add_sub_cancel_left]
      · rfl

/-- For a type that fits in a block, the write of the value is the one of `publishTyped`. -/
theorem publishTypedBytes_eq {size : Nat} (shm : Shm cfg) (p : Publisher cfg) (h : Handle cfg)
    (value : Ring.Payload) (hfits : size ≤ cfg.dataCapacity) (hsize : size < 2 ^ 32) :
    p.publishTypedBytes size shm h value = p.publishTyped size shm h value := by
  unfold Publisher.publishTypedBytes Publisher.publishTyped
  cases hloan : p.loanTyped size shm h with
  | mk shm₁ r =>
    obtain ⟨p₁, r⟩ := r
    cases r with
    | error e => rfl
    | ok l =>
      obtain ⟨-, -, hl⟩ := Publisher.loanTyped_ok hloan
      have hsend : l.send shm₁ p₁ value = l.publish (l.fill shm₁ value) p₁ := by
        rw [hl]
        show commitToRing (shm₁.writeRaw _ size value) p₁ l.blockIdx (wrap32 size) h.topicIdx = _
        rw [Shm.writeRaw_of_fits _ _ _ hfits, show wrap32 size = size from Nat.mod_eq_of_lt hsize]
        rfl
      show ((l.send shm₁ p₁ value).1, (l.send shm₁ p₁ value).2, _) = _
      rw [hsend]

/-! ### The frame of a typed publish -/

/-- Below `limit`, every byte of the pool outside the data area of block `b` and the refcounts of
    the blocks `b` and `old` is the same. -/
def Shm.Framed (shm shm' : Shm cfg) (b old limit : Nat) : Prop :=
  ∀ o < limit, OutsideData cfg b o → OutsideRefcount cfg b o → OutsideRefcount cfg old o →
    shm'.poolBytes o = shm.poolBytes o

section

variable {shm shm₁ : Shm cfg} {p p₁ : Publisher cfg} {h : Handle cfg} {size : Nat} {l : Loan cfg}

/-- Apart from the two refcounts, the pool after a typed publish is the pool with the value
    written over it. -/
theorem publishTypedBytes_poolBytes (hloan : p.loanTyped size shm h = (shm₁, p₁, .ok l))
    (value : Ring.Payload) {o : Nat} (hb : OutsideRefcount cfg l.blockIdx o)
    (hold : OutsideRefcount cfg (shm.replaced h.topicIdx) o) :
    (p.publishTypedBytes size shm h value).1.poolBytes o =
      shm.overwritten (l.blockIdx * cfg.blockSize + blockDataOffset) size value o := by
  obtain ⟨hfreed, ⟨head, hshm⟩, hl⟩ := Publisher.loanTyped_ok hloan
  have hsend : (p.publishTypedBytes size shm h value).1 =
      (commitToRing (shm₁.writeRaw (l.blockIdx * cfg.blockSize + blockDataOffset) size value) p₁
        l.blockIdx (wrap32 size) h.topicIdx).1 := by
    simp only [Publisher.publishTypedBytes, hloan]
    rw [hl]
    rfl
  -- neither the loan nor the write reaches the ring
  have hold₁ : OutsideRefcount cfg (Shm.replaced (shm₁.writeRaw
      (l.blockIdx * cfg.blockSize + blockDataOffset) size value) h.topicIdx) o := by
    rw [hshm]
    exact hold
  rw [hsend, commitToRing_poolBytes hfreed hb hold₁, Shm.poolBytes_writeRaw, hshm]
  rfl

/-- The first byte behind the block is overwritten by some value that does not fit. -/
theorem overruns_of_large (hloan : p.loanTyped size shm h = (shm₁, p₁, .ok l))
    (hlarge : cfg.dataCapacity < size) : ∃ value,
      ¬shm.Framed (p.publishTypedBytes size shm h value).1 l.blockIdx (shm.replaced h.topicIdx)
        ((l.blockIdx + 1) * cfg.blockSize + 1) := by
  have hsize := blockSize_ge cfg
  have hlink : bkRefcount = 4 := rfl
  have hdata : blockDataOffset = 8 := rfl
  have hcap : cfg.dataCapacity = cfg.blockSize - blockDataOffset := rfl
  have hnext : (l.blockIdx + 1) * cfg.blockSize = l.blockIdx * cfg.blockSize + cfg.blockSize :=
    Nat.succ_mul ..
  -- the byte is the first of a link: no refcount has it
  have hout : ∀ c, OutsideRefcount cfg c ((l.blockIdx + 1) * cfg.blockSize) := by
    intro c hc
    rcases Nat.lt_or_ge c (l.blockIdx + 1) with hlt | hge
    · have := Nat.mul_le_mul_right cfg.blockSize (Nat.succ_le_of_lt hlt)
      rw [Nat.succ_mul] at this
      omega
    · have := Nat.mul_le_mul_right cfg.blockSize hge
      omega
  refine ⟨fun _ => shm.poolBytes ((l.blockIdx + 1) * cfg.blockSize) + 1, fun hframed => ?_⟩
  have hsame := hframed ((l.blockIdx + 1) * cfg.blockSize) (Nat.lt_succ_self _)
    (fun hin => by omega) (hout _) (hout _)
  rw [publishTypedBytes_poolBytes hloan _ (hout _) (hout _), Shm.overwritten,
    if_pos ⟨by omega, by omega⟩] at hsame
  exact absurd hsame (by simp)

/-- The offsets that the value reaches lie in the data area of the block, or behind it. -/
theorem framed_of_reach (hloan : p.loanTyped size shm h = (shm₁, p₁, .ok l)) {limit : Nat}
    (hreach : size ≤ cfg.dataCapacity ∨ limit ≤ (l.blockIdx + 1) * cfg.blockSize)
    (value : Ring.Payload) :
    shm.Framed (p.publishTypedBytes size shm h value).1 l.blockIdx (shm.replaced h.topicIdx)
      limit := by
  intro o ho hdata hb hold
  have hcap : cfg.dataCapacity = cfg.blockSize - blockDataOffset := rfl
  rw [Nat.succ_mul] at hreach
  rw [publishTypedBytes_poolBytes hloan value hb hold, Shm.overwritten, if_neg]
  rw [OutsideData] at hdata
  omega

/-- A typed publish changes no byte of the pool outside the data area of its block, but for the
    refcount of its block and of the one whose place in the ring it takes, exactly when the type
    fits in a block or the block is the last one; it changes nothing behind the pool either
    exactly when the type fits. -/
theorem typed_publish_writes_own_block (hloan : p.loanTyped size shm h = (shm₁, p₁, .ok l)) :
    ((∀ value, shm.Framed (p.publishTypedBytes size shm h value).1 l.blockIdx
        (shm.replaced h.topicIdx) (cfg.blockCount * cfg.blockSize)) ↔
      size ≤ cfg.dataCapacity ∨ cfg.blockCount ≤ l.blockIdx + 1) ∧
    ((∀ value limit, shm.Framed (p.publishTypedBytes size shm h value).1 l.blockIdx
        (shm.replaced h.topicIdx) limit) ↔ size ≤ cfg.dataCapacity) := by
  refine ⟨⟨fun hframed => ?_, fun hfits value => ?_⟩, fun hframed => ?_,
    fun hfits value limit => ?_⟩
  · by_contra hno
    rw [not_or, Nat.not_le, Nat.not_le] at hno
    obtain ⟨value, hover⟩ := overruns_of_large hloan hno.1
    refine hover fun o ho => hframed value o ?_
    have hroom := Nat.mul_le_mul_right cfg.blockSize (Nat.succ_le_of_lt hno.2)
    have hsize := blockSize_ge cfg
    rw [Nat.succ_mul] at hroom
    omega
  · exact framed_of_reach hloan (hfits.imp_right fun hlast => Nat.mul_le_mul_right _ hlast) value
  · by_contra hlarge
    obtain ⟨value, hover⟩ := overruns_of_large hloan (Nat.lt_of_not_le hlarge)
    exact hover (hframed value _)
  · exact framed_of_reach hloan (Or.inl hfits) value

end

/-- A topic with one publish of 8 bytes, whose block is the last one of the pool. -/
def publishedSteps : List (Act twoSlots) :=
  [.registerTyped 0 [47] 24 8, .publish 0 ⟨twoSlots.topic0, 5⟩ [1, 2, 3, 4, 5, 6, 7, 8]]

/-- The block that `loan_typed` would return to the first publisher of the world. -/
def loanedBlock (size : Nat) (w : World twoSlots) : Option Nat :=
  match w.pubs[0]? with
  | some (some p) =>
    match p.loanTyped size w.shm ⟨twoSlots.topic0, 5⟩ with
    | (_, _, .ok l) => some l.blockIdx
    | (_, _, .error _) => none
  | _ => none

/-- After a publish, a typed publish of 8 bytes changes nothing but its block. -/
theorem typed_publish_writes_own_block_fits : ∃ (w : World twoSlots) (p : Publisher twoSlots),
    Run step (fun _ _ => True) (create twoSlots 5) publishedSteps w ∧
    w.pubs[0]? = some (some p) ∧
    ∃ shm₁ p₁ l, p.loanTyped 8 w.shm ⟨twoSlots.topic0, 5⟩ = (shm₁, p₁, .ok l) ∧
      ∀ value limit, w.shm.Framed
        (p.publishTypedBytes 8 w.shm ⟨twoSlots.topic0, 5⟩ value).1 l.blockIdx
        (w.shm.replaced twoSlots.topic0) limit := by
  obtain ⟨w, hrun, htest⟩ := exists_run_of_exec step (fun _ _ => True) (s := create twoSlots 5)
    (l := publishedSteps) (p := fun w => (loanedBlock 8 w).isSome) (by decide +kernel)
  unfold loanedBlock at htest
  split at htest
  · rename_i p hp
    split at htest
    · rename_i shm₁ p₁ l hloan
      exact ⟨w, p, hrun, hp, shm₁, p₁, l, hloan,
        (typed_publish_writes_own_block hloan).2.mpr (le_refl 8)⟩
    · cases htest
  · cases htest

/-- The link, the refcount and the first payload byte of block 3, after a typed publish of 24
    bytes that are all 9. -/
def neighbour (w : World twoSlots) : Option (Nat × Nat × UInt8) :=
  match w.pubs[0]? with
  | some (some p) =>
    match p.publishTypedBytes 24 w.shm ⟨twoSlots.topic0, 5⟩ fun _ => 9 with
    | (shm, _, .ok _) => some (shm.pool.link 3, shm.refcount 3, shm.data 3 0)
    | (_, _, .error _) => none
  | _ => none

/-- **The block behind is overwritten.** A publish has put block 3 into the ring, with a reference
    and its bytes.  A typed publish of 24 bytes on blocks of 8 payload bytes gets block 2 and
    succeeds; the link, the refcount and the payload of block 3 are now bytes of its value. -/
theorem typed_publish_overruns : ∃ w, Run step (fun _ _ => True) (create twoSlots 5)
    publishedSteps w ∧
    (loanedBlock 24 w = some 2 ∧ (w.shm.entry (twoSlots.topic0, twoSlots.slotOf 1)).blockIdx = 3 ∧
      w.shm.refcount 3 = 1 ∧ w.shm.data 3 0 = 1 ∧
      neighbour w = some (0x09090909, 0x09090909, 9)) :=
  exists_run_of_exec _ _ (by decide +kernel)

end Crossbar.Region
