import Crossbar.Mapping.Create

namespace Crossbar.Mapping

open Crossbar.Lib

/-!
# Mapping — the layout of a region: sizes, overflow, overlap and alignment

`region_size_checked` computes the size of a region with overflow checks; the offsets of its parts
are computed without them, by formulas that have to denote the same layout.

* `exactSize` — the size as an integer; `regionSizeChecked_eq_some_iff` says when the checked
  computation gives it;
* `topicEntryOffUsize`, `ringEntryOffUsize`, `blockPoolOffsetUsize`, `blockOffUsize` — the
  unchecked formulas on a 64-bit `usize`, operation by operation: `none` is an overflow;
* `region_layout_exact` — no overflow in a created region, and its parts are disjoint ranges
  within its size;
* `block_words_aligned` — the header words and the payload of every block are aligned exactly when
  there is one block or `block_size` is a multiple of 8.  Nothing checks that:
  `odd_block_misaligned`.
-/

open Config (checkedMul checkedAdd)

/-! ### The checked size -/

/-- The size of a region as an integer. -/
def exactSize (c : Config) : Nat :=
  128 + 128 * c.maxTopics + 16 * c.maxTopics * c.ringDepth + c.blockCount * c.blockSize

/-- The blocks are the last part of the region. -/
theorem exactSize_eq (c : Config) :
    exactSize c = blockPoolOffset c + c.blockCount * c.blockSize := by
  unfold exactSize blockPoolOffset Config.ringBase headerSize topicEntrySize ringEntrySize
  rw [Nat.mul_comm 128 c.maxTopics, Nat.mul_assoc 16, Nat.mul_comm 16]

/-- A product that fits. -/
theorem checkedMul_of_lt {a b : Nat} (h : a * b < 2 ^ 64) : checkedMul a b = some (a * b) :=
  if_pos h

/-- A sum that fits. -/
theorem checkedAdd_of_lt {a b : Nat} (h : a + b < 2 ^ 64) : checkedAdd a b = some (a + b) :=
  if_pos h

/-- A checked sum fits. -/
theorem checkedAdd_eq_some {a b n : Nat} (h : checkedAdd a b = some n) : n < 2 ^ 64 := by
  unfold checkedAdd at h
  split at h
  · cases h
    assumption
  · cases h

/-- Below 2⁶⁴ none of the checks fails: every intermediate result is at most the size. -/
theorem regionSizeChecked_of_lt {c : Config} (h : exactSize c < 2 ^ 64) :
    c.regionSizeChecked = some (exactSize c) := by
  rw [exactSize_eq] at h ⊢
  unfold blockPoolOffset at h
  have hrings : c.maxTopics * c.ringDepth < 2 ^ 64 := by
    unfold ringEntrySize at h
    omega
  simp only [Config.regionSizeChecked, Config.blockPoolOffsetChecked, Option.bind_eq_bind]
  rw [checkedMul_of_lt hrings, Option.bind_some,
    checkedMul_of_lt (by omega), Option.bind_some,
    checkedAdd_of_lt (by omega), Option.bind_some,
    checkedMul_of_lt (by omega), Option.bind_some,
    checkedAdd_of_lt h, blockPoolOffset]

/-- A checked size fits. -/
theorem regionSizeChecked_lt {c : Config} {n : Nat} (h : c.regionSizeChecked = some n) :
    n < 2 ^ 64 := by
  simp only [Config.regionSizeChecked, Option.bind_eq_bind, Option.bind_eq_some_iff] at h
  obtain ⟨_, _, _, _, hadd⟩ := h
  exact checkedAdd_eq_some hadd

/-- The checked computation gives the exact size, and fails exactly when that is not a `usize`. -/
theorem regionSizeChecked_eq_some_iff {c : Config} {n : Nat} :
    c.regionSizeChecked = some n ↔ exactSize c < 2 ^ 64 ∧ n = exactSize c := by
  constructor
  · intro h
    have hn : n = exactSize c := by rw [exactSize_eq, regionSizeChecked_eq h]
    rw [← hn]
    exact ⟨regionSizeChecked_lt h, rfl⟩
  · rintro ⟨hlt, rfl⟩
    exact regionSizeChecked_of_lt hlt

/-! ### The unchecked offsets, on a 64-bit `usize` -/

/-- `ring_base`; `none` is an overflow. -/
def ringBaseUsize (c : Config) : Option Nat := do
  let entries ← checkedMul c.maxTopics topicEntrySize
  checkedAdd headerSize entries

/-- `topic_entry_off`. -/
def topicEntryOffUsize (t : Nat) : Option Nat := do
  let entries ← checkedMul t topicEntrySize
  checkedAdd headerSize entries

/-- `ring_entry_off`. -/
def ringEntryOffUsize (c : Config) (t slot : Nat) : Option Nat := do
  let base ← ringBaseUsize c
  let rings ← checkedMul t c.ringDepth
  let rings ← checkedMul rings ringEntrySize
  let ring ← checkedAdd base rings
  let entries ← checkedMul slot ringEntrySize
  checkedAdd ring entries

/-- `block_pool_offset`. -/
def blockPoolOffsetUsize (c : Config) : Option Nat := do
  let base ← ringBaseUsize c
  let rings ← checkedMul c.maxTopics c.ringDepth
  let rings ← checkedMul rings ringEntrySize
  checkedAdd base rings

/-- The offset that `Region::block_ptr` adds to the base; `pool_offset` is computed once, when the
    region is built. -/
def blockOffUsize (c : Config) (b : Nat) : Option Nat := do
  let pool ← blockPoolOffsetUsize c
  let blocks ← checkedMul b c.blockSize
  checkedAdd pool blocks

/-- The one unchecked step of `region_size_checked` cannot overflow: `max_topics` is a `u32`. -/
theorem ringBaseUsize_eq {c : Config} (hc : Fits32 c) : ringBaseUsize c = some c.ringBase := by
  have htopics := hc.1
  unfold ringBaseUsize Config.ringBase headerSize topicEntrySize
  rw [checkedMul_of_lt (by omega), Option.bind_eq_bind, Option.bind_some,
    checkedAdd_of_lt (by omega)]

section Created

variable {c : Config} {n : Nat} (hsize : c.regionSizeChecked = some n)
include hsize

/-- A part ends at a `usize`. -/
theorem Part.end_lt {x : Part} (h : x.Exists c) : x.off c + x.size c < 2 ^ 64 :=
  Nat.lt_of_le_of_lt (end_le_size hsize h) (regionSizeChecked_lt hsize)

/-- The offset of a topic entry does not wrap. -/
theorem topicEntryOffUsize_eq {t : Nat} (ht : t < c.maxTopics) :
    topicEntryOffUsize t = some (topicEntryOff t) := by
  have hend : topicEntryOff t + topicEntrySize < 2 ^ 64 :=
    Part.end_lt hsize (x := .topic t) ht
  unfold topicEntryOff at hend
  unfold topicEntryOffUsize topicEntryOff
  rw [checkedMul_of_lt (by omega), Option.bind_eq_bind, Option.bind_some,
    checkedAdd_of_lt (by omega)]

variable (hc : Fits32 c)
include hc

/-- The offset of a ring entry does not wrap. -/
theorem ringEntryOffUsize_eq {t slot : Nat} (ht : t < c.maxTopics) (hslot : slot < c.ringDepth) :
    ringEntryOffUsize c t slot = some (ringEntryOff c t slot) := by
  have hend : ringEntryOff c t slot + ringEntrySize < 2 ^ 64 :=
    Part.end_lt hsize (x := .ring t slot) ⟨ht, hslot⟩
  unfold ringEntryOff at hend
  have hrings : t * c.ringDepth < 2 ^ 64 := by
    unfold ringEntrySize at hend
    omega
  unfold ringEntryOffUsize ringEntryOff
  simp only [Option.bind_eq_bind]
  rw [ringBaseUsize_eq hc, Option.bind_some, checkedMul_of_lt hrings, Option.bind_some,
    checkedMul_of_lt (by omega), Option.bind_some, checkedAdd_of_lt (by omega), Option.bind_some,
    checkedMul_of_lt (by omega), Option.bind_some, checkedAdd_of_lt (by omega)]

/-- The offset of the blocks does not wrap. -/
theorem blockPoolOffsetUsize_eq : blockPoolOffsetUsize c = some (blockPoolOffset c) := by
  have hlt := regionSizeChecked_lt hsize
  rw [regionSizeChecked_eq hsize] at hlt
  unfold blockPoolOffset at hlt
  have hrings : c.maxTopics * c.ringDepth < 2 ^ 64 := by
    unfold ringEntrySize at hlt
    omega
  unfold blockPoolOffsetUsize blockPoolOffset
  simp only [Option.bind_eq_bind]
  rw [ringBaseUsize_eq hc, Option.bind_some, checkedMul_of_lt hrings, Option.bind_some,
    checkedMul_of_lt (by omega), Option.bind_some, checkedAdd_of_lt (by omega)]

/-- The offset of a block does not wrap. -/
theorem blockOffUsize_eq {b : Nat} (hb : b < c.blockCount) :
    blockOffUsize c b = some (blockOff c b) := by
  have hend : blockOff c b + c.blockSize < 2 ^ 64 := Part.end_lt hsize (x := .block b) hb
  unfold blockOff at hend
  unfold blockOffUsize blockOff
  rw [blockPoolOffsetUsize_eq hsize hc, Option.bind_eq_bind, Option.bind_some,
    checkedMul_of_lt (by omega), Option.bind_some,
    checkedAdd_of_lt (by omega)]

end Created

/-! ### Overlap -/

/-- The byte at offset `i` belongs to the part. -/
def Part.Covers (c : Config) (x : Part) (i : Nat) : Prop := x.off c ≤ i ∧ i < x.off c + x.size c

/-- A ring entry is determined by its index among the entries of all topics. -/
theorem ringIdx_inj {depth t slot t' slot' : Nat} (h : slot < depth) (h' : slot' < depth)
    (heq : t * depth + slot = t' * depth + slot') : t = t' ∧ slot = slot' := by
  have hpos : 0 < depth := Nat.zero_lt_of_lt h
  have hdiv := congrArg (· / depth) heq
  have hmod := congrArg (· % depth) heq
  simp only [Nat.mul_comm _ depth, Nat.mul_add_div hpos, Nat.mul_add_mod,
    Nat.div_eq_of_lt h, Nat.div_eq_of_lt h', Nat.mod_eq_of_lt h, Nat.mod_eq_of_lt h',
    Nat.add_zero] at hdiv hmod
  exact ⟨hdiv, hmod⟩

/-- Different parts are different records. -/
theorem Part.record_ne {c : Config} {x y : Part} (hx : x.Exists c) (hy : y.Exists c) (h : x ≠ y) :
    (x.record hx).pos ≠ (y.record hy).pos ∨ (x.record hx).idx ≠ (y.record hy).idx := by
  by_contra hsame
  rw [not_or, not_not, not_not] at hsame
  obtain ⟨hpos, hidx⟩ := hsame
  apply h
  -- the table tells the kind of a part, so that only equal kinds are left
  cases x <;> cases y <;> cases hpos
  case header => rfl
  case topic => exact congrArg topic hidx
  case ring =>
    obtain ⟨rfl, rfl⟩ := ringIdx_inj hx.2 hy.2 hidx
    rfl
  case block => exact congrArg block hidx

/-- Of two different parts one ends before the other starts. -/
theorem Part.separate {c : Config} {x y : Part} (hx : x.Exists c) (hy : y.Exists c) (h : x ≠ y) :
    x.off c + x.size c ≤ y.off c ∨ y.off c + y.size c ≤ x.off c := by
  have hsep := Record.separate (record_ne hx hy h)
  rwa [off_record, off_record, size_record, size_record] at hsep

/-- Different parts have no byte in common. -/
theorem Part.not_covers {c : Config} {x y : Part} (hx : x.Exists c) (hy : y.Exists c) (h : x ≠ y)
    {i : Nat} (hi : x.Covers c i) : ¬y.Covers c i := by
  have hsep := separate hx hy h
  unfold Covers at hi ⊢
  omega

/-- **The layout is exact.** For every configuration of `u32` fields the checked size is the exact
    size, whenever that is below 2⁶⁴; and in every region that `create` makes no offset of a part
    overflows, every part lies within the size, and the parts are pairwise disjoint. -/
theorem region_layout_exact {c : Config} (hc : Fits32 c) :
    (ringBaseUsize c = some c.ringBase ∧
      ∀ n, c.regionSizeChecked = some n ↔ exactSize c < 2 ^ 64 ∧ n = exactSize c) ∧
    ∀ staleTimeout pid now n mem, create c staleTimeout pid now = .ok (n, mem) →
      n = exactSize c ∧
      (∀ t < c.maxTopics, topicEntryOffUsize t = some (topicEntryOff t)) ∧
      (∀ t < c.maxTopics, ∀ slot < c.ringDepth,
        ringEntryOffUsize c t slot = some (ringEntryOff c t slot)) ∧
      blockPoolOffsetUsize c = some (blockPoolOffset c) ∧
      (∀ b < c.blockCount, blockOffUsize c b = some (blockOff c b)) ∧
      (∀ x : Part, x.Exists c → ∀ i, x.Covers c i → i < n) ∧
      (∀ x y : Part, x.Exists c → y.Exists c → x ≠ y → ∀ i, x.Covers c i → ¬y.Covers c i) := by
  refine ⟨⟨ringBaseUsize_eq hc, fun n => regionSizeChecked_eq_some_iff⟩, ?_⟩
  intro staleTimeout pid now n mem hcreate
  obtain ⟨_, hsize, _⟩ := create_ok hcreate
  refine ⟨(regionSizeChecked_eq_some_iff.mp hsize).2, ?_, ?_, ?_, ?_, ?_, ?_⟩
  · exact fun t ht => topicEntryOffUsize_eq hsize ht
  · exact fun t ht slot hslot => ringEntryOffUsize_eq hsize hc ht hslot
  · exact blockPoolOffsetUsize_eq hsize hc
  · exact fun b hb => blockOffUsize_eq hsize hc hb
  · exact fun x hx i hi => Nat.lt_of_lt_of_le hi.2 (Part.end_le_size hsize hx)
  · exact fun x y hx hy hne i hi => Part.not_covers hx hy hne hi

/-- The largest `block_size` and ring of a region with one topic and one block. -/
theorem region_layout_exact_largest :
    ∃ n mem, create ⟨1, 1, 2 ^ 32 - 1, 2 ^ 31⟩ 0 0 (some 0) = .ok (n, mem) ∧
      n = 256 + 2 ^ 35 + (2 ^ 32 - 1) ∧
      ringEntryOffUsize ⟨1, 1, 2 ^ 32 - 1, 2 ^ 31⟩ 0 (2 ^ 31 - 1) =
        some (256 + (2 ^ 31 - 1) * 16) := by
  have hcreate := create_of_accepted (c := ⟨1, 1, 2 ^ 32 - 1, 2 ^ 31⟩) (by decide) rfl 0 0 0
  obtain ⟨_, _, hring, _⟩ :=
    (region_layout_exact (c := ⟨1, 1, 2 ^ 32 - 1, 2 ^ 31⟩) (by decide)).2 _ _ _ _ _ hcreate
  exact ⟨_, _, hcreate, rfl, hring 0 (by decide) (2 ^ 31 - 1) (by decide)⟩

/-! ### Alignment -/

/-- The addresses of a block are aligned for the accesses made to them: the link and the refcount
    are `AtomicU32`s, and the payload may be read as a type of alignment 8. -/
def BlockAligned (base : Nat) (c : Config) (b : Nat) : Prop :=
  4 ∣ base + blockOff c b ∧ 4 ∣ base + (blockOff c b + bkRefcount) ∧
    8 ∣ base + (blockOff c b + blockDataOffset)

instance (base : Nat) (c : Config) (b : Nat) : Decidable (BlockAligned base c b) :=
  inferInstanceAs (Decidable (_ ∧ _ ∧ _))

/-- The configurations of regions: those that `create` accepts and those in a header that
    `open_and_validate_region` accepts. -/
def InUse (c : Config) : Prop :=
  (∃ staleTimeout pid now len mem, create c staleTimeout pid now = .ok (len, mem)) ∨
    ∃ len mem now, ∃ rgn : Region len,
      openAndValidateRegion len mem now = .ok rgn ∧ mem.config = c

/-- Both sides make the checks of `create`. -/
theorem InUse.accepted {c : Config} (h : InUse c) : c.accepted = true := by
  rcases h with ⟨_, _, _, _, _, hcreate⟩ | ⟨_, _, _, rgn, hopen, rfl⟩
  · exact (create_ok hcreate).1
  · rw [← (openAndValidateRegion_ok hopen).1]
    exact rgn.accepted

/-- A region in use has a block. -/
theorem InUse.blockCount_pos {c : Config} (h : InUse c) : 0 < c.blockCount := by
  have haccepted := h.accepted
  simp only [Config.accepted, Bool.and_eq_true, bne_iff_ne] at haccepted
  exact Nat.pos_of_ne_zero haccepted.1.1.2

/-- Everything in front of the block pool is a multiple of 16 bytes long, so that only the
    position in the pool matters. -/
theorem blockAligned_iff {base : Nat} (hbase : 4096 ∣ base) (c : Config) (b : Nat) :
    BlockAligned base c b ↔ 8 ∣ b * c.blockSize := by
  unfold BlockAligned blockOff blockPoolOffset Config.ringBase headerSize topicEntrySize
    ringEntrySize bkRefcount blockDataOffset
  omega

/-- **Alignment of the blocks.** In a region on a page boundary the words and the payload of every
    block are aligned exactly when there is only one block or `block_size` is a multiple of 8. -/
theorem block_words_aligned {c : Config} (h : InUse c) {base : Nat} (hbase : 4096 ∣ base) :
    (∀ b < c.blockCount, BlockAligned base c b) ↔ c.blockCount = 1 ∨ 8 ∣ c.blockSize := by
  simp only [blockAligned_iff hbase]
  have hpos := h.blockCount_pos
  constructor
  · intro hall
    by_cases hone : c.blockCount = 1
    · exact Or.inl hone
    · -- the second block starts one `block_size` into the pool
      have hsecond := hall 1 (by omega)
      rw [Nat.one_mul] at hsecond
      exact Or.inr hsecond
  · rintro (hone | hsize) b hb
    · obtain rfl : b = 0 := by omega
      simp
    · exact Nat.dvd_mul_left_of_dvd hsize b

/-- Three blocks of 16 bytes. -/
def evenBlocks : Config := ⟨1, 3, 16, 1⟩

/-- Three blocks of 16 bytes, mapped at page 2. -/
theorem block_words_aligned_even : InUse evenBlocks ∧ 4096 ∣ 8192 ∧
    ∀ b < 3, BlockAligned 8192 evenBlocks b := by
  have hcreate := create_of_accepted (c := evenBlocks) (by decide) rfl 0 0 0
  have huse : InUse evenBlocks := Or.inl ⟨_, _, _, _, _, hcreate⟩
  exact ⟨huse, by decide, (block_words_aligned huse (by decide)).mpr (by decide)⟩

/-- Two blocks of 9 bytes. -/
def oddBlocks : Config := ⟨1, 2, 9, 1⟩

/-- **Misaligned words.** `create` accepts blocks of 9 bytes, and `open_and_validate_region` the
    header it has written; the second block starts at an odd address. -/
theorem odd_block_misaligned : ∃ len mem,
    create oddBlocks 0 0 (some 0) = .ok (len, mem) ∧
      (∃ rgn, openAndValidateRegion len mem (some 0) = .ok rgn ∧ rgn.toConfig = oddBlocks) ∧
      1 < oddBlocks.blockCount ∧ 4096 ∣ 4096 ∧ blockOff oddBlocks 1 = 281 ∧
      ¬4 ∣ 4096 + blockOff oddBlocks 1 ∧
      ¬4 ∣ 4096 + (blockOff oddBlocks 1 + bkRefcount) ∧
      ¬8 ∣ 4096 + (blockOff oddBlocks 1 + blockDataOffset) := by
  have hcreate := create_of_accepted (c := oddBlocks) (by decide) rfl 0 0 0
  have hfresh := createdMem_fresh oddBlocks 0 0 0 0 (by decide) (by decide) (by decide)
  obtain ⟨_, _, hconfig, _⟩ := create_header (by decide) (by decide) hcreate
  refine ⟨_, _, hcreate, ?_, by decide, by decide, by decide, by decide, by decide, by decide⟩
  rcases open_created (by decide) (by decide) hcreate hfresh with ⟨_, rgn, hopen⟩ | ⟨hlt, _⟩
  · exact ⟨rgn, hopen, (openAndValidateRegion_ok hopen).1.trans hconfig⟩
  · exact absurd hlt (by decide)

end Crossbar.Mapping
