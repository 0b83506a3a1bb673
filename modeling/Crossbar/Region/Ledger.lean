import Crossbar.Region.Model
import Mathlib.Data.List.Count

namespace Crossbar.Region

open Function Crossbar.Lib Crossbar.Pool

/-!
# Region — the ledger of blocks and references

`Shm.Counted limit held refs` is the balance of the shared words against what lies outside them:
`held b` counts the places that hold block `b` without a reference (caches, recycled cells,
loans, pinned blocks), `refs b` the references to it that are not ring entries (samples).

* every block of the region is once on the free list, once in `held`, or referenced;
* the refcount of a block is its ring entries plus `refs`, up to the width of the word.

No block has more than `limit` references.  That is true of every run with `limit = 2 ^ 32`: the
word is 0 then, and a stream that finds 0 takes no reference, so the last reference is told from
the others even after an overflow.  With a smaller limit the refcount is the number of references;
`Shm.Balanced` says so.

The operations under the calls move a block or a reference from one account to another:
`Counted.free` from `held` to the free list, `Counted.storeEntry` from `held` to the ring,
with the old entry's reference left over in `refs`, `Counted.decRef` from `refs` to `held` or
away, `Counted.read` into `refs`; `Publisher.allocCached_spec` from the free list and the
publisher's stock into the caller's hand.

`World.Counts` is the balance with the accounts of all publishers and all samples, and
`World.Inv` the one without an overflow (`inv_iff`).
-/

variable {cfg : ValidConfig}

/-- The ring entries, over all topics, that hold block `b`. -/
def Shm.inRing (shm : Shm cfg) (b : Nat) : Nat :=
  tally (fun e : Ring.Entry => if e.blockIdx = b then 1 else 0) shm.entry

/-- Whether block `b` is published: its refcount is positive. -/
def Shm.published (shm : Shm cfg) (b : Nat) : Nat := if 0 < shm.refcount b then 1 else 0

/-- The balance of the shared words against the blocks and references held outside, with
    refcounts that have not overflowed. -/
structure Shm.Balanced (shm : Shm cfg) (held refs : Nat → Nat) : Prop where
  chain : ∃ l, shm.pool.Chain l ∧
    ∀ b, l.count b + held b + shm.published b = if b < cfg.blockCount then 1 else 0
  refs : ∀ b, b ≠ noBlock → shm.refcount b = shm.inRing b + refs b
  word : ∀ b, shm.refcount b < 2 ^ 32

/-- The references to block `b`.  An entry without a block refers to nothing. -/
def Shm.referenced (shm : Shm cfg) (refs : Nat → Nat) (b : Nat) : Nat :=
  if b = noBlock then 0 else shm.inRing b + refs b

/-- The balance of the shared words against the blocks and references held outside, with at most
    `limit` references to a block. -/
structure Shm.Counted (shm : Shm cfg) (limit : Nat) (held refs : Nat → Nat) : Prop where
  chain : ∃ l, shm.pool.Chain l ∧
    ∀ b, l.count b + held b + min 1 (shm.referenced refs b) =
      if b < cfg.blockCount then 1 else 0
  word : ∀ b, shm.refcount b = wrap32 (shm.referenced refs b)
  bound : ∀ b, shm.referenced refs b ≤ limit
  range : 0 < limit ∧ limit ≤ 2 ^ 32

theorem Shm.referenced_of_ne (shm : Shm cfg) (refs : Nat → Nat) {b : Nat} (hb : b ≠ noBlock) :
    shm.referenced refs b = shm.inRing b + refs b := if_neg hb

/-- One more reference from outside. -/
theorem Shm.referenced_addOne (shm : Shm cfg) (refs : Nat → Nat) {b : Nat} (hb : b ≠ noBlock)
    (x : Nat) :
    shm.referenced (addOne refs b) x = shm.referenced refs x + if x = b then 1 else 0 := by
  by_cases hx : x = noBlock
  · rw [hx, referenced, referenced, if_pos rfl, if_pos rfl, if_neg (Ne.symm hb)]
  · rw [referenced_of_ne _ _ hx, referenced_of_ne _ _ hx, addOne_apply]
    omega

/-- A reference to nothing does not count. -/
theorem Shm.referenced_addOne_noBlock (shm : Shm cfg) (refs : Nat → Nat) (x : Nat) :
    shm.referenced (addOne refs noBlock) x = shm.referenced refs x := by
  by_cases hx : x = noBlock
  · rw [hx, referenced, referenced, if_pos rfl, if_pos rfl]
  · rw [referenced_of_ne _ _ hx, referenced_of_ne _ _ hx, addOne_apply, if_neg hx]
    rfl

/-- A ring entry refers to its block. -/
theorem Shm.referenced_of_entry (shm : Shm cfg) (refs : Nat → Nat) (e : cfg.EntryIdx)
    (hne : (shm.entry e).blockIdx ≠ noBlock) :
    0 < shm.referenced refs (shm.entry e).blockIdx := by
  have hle := le_tally
    (fun e' : Ring.Entry => if e'.blockIdx = (shm.entry e).blockIdx then 1 else 0) shm.entry e
  rw [if_pos rfl] at hle
  rw [shm.referenced_of_ne refs hne]
  unfold inRing
  omega

namespace Shm.Counted

variable {shm shm' : Shm cfg} {limit : Nat} {held held' refs refs' : Nat → Nat} {b : Nat}

/-! ### What the balance says of one block -/

/-- Only blocks of the region are held or referenced. -/
theorem lt_of_account (h : shm.Counted limit held refs)
    (hb : 0 < held b + shm.referenced refs b) : b < cfg.blockCount := by
  obtain ⟨l, _, hplaces⟩ := h.chain
  have hb' := hplaces b
  by_contra hge
  rw [if_neg hge] at hb'
  omega

/-- Only blocks of the region are held. -/
theorem lt_of_held (h : shm.Counted limit held refs) (hb : 0 < held b) : b < cfg.blockCount :=
  h.lt_of_account (Nat.add_pos_left hb _)

/-- Nothing refers to a held block. -/
theorem referenced_of_held (h : shm.Counted limit held refs) (hb : 0 < held b) :
    shm.referenced refs b = 0 := by
  obtain ⟨l, _, hplaces⟩ := h.chain
  have hb' := hplaces b
  rw [if_pos (h.lt_of_held hb)] at hb'
  omega

/-- Only blocks of the region are referenced. -/
theorem lt_of_referenced (h : shm.Counted limit held refs) (hb : 0 < shm.referenced refs b) :
    b < cfg.blockCount :=
  h.lt_of_account (Nat.add_pos_right _ hb)

/-- A block with one more reference than `refs` says. -/
theorem lt_of_addOne (h : shm.Counted limit held (addOne refs b)) (hb : b ≠ noBlock) :
    b < cfg.blockCount := by
  apply h.lt_of_referenced
  rw [shm.referenced_addOne refs hb, if_pos rfl]
  exact Nat.succ_pos _

/-- A refcount that is not 0 is the number of references. -/
theorem referenced_of_refcount (h : shm.Counted limit held refs) (hb : shm.refcount b ≠ 0) :
    shm.referenced refs b = shm.refcount b ∧ shm.refcount b < 2 ^ 32 := by
  have hword := h.word b
  have hbound := h.bound b
  have hlimit := h.range
  unfold wrap32 at hword
  omega

/-! ### Accounts that are only named differently -/

/-- The accounts matter by their amounts. -/
theorem of_eq (h : shm.Counted limit held refs) (hheld : ∀ b, held' b = held b)
    (hrefs : ∀ b, refs' b = refs b) : shm.Counted limit held' refs' := by
  rw [funext hheld, funext hrefs]
  exact h

/-- A larger limit. -/
theorem mono {limit' : Nat} (h : shm.Counted limit held refs) (hle : limit ≤ limit')
    (hword : limit' ≤ 2 ^ 32) : shm.Counted limit' held refs :=
  ⟨h.chain, h.word, fun b => (h.bound b).trans hle, h.range.1.trans_le hle, hword⟩

/-- Words other than the free list, the refcounts and the ring do not matter. -/
theorem frame (h : shm.Counted limit held refs) (hpool : shm'.pool = shm.pool)
    (hrc : shm'.refcount = shm.refcount) (hentry : shm'.entry = shm.entry) :
    shm'.Counted limit held refs := by
  have hsame : shm'.referenced refs = shm.referenced refs := by
    unfold referenced inRing
    rw [hentry]
  refine ⟨?_, ?_, ?_, h.range⟩
  · rw [hpool, hsame]
    exact h.chain
  · rw [hrc, hsame]
    exact h.word
  · rw [hsame]
    exact h.bound

/-! ### Moving a block -/

/-- `free_block` puts a held block on the free list. -/
theorem free (h : shm.Counted limit (addOne held b) refs) :
    (shm.free b).Counted limit held refs := by
  have hlt : b < cfg.blockCount := h.lt_of_held (by simp)
  obtain ⟨l, hl, hplaces⟩ := h.chain
  have hmem : b ∉ l := by
    intro hmem
    have hcount := List.count_pos_iff.mpr hmem
    have hb := hplaces b
    rw [if_pos hlt, addOne_self] at hb
    omega
  refine ⟨⟨b :: l, freeBlock_chain hl hlt hmem, fun x => ?_⟩, h.word, h.bound, h.range⟩
  have hx := hplaces x
  rw [addOne_apply] at hx
  rw [List.count_cons, ← hx]
  simp only [beq_iff_eq, eq_comm (a := b)]
  show _ + held x + min 1 (shm.referenced refs x) = _
  omega

/-! ### Moving a reference -/

/-- An entry without a block refers to nothing. -/
theorem of_noBlock (h : shm.Counted limit held (addOne refs noBlock)) :
    shm.Counted limit held refs := by
  have hsame : shm.referenced (addOne refs noBlock) = shm.referenced refs :=
    funext (shm.referenced_addOne_noBlock refs)
  refine ⟨?_, ?_, ?_, h.range⟩
  · rw [← hsame]
    exact h.chain
  · rw [← hsame]
    exact h.word
  · rw [← hsame]
    exact h.bound

/-- Changing one refcount, when the accounts change with it. -/
theorem setRefcount {n : Nat} (h : shm.Counted limit held refs)
    (hheld : ∀ x, held' x + min 1 (shm.referenced refs' x) =
      held x + min 1 (shm.referenced refs x))
    (hword : ∀ x, update shm.refcount b n x = wrap32 (shm.referenced refs' x))
    (hbound : ∀ x, shm.referenced refs' x ≤ limit) :
    Counted { shm with refcount := update shm.refcount b n } limit held' refs' := by
  obtain ⟨l, hl, hplaces⟩ := h.chain
  refine ⟨⟨l, hl, fun x => ?_⟩, hword, hbound, h.range⟩
  have hp := hplaces x
  have hx := hheld x
  show l.count x + held' x + min 1 (shm.referenced refs' x) = _
  omega

/-- `fetch_sub(1)` of a reference: the last one leaves the block to its holder. -/
theorem decRef (h : shm.Counted limit held (addOne refs b)) (hb : b ≠ noBlock) :
    (shm.decRef b).Counted limit (if shm.refcount b = 1 then addOne held b else held) refs := by
  have htotal := shm.referenced_addOne refs hb
  have hself := htotal b
  have hword := h.word b
  have hbound := h.bound b
  have hlimit := h.range.2
  rw [if_pos rfl] at hself
  -- the number of references is at most `2 ^ 32`, so the word is 1 for the last one only
  have hlast : shm.refcount b = 1 ↔ shm.referenced refs b = 0 := by
    unfold wrap32 at hword
    omega
  refine h.setRefcount (fun x => ?_) (fun x => ?_) (fun x => ?_)
  · rw [htotal x]
    by_cases hxb : x = b
    · subst hxb
      split
      · rw [addOne_self, if_pos rfl, hlast.mp ‹_›]
        rfl
      · have hne := mt hlast.mpr ‹_›
        rw [if_pos rfl]
        omega
    · rw [if_neg hxb]
      split
      · rw [addOne_apply, if_neg hxb]
        rfl
      · rfl
  · by_cases hxb : x = b
    · subst hxb
      rw [update_self]
      unfold dec32 wrap32 at *
      omega
    · have hx := htotal x
      rw [if_neg hxb] at hx
      rw [update_of_ne hxb, h.word x, hx]
      rfl
  · have hx := htotal x
    have hle := h.bound x
    omega

/-- `release_block` drops a reference; it does nothing for an index out of range. -/
theorem release (h : shm.Counted limit held (addOne refs b)) :
    (shm.release b).Counted limit held refs := by
  by_cases hb : b = noBlock
  · subst hb
    have hge : cfg.blockCount ≤ noBlock := by
      have hlt := cfg.blockCount_lt
      unfold noBlock
      omega
    rw [Shm.release, if_pos hge]
    exact h.of_noBlock
  · have hlt := h.lt_of_addOne hb
    have hdec := h.decRef hb
    rw [Shm.release, if_neg (by omega)]
    split
    · rename_i hone
      rw [if_pos hone] at hdec
      exact hdec.free
    · rename_i hmore
      rw [if_neg hmore] at hdec
      exact hdec

/-- A successful `try_read_slot_raw` takes a reference to a referenced block. -/
theorem read (h : shm.Counted limit held refs) (hne : shm.refcount b ≠ 0)
    (hroom : shm.refcount b < limit) :
    Counted { shm with
      refcount := update shm.refcount b (wrap32 (shm.refcount b + 1)) }
      limit held (addOne refs b) := by
  obtain ⟨hrefs, -⟩ := h.referenced_of_refcount hne
  have hb : b ≠ noBlock := ne_noBlock (h.lt_of_referenced (by omega))
  have htotal := shm.referenced_addOne refs hb
  refine h.setRefcount (fun x => ?_) (fun x => ?_) (fun x => ?_)
  · rw [htotal x]
    by_cases hxb : x = b
    · subst hxb
      rw [if_pos rfl]
      omega
    · rw [if_neg hxb]
      rfl
  · rw [htotal x]
    by_cases hxb : x = b
    · subst hxb
      rw [update_self, if_pos rfl, h.word x]
      unfold wrap32
      omega
    · rw [update_of_ne hxb, if_neg hxb]
      exact h.word x
  · rw [htotal x]
    have hle := h.bound x
    by_cases hxb : x = b
    · subst hxb
      rw [if_pos rfl]
      omega
    · rw [if_neg hxb]
      exact hle

/-- Steps 1 to 6 of `commit_to_ring` move a held block into the ring; what the entry referred
    to before is left over. -/
theorem storeEntry {t : cfg.Topic} {len : Nat} (h : shm.Counted limit (addOne held b) refs) :
    (shm.storeEntry t b len).Counted limit held
      (addOne refs (shm.entry (t, cfg.slotOf (shm.nextSeq t))).blockIdx) := by
  have hzero : shm.referenced refs b = 0 := h.referenced_of_held (by simp)
  have hb : b ≠ noBlock := ne_noBlock (h.lt_of_held (by simp))
  -- the new entry is the only reference to its block
  have htotal : ∀ x, (shm.storeEntry t b len).referenced
      (addOne refs (shm.entry (t, cfg.slotOf (shm.nextSeq t))).blockIdx) x =
        shm.referenced refs x + if x = b then 1 else 0 := by
    intro x
    by_cases hx : x = noBlock
    · rw [hx, referenced, referenced, if_pos rfl, if_pos rfl, if_neg (Ne.symm hb)]
    · have hring := tally_update (fun e : Ring.Entry => if e.blockIdx = x then 1 else 0) shm.entry
        (t, cfg.slotOf (shm.nextSeq t)) ⟨shm.nextSeq t, b, len⟩
      rw [referenced_of_ne _ _ hx, referenced_of_ne _ _ hx, addOne_apply]
      unfold inRing
      show tally _ (update shm.entry _ _) + _ = _
      simp only [eq_comm (a := x)] at hring ⊢
      omega
  obtain ⟨l, hl, hplaces⟩ := h.chain
  refine ⟨⟨l, hl, fun x => ?_⟩, fun x => ?_, fun x => ?_, h.range⟩
  · have hp := hplaces x
    rw [addOne_apply] at hp
    rw [htotal x]
    by_cases hxb : x = b
    · subst hxb
      rw [hzero, if_pos rfl] at hp
      rw [hzero, if_pos rfl]
      omega
    · rw [if_neg hxb] at hp
      rw [if_neg hxb]
      exact hp
  · rw [htotal x]
    show update shm.refcount b 1 x = _
    by_cases hxb : x = b
    · subst hxb
      rw [update_self, hzero, if_pos rfl]
      rfl
    · rw [update_of_ne hxb, if_neg hxb]
      exact h.word x
  · rw [htotal x]
    by_cases hxb : x = b
    · subst hxb
      rw [hzero, if_pos rfl]
      exact h.range.1
    · rw [if_neg hxb]
      exact h.bound x

end Shm.Counted

/-! ### What a publisher holds -/

namespace Publisher

variable (p : Publisher cfg) (b : Nat)

/-- Block `b` in `last_freed`. -/
def recycled : Nat := (cell p.lastFreed).count b

/-- Block `b` in the block cache. -/
def cached : Nat := p.cache.count b

/-- Block `b` in the live `Loan` or `TypedLoan`.  A `PinnedLoan` does not own its block. -/
def loaned : Nat :=
  match p.borrow with
  | some l => if l.kind ≠ .pinned ∧ l.blockIdx = b then 1 else 0
  | none => 0

/-- Block `b` in `pinned_blocks`. -/
def pinned : Nat := tally (fun x => (cell x).count b) p.pinnedBlocks

/-- Every place of the publisher. -/
def holds : Nat := p.recycled b + p.cached b + p.loaned b + p.pinned b

end Publisher

theorem count_cell_noBlock (b : Nat) : (cell noBlock).count b = 0 := by
  rw [cell, if_pos rfl, List.count_nil]

theorem count_cell {x : Nat} (hx : x ≠ noBlock) (b : Nat) :
    (cell x).count b = if b = x then 1 else 0 := by
  rw [cell, if_neg hx, List.count_singleton]
  simp only [beq_iff_eq, eq_comm (a := x)]

/-- A new publisher holds nothing. -/
theorem fresh_holds (id b : Nat) : (Publisher.fresh cfg id).holds b = 0 := by
  have hpinned : (Publisher.fresh cfg id).pinned b = 0 := by
    apply tally_eq_zero
    intro t
    exact count_cell_noBlock b
  unfold Publisher.holds
  rw [hpinned]
  exact count_cell_noBlock b

/-! ### Allocation -/

section

variable {shm : Shm cfg} {p : Publisher cfg} {limit : Nat} {held refs : Nat → Nat}

/-- The refill loop moves blocks from the free list to the cache and meets no index out of
    range. -/
theorem refill_spec (n : Nat) (pool : FreeList) (cache : List Nat)
    (h : Shm.Counted { shm with pool := pool } limit (fun b => held b + cache.count b) refs) :
    ∃ pool' cache', refill cfg n pool cache = (pool', cache', false) ∧
      Shm.Counted { shm with pool := pool' } limit (fun b => held b + cache'.count b) refs := by
  induction n generalizing pool cache with
  | zero => exact ⟨pool, cache, rfl, h⟩
  | succ n ih =>
    obtain ⟨l, hl, hplaces⟩ := h.chain
    have hrange : ∀ b ∈ l, b < cfg.blockCount := by
      intro b hb
      have hcount := List.count_pos_iff.mpr hb
      have hb' := hplaces b
      by_contra hge
      rw [if_neg hge] at hb'
      omega
    rcases allocBlock_spec hl hrange with ⟨pool', b, l', halloc, rfl, hl'⟩ | ⟨halloc, _⟩
    · have hnext : Shm.Counted { shm with pool := pool' } limit
          (fun x => held x + (cache ++ [b]).count x) refs := by
        refine ⟨⟨l', hl', fun x => ?_⟩, h.word, h.bound, h.range⟩
        have hx := hplaces x
        rw [List.count_cons] at hx
        show l'.count x + (held x + (cache ++ [b]).count x) + min 1 (shm.referenced refs x) = _
        rw [List.count_append, List.count_singleton, ← hx]
        show _ = _ + min 1 (shm.referenced refs x)
        omega
      rw [refill, halloc]
      exact ih pool' (cache ++ [b]) hnext
    · rw [refill, halloc]
      exact ⟨pool, cache, rfl, h⟩

/-- `alloc_cached` takes the block it returns from the publisher's own places or from the free
    list, and never finds the free list corrupted. -/
theorem Publisher.allocCached_spec (h : shm.Counted limit (fun b => held b + p.holds b) refs) :
    ∃ pool lastFreed cache r,
      p.allocCached shm = ({ shm with pool := pool },
        { p with lastFreed := lastFreed, cache := cache }, .ok r) ∧
      Shm.Counted { shm with pool := pool } limit (fun b => held b + r.toList.count b +
        Publisher.holds { p with lastFreed := lastFreed, cache := cache } b) refs := by
  by_cases hlast : p.lastFreed = noBlock
  · have hrec : p.allocRecycled = ({ p with lastFreed := noBlock }, none) := by
      rw [allocRecycled, if_neg (not_not.mpr hlast)]
    cases htake : takeCache p.cache with
    | some br =>
      obtain ⟨b, rest⟩ := br
      refine ⟨shm.pool, noBlock, rest, some b, ?_, h.of_eq (fun x => ?_) (fun _ => rfl)⟩
      · simp only [allocCached, hrec, htake]
      · simp only [holds, recycled, cached, loaned, pinned, hlast, takeCache_eq htake,
          List.count_append, Option.toList_some]
        omega
    | none =>
      -- the cache is empty: refill it, then take its top
      have hempty := takeCache_eq_none htake
      have hstart : Shm.Counted { shm with pool := shm.pool } limit
          (fun b => (held b + p.recycled b + p.loaned b + p.pinned b) + p.cache.count b) refs :=
        h.of_eq (fun b => by simp only [holds, cached]; omega) (fun _ => rfl)
      obtain ⟨pool, cache, hrefill, hbal⟩ :=
        refill_spec (cacheSize - p.cache.length) shm.pool p.cache hstart
      cases htake' : takeCache cache with
      | some br =>
        obtain ⟨b, rest⟩ := br
        refine ⟨pool, noBlock, rest, some b, ?_, hbal.of_eq (fun x => ?_) (fun _ => rfl)⟩
        · simp only [allocCached, hrec, htake, hrefill, htake']
        · simp only [holds, recycled, cached, loaned, pinned, hlast, takeCache_eq htake',
            List.count_append, Option.toList_some]
          omega
      | none =>
        refine ⟨pool, noBlock, cache, none, ?_, hbal.of_eq (fun x => ?_) (fun _ => rfl)⟩
        · simp only [allocCached, hrec, htake, hrefill, htake']
        · simp only [holds, recycled, cached, loaned, pinned, hlast, Option.toList_none,
            List.count_nil]
          omega
  · refine ⟨shm.pool, noBlock, p.cache, some p.lastFreed, ?_, h.of_eq (fun x => ?_) (fun _ => rfl)⟩
    · simp only [allocCached, allocRecycled, if_pos hlast]
    · simp only [holds, recycled, cached, loaned, pinned, count_cell_noBlock, count_cell hlast,
        Option.toList_some, List.count_singleton, beq_iff_eq, eq_comm (a := x)]
      omega

/-- A block for a loan, or `PoolExhausted` with nothing changed in the accounts. -/
theorem Publisher.obtainBlock_spec (h : shm.Counted limit (fun b => held b + p.holds b) refs) :
    ∃ pool lastFreed cache r,
      p.obtainBlock shm = ({ shm with pool := pool },
        { p with lastFreed := lastFreed, cache := cache }, r) ∧
      ((r = .error .poolExhausted ∧ Shm.Counted { shm with pool := pool } limit (fun b => held b +
        Publisher.holds { p with lastFreed := lastFreed, cache := cache } b) refs) ∨
      ∃ b, r = .ok b ∧ Shm.Counted { shm with pool := pool } limit (addOne (fun b => held b +
        Publisher.holds { p with lastFreed := lastFreed, cache := cache } b) b) refs) := by
  obtain ⟨pool, lastFreed, cache, r, halloc, hbal⟩ := allocCached_spec h
  cases r with
  | none =>
    refine ⟨pool, lastFreed, cache, .error .poolExhausted, ?_, Or.inl ⟨rfl, ?_⟩⟩
    · simp only [obtainBlock, halloc]
    · exact hbal
  | some b =>
    refine ⟨pool, lastFreed, cache, .ok b, ?_, Or.inr ⟨b, rfl, ?_⟩⟩
    · simp only [obtainBlock, halloc]
    · refine hbal.of_eq (fun x => ?_) (fun _ => rfl)
      simp only [addOne_apply, Option.toList_some, List.count_singleton, beq_iff_eq,
        eq_comm (a := x)]
      omega

/-! ### Publishing -/

/-- Step 7 of `commit_to_ring` drops the reference of the old entry. -/
theorem releaseOld_spec {old : Nat}
    (h : shm.Counted limit (fun b => held b + p.holds b) (addOne refs old)) :
    ∃ shm' lastFreed, releaseOld shm p old = (shm', { p with lastFreed := lastFreed }) ∧
      shm'.Counted limit (fun b => held b + Publisher.holds { p with lastFreed := lastFreed } b)
        refs := by
  by_cases hold : old = noBlock
  · refine ⟨shm, p.lastFreed, ?_, ?_⟩
    · rw [releaseOld, if_neg (fun hne => hne.1 hold)]
    · rw [hold] at h
      exact h.of_noBlock
  have hlt := h.lt_of_addOne hold
  have hdec := h.decRef hold
  by_cases hone : shm.refcount old = 1
  · rw [if_pos hone] at hdec
    by_cases hlast : p.lastFreed = noBlock
    · refine ⟨shm.decRef old, old, ?_, hdec.of_eq (fun x => ?_) (fun _ => rfl)⟩
      · rw [releaseOld, if_pos ⟨hold, hlt⟩, if_pos hone, if_neg (not_not.mpr hlast)]
      · simp only [addOne_apply, Publisher.holds, Publisher.recycled, Publisher.cached,
          Publisher.loaned, Publisher.pinned, hlast, count_cell_noBlock, count_cell hold]
        omega
    · -- the block displaced from `last_freed` goes to the free list
      refine ⟨(shm.decRef old).free p.lastFreed, old, ?_,
        Shm.Counted.free (hdec.of_eq (fun x => ?_) (fun _ => rfl))⟩
      · rw [releaseOld, if_pos ⟨hold, hlt⟩, if_pos hone, if_pos hlast]
      · simp only [addOne_apply, Publisher.holds, Publisher.recycled, Publisher.cached,
          Publisher.loaned, Publisher.pinned, count_cell hlast, count_cell hold]
        omega
  · rw [if_neg hone] at hdec
    refine ⟨shm.decRef old, p.lastFreed, ?_, hdec⟩
    rw [releaseOld, if_pos ⟨hold, hlt⟩, if_neg hone]

/-- `commit_to_ring` puts the block it is given into the ring. -/
theorem commitToRing_spec {b len : Nat} {t : cfg.Topic}
    (h : shm.Counted limit (addOne (fun b => held b + p.holds b) b) refs) :
    ∃ shm' lastFreed, commitToRing shm p b len t = (shm', { p with lastFreed := lastFreed }) ∧
      shm'.Counted limit (fun b => held b + Publisher.holds { p with lastFreed := lastFreed } b)
        refs := by
  unfold commitToRing
  exact releaseOld_spec h.storeEntry

/-- The block of a `Loan` or `TypedLoan`. -/
def Loan.owns (l : Loan cfg) (b : Nat) : Nat := if l.kind ≠ .pinned ∧ l.blockIdx = b then 1 else 0

theorem Loan.owns_pinned {l : Loan cfg} (hkind : l.kind = .pinned) (b : Nat) : l.owns b = 0 :=
  if_neg (fun hne => hne.1 hkind)

theorem Loan.owns_block {l : Loan cfg} (hkind : l.kind ≠ .pinned) (b : Nat) :
    l.owns b = if b = l.blockIdx then 1 else 0 := by
  simp only [owns, hkind, ne_eq, not_false_eq_true, true_and, eq_comm (a := b)]

theorem Loan.publish_ring {l : Loan cfg} (hkind : l.kind ≠ .pinned) :
    l.publish shm p = commitToRing shm p l.blockIdx l.len l.topic := by
  unfold publish
  split
  · contradiction
  · rfl

theorem Loan.drop_ring {l : Loan cfg} (hkind : l.kind ≠ .pinned) :
    l.drop shm = shm.free l.blockIdx := by
  unfold drop
  split
  · contradiction
  · rfl

/-- `publish` of a loan puts its block into the ring, or leaves it pinned. -/
theorem Loan.publish_spec {l : Loan cfg}
    (h : shm.Counted limit (fun b => held b + (p.holds b + l.owns b)) refs) :
    ∃ shm' lastFreed, l.publish shm p = (shm', { p with lastFreed := lastFreed }) ∧
      shm'.Counted limit (fun b => held b + Publisher.holds { p with lastFreed := lastFreed } b)
        refs := by
  by_cases hkind : l.kind = .pinned
  · refine ⟨l.publishPinned shm, p.lastFreed, ?_, ?_⟩
    · simp only [publish, hkind]
    · refine (h.of_eq (fun b => ?_) (fun _ => rfl)).frame rfl rfl rfl
      show held b + p.holds b = _
      rw [l.owns_pinned hkind]
      omega
  · rw [publish_ring hkind]
    refine commitToRing_spec (h.of_eq (fun b => ?_) (fun _ => rfl))
    rw [addOne_apply, l.owns_block hkind]
    omega

/-- `Drop` of a loan frees its block, or leaves it pinned. -/
theorem Loan.drop_spec {l : Loan cfg} (h : shm.Counted limit (fun b => held b + l.owns b) refs) :
    (l.drop shm).Counted limit held refs := by
  by_cases hkind : l.kind = .pinned
  · have hdrop : l.drop shm = shm.setReaders l.topic 0 := by simp only [drop, hkind]
    rw [hdrop]
    refine (h.of_eq (fun b => ?_) (fun _ => rfl)).frame rfl rfl rfl
    rw [l.owns_pinned hkind]
    rfl
  · rw [drop_ring hkind]
    refine Shm.Counted.free (h.of_eq (fun b => ?_) (fun _ => rfl))
    rw [addOne_apply, l.owns_block hkind]

end

/-! ### The accounts of a world -/

/-- What a publisher that may have been dropped holds. -/
def heldBy (o : Option (Publisher cfg)) (b : Nat) : Nat :=
  match o with
  | some p => p.holds b
  | none => 0

/-- The references to block `b` of a sample that may have been dropped. -/
def sampleOf (b : Nat) (o : Option Sample) : Nat :=
  match o with
  | some s => if s.blockIdx = b then 1 else 0
  | none => 0

namespace World

variable (w : World cfg)

/-- The places of all publishers that hold block `b`. -/
def held (b : Nat) : Nat := listTally (fun o => heldBy o b) w.pubs

/-- The live samples of block `b`. -/
def sampled (b : Nat) : Nat := listTally (sampleOf b) w.samples

/-- The shared words balance with what publishers and samples hold, and no refcount has
    overflowed. -/
def Inv : Prop := w.shm.Balanced w.held w.sampled

/-- The shared words balance with what publishers and samples hold, with at most `limit`
    references to a block. -/
def Counts (limit : Nat) : Prop := w.shm.Counted limit w.held w.sampled

end World

/-- Without an overflow, a refcount is the number of references. -/
theorem inv_iff {w : World cfg} : w.Inv ↔ w.Counts (2 ^ 32 - 1) := by
  constructor
  · intro hI
    have hrefs : w.shm.referenced w.sampled = w.shm.refcount := by
      funext b
      by_cases hb : b = noBlock
      · -- `NO_BLOCK` is not a block, so its refcount is not positive
        obtain ⟨l, _, hplaces⟩ := hI.chain
        have hnone := hplaces noBlock
        have hlt := cfg.blockCount_lt
        rw [if_neg (by unfold noBlock; omega)] at hnone
        unfold Shm.published at hnone
        rw [hb, Shm.referenced, if_pos rfl]
        split at hnone <;> omega
      · rw [Shm.referenced_of_ne _ _ hb, hI.refs b hb]
    refine ⟨?_, fun b => ?_, fun b => ?_, by norm_num⟩
    · obtain ⟨l, hl, hplaces⟩ := hI.chain
      refine ⟨l, hl, fun b => ?_⟩
      have hb := hplaces b
      rw [hrefs]
      unfold Shm.published at hb
      split at hb <;> omega
    · rw [hrefs, wrap32_of_lt (hI.word b)]
    · rw [hrefs]
      exact Nat.le_sub_one_of_lt (hI.word b)
  · intro h
    have hword : ∀ b, w.shm.refcount b = w.shm.referenced w.sampled b := by
      intro b
      have hbound := h.bound b
      rw [h.word b, wrap32_of_lt (by omega)]
    refine ⟨?_, fun b hb => ?_, fun b => ?_⟩
    · obtain ⟨l, hl, hplaces⟩ := h.chain
      refine ⟨l, hl, fun b => ?_⟩
      have hb := hplaces b
      unfold Shm.published
      rw [hword b]
      split <;> omega
    · rw [hword b, Shm.referenced_of_ne _ _ hb]
    · have hbound := h.bound b
      rw [hword b]
      omega

theorem World.Inv.counts {w : World cfg} (hI : w.Inv) : w.Counts (2 ^ 32) :=
  Shm.Counted.mono (inv_iff.mp hI) (by norm_num) le_rfl

/-- Taking publisher `k` out of the account of all publishers. -/
theorem held_split {w : World cfg} {k : Nat} {o : Option (Publisher cfg)}
    (hp : w.pubs[k]? = some o) :
    ∃ rest : Nat → Nat, (∀ b, w.held b = rest b + heldBy o b) ∧
      ∀ (shm : Shm cfg) (o' : Option (Publisher cfg)) (b : Nat),
        World.held { w with shm := shm, pubs := w.pubs.set k o' } b = rest b + heldBy o' b := by
  refine ⟨fun b => listTally (fun o => heldBy o b) (w.pubs.set k none), fun b => ?_,
    fun shm o' b => ?_⟩
  · have hset := listTally_set (fun o => heldBy o b) none hp
    exact hset.symm
  · have hset := listTally_set (fun o => heldBy o b) none hp
    have hset' := listTally_set (fun o => heldBy o b) o' hp
    show listTally (fun o => heldBy o b) (w.pubs.set k o') = _
    have hnone : heldBy (none : Option (Publisher cfg)) b = 0 := rfl
    simp only [hnone] at hset ⊢
    omega

/-- A block for a loan of one publisher of the world, or `PoolExhausted`. -/
theorem obtainBlock_inv {w : World cfg} {k : Nat} {p : Publisher cfg} {limit : Nat}
    (hI : w.Counts limit)
    (hp : w.pubs[k]? = some (some p)) :
    ∃ pool lastFreed cache r,
      p.obtainBlock w.shm = ({ w.shm with pool := pool },
        { p with lastFreed := lastFreed, cache := cache }, r) ∧
      (r = .error .poolExhausted ∨ ∃ b, b < cfg.blockCount ∧ r = .ok b) := by
  obtain ⟨rest, hheld, _⟩ := held_split hp
  have hbal : w.shm.Counted limit (fun b => rest b + p.holds b) w.sampled :=
    Shm.Counted.of_eq hI (fun b => (hheld b).symm) (fun _ => rfl)
  obtain ⟨pool, lastFreed, cache, r, hobtain, ⟨herr, _⟩ | ⟨b, hok, hb⟩⟩ :=
    Publisher.obtainBlock_spec hbal
  · exact ⟨pool, lastFreed, cache, r, hobtain, Or.inl herr⟩
  · exact ⟨pool, lastFreed, cache, r, hobtain, Or.inr ⟨b, hb.lt_of_held (by simp), hok⟩⟩

end Crossbar.Region
