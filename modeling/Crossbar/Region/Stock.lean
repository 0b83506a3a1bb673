import Mathlib.Data.List.Perm.Basic
import Crossbar.Region.Messages

namespace Crossbar.Region

open Crossbar.Lib Crossbar.Pool

/-!
# Region — what a publisher can still obtain

`Publisher.stock p free` lists the blocks that later loans of `p` can get, when `free` is the free
list: the recycled block, the cache, the free list.  An allocation takes one of them
(`obtainBlock_eq`), and which one is a function of the three (`Publisher.nextBlock`): when the
cache is empty it is refilled with up to eight blocks, and the last of these is handed out.

* `pool_exhausted_iff` — with one live publisher, `PoolExhausted` means that every block is in
  the ring, held by a sample or pinned;
* `failed_publish_changes_nothing` — a publish that fails leaves the messages as they are, and
  only moves blocks within the stock.
-/

variable {cfg : ValidConfig}

namespace Publisher

variable (p : Publisher cfg) (free : List Nat)

/-- The blocks that later loans can get. -/
def stock : List Nat := cell p.lastFreed ++ p.cache ++ free

/-- The block that the next allocation hands out. -/
def nextBlock : Option Nat :=
  if p.lastFreed ≠ noBlock then some p.lastFreed
  else
    match p.cache.getLast? with
    | some b => some b
    | none => (free.take cacheSize).getLast?

theorem nextBlock_eq_none : p.nextBlock free = none ↔ p.stock free = [] := by
  unfold nextBlock stock cell
  by_cases hlast : p.lastFreed = noBlock
  · rw [if_neg (not_not.mpr hlast), if_pos hlast, List.nil_append, List.append_eq_nil_iff]
    cases hcache : p.cache.getLast? with
    | none =>
      rw [List.getLast?_eq_none_iff] at hcache
      simp [hcache, cacheSize]
    | some b =>
      have hne : p.cache ≠ [] := by
        rintro hnil
        rw [hnil] at hcache
        cases hcache
      simp [hne]
  · simp [hlast]

end Publisher

/-! ### Allocation -/

section

variable {shm : Shm cfg} {p : Publisher cfg} {pool : FreeList} {free : List Nat}

/-- The refill loop moves the first `n` blocks of the free list to the cache. -/
theorem refill_eq (hl : pool.Chain free) (hrange : ∀ b ∈ free, b < cfg.blockCount) (n : Nat)
    (cache : List Nat) :
    ∃ pool', refill cfg n pool cache = (pool', cache ++ free.take n, false) ∧
      pool'.Chain (free.drop n) ∧ (free = [] → pool' = pool) := by
  induction n generalizing pool free cache with
  | zero => exact ⟨pool, by simp [refill], by simpa using hl, fun _ => rfl⟩
  | succ n ih =>
    rcases allocBlock_spec hl hrange with ⟨pool', b, l', halloc, rfl, hl'⟩ | ⟨halloc, rfl⟩
    · obtain ⟨pool'', hrefill, hchain, _⟩ :=
        ih hl' (fun x hx => hrange x (List.mem_cons_of_mem b hx)) (cache ++ [b])
      refine ⟨pool'', ?_, hchain, fun hnil => by cases hnil⟩
      rw [refill, halloc]
      simp only [hrefill, List.take_succ_cons, List.append_assoc, List.singleton_append]
    · refine ⟨pool, ?_, hl, fun _ => rfl⟩
      rw [refill, halloc]
      simp

theorem takeCache_of_getLast {cache : List Nat} {b : Nat} (h : cache.getLast? = some b) :
    takeCache cache = some (b, cache.dropLast) := by
  simp only [takeCache, h]

/-- The block that is taken from the top comes to the front. -/
theorem takeCache_perm {cache rest : List Nat} {b : Nat} (h : takeCache cache = some (b, rest))
    (l : List Nat) : (b :: (rest ++ l)).Perm (cache ++ l) :=
  calc (b :: (rest ++ l)).Perm (rest ++ b :: l) := List.perm_middle.symm
    _ = rest ++ [b] ++ l := by simp
    _ = cache ++ l := by rw [← takeCache_eq h]

/-- **Allocation.** The next block leaves the stock, and the rest stays in it; with nothing in
    stock nothing changes. -/
theorem obtainBlock_eq (hl : shm.pool.Chain free) (hrange : ∀ b ∈ free, b < cfg.blockCount) :
    (p.nextBlock free = none → p.obtainBlock shm = (shm, p, .error .poolExhausted)) ∧
    ∀ b, p.nextBlock free = some b → ∃ pool free' lastFreed cache,
      p.obtainBlock shm = ({ shm with pool := pool },
        { p with lastFreed := lastFreed, cache := cache }, .ok b) ∧
      pool.Chain free' ∧
      (b :: Publisher.stock { p with lastFreed := lastFreed, cache := cache } free').Perm
        (p.stock free) := by
  by_cases hlast : p.lastFreed = noBlock
  · have hrec : p.allocRecycled = ({ p with lastFreed := noBlock }, none) := by
      rw [Publisher.allocRecycled, if_neg (not_not.mpr hlast)]
    have hcell : cell p.lastFreed = [] := if_pos hlast
    cases hcache : p.cache.getLast? with
    | some b =>
      -- the top of the cache
      have htake := takeCache_of_getLast hcache
      have hnext : p.nextBlock free = some b := by
        rw [Publisher.nextBlock, if_neg (not_not.mpr hlast), hcache]
      rw [hnext]
      refine ⟨fun hnone => (by cases hnone), fun b' hb' => ?_⟩
      cases hb'
      refine ⟨shm.pool, free, noBlock, p.cache.dropLast, ?_, hl, ?_⟩
      · simp only [Publisher.obtainBlock, Publisher.allocCached, hrec, htake]
      · simp only [Publisher.stock, hcell]
        rw [cell, if_pos rfl, List.nil_append, List.nil_append]
        exact takeCache_perm htake free
    | none =>
      -- the cache is refilled from the free list
      have hnil : p.cache = [] := List.getLast?_eq_none_iff.mp hcache
      have htake : takeCache ([] : List Nat) = none := rfl
      have hnext : p.nextBlock free = (free.take cacheSize).getLast? := by
        rw [Publisher.nextBlock, if_neg (not_not.mpr hlast), hcache]
      obtain ⟨pool, hrefill, hchain, hsame⟩ := refill_eq hl hrange cacheSize []
      rw [List.nil_append] at hrefill
      rw [hnext]
      constructor
      · intro hnone
        have hempty : free.take cacheSize = [] := List.getLast?_eq_none_iff.mp hnone
        have hfree : free = [] := by simpa [cacheSize] using hempty
        rw [hsame hfree, hempty] at hrefill
        simp only [Publisher.obtainBlock, Publisher.allocCached, hrec, hnil, List.length_nil,
          Nat.sub_zero, htake, hrefill]
        rw [← hlast, ← hnil]
      · intro b hb
        have htake' := takeCache_of_getLast hb
        refine ⟨pool, free.drop cacheSize, noBlock, (free.take cacheSize).dropLast, ?_, hchain, ?_⟩
        · simp only [Publisher.obtainBlock, Publisher.allocCached, hrec, hnil, List.length_nil,
            Nat.sub_zero, htake, hrefill, htake']
        · have hperm := takeCache_perm htake' (free.drop cacheSize)
          rw [List.take_append_drop] at hperm
          simp only [Publisher.stock, hcell, hnil]
          rw [cell, if_pos rfl, List.nil_append, List.nil_append, List.nil_append]
          exact hperm
  · have hnext : p.nextBlock free = some p.lastFreed := if_pos hlast
    have hrec : p.allocRecycled = ({ p with lastFreed := noBlock }, some p.lastFreed) := by
      rw [Publisher.allocRecycled, if_pos hlast]
    rw [hnext]
    refine ⟨fun hnone => (by cases hnone), fun b hb => ?_⟩
    cases hb
    refine ⟨shm.pool, free, noBlock, p.cache, ?_, hl, ?_⟩
    · simp only [Publisher.obtainBlock, Publisher.allocCached, hrec]
    · simp only [Publisher.stock]
      rw [cell, if_pos rfl, cell, if_neg hlast]
      exact List.Perm.refl _

end

/-! ### One live publisher -/

section

variable {w w' : World cfg} {k limit : Nat} {p : Publisher cfg}

/-- `p` is the only publisher that has not been dropped. -/
structure OnlyPublisher (w : World cfg) (k : Nat) (p : Publisher cfg) : Prop where
  self : w.pubs[k]? = some (some p)
  only : ∀ j q, w.pubs[j]? = some (some q) → j = k

theorem OnlyPublisher.held (h : OnlyPublisher w k p) (b : Nat) : w.held b = p.holds b := by
  have hset := listTally_set (fun o => heldBy o b) none h.self
  -- without it there are only dropped publishers
  have hrest : listTally (fun o => heldBy o b) (w.pubs.set k none) = 0 := by
    apply listTally_eq_zero
    intro o ho
    cases o with
    | none => rfl
    | some q =>
      obtain ⟨j, hj⟩ := List.mem_iff_getElem?.mp ho
      rw [List.getElem?_set] at hj
      split at hj
      · split at hj <;> cases hj
      · rename_i hkj
        exact absurd (h.only j q hj).symm hkj
  show listTally (fun o => heldBy o b) w.pubs = _
  have hself : heldBy (some p) b = p.holds b := rfl
  have hnone : heldBy (none : Option (Publisher cfg)) b = 0 := rfl
  rw [hrest, hself, hnone] at hset
  omega

/-- The blocks in stock are distinct blocks of the region. -/
theorem World.Counts.free (hI : w.Counts limit) (hp : w.pubs[k]? = some (some p)) :
    ∃ free, w.shm.pool.Chain free ∧ (∀ b ∈ p.stock free, b < cfg.blockCount) ∧
      (p.stock free).Nodup := by
  obtain ⟨free, hchain, hplaces⟩ := hI.chain
  have hcount : ∀ b, (p.stock free).count b ≤ if b < cfg.blockCount then 1 else 0 := by
    intro b
    have hb := hplaces b
    have hle : p.holds b ≤ w.held b := le_listTally (fun o => heldBy o b) hp
    unfold Publisher.holds Publisher.recycled Publisher.cached at hle
    unfold Publisher.stock
    rw [List.count_append, List.count_append]
    omega
  refine ⟨free, hchain, fun b hb => ?_, List.nodup_iff_count_le_one.mpr fun b => ?_⟩
  · have hpos := List.count_pos_iff.mpr hb
    have hb' := hcount b
    by_contra hge
    rw [if_neg hge] at hb'
    omega
  · have hb' := hcount b
    split at hb' <;> omega

/-- A loan with a handle of the publisher itself fails when nothing is in stock. -/
theorem loan_result {shm : Shm cfg} {free : List Nat} {h : Handle cfg} (hl : shm.pool.Chain free)
    (hrange : ∀ b ∈ free, b < cfg.blockCount) (hown : h.publisherId = p.id) :
    (p.loan shm h).2.2 =
      match p.nextBlock free with
      | some b => .ok ⟨.untyped, h.topicIdx, b, 0⟩
      | none => .error .poolExhausted := by
  obtain ⟨hnone, hsome⟩ := obtainBlock_eq (p := p) hl hrange
  unfold Publisher.loan Publisher.loanWith
  rw [if_neg (not_not.mpr hown)]
  cases hnext : p.nextBlock free with
  | none => rw [hnone hnext]
  | some b =>
    obtain ⟨pool, free', lastFreed, cache, hobtain, _⟩ := hsome b hnext
    rw [hobtain]

/-- Nothing is in stock exactly when every block is in the ring, held by a sample or pinned. -/
theorem stock_eq_nil_iff {free : List Nat} (hI : w.Counts limit) (hp : OnlyPublisher w k p)
    (hborrow : p.borrow = none) (hl : w.shm.pool.Chain free) :
    p.stock free = [] ↔
      ∀ b < cfg.blockCount, 0 < w.shm.inRing b ∨ 0 < w.sampled b ∨ 0 < p.pinned b := by
  obtain ⟨free', hl', hplaces⟩ := hI.chain
  obtain rfl : free' = free := Linked.unique hl' hl
  -- the places of a block, with no loan
  have hblock : ∀ b < cfg.blockCount, (p.stock free').count b + p.pinned b +
      min 1 (w.shm.inRing b + w.sampled b) = 1 := by
    intro b hb
    have hb' := hplaces b
    have hloaned : p.loaned b = 0 := by simp only [Publisher.loaned, hborrow]
    rw [if_pos hb, hp.held b, Shm.referenced_of_ne _ _ (ne_noBlock hb)] at hb'
    unfold Publisher.holds Publisher.recycled Publisher.cached at hb'
    unfold Publisher.stock
    rw [List.count_append, List.count_append]
    omega
  constructor
  · intro hnil b hb
    have hb' := hblock b hb
    rw [hnil, List.count_nil] at hb'
    omega
  · intro hall
    rw [List.eq_nil_iff_forall_not_mem]
    intro b hmem
    have hcount := List.count_pos_iff.mpr hmem
    by_cases hb : b < cfg.blockCount
    · have hb' := hblock b hb
      have hone := hall b hb
      omega
    · -- only blocks of the region are in stock
      have hb' := hplaces b
      rw [if_neg hb, hp.held b] at hb'
      unfold Publisher.holds Publisher.recycled Publisher.cached at hb'
      unfold Publisher.stock at hcount
      rw [List.count_append, List.count_append] at hcount
      omega

/-! ### Counting -/

/-- Only entries of registered topics hold a block. -/
def Shm.EntriesActive (shm : Shm cfg) : Prop :=
  ∀ e : cfg.EntryIdx, (shm.entry e).blockIdx ≠ noBlock → (shm.topic e.1).active = true

theorem Shm.EntriesActive.frame {shm shm' : Shm cfg} (h : shm.EntriesActive)
    (hentry : shm'.entry = shm.entry) (hkeep : shm.KeepsTopics shm') : shm'.EntriesActive := by
  intro e hne
  rw [hentry] at hne
  exact hkeep e.1 (h e hne)

/-- **Step** of the entries. -/
theorem entriesActive_move {a : Act cfg} (hL : w.LoansOk) (h : w.shm.EntriesActive)
    (hmove : Move w a w') : w'.shm.EntriesActive := by
  have hkeep := keepsTopics_move hmove
  rcases ring_move hmove with hsame | ⟨k, p, l, -, hp, hborrow, -, hblocks⟩
  · exact h.frame hsame.1 hkeep
  · have hloan := hL _ _ (List.mem_of_getElem? hp) hborrow
    intro e hne
    apply hkeep
    by_cases he : e = (l.topic, cfg.slotOf (w.shm.nextSeq l.topic))
    · -- the entry is one of the topic of the loan, which has been registered
      rw [he]
      exact hloan.active
    · rw [hblocks.entry_eq, Shm.storeEntry_entry_of_ne _ _ _ he] at hne
      exact h e hne

/-- The topics that have been registered. -/
def Shm.activeTopics (shm : Shm cfg) : Finset cfg.Topic :=
  Finset.univ.filter fun t => (shm.topic t).active = true

/-- The blocks that samples hold and no ring entry. -/
def World.sampledOnly (w : World cfg) : Finset Nat :=
  (Finset.range cfg.blockCount).filter fun b => w.shm.inRing b = 0 ∧ 0 < w.sampled b

/-- The topics that `p` has pinned. -/
def Publisher.pinnedTopics (p : Publisher cfg) : Finset cfg.Topic :=
  Finset.univ.filter fun t => p.pinnedBlocks t ≠ noBlock

/-- When every block is in use, there are not more blocks than the ring entries of registered
    topics, the samples alone and the pinned topics can have. -/
theorem blockCount_le (h : w.shm.EntriesActive)
    (hall : ∀ b < cfg.blockCount, 0 < w.shm.inRing b ∨ 0 < w.sampled b ∨ 0 < p.pinned b) :
    cfg.blockCount ≤
      w.shm.activeTopics.card * cfg.ringDepth + w.sampledOnly.card + p.pinnedTopics.card := by
  have hcover : Finset.range cfg.blockCount ⊆
      ((w.shm.activeTopics ×ˢ Finset.univ).image fun e : cfg.EntryIdx => (w.shm.entry e).blockIdx) ∪
        w.sampledOnly ∪ p.pinnedTopics.image p.pinnedBlocks := by
    intro b hb
    have hlt := Finset.mem_range.mp hb
    rw [Finset.mem_union, Finset.mem_union]
    by_cases hring : 0 < w.shm.inRing b
    · -- a ring entry has it, of a registered topic
      obtain ⟨e, he⟩ := exists_of_tally_pos hring
      have hblock : (w.shm.entry e).blockIdx = b := by
        by_contra hne
        rw [if_neg hne] at he
        omega
      have hactive := h e (by rw [hblock]; exact ne_noBlock hlt)
      refine Or.inl (Or.inl (Finset.mem_image.mpr ⟨e, ?_, hblock⟩))
      rw [Finset.mem_product]
      exact ⟨Finset.mem_filter.mpr ⟨Finset.mem_univ _, hactive⟩, Finset.mem_univ _⟩
    · rcases hall b hlt with hpos | hsample | hpinned
      · exact absurd hpos hring
      · refine Or.inl (Or.inr (Finset.mem_filter.mpr ⟨hb, ?_, hsample⟩))
        omega
      · obtain ⟨t, ht⟩ := exists_of_tally_pos hpinned
        have hmem := List.count_pos_iff.mp ht
        unfold cell at hmem
        split at hmem
        · cases hmem
        · rename_i hne
          rw [List.mem_singleton] at hmem
          refine Or.inr (Finset.mem_image.mpr ⟨t, ?_, hmem.symm⟩)
          exact Finset.mem_filter.mpr ⟨Finset.mem_univ t, hne⟩
  have hslots : Fintype.card cfg.Slot = cfg.ringDepth := Fintype.card_fin _
  calc cfg.blockCount = (Finset.range cfg.blockCount).card := (Finset.card_range _).symm
    _ ≤ _ := Finset.card_le_card hcover
    _ ≤ _ := Finset.card_union_le _ _
    _ ≤ _ := Nat.add_le_add (Finset.card_union_le _ _) Finset.card_image_le
    _ ≤ _ := by
      gcongr
      refine Finset.card_image_le.trans ?_
      rw [Finset.card_product, Finset.card_univ, hslots]

/-- **`PoolExhausted` means that nothing is free.** In every state that whole calls can reach, when
    `p` is the only live publisher: `loan` with a handle of `p` returns `PoolExhausted` exactly when
    every block is in a ring entry, held by a sample or pinned by `p`; and it succeeds when there
    are more blocks than ring entries of registered topics, blocks held by samples only and
    pinned topics. -/
theorem pool_exhausted_iff {id : Nat} {as : List (Act cfg)}
    (hrun : Run step (fun _ _ => True) (create cfg id) as w) (hp : OnlyPublisher w k p)
    (hborrow : p.borrow = none) {h : Handle cfg} (hown : h.publisherId = p.id) :
    ((p.loan w.shm h).2.2 = .error .poolExhausted ↔
      ∀ b < cfg.blockCount, 0 < w.shm.inRing b ∨ 0 < w.sampled b ∨ 0 < p.pinned b) ∧
    (w.shm.activeTopics.card * cfg.ringDepth + w.sampledOnly.card + p.pinnedTopics.card <
      cfg.blockCount → ∃ l, (p.loan w.shm h).2.2 = .ok l) := by
  obtain ⟨hI, -, hentries⟩ := books_run (X := fun w => w.shm.EntriesActive) always_expands
    (fun _ hL hE _ _ hmove => entriesActive_move hL hE hmove) hrun (fun e hne => absurd rfl hne)
  obtain ⟨free, hl, hrange, -⟩ := hI.free hp.self
  have hempty := stock_eq_nil_iff hI hp hborrow hl
  rw [← p.nextBlock_eq_none free] at hempty
  have hresult := loan_result hl (fun b hb => hrange b (List.mem_append_right _ hb)) hown
  cases hnext : p.nextBlock free with
  | none =>
    rw [hnext] at hresult hempty
    have hall := hempty.mp rfl
    refine ⟨iff_of_true hresult hall, fun hroom => ?_⟩
    have hle := blockCount_le hentries hall
    omega
  | some b =>
    rw [hnext] at hresult hempty
    refine ⟨iff_of_false ?_ (fun hall => ?_), fun _ => ⟨_, hresult⟩⟩
    · rw [hresult]
      exact fun heq => by cases heq
    · cases hempty.mpr hall

/-- Three messages in samples and the last one in the ring. -/
def exhaustingSteps : List (Act oneSlot) :=
  [.register 0 [47], .subscribe [47], .publish 0 ⟨oneSlot.topic0, 5⟩ [1], .tryRecv 0,
    .publish 0 ⟨oneSlot.topic0, 5⟩ [2], .tryRecv 0, .publish 0 ⟨oneSlot.topic0, 5⟩ [3], .tryRecv 0,
    .publish 0 ⟨oneSlot.topic0, 5⟩ [4]]

/-- One publisher, without a loan, that has nothing in stock. -/
def exhausted (w : World oneSlot) : Bool :=
  match w.pubs with
  | [some p] =>
    decide (p.borrow = none ∧ p.id = 5) &&
      match (p.loan w.shm ⟨oneSlot.topic0, 5⟩).2.2 with
      | .error .poolExhausted => true
      | _ => false
  | _ => false

theorem exhausted_spec {w : World oneSlot} (h : exhausted w = true) :
    ∃ p, OnlyPublisher w 0 p ∧ p.borrow = none ∧ p.id = 5 ∧
      (p.loan w.shm ⟨oneSlot.topic0, 5⟩).2.2 = .error .poolExhausted := by
  unfold exhausted at h
  split at h
  · rename_i p hpubs
    obtain ⟨hp, hloan⟩ := (Bool.and_eq_true _ _).mp h
    obtain ⟨hborrow, hid⟩ := of_decide_eq_true hp
    refine ⟨p, ⟨by rw [hpubs]; rfl, fun j q hq => ?_⟩, hborrow, hid, ?_⟩
    · rw [hpubs] at hq
      cases j with
      | zero => rfl
      | succ j => cases hq
    · split at hloan
      · assumption
      · cases hloan
  · cases h

/-- Four blocks are exhausted by the ring and three samples. -/
theorem pool_exhausted_samples : ∃ (w : World oneSlot) (p : Publisher oneSlot),
    Run step (fun _ _ => True) (create oneSlot 5) exhaustingSteps w ∧ OnlyPublisher w 0 p ∧
    ∀ b < oneSlot.blockCount, 0 < w.shm.inRing b ∨ 0 < w.sampled b ∨ 0 < p.pinned b := by
  obtain ⟨w, hrun, htest⟩ := exists_run_of_exec step (fun _ _ => True) (s := create oneSlot 5)
    (l := exhaustingSteps) (p := fun w => exhausted w) (by decide +kernel)
  obtain ⟨p, hp, hborrow, hid, hloan⟩ := exhausted_spec htest
  exact ⟨w, p, hrun, hp, (pool_exhausted_iff hrun hp hborrow hid.symm).1.mp hloan⟩

/-! ### Failed sends -/

/-- `Channel`, as far as it sends: its publisher and the handle of its topic. -/
structure Channel (cfg : ValidConfig) where
  txPub : Publisher cfg
  txTopic : Handle cfg

/-- `Channel::send`, which does what `Publisher::publish` does. -/
def Channel.send (shm : Shm cfg) (c : Channel cfg) (data : List UInt8) :
    Shm cfg × Channel cfg × Except Error Unit :=
  match c.txPub.publish shm c.txTopic data with
  | (shm, p, r) => (shm, { c with txPub := p }, r)

/-- Between two states no message differs, and `p` can obtain the same blocks, each once. -/
structure NothingChanged (shm : Shm cfg) (p : Publisher cfg) (shm' : Shm cfg) (p' : Publisher cfg) :
    Prop where
  topic : shm'.topic = shm.topic
  entry : shm'.entry = shm.entry
  refcount : shm'.refcount = shm.refcount
  data : shm'.data = shm.data
  stock : ∃ free free', shm.pool.Chain free ∧ shm'.pool.Chain free' ∧ (p.stock free).Nodup ∧
    (p'.stock free').Perm (p.stock free)

variable (cfg) in
/-- The errors of `publish` with this data. -/
def SendError (data : List UInt8) (e : Error) : Prop :=
  e = .handleMismatch ∨ e = .poolExhausted ∨ e = .dataTooLarge data.length cfg.dataCapacity

theorem publish_error {shm shm' : Shm cfg} {p' : Publisher cfg} {h : Handle cfg}
    {data : List UInt8} {e : Error} {free : List Nat} (hl : shm.pool.Chain free)
    (hrange : ∀ b ∈ p.stock free, b < cfg.blockCount) (hnodup : (p.stock free).Nodup)
    (herr : p.publish shm h data = (shm', p', .error e)) :
    SendError cfg data e ∧ NothingChanged shm p shm' p' := by
  have hsame : NothingChanged shm p shm p :=
    ⟨rfl, rfl, rfl, rfl, free, free, hl, hl, hnodup, List.Perm.refl _⟩
  unfold Publisher.publish Publisher.loan Publisher.loanWith at herr
  by_cases hown : h.publisherId = p.id
  · rw [if_neg (not_not.mpr hown)] at herr
    obtain ⟨hnone, hsome⟩ := obtainBlock_eq (p := p) hl
      (fun b hb => hrange b (List.mem_append_right _ hb))
    cases hnext : p.nextBlock free with
    | none =>
      rw [hnone hnext] at herr
      cases herr
      exact ⟨Or.inr (Or.inl rfl), hsame⟩
    | some b =>
      obtain ⟨pool, free', lastFreed, cache, hobtain, hl', hperm⟩ := hsome b hnext
      rw [hobtain] at herr
      have hmem : b ∈ p.stock free := hperm.subset List.mem_cons_self
      have hnodup' := hperm.nodup_iff.mpr hnodup
      have hnot : b ∉ free' := fun hb =>
        (List.nodup_cons.mp hnodup').1 (List.mem_append_right _ hb)
      by_cases hlen : cfg.dataCapacity < data.length
      · -- the block goes from the head of the stock to the free list
        simp only [Loan.setData, if_pos hlen, Loan.drop] at herr
        cases herr
        refine ⟨Or.inr (Or.inr rfl), rfl, rfl, rfl, rfl, free, b :: free', hl,
          freeBlock_chain hl' (hrange b hmem) hnot, hnodup, ?_⟩
        refine List.Perm.trans ?_ hperm
        exact List.perm_middle
      · simp only [Loan.setData, if_neg hlen] at herr
        cases herr
  · rw [if_pos hown] at herr
    cases herr
    exact ⟨Or.inl rfl, hsame⟩

/-- **A failed publish changes nothing observable.** In every state that whole calls can reach,
    when `publish` of a publisher, or `send` of a channel with it, returns an error, then the topic
    entries, the ring entries, the refcounts and the payloads are unchanged, and the publisher's
    recycled block, its cache and the free list together have the same blocks, each once. -/
theorem failed_publish_changes_nothing {id : Nat} {as : List (Act cfg)}
    (hrun : Run step (fun _ _ => True) (create cfg id) as w) (hp : w.pubs[k]? = some (some p))
    (data : List UInt8) :
    (∀ h shm' p' e, p.publish w.shm h data = (shm', p', .error e) →
      SendError cfg data e ∧ NothingChanged w.shm p shm' p') ∧
    (∀ h shm' c' e, Channel.send w.shm ⟨p, h⟩ data = (shm', c', .error e) →
      SendError cfg data e ∧ NothingChanged w.shm p shm' c'.txPub) := by
  have hI := counts_run hrun
  obtain ⟨free, hl, hrange, hnodup⟩ := hI.free hp
  have hpublish : ∀ h shm' p' e, p.publish w.shm h data = (shm', p', .error e) →
      SendError cfg data e ∧ NothingChanged w.shm p shm' p' :=
    fun _ _ _ _ herr => publish_error hl hrange hnodup herr
  refine ⟨hpublish, fun h shm' c' e herr => ?_⟩
  unfold Channel.send at herr
  cases hsend : p.publish w.shm h data with
  | mk shm'' rest =>
    obtain ⟨p', r⟩ := rest
    simp only [hsend] at herr
    cases herr
    exact hpublish h _ _ e hsend

/-- Nine bytes for a block that has room for eight. -/
def longData : List UInt8 := [1, 2, 3, 4, 5, 6, 7, 8, 9]

/-- Publishing them fails. -/
def refused (w : World oneSlot) : Bool :=
  match w.pubs[0]? with
  | some (some p) =>
    match (p.publish w.shm ⟨oneSlot.topic0, 5⟩ longData).2.2 with
    | .error (.dataTooLarge 9 8) => true
    | _ => false
  | _ => false

/-- The loan for them has taken four blocks from the free list, and gives one back. -/
theorem failed_publish_long : ∃ (w : World oneSlot) (p : Publisher oneSlot),
    Run step (fun _ _ => True) (create oneSlot 5) [.register 0 [47]] w ∧
    w.pubs[0]? = some (some p) ∧ ∃ shm' p',
      p.publish w.shm ⟨oneSlot.topic0, 5⟩ longData = (shm', p', .error (.dataTooLarge 9 8)) ∧
      NothingChanged w.shm p shm' p' := by
  obtain ⟨w, hrun, htest⟩ := exists_run_of_exec step (fun _ _ => True) (s := create oneSlot 5)
    (l := [.register 0 [47]]) (p := fun w => refused w) (by decide +kernel)
  unfold refused at htest
  split at htest
  · rename_i p hp
    split at htest
    · rename_i herr
      have hpublish : p.publish w.shm ⟨oneSlot.topic0, 5⟩ longData =
          (_, _, .error (.dataTooLarge 9 8)) := Prod.ext rfl (Prod.ext rfl herr)
      exact ⟨w, p, hrun, hp, _, _, hpublish,
        ((failed_publish_changes_nothing hrun hp longData).1 _ _ _ _ hpublish).2⟩
    · cases htest
  · cases htest

end

end Crossbar.Region
