import Crossbar.Protocol.Layout
import Crossbar.Lib.LinkedStack

namespace Crossbar.Pool

open Function Crossbar.Lib

/-!
# Pool — the block free list

The Treiber stack of `src/protocol/region.rs`, one atomic operation a step:

* `popStep` — `Region::alloc_block`: load the head, check it, load the link of the first
  block, check it, CAS the head to that link with the generation incremented;
* `pushStep` — `Region::free_block`: load the head, store it as the link of the block, CAS
  the head to the block;
* `popStep_spec` / `pushStep_spec` — what a step of an operation does to the list of free
  blocks, from what the operation already knows (`PopInv`, `PushInv`);
* `allocBlock` / `freeBlock` — the two operations as whole calls, equal to their steps run
  without interference.

Both CASes are weak: `spurious` lets one fail for no reason.  `PopInv` asks that the block a
pop is about to take is still on the list, which holds when nobody else pops.
-/

/-- `pool_head`: a generation and the index of the first free block, packed in one `u64`. -/
structure Head where
  gen : Nat
  idx : Nat
  deriving DecidableEq

/-- The words of the free list: the head and the link of every block. -/
structure FreeList where
  head : Head
  link : Nat → Nat

/-- The three ways `alloc_block` returns: `Ok(Some(idx))`, `Ok(None)`, `Err(())`. -/
inductive AllocResult where
  | block (b : Nat)
  | exhausted
  | corrupted
  deriving DecidableEq

/-- The next operation of `alloc_block`, with the locals it needs. -/
inductive PopPc where
  | load
  | link (head : Head)
  | cas (head : Head) (next : Nat)
  | done (r : AllocResult)
  deriving DecidableEq

/-- The next operation of `free_block`, with the locals it needs. -/
inductive PushPc where
  | load
  | link (head : Head)
  | cas (head : Head)
  | done
  deriving DecidableEq

variable (cfg : ValidConfig)

/-- The top of the loop of `alloc_block`, for the head it has loaded. -/
def PopPc.enter (head : Head) : PopPc :=
  if head.idx = noBlock then .done .exhausted
  else if cfg.blockCount ≤ head.idx then .done .corrupted
  else .link head

/-- One atomic step of `alloc_block`. -/
def popStep (spurious : Bool) (pool : FreeList) : PopPc → FreeList × PopPc
  | .load => (pool, .enter cfg pool.head)
  | .link head =>
    if pool.link head.idx ≠ noBlock ∧ cfg.blockCount ≤ pool.link head.idx then
      (pool, .done .corrupted)
    else (pool, .cas head (pool.link head.idx))
  | .cas head next =>
    if spurious = false ∧ pool.head = head then
      ({ pool with head := ⟨wrap32 (head.gen + 1), next⟩ }, .done (.block head.idx))
    else (pool, .enter cfg pool.head)
  | .done r => (pool, .done r)

/-- One atomic step of `free_block(b)`. -/
def pushStep (spurious : Bool) (pool : FreeList) (b : Nat) : PushPc → FreeList × PushPc
  | .load => if cfg.blockCount ≤ b then (pool, .done) else (pool, .link pool.head)
  | .link head => ({ pool with link := update pool.link b head.idx }, .cas head)
  | .cas head =>
    if spurious = false ∧ pool.head = head then
      ({ pool with head := ⟨wrap32 (head.gen + 1), b⟩ }, .done)
    else (pool, .link pool.head)
  | .done => (pool, .done)

/-- `init_free_list`: every block links to the next one. -/
def initFreeList : FreeList where
  head := ⟨0, 0⟩
  link := fun i => if i + 1 < cfg.blockCount then i + 1 else noBlock

variable {cfg}

/-- `l` is the list of free blocks. -/
def FreeList.Chain (pool : FreeList) (l : List Nat) : Prop :=
  Linked pool.link noBlock pool.head.idx l

variable (cfg) in
/-- A fresh region has all its blocks on the list, in order. -/
theorem initFreeList_chain : (initFreeList cfg).Chain (List.range cfg.blockCount) := by
  -- from block `k` on, the remaining `n` blocks are linked
  have hfrom : ∀ n k, k + n = cfg.blockCount → Linked (initFreeList cfg).link noBlock
      (if k < cfg.blockCount then k else noBlock) (List.range' k n) := by
    intro n
    induction n with
    | zero =>
      intro k hk
      rw [if_neg (by omega)]
      rfl
    | succ n ih =>
      intro k hk
      rw [if_pos (by omega), List.range'_succ]
      exact ⟨rfl, ne_noBlock (show k < cfg.blockCount by omega), ih (k + 1) (by omega)⟩
  have hall := hfrom cfg.blockCount 0 (Nat.zero_add _)
  rw [if_pos cfg.checks.2.2.1, ← List.range_eq_range'] at hall
  exact hall

/-! ### `free_block` -/

/-- What a running `free_block(b)` knows: once stored, the link of its block stays. -/
def PushInv (pool : FreeList) (b : Nat) : PushPc → Prop
  | .cas head => pool.link b = head.idx
  | _ => True

/-- Storing the link of another block changes nothing for a running `free_block`. -/
theorem PushInv.frame {pool pool' : FreeList} {b : Nat} {pc : PushPc} (h : PushInv pool b pc)
    (hlink : pool'.link b = pool.link b) : PushInv pool' b pc := by
  cases pc with
  | cas head => exact hlink.trans h
  | load | link | done => trivial

/-- A step of `free_block(b)`, for a block that is not on the list: it pushes the block, or
    leaves the list alone and stores at most the block's own link. -/
theorem pushStep_spec {pool : FreeList} {b : Nat} {pc : PushPc} {l : List Nat} (spurious : Bool)
    (hl : pool.Chain l) (hb : b < cfg.blockCount) (hmem : b ∉ l) (hpc : PushInv pool b pc)
    (hrun : pc ≠ .done) {pool' : FreeList} {pc' : PushPc}
    (hstep : pushStep cfg spurious pool b pc = (pool', pc')) :
    (pc' = .done ∧ pool'.link = pool.link ∧ pool'.Chain (b :: l)) ∨
    (pc' ≠ .done ∧ (∀ b', b' ≠ b → pool'.link b' = pool.link b') ∧ pool'.Chain l ∧
      PushInv pool' b pc') := by
  cases pc with
  | load =>
    rw [pushStep, if_neg (by omega)] at hstep
    cases hstep
    exact Or.inr ⟨nofun, fun _ _ => rfl, hl, trivial⟩
  | link head =>
    cases hstep
    refine Or.inr ⟨nofun, ?_, hl.update hmem _, ?_⟩
    · intro b' hne
      exact update_of_ne hne _ _
    · show update pool.link b head.idx b = head.idx
      rw [update_self]
  | cas head =>
    rw [pushStep] at hstep
    split at hstep
    · rename_i hcas
      cases hstep
      refine Or.inl ⟨rfl, rfl, Linked.push hl (ne_noBlock hb) ?_⟩
      rw [hcas.2]
      exact hpc
    · cases hstep
      exact Or.inr ⟨nofun, fun _ _ => rfl, hl, trivial⟩
  | done => exact absurd rfl hrun

/-! ### `alloc_block` -/

/-- What the only running `alloc_block` knows: the block it is about to take is on the list,
    and its link stays. -/
def PopInv (pool : FreeList) (l : List Nat) : PopPc → Prop
  | .link head => head.idx ∈ l
  | .cas head next => head.idx ∈ l ∧ pool.link head.idx = next
  | _ => True

/-- Blocks pushed by others, and links stored outside the list, change nothing for a running
    `alloc_block`. -/
theorem PopInv.frame {pool pool' : FreeList} {l l' : List Nat} {pc : PopPc} (h : PopInv pool l pc)
    (hsub : l ⊆ l') (hlink : ∀ b ∈ l, pool'.link b = pool.link b) : PopInv pool' l' pc := by
  cases pc with
  | link head => exact hsub h
  | cas head next => exact ⟨hsub h.1, (hlink _ h.1).trans h.2⟩
  | load | done => trivial

/-- The checks at the top of the loop: the list is empty, or its first block is in range. -/
theorem PopPc.enter_spec {pool : FreeList} {l : List Nat} (hl : pool.Chain l)
    (hrange : ∀ b ∈ l, b < cfg.blockCount) :
    (PopPc.enter cfg pool.head = .done .exhausted ∧ l = []) ∨
    (PopPc.enter cfg pool.head = .link pool.head ∧ pool.head.idx ∈ l) := by
  unfold PopPc.enter
  by_cases hnil : pool.head.idx = noBlock
  · exact Or.inl ⟨if_pos hnil, (Linked.head_eq_nil hl).mp hnil⟩
  · obtain ⟨l', rfl, _⟩ := Linked.pop hl hnil
    have hlt := hrange pool.head.idx (by simp)
    rw [if_neg hnil, if_neg (by omega)]
    exact Or.inr ⟨rfl, by simp⟩

/-- A step of the only running `alloc_block`: it pops the first block, finds the list empty,
    or goes on; it never reports corruption. -/
theorem popStep_spec {pool : FreeList} {pc : PopPc} {l : List Nat} (spurious : Bool)
    (hl : pool.Chain l) (hrange : ∀ b ∈ l, b < cfg.blockCount) (hpc : PopInv pool l pc)
    (hrun : ∀ r, pc ≠ .done r) {pool' : FreeList} {pc' : PopPc}
    (hstep : popStep cfg spurious pool pc = (pool', pc')) :
    pool'.link = pool.link ∧
    ((∃ b l', l = b :: l' ∧ pc' = .done (.block b) ∧ pool'.Chain l') ∨
    (l = [] ∧ pc' = .done .exhausted ∧ pool' = pool) ∨
    ((∀ r, pc' ≠ .done r) ∧ pool' = pool ∧ PopInv pool l pc')) := by
  -- what the top of the loop leads to, after the first load and after a failed CAS
  have henter : (l = [] ∧ PopPc.enter cfg pool.head = .done .exhausted) ∨
      ((∀ r, PopPc.enter cfg pool.head ≠ .done r) ∧ PopInv pool l (PopPc.enter cfg pool.head)) := by
    rcases PopPc.enter_spec hl hrange with ⟨heq, hnil⟩ | ⟨heq, hmem⟩
    · exact Or.inl ⟨hnil, heq⟩
    · rw [heq]
      exact Or.inr ⟨nofun, hmem⟩
  cases pc with
  | load =>
    cases hstep
    rcases henter with ⟨hnil, heq⟩ | ⟨hrun', hinv⟩
    · exact ⟨rfl, Or.inr (Or.inl ⟨hnil, heq, rfl⟩)⟩
    · exact ⟨rfl, Or.inr (Or.inr ⟨hrun', rfl, hinv⟩)⟩
  | link head =>
    -- the link leads to another free block or ends the list, so the second check passes
    have hnext : ¬ (pool.link head.idx ≠ noBlock ∧ cfg.blockCount ≤ pool.link head.idx) := by
      rintro ⟨hne, hge⟩
      rcases Linked.link_mem hl hpc with hnil | hmem
      · exact hne hnil
      · have hlt := hrange _ hmem
        omega
    rw [popStep, if_neg hnext] at hstep
    cases hstep
    exact ⟨rfl, Or.inr (Or.inr ⟨nofun, rfl, hpc, rfl⟩)⟩
  | cas head next =>
    rw [popStep] at hstep
    split at hstep
    · rename_i hcas
      cases hstep
      obtain ⟨hmem, hlink⟩ := hpc
      have hne : pool.head.idx ≠ noBlock := by
        rw [hcas.2]
        exact ne_noBlock (hrange _ hmem)
      obtain ⟨l', heq, hrest⟩ := Linked.pop hl hne
      rw [hcas.2] at heq hrest
      rw [hlink] at hrest
      exact ⟨rfl, Or.inl ⟨head.idx, l', heq, rfl, hrest⟩⟩
    · cases hstep
      rcases henter with ⟨hnil, heq⟩ | ⟨hrun', hinv⟩
      · exact ⟨rfl, Or.inr (Or.inl ⟨hnil, heq, rfl⟩)⟩
      · exact ⟨rfl, Or.inr (Or.inr ⟨hrun', rfl, hinv⟩)⟩
  | done r => exact absurd rfl (hrun r)

/-! ### Calls that run alone -/

variable (cfg) in
/-- `alloc_block` with nobody else at the list: the first CAS succeeds. -/
def allocBlock (pool : FreeList) : FreeList × AllocResult :=
  if pool.head.idx = noBlock then (pool, .exhausted)
  else if cfg.blockCount ≤ pool.head.idx then (pool, .corrupted)
  else if pool.link pool.head.idx ≠ noBlock ∧ cfg.blockCount ≤ pool.link pool.head.idx then
    (pool, .corrupted)
  else
    ({ pool with head := ⟨wrap32 (pool.head.gen + 1), pool.link pool.head.idx⟩ },
      .block pool.head.idx)

variable (cfg) in
/-- `free_block(b)` with nobody else at the list. -/
def freeBlock (pool : FreeList) (b : Nat) : FreeList :=
  if cfg.blockCount ≤ b then pool
  else
    { head := ⟨wrap32 (pool.head.gen + 1), b⟩
      link := update pool.link b pool.head.idx }

/-- `allocBlock` is what three steps of `alloc_block` do when no other step comes between. -/
theorem allocBlock_eq_popStep (pool : FreeList) :
    (fun st => popStep cfg false st.1 st.2)^[3] (pool, .load) =
      ((allocBlock cfg pool).1, .done (allocBlock cfg pool).2) := by
  simp only [iterate_succ, comp_apply, iterate_zero, id, popStep,
    PopPc.enter, allocBlock]
  by_cases hnil : pool.head.idx = noBlock
  · simp only [if_pos hnil]
  by_cases hhead : cfg.blockCount ≤ pool.head.idx
  · simp only [if_neg hnil, if_pos hhead]
  by_cases hnext : pool.link pool.head.idx ≠ noBlock ∧ cfg.blockCount ≤ pool.link pool.head.idx
  · simp only [if_neg hnil, if_neg hhead, if_pos hnext]
  · simp only [if_neg hnil, if_neg hhead, if_neg hnext, true_and, if_true]

/-- `freeBlock` is what three steps of `free_block` do when no other step comes between. -/
theorem freeBlock_eq_pushStep (pool : FreeList) (b : Nat) :
    (fun st => pushStep cfg false st.1 b st.2)^[3] (pool, .load) =
      (freeBlock cfg pool b, .done) := by
  simp only [iterate_succ, comp_apply, iterate_zero, id, pushStep,
    freeBlock]
  by_cases hb : cfg.blockCount ≤ b
  · simp only [if_pos hb]
  · simp only [if_neg hb, true_and, if_true]

/-- `alloc_block` pops the first block, or finds the list empty; it reports no corruption. -/
theorem allocBlock_spec {pool : FreeList} {l : List Nat} (hl : pool.Chain l)
    (hrange : ∀ b ∈ l, b < cfg.blockCount) :
    (∃ pool' b l', allocBlock cfg pool = (pool', .block b) ∧ l = b :: l' ∧ pool'.Chain l') ∨
    (allocBlock cfg pool = (pool, .exhausted) ∧ l = []) := by
  by_cases hnil : pool.head.idx = noBlock
  · exact Or.inr ⟨if_pos hnil, (Linked.head_eq_nil hl).mp hnil⟩
  · obtain ⟨l', rfl, hrest⟩ := Linked.pop hl hnil
    have hhead := hrange pool.head.idx (by simp)
    have hnext : ¬ (pool.link pool.head.idx ≠ noBlock ∧
        cfg.blockCount ≤ pool.link pool.head.idx) := by
      rintro ⟨hne, hge⟩
      rcases Linked.link_mem hl (List.mem_cons_self) with hend | hmem
      · exact hne hend
      · have hlt := hrange _ hmem
        omega
    refine Or.inl ⟨⟨⟨wrap32 (pool.head.gen + 1), pool.link pool.head.idx⟩, pool.link⟩,
      pool.head.idx, l', ?_, rfl, hrest⟩
    rw [allocBlock, if_neg hnil, if_neg (by omega), if_neg hnext]

/-- `free_block` pushes a block that is not on the list. -/
theorem freeBlock_chain {pool : FreeList} {l : List Nat} {b : Nat} (hl : pool.Chain l)
    (hb : b < cfg.blockCount) (hmem : b ∉ l) : (freeBlock cfg pool b).Chain (b :: l) := by
  rw [freeBlock, if_neg (by omega)]
  refine Linked.push (hl.update hmem _) (ne_noBlock hb) ?_
  exact update_self ..

end Crossbar.Pool
