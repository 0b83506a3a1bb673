import Crossbar.Ring.FreeBlocks
import Crossbar.Ring.Log
import Crossbar.Pool.Publisher
import Mathlib.Data.List.Count

namespace Crossbar.Pool

open Function Crossbar.Lib

/-!
# Pool — who has a block

The allocator's blocks are the free list, the publisher's cache, the `last_freed` cell and
the block the publisher is freeing.  No block is there twice, and every one of them is free
in the ring (`Custody`).  Moving a block between these places is a permutation, `grant` takes
one out, and a step of the ring that lets go of a block puts one in.
-/

variable {cfg : ValidConfig} {S : Type}

/-! ### The invariant -/

/-- The block the publisher is freeing. -/
def OwnerPc.hand : OwnerPc cfg → List Nat
  | .free b _ => [b]
  | _ => []

/-- The blocks on the free list `l`, in the cache and in `last_freed`. -/
def State.shelf (st : State cfg S) (l : List Nat) : List Nat := l ++ st.cache ++ cell st.lastFreed

/-- Blocks of the region, none of them twice, that nobody refers to or holds in the ring. -/
structure Custody [Fintype S] (ring : Ring.State cfg Unit S) (blocks : List Nat) : Prop where
  nodup : blocks.Nodup
  free : ∀ b ∈ blocks, b < cfg.blockCount ∧ ring.isFree b

/-- A running `free_block(b)`. -/
structure Pushing (pool : FreeList) (b : Nat) (pc : PushPc) : Prop where
  inv : PushInv pool b pc
  running : pc ≠ .done

/-- A running `alloc_block`. -/
structure Popping (pool : FreeList) (l : List Nat) (pc : PopPc) : Prop where
  inv : PopInv pool l pc
  running : ∀ r, pc ≠ .done r

/-- The allocator, with `hand` taken off its shelf, and the streams and samples that are
    about to put a block there. -/
structure Shelf [Fintype S] (st : State cfg S) (l hand : List Nat) : Prop where
  chain : st.pool.Chain l
  custody : Custody st.ring (hand ++ st.shelf l)
  push : ∀ a b, a.inRing st.ring = some b → Pushing st.pool b (st.push a)

/-- The publisher's own operation: it uses the allocator between loans only. -/
structure OwnerInv (st : State cfg S) (l : List Nat) : Prop where
  idle : st.owner ≠ .ready → st.ring.pub () = .idle
  pop : ∀ t pc, st.owner = .refill t pc → Popping st.pool l pc
  push : ∀ b closing, st.owner = .free b closing → Pushing st.pool b (st.push .owner)

/-- The ring protocol holds, and the allocator has what the ring lets go of. -/
structure Inv [Fintype S] (st : State cfg S) : Prop where
  ring : Ring.Inv st.ring
  shelf : ∃ l, Shelf st l st.owner.hand ∧ OwnerInv st l

/-- A step that keeps the invariant, while the ring takes steps of its own: `loan`s of free
    blocks included, so that the ring's allocator is refined. -/
structure Follows [Fintype S] [DecidableEq S] (st st' : State cfg S) : Prop where
  inv : Inv st'
  ring : ∃ as, Run (Ring.step isOwner) (Ring.Ok isOwner) st.ring as st'.ring

/-! ### Custody -/

section

variable [Fintype S] {ring ring' : Ring.State cfg Unit S} {b : Nat} {blocks blocks' : List Nat}

/-- Blocks may change places. -/
theorem Custody.perm (h : Custody ring blocks) (hperm : blocks.Perm blocks') :
    Custody ring blocks' where
  nodup := hperm.nodup_iff.mp h.nodup
  free := fun b hb => h.free b (hperm.mem_iff.mpr hb)

/-- A step of the ring that leaves free blocks alone. -/
theorem Custody.keep (h : Custody ring blocks)
    (hkeep : ∀ b ∈ blocks, b < cfg.blockCount → ring.isFree b → ring'.isFree b) :
    Custody ring' blocks where
  nodup := h.nodup
  free := fun b hb => ⟨(h.free b hb).1, hkeep b hb (h.free b hb).1 (h.free b hb).2⟩

/-- A block that the ring has let go of comes in. -/
theorem Custody.cons (h : Custody ring blocks) (hb : b < cfg.blockCount) (hfree : ring.isFree b)
    (hmem : b ∉ blocks) : Custody ring (b :: blocks) where
  nodup := List.nodup_cons.mpr ⟨hmem, h.nodup⟩
  free := by
    intro b' hb'
    rcases List.mem_cons.mp hb' with rfl | hold
    · exact ⟨hb, hfree⟩
    · exact h.free b' hold

/-- A block that an agent of the ring holds or refers to is not in custody. -/
theorem Custody.notMem (h : Custody ring blocks) (hused : ¬ ring.isFree b) : b ∉ blocks :=
  fun hb => hused (h.free b hb).2

end

/-! ### The publisher's allocator -/

section

variable [Fintype S] [DecidableEq S] {st : State cfg S} {l : List Nat} {b : Nat}

/-- The ring stands still. -/
theorem Follows.of_same {st' : State cfg S} (hinv : Inv st') (h : st'.ring = st.ring) :
    Follows st st' := by
  refine ⟨hinv, [], ?_⟩
  rw [h]
  exact .nil _

/-- The ring takes one step. -/
theorem Follows.of_step {st' : State cfg S} {a : Ring.Act cfg Unit S} (hinv : Inv st')
    (hok : Ring.Ok isOwner st.ring a) (h : Ring.step isOwner st.ring a = some st'.ring) :
    Follows st st' :=
  ⟨hinv, [a], .single hok h⟩

omit [DecidableEq S] in
/-- The shelf does not depend on what the publisher does next. -/
theorem Shelf.next {hand : List Nat} (hs : Shelf st l hand) (x : OwnerPc cfg) :
    Shelf { st with owner := x } l hand :=
  ⟨hs.chain, hs.custody, hs.push⟩

omit [DecidableEq S] in
/-- The publisher is done with the allocator. -/
theorem inv_ready (hs : Shelf st l []) (hI : Ring.Inv st.ring) :
    Inv { st with owner := .ready } where
  ring := hI
  shelf := ⟨l, hs.next _, fun hne => absurd rfl hne, nofun, nofun⟩

/-- `loan` gets a block off the shelf. -/
theorem inv_grant (hs : Shelf st l [b]) (hI : Ring.Inv st.ring) (hidle : st.ring.pub () = .idle)
    (t : cfg.Topic) : Follows st (st.grant t b) := by
  have hb := hs.custody.free b (by simp)
  have hstep : Ring.Step isOwner st.ring (.loan () t b) (st.grant t b).ring :=
    .loan t hidle hb.1 hb.2
  have hok : Ring.Ok isOwner st.ring (.loan () t b) := ⟨⟨rfl, rfl⟩, rfl⟩
  have hnodup := List.nodup_cons.mp hs.custody.nodup
  refine .of_step ?_ hok (by simp only [Ring.step, hidle, if_pos hb, State.grant])
  refine ⟨Ring.inv_step hI hok hstep, l, ⟨hs.chain, ⟨hnodup.2, ?_⟩, hs.push⟩,
    fun hne => absurd rfl hne, by rintro _ _ ⟨⟩, by rintro _ _ ⟨⟩⟩
  intro b' hb'
  obtain ⟨hlt, hfree⟩ := hs.custody.free b' (List.mem_cons_of_mem _ hb')
  refine ⟨hlt, Ring.isFree_step hI.toCore hok.toClear hstep hlt hfree ?_⟩
  rintro p t' heq
  cases heq
  exact hnodup.1 hb'

/-- The end of `alloc_cached`. -/
theorem inv_serve (hs : Shelf st l []) (hI : Ring.Inv st.ring) (hidle : st.ring.pub () = .idle)
    (t : cfg.Topic) : Follows st (st.serve t) := by
  unfold State.serve
  split
  · rename_i b rest htake
    have hshelf : Shelf { st with cache := rest } l [b] := by
      refine ⟨hs.chain, hs.custody.perm ?_, hs.push⟩
      rw [List.perm_iff_count]
      intro x
      simp only [State.shelf, takeCache_eq htake, List.count_append, List.count_nil]
      omega
    obtain ⟨hinv, hring⟩ := inv_grant hshelf hI hidle t
    exact ⟨hinv, hring⟩
  · exact .of_same (inv_ready hs hI) rfl

/-- The refill loop after a step of `alloc_block`. -/
theorem inv_refilled (hs : Shelf st l []) (hI : Ring.Inv st.ring)
    (hidle : st.ring.pub () = .idle) (t : cfg.Topic) {pc : PopPc} (hpop : Popping st.pool l pc)
    (spurious : Bool) :
    Follows st (State.refilled { st with pool := (popStep cfg spurious st.pool pc).1 } t
      (popStep cfg spurious st.pool pc).2) := by
  have hrange : ∀ b ∈ l, b < cfg.blockCount := by
    intro b hb
    exact (hs.custody.free b (by simp [State.shelf, hb])).1
  obtain ⟨⟨pool', pc'⟩, hstep⟩ : ∃ r, popStep cfg spurious st.pool pc = r := ⟨_, rfl⟩
  rw [hstep]
  obtain ⟨hlink, hcases⟩ := popStep_spec spurious hs.chain hrange hpop.inv hpop.running hstep
  have hpush : ∀ a b, a.inRing st.ring = some b → Pushing pool' b (st.push a) := by
    intro a b hab
    exact ⟨(hs.push a b hab).inv.frame (by rw [hlink]), (hs.push a b hab).running⟩
  rcases hcases with ⟨b, l', rfl, rfl, hchain⟩ | ⟨rfl, rfl, rfl⟩ | ⟨hrun, rfl, hinv⟩
  · -- the first block of the list goes into the cache
    have hshelf : Shelf { st with pool := pool', cache := st.cache ++ [b] } l' [] := by
      refine ⟨hchain, hs.custody.perm ?_, hpush⟩
      rw [List.perm_iff_count]
      intro x
      simp only [State.shelf, List.count_append, List.count_nil, List.count_cons]
      omega
    simp only [State.refilled]
    split
    · refine .of_same ⟨hI, l', hshelf.next _, fun _ => hidle, ?_, nofun⟩ rfl
      intro t' pc' heq
      cases heq
      exact ⟨trivial, nofun⟩
    · obtain ⟨hinv, hring⟩ := inv_serve hshelf hI hidle t
      exact ⟨hinv, hring⟩
  · exact inv_serve hs hI hidle t
  · have hnext : Follows st { st with owner := .refill t pc' } := by
      refine .of_same ?_ rfl
      refine ⟨hI, l, hs.next _, fun _ => hidle, ?_, nofun⟩
      intro t' pc'' heq
      cases heq
      exact ⟨hinv, hrun⟩
    cases pc' with
    | done r => exact absurd rfl (hrun r)
    | load | link | cas => exact hnext

/-- The publisher calls `free_block` with a block off the shelf. -/
theorem inv_startFree (hs : Shelf st l [b]) (hI : Ring.Inv st.ring)
    (hidle : st.ring.pub () = .idle) (closing : Bool) : Inv (st.startFree b closing) := by
  refine ⟨hI, l, ⟨hs.chain, hs.custody, ?_⟩, fun _ => hidle, nofun, ?_⟩
  · intro a b' hab
    have hne : a ≠ .owner := by
      rintro rfl
      cases hab
    show Pushing st.pool b' (update st.push .owner .load a)
    rw [update_of_ne hne]
    exact hs.push a b' hab
  · intro b' closing' heq
    cases heq
    show Pushing st.pool b (update st.push .owner .load .owner)
    rw [update_self]
    exact ⟨trivial, nofun⟩

omit [Fintype S] in
theorem State.closeNext_ring (st : State cfg S) : st.closeNext.ring = st.ring := by
  unfold State.closeNext
  split <;> rfl

/-- The loop of `Drop for Publisher`. -/
theorem inv_closeNext (hs : Shelf st l []) (hI : Ring.Inv st.ring)
    (hidle : st.ring.pub () = .idle) : Inv st.closeNext := by
  unfold State.closeNext
  split
  · rename_i b rest hcache
    have hshelf : Shelf { st with cache := rest } l [b] := by
      refine ⟨hs.chain, hs.custody.perm ?_, hs.push⟩
      rw [List.perm_iff_count]
      intro x
      simp only [State.shelf, hcache, List.count_append, List.count_nil, List.count_cons]
      omega
    exact inv_startFree hshelf hI hidle true
  · exact ⟨hI, l, hs.next _, fun _ => hidle, nofun, nofun⟩

omit [DecidableEq S] in
/-- Take `last_freed`. -/
theorem Shelf.takeLast (hs : Shelf st l []) (hne : st.lastFreed ≠ noBlock) :
    Shelf { st with lastFreed := noBlock } l [st.lastFreed] := by
  refine ⟨hs.chain, hs.custody.perm ?_, hs.push⟩
  rw [List.perm_iff_count]
  intro x
  simp only [State.shelf, cell, if_neg hne, if_true, List.count_append, List.count_nil]
  omega

/-! ### Steps of the ring -/

omit [DecidableEq S] in
/-- The creating publisher never meets a marked entry: it is the only one that marks. -/
theorem ring_ok {ring : Ring.State cfg Unit S} (h : Ring.Inv ring) {a : Ring.Act cfg Unit S}
    (hclaim : Ring.claimFits ring a = true) (hbump : Ring.bumpFits ring a = true) :
    Ring.Ok isOwner ring a := by
  refine ⟨⟨?_, hbump⟩, hclaim⟩
  unfold Ring.marksClear
  split
  · rename_i e q hm
    obtain ⟨p, c, pc, hp, hwait, rfl, rfl⟩ := Ring.marks_commit hm
    rw [bne_iff_ne]
    intro hseq
    obtain ⟨p', c', pc', hp', hcrit, _⟩ := h.writing _ hseq
    rw [hp] at hp'
    cases hp'
    rw [(Ring.CommitPc.waiting_spec hwait c 0).2.2.1] at hcrit
    cases hcrit
  · rfl

/-- A step of the ring that takes no block from the allocator keeps the shelf, if whoever
    is now freeing a block has just begun or has been at it before. -/
theorem Shelf.of_ring (hI : Ring.Inv st.ring) {hand : List Nat} (hs : Shelf st l hand)
    {a : Ring.Act cfg Unit S} {r : Ring.State cfg Unit S} (hok : Ring.Ok isOwner st.ring a)
    (hstep : Ring.Step isOwner st.ring a r) (hloan : ∀ p t b, a ≠ .loan p t b)
    (push' : Freer S → PushPc) (hpush : ∀ x b, x.inRing r = some b →
      push' x = .load ∨ (push' x = st.push x ∧ x.inRing st.ring = some b)) :
    Shelf { st with ring := r, push := push' } l hand := by
  refine ⟨hs.chain, hs.custody.keep ?_, ?_⟩
  · intro b _ hb hfree
    exact Ring.isFree_step hI.toCore hok.toClear hstep hb hfree (fun p t => hloan p t b)
  · intro x b hx
    show Pushing st.pool b (push' x)
    rcases hpush x b hx with hload | ⟨hsame, hold⟩
    · rw [hload]
      exact ⟨trivial, nofun⟩
    · rw [hsame]
      exact hs.push x b hold

omit [Fintype S] [DecidableEq S] in
/-- Steps of the publisher leave the streams and samples where they are. -/
theorem Freer.inRing_congr {ring r : Ring.State cfg Unit S} (hstr : r.str = ring.str)
    (hsam : r.samples = ring.samples) (x : Freer S) : x.inRing r = x.inRing ring := by
  unfold Freer.inRing
  rw [hstr, hsam]

omit [DecidableEq S] in
/-- A publisher that has a loan is not using the allocator. -/
theorem Inv.ready (h : Inv st) (hp : st.ring.pub () ≠ .idle) : st.owner = .ready := by
  obtain ⟨l, _, hown⟩ := h.shelf
  by_contra hne
  exact hp (hown.idle hne)

/-- A step of the publisher in the ring. -/
theorem inv_pub (h : Inv st) {a : Ring.Act cfg Unit S} {r : Ring.State cfg Unit S}
    (hok : Ring.Ok isOwner st.ring a) (hstep : Ring.Step isOwner st.ring a r)
    (hloan : ∀ p t b, a ≠ .loan p t b) (hp : st.ring.pub () ≠ .idle)
    (hstr : r.str = st.ring.str) (hsam : r.samples = st.ring.samples) :
    Inv { st with ring := r } := by
  have hready := h.ready hp
  obtain ⟨l, hs, hown⟩ := h.shelf
  refine ⟨Ring.inv_step h.ring hok hstep, l, ?_, ?_⟩
  · refine hs.of_ring h.ring hok hstep hloan st.push ?_
    intro x b hx
    rw [Freer.inRing_congr hstr hsam] at hx
    exact Or.inr ⟨rfl, hx⟩
  · exact ⟨fun hne => absurd hready hne, fun t pc heq => hown.pop t pc heq,
      fun b closing heq => hown.push b closing heq⟩

/-- A step of a stream or a sample in the ring. -/
theorem inv_reader (h : Inv st) {a : Ring.Act cfg Unit S} {r : Ring.State cfg Unit S}
    (hok : Ring.Ok isOwner st.ring a) (hstep : Ring.Step isOwner st.ring a r)
    (hloan : ∀ p t b, a ≠ .loan p t b) (hpub : r.pub = st.ring.pub) (push' : Freer S → PushPc)
    (howner : push' .owner = st.push .owner) (hpush : ∀ x b, x.inRing r = some b →
      push' x = .load ∨ (push' x = st.push x ∧ x.inRing st.ring = some b)) :
    Inv { st with ring := r, push := push' } := by
  obtain ⟨l, hs, hown⟩ := h.shelf
  refine ⟨Ring.inv_step h.ring hok hstep, l, hs.of_ring h.ring hok hstep hloan push' hpush, ?_⟩
  refine ⟨fun hne => (congrFun hpub ()).trans (hown.idle hne), hown.pop, ?_⟩
  intro b closing heq
  show Pushing st.pool b (push' .owner)
  rw [howner]
  exact hown.push b closing heq

/-! ### Who is freeing what -/

omit [Fintype S] [DecidableEq S] in
theorem Freer.inRing_stream {ring : Ring.State cfg Unit S} {s : S}
    (h : (Freer.stream s).inRing ring = some b) :
    ∃ m sc, ring.str s = some m ∧ m.pc = .freeing sc b := by
  simp only [Freer.inRing] at h
  split at h
  · rename_i m hm
    split at h
    · rename_i sc b' hpc
      cases h
      exact ⟨m, sc, hm, hpc⟩
    · cases h
  · cases h

omit [Fintype S] [DecidableEq S] in
theorem Freer.inRing_sample {ring : Ring.State cfg Unit S} {k : Nat}
    (h : (Freer.sample k : Freer S).inRing ring = some b) :
    ring.samples[k]? = some (.freeing b) := by
  simp only [Freer.inRing] at h
  split at h
  · rename_i b' hk
    cases h
    exact hk
  · cases h

omit [DecidableEq S] in
/-- A stream or sample that is freeing a block of the region holds it. -/
theorem Freer.inRing_held {ring : Ring.State cfg Unit S} (hI : Ring.Inv ring) {a : Freer S}
    (h : a.inRing ring = some b) : b < cfg.blockCount ∧ 0 < ring.holders b := by
  cases a with
  | owner => cases h
  | stream s =>
    obtain ⟨m, sc, hm, hpc⟩ := inRing_stream h
    have hrange := hI.strRange s m hm
    have hle := le_tally (Ring.streamHolds b) ring.str s
    rw [hpc] at hrange
    simp only [hm, Ring.streamHolds, hpc, Ring.StreamPc.holds, if_true] at hle
    refine ⟨hrange, ?_⟩
    simp only [Ring.State.holders]
    omega
  | sample k =>
    have hk := inRing_sample h
    have hle := le_listTally (Ring.Sample.holds b) hk
    simp only [Ring.Sample.holds, if_true] at hle
    refine ⟨hI.samRange _ (List.mem_of_getElem? hk), ?_⟩
    simp only [Ring.State.holders]
    omega

/-- No two of them free the same block. -/
theorem Freer.inRing_inj {ring : Ring.State cfg Unit S} (hI : Ring.Inv ring) {a a' : Freer S}
    (h : a.inRing ring = some b) (h' : a'.inRing ring = some b) : a = a' := by
  obtain ⟨hb, _⟩ := inRing_held hI h
  have howner := (hI.blocks b hb).owner
  simp only [Ring.State.holders] at howner
  cases a with
  | owner => cases h
  | stream s =>
    obtain ⟨m, sc, hm, hpc⟩ := inRing_stream h
    have hs : Ring.streamHolds b (ring.str s) = 1 := by
      simp only [hm, Ring.streamHolds, hpc, Ring.StreamPc.holds, if_true]
    cases a' with
    | owner => cases h'
    | stream s' =>
      obtain ⟨m', sc', hm', hpc'⟩ := inRing_stream h'
      have hs' : Ring.streamHolds b (ring.str s') = 1 := by
        simp only [hm', Ring.streamHolds, hpc', Ring.StreamPc.holds, if_true]
      by_contra hne
      have hle := add_le_tally (Ring.streamHolds b) ring.str (fun heq => hne (congrArg _ heq))
      omega
    | sample k =>
      have hle := le_tally (Ring.streamHolds b) ring.str s
      have hle' := le_listTally (Ring.Sample.holds b) (inRing_sample h')
      simp only [Ring.Sample.holds, if_true] at hle'
      omega
  | sample k =>
    have hk := inRing_sample h
    cases a' with
    | owner => cases h'
    | stream s =>
      obtain ⟨m, sc, hm, hpc⟩ := inRing_stream h'
      have hle := le_tally (Ring.streamHolds b) ring.str s
      have hle' := le_listTally (Ring.Sample.holds b) hk
      simp only [hm, Ring.streamHolds, hpc, Ring.StreamPc.holds, if_true] at hle
      simp only [Ring.Sample.holds, if_true] at hle'
      omega
    | sample k' =>
      by_contra hne
      have hle := add_le_listTally (Ring.Sample.holds b) (fun heq => hne (congrArg _ heq)) hk
        (inRing_sample h')
      simp only [Ring.Sample.holds, if_true] at hle
      omega

omit [Fintype S] [DecidableEq S] in
theorem State.freeing_cases {a : Freer S} (h : st.freeing a = some b) :
    (a = .owner ∧ ∃ closing, st.owner = .free b closing) ∨ a.inRing st.ring = some b := by
  cases a with
  | owner =>
    simp only [State.freeing] at h
    split at h
    · rename_i b' closing howner
      cases h
      exact Or.inl ⟨rfl, closing, howner⟩
    · cases h
  | stream | sample => exact Or.inr h

omit [Fintype S] [DecidableEq S] in
theorem State.freeing_of_inRing {a : Freer S} (h : a.inRing st.ring = some b) :
    st.freeing a = some b := by
  cases a with
  | owner => cases h
  | stream | sample => exact h

/-- A running `free_block`: its block is not on the list, and nobody else is freeing it. -/
theorem freeing_spec (hI : Ring.Inv st.ring) (hs : Shelf st l st.owner.hand)
    (hown : OwnerInv st l) {a : Freer S} (h : st.freeing a = some b) :
    b < cfg.blockCount ∧ b ∉ l ∧ Pushing st.pool b (st.push a) ∧
      ∀ a' b', a' ≠ a → st.freeing a' = some b' → b' ≠ b := by
  -- the publisher's block is in custody, the others' blocks are held in the ring
  have hhand : ∀ b closing, st.owner = .free b closing →
      b < cfg.blockCount ∧ b ∉ l ∧ st.ring.isFree b := by
    intro b closing howner
    have hcust := hs.custody
    rw [howner] at hcust
    obtain ⟨hb, hfree⟩ := hcust.free b (by simp [OwnerPc.hand])
    have hnot : b ∉ st.shelf l := (List.nodup_cons.mp hcust.nodup).1
    simp only [State.shelf, List.mem_append, not_or] at hnot
    exact ⟨hb, hnot.1.1, hfree⟩
  have hheld : ∀ a b, Freer.inRing st.ring a = some b →
      b < cfg.blockCount ∧ b ∉ l ∧ ¬ st.ring.isFree b := by
    intro a b hab
    obtain ⟨hb, hpos⟩ := Freer.inRing_held hI hab
    have hused := Ring.not_isFree_of_holders hpos
    have hnot := hs.custody.notMem hused
    simp only [State.shelf, List.mem_append, not_or] at hnot
    exact ⟨hb, hnot.2.1.1, hused⟩
  rcases State.freeing_cases h with ⟨rfl, closing, howner⟩ | hin
  · obtain ⟨hb, hnot, hfree⟩ := hhand b closing howner
    refine ⟨hb, hnot, hown.push b closing howner, ?_⟩
    rintro a' b' hne h' rfl
    rcases State.freeing_cases h' with ⟨rfl, _⟩ | hin'
    · exact hne rfl
    · exact (hheld a' b' hin').2.2 hfree
  · obtain ⟨hb, hnot, hused⟩ := hheld a b hin
    refine ⟨hb, hnot, hs.push a b hin, ?_⟩
    rintro a' b' hne h' rfl
    rcases State.freeing_cases h' with ⟨rfl, closing, howner⟩ | hin'
    · exact hused (hhand b' closing howner).2.2
    · exact hne (Freer.inRing_inj hI hin' hin)

/-! ### Steps of `free_block` -/

/-- A step of `free_block` before its CAS succeeds. -/
theorem inv_push (h : Inv st) {a : Freer S} (hf : st.freeing a = some b) {spurious : Bool}
    {pool' : FreeList} {pc' : PushPc}
    (hstep : pushStep cfg spurious st.pool b (st.push a) = (pool', pc')) (hrun : pc' ≠ .done) :
    Inv { st with pool := pool', push := update st.push a pc' } := by
  obtain ⟨l, hs, hown⟩ := h.shelf
  obtain ⟨hb, hnot, hpushing, hother⟩ := freeing_spec h.ring hs hown hf
  rcases pushStep_spec spurious hs.chain hb hnot hpushing.inv hpushing.running hstep with
    ⟨hdone, _⟩ | ⟨_, hlink, hchain, hinv⟩
  · exact absurd hdone hrun
  -- the agent itself has moved on, the others' links are untouched
  have hall : ∀ x b', st.freeing x = some b' → Pushing st.pool b' (st.push x) →
      Pushing pool' b' (update st.push a pc' x) := by
    intro x b' hx hold
    by_cases hxa : x = a
    · subst hxa
      rw [hf, Option.some.injEq] at hx
      subst hx
      rw [update_self]
      exact ⟨hinv, hrun⟩
    · rw [update_of_ne hxa]
      exact ⟨hold.inv.frame (hlink b' (hother x b' hxa hx)), hold.running⟩
  refine ⟨h.ring, l, ⟨hchain, hs.custody, ?_⟩, hown.idle, ?_, ?_⟩
  · intro x b' hx
    exact hall x b' (State.freeing_of_inRing hx) (hs.push x b' hx)
  · intro t pc heq
    have hpop := hown.pop t pc heq
    refine ⟨hpop.inv.frame (List.Subset.refl l) ?_, hpop.running⟩
    intro b' hb'
    apply hlink
    rintro rfl
    exact hnot hb'
  · intro b' closing heq
    refine hall .owner b' ?_ (hown.push b' closing heq)
    show (match st.owner with | .free b _ => some b | _ => none) = some b'
    rw [show st.owner = .free b' closing from heq]

/-- The publisher's block is on the free list. -/
theorem inv_ownerFreed (h : Inv st) {closing : Bool} (howner : st.owner = .free b closing)
    {spurious : Bool} {pool' : FreeList}
    (hstep : pushStep cfg spurious st.pool b (st.push .owner) = (pool', .done)) {st' : State cfg S}
    (hst : State.freed { st with pool := pool', push := update st.push .owner .done }
      .owner = some st') : Follows st st' := by
  obtain ⟨l, hs, hown⟩ := h.shelf
  have hf : st.freeing .owner = some b := by simp only [State.freeing, howner]
  obtain ⟨hb, hnot, hpushing, _⟩ := freeing_spec h.ring hs hown hf
  rcases pushStep_spec spurious hs.chain hb hnot hpushing.inv hpushing.running hstep with
    ⟨_, hlink, hchain⟩ | ⟨hrun, _⟩
  · have hshelf : Shelf { st with pool := pool', push := update st.push .owner .done }
        (b :: l) [] := by
      refine ⟨hchain, hs.custody.perm ?_, ?_⟩
      · rw [List.perm_iff_count]
        intro x
        simp only [State.shelf, howner, OwnerPc.hand, List.count_append, List.count_cons,
          List.count_nil]
        omega
      · intro x b' hx
        have hne : x ≠ .owner := by
          rintro rfl
          cases hx
        show Pushing pool' b' (update st.push .owner .done x)
        rw [update_of_ne hne]
        exact ⟨(hs.push x b' hx).inv.frame (by rw [hlink]), (hs.push x b' hx).running⟩
    have hidle : st.ring.pub () = .idle := hown.idle (by rw [howner]; nofun)
    simp only [State.freed, howner] at hst
    cases closing with
    | true =>
      cases hst
      exact .of_same (inv_closeNext (hshelf.next _) h.ring hidle) (State.closeNext_ring _)
    | false =>
      cases hst
      exact .of_same (inv_ready hshelf h.ring) rfl
  · exact absurd rfl hrun

/-- The block of a stream or a sample is on the free list, and the ring lets go of it. -/
theorem inv_ringFreed (h : Inv st) {a : Freer S} (hin : a.inRing st.ring = some b)
    {spurious : Bool} {pool' : FreeList}
    (hstep : pushStep cfg spurious st.pool b (st.push a) = (pool', .done))
    {act : Ring.Act cfg Unit S} {r : Ring.State cfg Unit S} (hok : Ring.Ok isOwner st.ring act)
    (hring : Ring.Step isOwner st.ring act r) (hloan : ∀ p t b, act ≠ .loan p t b)
    (hpub : r.pub = st.ring.pub) (hfree : r.isFree b)
    (hfreers : ∀ x b', x.inRing r = some b' → x ≠ a ∧ x.inRing st.ring = some b') :
    Inv { st with ring := r, pool := pool', push := update st.push a .done } := by
  obtain ⟨l, hs, hown⟩ := h.shelf
  obtain ⟨hb, hnot, hpushing, _⟩ :=
    freeing_spec h.ring hs hown (State.freeing_of_inRing hin)
  have hne : a ≠ .owner := by
    rintro rfl
    cases hin
  rcases pushStep_spec spurious hs.chain hb hnot hpushing.inv hpushing.running hstep with
    ⟨_, hlink, hchain⟩ | ⟨hrun, _⟩
  · have hkeep : Custody r (st.owner.hand ++ st.shelf l) := by
      refine hs.custody.keep ?_
      intro b' _ hb' hfree'
      exact Ring.isFree_step h.ring.toCore hok.toClear hring hb' hfree' (fun p t => hloan p t b')
    have hused := Ring.not_isFree_of_holders (Freer.inRing_held h.ring hin).2
    refine ⟨Ring.inv_step h.ring hok hring, b :: l, ⟨hchain,
      (hkeep.cons hb hfree (hs.custody.notMem hused)).perm ?_, ?_⟩, ?_, ?_, ?_⟩
    · rw [List.perm_iff_count]
      intro x
      simp only [State.shelf, List.count_append, List.count_cons]
      omega
    · intro x b' hx
      obtain ⟨hxa, hold⟩ := hfreers x b' hx
      show Pushing pool' b' (update st.push a .done x)
      rw [update_of_ne hxa]
      exact ⟨(hs.push x b' hold).inv.frame (by rw [hlink]), (hs.push x b' hold).running⟩
    · intro howner
      exact (congrFun hpub ()).trans (hown.idle howner)
    · intro t pc heq
      have hpop := hown.pop t pc heq
      exact ⟨hpop.inv.frame (List.subset_cons_self b l) (fun _ _ => by rw [hlink]), hpop.running⟩
    · intro b' closing heq
      have hpush := hown.push b' closing heq
      show Pushing pool' b' (update st.push a .done .owner)
      rw [update_of_ne (Ne.symm hne)]
      exact ⟨hpush.inv.frame (by rw [hlink]), hpush.running⟩
  · exact absurd rfl hrun

end

end Crossbar.Pool
