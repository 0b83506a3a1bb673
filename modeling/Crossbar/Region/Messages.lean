import Crossbar.Region.Conservation

namespace Crossbar.Region

open Function Crossbar.Lib Crossbar.Pool

/-!
# Region — the ring holds what was published

Two invariants of every run in which no counter overflows:

* `World.LoansOk` — a live loan is of an active topic and within the capacity, and a
  `PinnedLoan` is of a block its publisher has pinned;
* `Shm.LogInv` — a publish is in its ring entry until `ring_depth` later ones have been made
  on the topic, an entry holds a publish of its topic, the block of an entry holds the bytes
  of that publish, and no block is in two entries.

The second rests on the first and on the balance of blocks: bytes are written through loans
only, and the block of a loan is in no ring entry.
-/

variable {cfg : ValidConfig} {w w' : World cfg} {k limit : Nat}

/-! ### Operations that only move blocks -/

/-- The words differ at most in the free list and the refcounts. -/
def Shm.SameButBlocks (shm shm' : Shm cfg) : Prop :=
  ∃ pool refcount, shm' = { shm with pool := pool, refcount := refcount }

namespace Shm.SameButBlocks

variable {shm shm' : Shm cfg}

/-- Nothing happens. -/
theorem refl (shm : Shm cfg) : shm.SameButBlocks shm := ⟨shm.pool, shm.refcount, rfl⟩

/-- `free_block` moves a block. -/
theorem free (h : shm.SameButBlocks shm') (b : Nat) : shm.SameButBlocks (shm'.free b) := by
  obtain ⟨pool, rc, rfl⟩ := h
  exact ⟨_, rc, rfl⟩

/-- A refcount is one less. -/
theorem decRef (h : shm.SameButBlocks shm') (b : Nat) : shm.SameButBlocks (shm'.decRef b) := by
  obtain ⟨pool, rc, rfl⟩ := h
  exact ⟨pool, _, rfl⟩

/-- Dropping a sample gives up its reference, and its block with the last one. -/
theorem release (shm : Shm cfg) (b : Nat) : shm.SameButBlocks (shm.release b) := by
  unfold Shm.release
  split
  · exact refl shm
  · split
    · exact ((refl shm).decRef b).free b
    · exact (refl shm).decRef b

/-- The loop of `Drop for Publisher` over the pinned blocks. -/
theorem freePinned (p : Publisher cfg) (ts : List cfg.Topic) (h : shm.SameButBlocks shm') :
    shm.SameButBlocks (p.freePinned shm' ts) := by
  induction ts generalizing shm' with
  | nil => exact h
  | cons t ts ih =>
    unfold Publisher.freePinned
    split
    · exact ih (h.free _)
    · exact ih h

/-- The loop of `Drop for Publisher` over the cache. -/
theorem freeCache (cache : List Nat) (h : shm.SameButBlocks shm') :
    shm.SameButBlocks (cache.foldl Shm.free shm') := by
  induction cache generalizing shm' with
  | nil => exact h
  | cons b cache ih => exact ih (h.free b)

/-- `Drop for Publisher` only frees blocks. -/
theorem drop (shm : Shm cfg) (p : Publisher cfg) : shm.SameButBlocks (p.drop shm) := by
  unfold Publisher.drop
  apply freeCache
  have hpinned := (refl shm).freePinned p (List.finRange cfg.maxTopics)
  split
  · exact hpinned.free _
  · exact hpinned

/-- The topic entries stay the same. -/
theorem topic_eq (h : shm.SameButBlocks shm') : shm'.topic = shm.topic := by
  obtain ⟨pool, rc, rfl⟩ := h
  rfl

/-- The ring entries stay the same. -/
theorem entry_eq (h : shm.SameButBlocks shm') : shm'.entry = shm.entry := by
  obtain ⟨pool, rc, rfl⟩ := h
  rfl

/-- The log of publishes stays the same. -/
theorem log_eq (h : shm.SameButBlocks shm') : shm'.log = shm.log := by
  obtain ⟨pool, rc, rfl⟩ := h
  rfl

/-- The payloads stay the same. -/
theorem data_eq (h : shm.SameButBlocks shm') : shm'.data = shm.data := by
  obtain ⟨pool, rc, rfl⟩ := h
  rfl

end Shm.SameButBlocks

/-- Step 7 of `commit_to_ring` moves blocks and sets `last_freed`. -/
theorem releaseOld_shape (shm : Shm cfg) (p : Publisher cfg) (old : Nat) :
    shm.SameButBlocks (releaseOld shm p old).1 ∧
      ∃ lastFreed, (releaseOld shm p old).2 = { p with lastFreed := lastFreed } := by
  unfold releaseOld
  have hdec := (Shm.SameButBlocks.refl shm).decRef old
  split
  · split
    · split
      · exact ⟨hdec.free _, old, rfl⟩
      · exact ⟨hdec, old, rfl⟩
    · exact ⟨hdec, p.lastFreed, rfl⟩
  · exact ⟨.refl shm, p.lastFreed, rfl⟩

/-- `commit_to_ring` writes the entry and moves blocks. -/
theorem commitToRing_shape (shm : Shm cfg) (p : Publisher cfg) (b len : Nat) (t : cfg.Topic) :
    (shm.storeEntry t b len).SameButBlocks (commitToRing shm p b len t).1 ∧
      ∃ lastFreed, (commitToRing shm p b len t).2 = { p with lastFreed := lastFreed } :=
  releaseOld_shape ..

/-! ### Loans -/

/-- A length that fits in a block fits in 32 bits. -/
theorem len_lt {len : Nat} (h : len ≤ cfg.dataCapacity) : len < 2 ^ 32 := by
  have hlt := cfg.blockSize_lt
  unfold ValidConfig.dataCapacity at h
  omega

/-- What is true of the loan `l` that borrows `p`. -/
structure LoanOk (shm : Shm cfg) (p : Publisher cfg) (l : Loan cfg) : Prop where
  len : l.len ≤ cfg.dataCapacity
  active : (shm.topic l.topic).active = true
  pinned : l.kind = .pinned → l.blockIdx ≠ noBlock ∧ p.pinnedBlocks l.topic = l.blockIdx

/-- Every live loan is in order. -/
def World.LoansOk (w : World cfg) : Prop :=
  ∀ p l, some p ∈ w.pubs → p.borrow = some l → LoanOk w.shm p l

/-- Topics stay active. -/
def Shm.KeepsTopics (shm shm' : Shm cfg) : Prop :=
  ∀ t, (shm.topic t).active = true → (shm'.topic t).active = true

/-- An entry that stays active may change otherwise. -/
theorem Shm.KeepsTopics.setTopic {shm : Shm cfg} {t : cfg.Topic} {e : TopicEntry}
    (he : (shm.topic t).active = true → e.active = true) : shm.KeepsTopics (shm.setTopic t e) := by
  intro t' hactive
  show (update shm.topic t e t').active = true
  by_cases ht : t' = t
  · subst ht
    rw [update_self]
    exact he hactive
  · rw [update_of_ne ht]
    exact hactive

/-- A loan stays good when its topic stays active. -/
theorem LoanOk.frame {shm shm' : Shm cfg} {p : Publisher cfg} {l : Loan cfg} (h : LoanOk shm p l)
    (hkeep : shm.KeepsTopics shm') : LoanOk shm' p l :=
  ⟨h.len, hkeep _ h.active, h.pinned⟩

/-- Nothing happens. -/
theorem Shm.KeepsTopics.refl (shm : Shm cfg) : shm.KeepsTopics shm := fun _ h => h

/-- A publish does not touch the active flags. -/
theorem Shm.KeepsTopics.storeEntry (shm : Shm cfg) (t : cfg.Topic) (b len : Nat) :
    shm.KeepsTopics (shm.storeEntry t b len) :=
  Shm.KeepsTopics.setTopic (e := { shm.topic t with writeSeq := shm.nextSeq t }) fun ha => ha

/-- Moving blocks does not touch the active flags. -/
theorem Shm.SameButBlocks.keepsTopics {shm shm' : Shm cfg} (h : shm.SameButBlocks shm') :
    shm.KeepsTopics shm' := by
  obtain ⟨pool, rc, rfl⟩ := h
  exact .refl shm

namespace World.LoansOk

/-- The publishers stay as they are. -/
theorem of_shm (h : w.LoansOk) (hpubs : w'.pubs = w.pubs) (hkeep : w.shm.KeepsTopics w'.shm) :
    w'.LoansOk := by
  intro p l hp hborrow
  rw [hpubs] at hp
  exact (h p l hp hborrow).frame hkeep

/-- One publisher changes. -/
theorem set (h : w.LoansOk) {o : Option (Publisher cfg)} (hpubs : w'.pubs = w.pubs.set k o)
    (hkeep : w.shm.KeepsTopics w'.shm)
    (hnew : ∀ p l, o = some p → p.borrow = some l → LoanOk w.shm p l) : w'.LoansOk := by
  intro p l hp hborrow
  rw [hpubs] at hp
  rcases List.mem_or_eq_of_mem_set hp with hold | heq
  · exact (h p l hold hborrow).frame hkeep
  · exact (hnew p l heq.symm hborrow).frame hkeep

/-- One publisher changes and has no loan then. -/
theorem set_idle (h : w.LoansOk) {o : Option (Publisher cfg)} (hpubs : w'.pubs = w.pubs.set k o)
    (hkeep : w.shm.KeepsTopics w'.shm) (hidle : ∀ p, o = some p → p.borrow = none) :
    w'.LoansOk := by
  refine h.set hpubs hkeep (fun p l hp hl => ?_)
  rw [hidle p hp] at hl
  cases hl

end World.LoansOk

/-- Writing through a loan keeps it in order. -/
theorem LoanOk.edit {shm shm' : Shm cfg} {p : Publisher cfg} {l l' : Loan cfg} {e : Edit}
    (h : LoanOk shm p l) (hedit : l.edit shm e = some (shm', l')) :
    LoanOk shm { p with borrow := some l' } l' := by
  obtain ⟨_, ⟨len, rfl⟩, hlen⟩ := Loan.edit_spec hedit
  exact ⟨hlen h.len, h.active, h.pinned⟩

/-- `try_recv_pinned` finds a pinned publish that `s` has not seen. -/
structure Stream.NextPinned (s : Stream cfg) (shm : Shm cfg) : Prop where
  published : (shm.topic s.topic).pinnedSeq ≠ 0
  above : s.lastSeq < (shm.topic s.topic).pinnedSeq >>> 32
  block : (shm.topic s.topic).pinnedBlock ≠ noBlock
  inRange : (shm.topic s.topic).pinnedBlock < cfg.blockCount
  noWriter : (shm.topic s.topic).pinnedReaders ≠ pinnedWriterActive

/-- A guard of `try_recv_pinned` is of the last pinned publish. -/
theorem Stream.tryRecvPinned_inv {s s' : Stream cfg} {shm shm' : Shm cfg} {g : PinnedGuard cfg}
    (h : s.tryRecvPinned shm = some (shm', s', g)) :
    s.NextPinned shm ∧
      shm' = shm.setReaders s.topic (wrap32 ((shm.topic s.topic).pinnedReaders + 1)) ∧
      s' = { s with lastSeq := (shm.topic s.topic).pinnedSeq >>> 32 } ∧
      g = ⟨s.topic, (shm.topic s.topic).pinnedSeq >>> 32, (shm.topic s.topic).pinnedBlock,
        wrap32 (shm.topic s.topic).pinnedSeq⟩ := by
  dsimp only [tryRecvPinned] at h
  split_ifs at h with hzero hold hnone hrange hwriter
  cases h
  exact ⟨⟨hzero, by omega, hnone, by omega, hwriter⟩, rfl, rfl, rfl⟩

/-- **Step** of the topics: none becomes free again. -/
theorem keepsTopics_move {a : Act cfg} (hmove : Move w a w') : w.shm.KeepsTopics w'.shm := by
  cases hmove with
  | claim hlen hnew hfree => exact .setTopic fun _ => rfl
  | pinRefused | pinNew | pinAgain | dropPinned | dropGuard => exact .setTopic fun ha => ha
  | edit hp hborrow hedit =>
    obtain ⟨⟨data, rfl⟩, _⟩ := Loan.edit_spec hedit
    exact .refl _
  | publish hp hborrow hkind =>
    intro t ha
    exact (commitToRing_shape ..).1.keepsTopics t (Shm.KeepsTopics.storeEntry _ _ _ _ t ha)
  | publishPinned hp hborrow hkind =>
    rename_i p l
    intro t ha
    have hcommit : w.shm.KeepsTopics (commitPinned w.shm l.len l.topic) :=
      .setTopic fun ha => ha
    exact Shm.KeepsTopics.setTopic (e := { (commitPinned w.shm l.len l.topic).topic l.topic with
      pinnedReaders := 0 }) (fun ha => ha) t (hcommit t ha)
  | dropPublisher hp hborrow => exact (Shm.SameButBlocks.drop _ _).keepsTopics
  | dropSample hs => exact (Shm.SameButBlocks.release _ _).keepsTopics
  | receivePinned hs hrecv =>
    obtain ⟨_, rfl, _⟩ := Stream.tryRecvPinned_inv hrecv
    exact .setTopic fun ha => ha
  | stay | «open» | exhaust | loan | drop | stream | receive => exact .refl _

/-- The ring entries and the log are the same. -/
def Shm.SameRing (shm shm' : Shm cfg) : Prop := shm'.entry = shm.entry ∧ shm'.log = shm.log

/-- Moving blocks does not touch the ring. -/
theorem Shm.SameButBlocks.sameRing {shm shm' : Shm cfg} (h : shm.SameButBlocks shm') :
    shm.SameRing shm' :=
  ⟨h.entry_eq, h.log_eq⟩

/-- **Step** of the ring: a call leaves it, or publishes a loan. -/
theorem ring_move {a : Act cfg} (hmove : Move w a w') :
    w.shm.SameRing w'.shm ∨
    ∃ k p l, a = .publishLoan k ∧ w.pubs[k]? = some (some p) ∧ p.borrow = some l ∧
      l.kind ≠ .pinned ∧ (w.shm.storeEntry l.topic l.blockIdx l.len).SameButBlocks w'.shm := by
  cases hmove with
  | edit hp hborrow hedit =>
    obtain ⟨⟨data, rfl⟩, _⟩ := Loan.edit_spec hedit
    exact Or.inl ⟨rfl, rfl⟩
  | publish hp hborrow hkind =>
    exact Or.inr ⟨_, _, _, rfl, hp, hborrow, hkind, (commitToRing_shape ..).1⟩
  | dropPublisher hp hborrow => exact Or.inl (Shm.SameButBlocks.drop _ _).sameRing
  | dropSample hs => exact Or.inl (Shm.SameButBlocks.release _ _).sameRing
  | receivePinned hs hrecv =>
    obtain ⟨_, rfl, _⟩ := Stream.tryRecvPinned_inv hrecv
    exact Or.inl ⟨rfl, rfl⟩
  | _ => exact Or.inl ⟨rfl, rfl⟩

/-- **Step** of the loans. -/
theorem loansOk_move {a : Act cfg} (h : w.LoansOk) (hmove : Move w a w') : w'.LoansOk := by
  have hkeep := keepsTopics_move hmove
  cases hmove with
  | stay => exact h
  | «open» id =>
    intro p l hp hborrow
    rcases List.mem_append.mp hp with hold | hnew
    · exact h p l hold hborrow
    · cases Option.some.inj (List.mem_singleton.mp hnew)
      cases hborrow
  | exhaust pool lastFreed cache hp hborrow | pinRefused pool lastFreed cache b hp hborrow =>
    refine h.set_idle rfl hkeep (fun p' hp' => ?_)
    cases hp'
    exact hborrow
  | loan pool lastFreed cache hp hborrow hkind hlen hactive hblock =>
    refine h.set rfl hkeep (fun p' l hp' hl => ?_)
    cases hp'
    cases hl
    exact ⟨hlen, hactive, fun hpin => absurd hpin hkind⟩
  | pinNew pool lastFreed cache b hp hborrow hb hactive hnew hreaders =>
    refine h.set rfl hkeep (fun p' l hp' hl => ?_)
    cases hp'
    cases hl
    exact ⟨Nat.zero_le _, hactive, fun _ => ⟨ne_noBlock hb, update_self ..⟩⟩
  | pinAgain hp hborrow hactive hold hreaders =>
    refine h.set rfl hkeep (fun p' l hp' hl => ?_)
    cases hp'
    cases hl
    exact ⟨Nat.zero_le _, hactive, fun _ => ⟨hold, rfl⟩⟩
  | edit hp hborrow hedit =>
    have hloan := h _ _ (List.mem_of_getElem? hp) hborrow
    refine h.set rfl hkeep (fun p' l hp' hl => ?_)
    cases hp'
    cases hl
    exact hloan.edit hedit
  | publish hp hborrow hkind =>
    rename_i p l
    obtain ⟨_, lastFreed, hpub⟩ :=
      commitToRing_shape w.shm { p with borrow := none } l.blockIdx l.len l.topic
    refine h.set_idle rfl hkeep (fun p' hp' => ?_)
    cases hp'
    rw [hpub]
  | publishPinned hp hborrow hkind | drop hp hborrow hkind | dropPinned hp hborrow hkind =>
    refine h.set_idle rfl hkeep (fun p' hp' => ?_)
    cases hp'
    rfl
  | dropPublisher hp hborrow => exact h.set_idle rfl hkeep nofun
  | claim | stream | receive | dropSample | receivePinned | dropGuard => exact h.of_shm rfl hkeep

/-! ### The log and the ring -/

namespace Shm

variable (shm : Shm cfg) {t t' : cfg.Topic} (b len : Nat)

/-- A publish is logged under its number. -/
theorem storeEntry_log_self : (shm.storeEntry t b len).log t (shm.nextSeq t) =
    some ⟨b, len, shm.data b⟩ := by
  show update shm.log t _ t _ = _
  rw [update_self, update_self]

/-- The log of other publishes does not change. -/
theorem storeEntry_log_of_ne {q : Nat} (hne : (t', q) ≠ (t, shm.nextSeq t)) :
    (shm.storeEntry t b len).log t' q = shm.log t' q := by
  show update shm.log t _ t' q = _
  by_cases ht : t' = t
  · subst ht
    rw [update_self, update_of_ne (fun hq => hne (by rw [hq]))]
  · rw [update_of_ne ht]

/-- The ring entry of a publish holds number, block and length. -/
theorem storeEntry_entry_self : (shm.storeEntry t b len).entry (t, cfg.slotOf (shm.nextSeq t)) =
    ⟨shm.nextSeq t, b, len⟩ := update_self ..

/-- A publish changes no other ring entry. -/
theorem storeEntry_entry_of_ne {e : cfg.EntryIdx} (hne : e ≠ (t, cfg.slotOf (shm.nextSeq t))) :
    (shm.storeEntry t b len).entry e = shm.entry e := update_of_ne hne ..

/-- `write_seq` is the number of the publish. -/
theorem storeEntry_topic_self : (shm.storeEntry t b len).topic t =
    { shm.topic t with writeSeq := shm.nextSeq t } := update_self ..

/-- A publish changes no other topic. -/
theorem storeEntry_topic_of_ne (hne : t' ≠ t) :
    (shm.storeEntry t b len).topic t' = shm.topic t' := update_of_ne hne ..

end Shm

/-- The ring holds the last publishes of the log. -/
structure Shm.LogInv (shm : Shm cfg) : Prop where
  /-- what has been published has a number of an active topic, and fits in a block -/
  bound : ∀ t q c, shm.log t q = some c → (shm.topic t).active = true ∧ 0 < q ∧
    q ≤ (shm.topic t).writeSeq ∧ c.blockIdx < cfg.blockCount ∧ c.dataLen ≤ cfg.dataCapacity
  /-- a publish is in its entry until the numbers come round to it again -/
  kept : ∀ t q c, shm.log t q = some c → (shm.topic t).writeSeq < q + cfg.ringDepth →
    shm.entry (t, cfg.slotOf q) = ⟨q, c.blockIdx, c.dataLen⟩
  /-- an entry holds a publish, and its block the bytes of that publish -/
  entry : ∀ t i, (shm.entry (t, i)).blockIdx ≠ noBlock →
    ∃ c, shm.log t (shm.entry (t, i)).seq = some c ∧
      (shm.entry (t, i)).blockIdx = c.blockIdx ∧ shm.data c.blockIdx = c.bytes
  /-- no block is in two entries -/
  unique : ∀ e e', (shm.entry e).blockIdx ≠ noBlock →
    (shm.entry e).blockIdx = (shm.entry e').blockIdx → e = e'

namespace Shm.LogInv

variable {shm shm' : Shm cfg}

/-- Calls that publish nothing: the ring and its blocks stay, numbers of active topics do not
    fall. -/
theorem frame (h : shm.LogInv) (hlog : shm'.log = shm.log) (hentry : shm'.entry = shm.entry)
    (htopic : ∀ t, (shm.topic t).active = true → (shm'.topic t).active = true ∧
      (shm.topic t).writeSeq ≤ (shm'.topic t).writeSeq)
    (hdata : ∀ e, (shm.entry e).blockIdx ≠ noBlock →
      shm'.data (shm.entry e).blockIdx = shm.data (shm.entry e).blockIdx) : shm'.LogInv := by
  refine ⟨fun t q c hq => ?_, fun t q c hq hlt => ?_, fun t i hne => ?_, ?_⟩
  · rw [hlog] at hq
    obtain ⟨hactive, hpos, hle, hlen⟩ := h.bound t q c hq
    obtain ⟨hactive', hseq⟩ := htopic t hactive
    exact ⟨hactive', hpos, by omega, hlen⟩
  · rw [hlog] at hq
    have hseq := (htopic t (h.bound t q c hq).1).2
    rw [hentry]
    exact h.kept t q c hq (by omega)
  · rw [hentry] at hne
    rw [hlog, hentry]
    obtain ⟨c, hc, hblock, hbytes⟩ := h.entry t i hne
    refine ⟨c, hc, hblock, ?_⟩
    rw [← hblock, hdata _ hne, hblock]
    exact hbytes
  · rw [hentry]
    exact h.unique

/-- Only the free list and the refcounts change. -/
theorem of_blocks (h : shm.LogInv) (hblocks : shm.SameButBlocks shm') : shm'.LogInv := by
  obtain ⟨pool, rc, rfl⟩ := hblocks
  exact h.frame rfl rfl (fun _ ha => ⟨ha, le_refl _⟩) (fun _ _ => rfl)

/-- One topic entry changes, to an active one with no smaller number. -/
theorem setTopic (h : shm.LogInv) {t : cfg.Topic} {e : TopicEntry}
    (hactive : (shm.topic t).active = true → e.active = true)
    (hseq : (shm.topic t).active = true → (shm.topic t).writeSeq ≤ e.writeSeq) :
    (shm.setTopic t e).LogInv := by
  refine h.frame rfl rfl (fun t' ha => ?_) (fun _ _ => rfl)
  show (update shm.topic t e t').active = true ∧
    _ ≤ (update shm.topic t e t').writeSeq
  by_cases ht : t' = t
  · subst ht
    rw [update_self]
    exact ⟨hactive ha, hseq ha⟩
  · rw [update_of_ne ht]
    exact ⟨ha, le_refl _⟩

section

variable {t : cfg.Topic} {b len : Nat}

/-- The number a publish claims has not been used. -/
theorem log_nextSeq (h : shm.LogInv) (hnext : shm.nextSeq t = (shm.topic t).writeSeq + 1) :
    shm.log t (shm.nextSeq t) = none := by
  rw [Option.eq_none_iff_forall_ne_some]
  intro c hc
  have hle := (h.bound t _ c hc).2.2.1
  omega

/-- An earlier number that is not overwritten by the next publish is in another entry. -/
theorem slot_ne_nextSeq (h : shm.LogInv) (hnext : shm.nextSeq t = (shm.topic t).writeSeq + 1)
    {q : Nat} {c : Ring.Claim} (hq : shm.log t q = some c)
    (hlt : shm.nextSeq t < q + cfg.ringDepth) :
    (t, cfg.slotOf q) ≠ (t, cfg.slotOf (shm.nextSeq t)) := by
  intro heq
  have hle := (h.bound t q c hq).2.2.1
  have hsame := cfg.eq_of_slotOf_eq (congrArg Prod.snd heq) (by omega) (by omega)
  omega

/-- Steps 1 to 6 of `commit_to_ring`, for a block that is in no entry. -/
theorem storeEntry (h : shm.LogInv) (hactive : (shm.topic t).active = true)
    (hb : b < cfg.blockCount) (hlen : len ≤ cfg.dataCapacity)
    (hfit : (shm.topic t).writeSeq + 1 < 2 ^ 64)
    (hfree : ∀ e, (shm.entry e).blockIdx ≠ noBlock → (shm.entry e).blockIdx ≠ b) :
    (shm.storeEntry t b len).LogInv := by
  have hnext : shm.nextSeq t = (shm.topic t).writeSeq + 1 := wrap64_of_lt hfit
  refine ⟨fun t' q c hq => ?_, fun t' q c hq hlt => ?_, fun t' i hne => ?_, fun e e' hne heq => ?_⟩
  · -- the bounds of the log
    by_cases hnew : (t', q) = (t, shm.nextSeq t)
    · obtain ⟨rfl, rfl⟩ := Prod.mk.inj hnew
      rw [storeEntry_log_self] at hq
      cases hq
      rw [storeEntry_topic_self]
      exact ⟨hactive, by omega, le_refl _, hb, hlen⟩
    · rw [storeEntry_log_of_ne _ _ _ hnew] at hq
      obtain ⟨ha, hpos, hle, hcap⟩ := h.bound t' q c hq
      by_cases ht : t' = t
      · subst ht
        rw [storeEntry_topic_self]
        exact ⟨ha, hpos, Nat.le_trans hle (by simp only; omega), hcap⟩
      · rw [storeEntry_topic_of_ne _ _ _ ht]
        exact ⟨ha, hpos, hle, hcap⟩
  · by_cases hnew : (t', q) = (t, shm.nextSeq t)
    · obtain ⟨rfl, rfl⟩ := Prod.mk.inj hnew
      rw [storeEntry_log_self] at hq
      cases hq
      exact storeEntry_entry_self ..
    · rw [storeEntry_log_of_ne _ _ _ hnew] at hq
      by_cases ht : t' = t
      · subst ht
        rw [storeEntry_topic_self] at hlt
        simp only at hlt
        rw [storeEntry_entry_of_ne _ _ _ (h.slot_ne_nextSeq hnext hq hlt)]
        exact h.kept t' q c hq (by omega)
      · rw [storeEntry_topic_of_ne _ _ _ ht] at hlt
        rw [storeEntry_entry_of_ne _ _ _ (fun heq => ht (congrArg Prod.fst heq))]
        exact h.kept t' q c hq hlt
  · -- every entry is of a logged publish
    by_cases he : (t', i) = (t, cfg.slotOf (shm.nextSeq t))
    · obtain ⟨rfl, rfl⟩ := Prod.mk.inj he
      rw [storeEntry_entry_self]
      exact ⟨_, storeEntry_log_self .., rfl, rfl⟩
    · rw [storeEntry_entry_of_ne _ _ _ he] at hne ⊢
      obtain ⟨c, hc, hblock, hbytes⟩ := h.entry t' i hne
      refine ⟨c, ?_, hblock, hbytes⟩
      rw [storeEntry_log_of_ne]
      · exact hc
      · intro hnew
        obtain ⟨rfl, hseq⟩ := Prod.mk.inj hnew
        rw [hseq, h.log_nextSeq hnext] at hc
        cases hc
  · -- the block was in no entry before
    by_cases he : e = (t, cfg.slotOf (shm.nextSeq t))
    · by_cases he' : e' = (t, cfg.slotOf (shm.nextSeq t))
      · rw [he, he']
      · rw [he, storeEntry_entry_self, storeEntry_entry_of_ne _ _ _ he'] at heq
        rw [he, storeEntry_entry_self] at hne
        exact absurd heq.symm (hfree e' (heq ▸ hne))
    · rw [storeEntry_entry_of_ne _ _ _ he] at hne heq
      by_cases he' : e' = (t, cfg.slotOf (shm.nextSeq t))
      · rw [he', storeEntry_entry_self] at heq
        exact absurd heq (hfree e hne)
      · rw [storeEntry_entry_of_ne _ _ _ he'] at heq
        exact h.unique e e' hne heq

end

end Shm.LogInv

/-! ### Steps and runs -/

/-- The block of a live loan is held. -/
theorem held_of_loan {p : Publisher cfg} {l : Loan cfg} (h : w.LoansOk)
    (hp : w.pubs[k]? = some (some p)) (hborrow : p.borrow = some l) : 0 < w.held l.blockIdx := by
  have hloan := h p l (List.mem_of_getElem? hp) hborrow
  have hle := le_listTally (fun o => heldBy o l.blockIdx) hp
  refine Nat.lt_of_lt_of_le ?_ hle
  show 0 < p.holds l.blockIdx
  by_cases hkind : l.kind = .pinned
  · obtain ⟨hne, hpinned⟩ := hloan.pinned hkind
    have htally := le_tally (fun x => (cell x).count l.blockIdx) p.pinnedBlocks l.topic
    rw [hpinned, count_cell hne, if_pos rfl] at htally
    unfold Publisher.holds Publisher.pinned
    omega
  · have hloaned : p.loaned l.blockIdx = 1 := by
      simp only [Publisher.loaned, hborrow, ne_eq, hkind, not_false_eq_true, true_and, if_true]
    unfold Publisher.holds
    omega

/-- The block of a live loan is in no ring entry. -/
theorem loan_not_in_ring {p : Publisher cfg} {l : Loan cfg} (hI : w.Counts limit) (h : w.LoansOk)
    (hp : w.pubs[k]? = some (some p)) (hborrow : p.borrow = some l) (e : cfg.EntryIdx)
    (hne : (w.shm.entry e).blockIdx ≠ noBlock) : (w.shm.entry e).blockIdx ≠ l.blockIdx := by
  intro heq
  have hpos := w.shm.referenced_of_entry w.sampled e hne
  rw [heq, Shm.Counted.referenced_of_held hI (held_of_loan h hp hborrow)] at hpos
  exact Nat.lt_irrefl 0 hpos

/-- No topic is about to run out of sequence numbers. -/
def SeqFits (w : World cfg) (a : Act cfg) : Prop :=
  match a with
  | .publishLoan _ => ∀ t, (w.shm.topic t).writeSeq + 1 < 2 ^ 64
  | .publish .. => ∀ t, (w.shm.topic t).writeSeq + 1 < 2 ^ 64
  | .publishTyped .. => ∀ t, (w.shm.topic t).writeSeq + 1 < 2 ^ 64
  | _ => True

/-- **Step** of the log. -/
theorem logInv_move {a : Act cfg} (hI : w.Counts limit) (hL : w.LoansOk) (h : w.shm.LogInv)
    (hfit : SeqFits w a) (hmove : Move w a w') : w'.shm.LogInv := by
  cases hmove with
  | stay | «open» | stream => exact h
  | claim hlen hnew hfree =>
    refine h.setTopic (fun _ => rfl) (fun ha => ?_)
    -- the entry was free
    have hfalse := List.find?_some hfree
    rw [ha] at hfalse
    cases hfalse
  | exhaust pool lastFreed cache hp hborrow => exact h.of_blocks ⟨pool, _, rfl⟩
  | loan pool lastFreed cache hp hborrow hkind hlen hactive hblock =>
    exact h.of_blocks ⟨pool, _, rfl⟩
  | pinRefused pool | pinNew pool =>
    exact (h.of_blocks ⟨pool, _, rfl⟩).setTopic (fun ha => ha) (fun _ => le_refl _)
  | pinAgain hp hborrow hactive hold hreaders =>
    exact h.setTopic (fun ha => ha) (fun _ => le_refl _)
  | edit hp hborrow hedit =>
    obtain ⟨⟨data, rfl⟩, _⟩ := Loan.edit_spec hedit
    refine h.frame rfl rfl (fun _ ha => ⟨ha, le_refl _⟩) (fun e hne => ?_)
    exact update_of_ne (loan_not_in_ring hI hL hp hborrow e hne) ..
  | publish hp hborrow hkind =>
    have hloan := hL _ _ (List.mem_of_getElem? hp) hborrow
    refine Shm.LogInv.of_blocks ?_ (commitToRing_shape ..).1
    have hlt := Shm.Counted.lt_of_held hI (held_of_loan hL hp hborrow)
    exact h.storeEntry hloan.active hlt hloan.len (hfit _)
      (loan_not_in_ring hI hL hp hborrow)
  | publishPinned hp hborrow hkind =>
    rename_i p l
    have hcommit : (commitPinned w.shm l.len l.topic).LogInv := by
      refine h.setTopic (fun ha => ha) (fun _ => ?_)
      show _ ≤ wrap64 _
      rw [wrap64_of_lt (hfit l.topic)]
      omega
    have hclear : ((commitPinned w.shm l.len l.topic).setReaders l.topic 0).LogInv :=
      hcommit.setTopic (fun ha => ha) (fun _ => le_refl _)
    exact hclear.frame rfl rfl (fun _ ha => ⟨ha, le_refl _⟩) (fun _ _ => rfl)
  | drop hp hborrow hkind => exact h.of_blocks ((Shm.SameButBlocks.refl _).free _)
  | dropPinned | dropGuard => exact h.setTopic (fun ha => ha) (fun _ => le_refl _)
  | dropPublisher hp hborrow => exact h.of_blocks (Shm.SameButBlocks.drop _ _)
  | receive len hs hnext => exact h.of_blocks ⟨_, _, rfl⟩
  | dropSample hs => exact h.of_blocks (Shm.SameButBlocks.release _ _)
  | receivePinned hs hrecv =>
    obtain ⟨_, rfl, _⟩ := Stream.tryRecvPinned_inv hrecv
    exact h.setTopic (fun ha => ha) (fun _ => le_refl _)

/-- What a stream has received: rising numbers up to its position. -/
def Stream.Ordered (s : Stream cfg) : Prop :=
  s.returned.Pairwise (· < ·) ∧ ∀ q ∈ s.returned, q ≤ s.lastSeq

/-- A message above the position of the stream. -/
theorem Stream.Ordered.advance {s : Stream cfg} (h : s.Ordered) {q : Nat} (hq : s.lastSeq < q) :
    (s.advance q).Ordered := by
  obtain ⟨hsorted, hle⟩ := h
  refine ⟨List.pairwise_append.mpr ⟨hsorted, List.pairwise_singleton _ q, fun q₁ h₁ q₂ h₂ => ?_⟩,
    fun q' hmem => ?_⟩
  · rw [List.mem_singleton.mp h₂]
    exact Nat.lt_of_le_of_lt (hle q₁ h₁) hq
  · show q' ≤ q
    rcases List.mem_append.mp hmem with hold | hnew
    · exact Nat.le_of_lt (Nat.lt_of_le_of_lt (hle q' hold) hq)
    · exact Nat.le_of_eq (List.mem_singleton.mp hnew)

/-- **Step** of the streams. -/
theorem ordered_move {a : Act cfg} (h : ∀ s ∈ w.streams, s.Ordered) (hmove : Move w a w') :
    ∀ s ∈ w'.streams, s.Ordered := by
  cases hmove with
  | stream lastSeq hfind =>
    intro s hs
    rcases List.mem_append.mp hs with hold | hnew
    · exact h s hold
    · rw [List.mem_singleton.mp hnew]
      exact ⟨.nil, nofun⟩
  | receive len hs hnext =>
    intro s' hs'
    rcases List.mem_or_eq_of_mem_set hs' with hold | heq
    · exact h s' hold
    · rw [heq]
      have habove := hnext.above
      exact (h _ (List.mem_of_getElem? hs)).advance (by unfold Stream.behind at habove; omega)
  | receivePinned hs hrecv =>
    obtain ⟨hnext, _, rfl, _⟩ := Stream.tryRecvPinned_inv hrecv
    intro s' hs'
    rcases List.mem_or_eq_of_mem_set hs' with hold | heq
    · exact h s' hold
    · rw [heq]
      obtain ⟨hsorted, hle⟩ := h _ (List.mem_of_getElem? hs)
      exact ⟨hsorted, fun q hq => Nat.le_of_lt (Nat.lt_of_le_of_lt (hle q hq) hnext.above)⟩
  | _ => exact h

/-! ### Whole runs -/

/-- **Step rule.** What a move keeps, given the balance and the loans, every call keeps together
    with them. -/
theorem books_step {ok : World cfg → Act cfg → Prop} {X : World cfg → Prop} (hexp : Expands ok)
    (hX : ∀ {w a w'}, w.Counts (2 ^ 32) → w.LoansOk → X w → ok w a → step w a = some w' →
      Move w a w' → X w')
    {a : Act cfg} (h : w.Counts (2 ^ 32) ∧ w.LoansOk ∧ X w) (hok : ok w a)
    (hstep : step w a = some w') : w'.Counts (2 ^ 32) ∧ w'.LoansOk ∧ X w' := by
  refine step_rule (I := fun w => w.Counts (2 ^ 32) ∧ w.LoansOk ∧ X w) hexp
    (fun ha h hok hstep => ?_) h hok hstep
  obtain ⟨hI, hL, hx⟩ := h
  have hmove := step_move hI ha hstep
  exact ⟨counts_step hI hstep, loansOk_move hL hmove, hX hI hL hx hok hstep hmove⟩

/-- The balance and the loans alone. -/
theorem books_call {a : Act cfg} (h : w.Counts (2 ^ 32) ∧ w.LoansOk) (hstep : step w a = some w') :
    w'.Counts (2 ^ 32) ∧ w'.LoansOk := by
  obtain ⟨hI, hL, -⟩ := books_step (X := fun _ => True) always_expands
    (fun _ _ _ _ _ _ => trivial) ⟨h.1, h.2, trivial⟩ trivial hstep
  exact ⟨hI, hL⟩

/-- A new region has no loans. -/
theorem loansOk_create (id : Nat) : (create cfg id).LoansOk := by
  intro p l hp hborrow
  cases Option.some.inj (List.mem_singleton.mp hp)
  cases hborrow

/-- **Run rule.** Likewise along every run from a new region. -/
theorem books_run {ok : World cfg → Act cfg → Prop} {X : World cfg → Prop} (hexp : Expands ok)
    (hX : ∀ {w a w'}, w.Counts (2 ^ 32) → w.LoansOk → X w → ok w a → step w a = some w' →
      Move w a w' → X w')
    {id : Nat} {as : List (Act cfg)} (hrun : Run step ok (create cfg id) as w)
    (h₀ : X (create cfg id)) : w.Counts (2 ^ 32) ∧ w.LoansOk ∧ X w :=
  hrun.invariant (I := fun w => w.Counts (2 ^ 32) ∧ w.LoansOk ∧ X w)
    ⟨counts_create id (by norm_num), loansOk_create id, h₀⟩
    (fun _ _ _ h hok hstep => books_step hexp hX h hok hstep)

/-- No counter overflows in the call. -/
def Fits (w : World cfg) (a : Act cfg) : Prop := Unsaturated w a ∧ SeqFits w a

instance (w : World cfg) (a : Act cfg) : Decidable (SeqFits w a) :=
  match a with
  | .publishLoan _ => inferInstanceAs (Decidable (∀ _ : cfg.Topic, _))
  | .publish .. => inferInstanceAs (Decidable (∀ _ : cfg.Topic, _))
  | .publishTyped .. => inferInstanceAs (Decidable (∀ _ : cfg.Topic, _))
  | .open .. | .register .. | .registerTyped .. => .isTrue trivial
  | .loan .. | .loanTyped .. | .loanPinned .. => .isTrue trivial
  | .edit .. | .dropLoan .. | .tryRecv .. | .tryRecvTyped .. => .isTrue trivial
  | .dropPublisher .. | .subscribe .. | .waitForPeer .. | .dropSample .. => .isTrue trivial
  | .tryRecvPinned .. | .dropGuard .. => .isTrue trivial

instance (w : World cfg) (a : Act cfg) : Decidable (Fits w a) :=
  inferInstanceAs (Decidable (_ ∧ _))

/-- The loan in a publish does not change the numbers. -/
theorem seqFits_expands : Expands (SeqFits : World cfg → Act cfg → Prop) where
  loan _ _ _ _ _ := trivial
  loanTyped _ _ _ _ _ _ := trivial
  edit _ _ _ := trivial
  publish w w₂ k h data hok hthere := by
    show ∀ t, (w₂.shm.topic t).writeSeq + 1 < 2 ^ 64
    rw [hthere.topic]
    exact hok
  publishTyped w w₂ k h size value hok hthere := by
    show ∀ t, (w₂.shm.topic t).writeSeq + 1 < 2 ^ 64
    rw [hthere.topic]
    exact hok
  drop _ _ _ _ _ := trivial

/-- The condition is about basic calls only. -/
theorem fits_expands : Expands (Fits : World cfg → Act cfg → Prop) :=
  unsaturated_expands.and seqFits_expands

/-- The four invariants together. -/
structure World.Sound (w : World cfg) : Prop where
  blocks : w.Inv
  loans : w.LoansOk
  log : w.shm.LogInv
  streams : ∀ s ∈ w.streams, s.Ordered

/-- **Step.** -/
theorem sound_step {a : Act cfg} (h : w.Sound) (hok : Fits w a) (hstep : step w a = some w') :
    w'.Sound := by
  obtain ⟨-, hL, hlog, hstreams⟩ :=
    books_step (X := fun w => w.shm.LogInv ∧ ∀ s ∈ w.streams, s.Ordered) fits_expands
      (fun hI hL h hok _ hmove =>
        ⟨logInv_move hI hL h.1 hok.2 hmove, ordered_move h.2 hmove⟩)
      ⟨h.blocks.counts, h.loans, h.log, h.streams⟩ hok hstep
  exact ⟨inv_step h.blocks hok.1 hstep, hL, hlog, hstreams⟩

/-- A new region. -/
theorem sound_create (id : Nat) : (create cfg id).Sound := by
  refine ⟨inv_create id, loansOk_create id, ⟨nofun, nofun, fun t i hne => ?_,
    fun e e' hne _ => ?_⟩, nofun⟩
  · exact absurd rfl hne
  · exact absurd rfl hne

/-- **Run.** -/
theorem sound_run {id : Nat} {as : List (Act cfg)} (hrun : Run step Fits (create cfg id) as w) :
    w.Sound :=
  hrun.invariant (sound_create id) (fun _ _ _ h hok hstep => sound_step h hok hstep)

end Crossbar.Region
