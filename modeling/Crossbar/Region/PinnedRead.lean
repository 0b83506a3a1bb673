import Crossbar.Region.Pinned

namespace Crossbar.Region

open Function Crossbar.Lib Crossbar.Pool

/-!
# Region — what a pinned guard reads

All pinned publishes of a topic go through one block, while the number and the length of the
last one are in a word of their own.  A `PinnedLoan` that is dropped clears the writer
sentinel and leaves that word as it is.

* `ReadersInv` — between calls the readers word of a topic is `PINNED_WRITER_ACTIVE` while a
  `PinnedLoan` is live and the number of live guards otherwise, for any number of publishers;
* `PinRead` — with one publisher, the block of a topic holds the bytes of the last pinned
  publish whenever no loan of it is live, and every guard reads the publish it names;
* `pinned_read_returns_publish` — under the condition that a `PinnedLoan` is dropped only when
  the block holds the bytes of the last publish; `abandoned_loan_is_visible` is what happens
  otherwise.
-/

variable {cfg : ValidConfig} {w w' : World cfg} {k : Nat}

/-! ### The readers word -/

/-- Whether `p` has a live `PinnedLoan` of topic `t`. -/
def Publisher.writes (p : Publisher cfg) (t : cfg.Topic) : Nat :=
  match p.borrow with
  | some l => if l.kind = .pinned ∧ l.topic = t then 1 else 0
  | none => 0

/-- The live `PinnedLoan`s of topic `t`. -/
def World.writersOn (w : World cfg) (t : cfg.Topic) : Nat :=
  listTally (fun o => o.elim 0 (·.writes t)) w.pubs

/-- Whether a guard that may have been dropped is one of topic `t`. -/
def guardOf (t : cfg.Topic) (o : Option (PinnedGuard cfg)) : Nat :=
  match o with
  | some g => if g.topic = t then 1 else 0
  | none => 0

/-- The live guards of topic `t`. -/
def World.guardsOn (w : World cfg) (t : cfg.Topic) : Nat := listTally (guardOf t) w.guards

/-- The readers word counts the guards, or is the writer sentinel. -/
def World.ReadersInv (w : World cfg) : Prop :=
  ∀ t, (w.shm.topic t).pinnedReaders = w.guardsOn t + pinnedWriterActive * w.writersOn t ∧
    (w.shm.topic t).pinnedReaders < 2 ^ 32

/-- Without a loan nothing is written. -/
theorem writes_idle {p : Publisher cfg} (h : p.borrow = none) (t : cfg.Topic) : p.writes t = 0 := by
  unfold Publisher.writes
  rw [h]

/-- A loan for the ring is not a pinned one. -/
theorem writes_ring {p : Publisher cfg} {l : Loan cfg} (h : p.borrow = some l)
    (hkind : l.kind ≠ .pinned) (t : cfg.Topic) : p.writes t = 0 := by
  unfold Publisher.writes
  rw [h]
  exact if_neg (fun hl => hkind hl.1)

/-- A pinned loan is of one topic. -/
theorem writes_pinned {p : Publisher cfg} {l : Loan cfg} (h : p.borrow = some l)
    (hkind : l.kind = .pinned) (t : cfg.Topic) :
    p.writes t = if t = l.topic then 1 else 0 := by
  unfold Publisher.writes
  rw [h]
  simp only [hkind, true_and, eq_comm (a := t)]

/-- One publisher changes. -/
theorem writersOn_set {p : Publisher cfg} {o : Option (Publisher cfg)}
    (hp : w.pubs[k]? = some (some p)) (hpubs : w'.pubs = w.pubs.set k o) (t : cfg.Topic) :
    w'.writersOn t + p.writes t = w.writersOn t + o.elim 0 (·.writes t) := by
  unfold World.writersOn
  rw [hpubs]
  exact listTally_set (fun o : Option (Publisher cfg) => o.elim 0 (·.writes t)) o hp

namespace World.ReadersInv

/-- No guard, no loan and no word changes. -/
theorem frame (h : w.ReadersInv)
    (hword : ∀ t, (w'.shm.topic t).pinnedReaders = (w.shm.topic t).pinnedReaders)
    (hguards : w'.guards = w.guards) (hwriters : ∀ t, w'.writersOn t = w.writersOn t) :
    w'.ReadersInv := by
  intro t
  unfold World.guardsOn
  rw [hword, hguards, hwriters]
  exact h t

/-- A publisher changes but for its pinned loan. -/
theorem of_pub (h : w.ReadersInv) {p p' : Publisher cfg} (hp : w.pubs[k]? = some (some p))
    (hpubs : w'.pubs = w.pubs.set k (some p')) (hwrites : ∀ t, p'.writes t = p.writes t)
    (hword : ∀ t, (w'.shm.topic t).pinnedReaders = (w.shm.topic t).pinnedReaders)
    (hguards : w'.guards = w.guards) : w'.ReadersInv := by
  refine h.frame hword hguards (fun t => ?_)
  have hset := writersOn_set hp hpubs t
  simp only [Option.elim_some, hwrites] at hset
  omega

/-- The word of one topic changes with its guards and writers. -/
theorem set_word (h : w.ReadersInv) {t₀ : cfg.Topic} {v : Nat}
    (hword : ∀ t, (w'.shm.topic t).pinnedReaders =
      if t = t₀ then v else (w.shm.topic t).pinnedReaders)
    (hself : v = w'.guardsOn t₀ + pinnedWriterActive * w'.writersOn t₀ ∧ v < 2 ^ 32)
    (hguards : ∀ t, t ≠ t₀ → w'.guardsOn t = w.guardsOn t)
    (hwriters : ∀ t, t ≠ t₀ → w'.writersOn t = w.writersOn t) : w'.ReadersInv := by
  intro t
  by_cases ht : t = t₀
  · subst ht
    rw [hword, if_pos rfl]
    exact hself
  · rw [hword, if_neg ht, hguards t ht, hwriters t ht]
    exact h t

/-- `loan_pinned` finds no reader and sets the sentinel. -/
theorem acquire (h : w.ReadersInv) {p p' : Publisher cfg} {t₀ : cfg.Topic} {l : Loan cfg}
    (hp : w.pubs[k]? = some (some p)) (hborrow : p.borrow = none)
    (hpubs : w'.pubs = w.pubs.set k (some p')) (hborrow' : p'.borrow = some l)
    (hkind : l.kind = .pinned) (htopic : l.topic = t₀)
    (hfree : (w.shm.topic t₀).pinnedReaders = 0)
    (hword : ∀ t, (w'.shm.topic t).pinnedReaders =
      if t = t₀ then pinnedWriterActive else (w.shm.topic t).pinnedReaders)
    (hguards : w'.guards = w.guards) : w'.ReadersInv := by
  have hset := writersOn_set hp hpubs
  simp only [Option.elim_some, writes_idle hborrow, writes_pinned hborrow' hkind, htopic] at hset
  have hcount (t : cfg.Topic) : w'.guardsOn t = w.guardsOn t := by
    unfold World.guardsOn
    rw [hguards]
  refine h.set_word hword ?_ (fun t _ => hcount t) (fun t ht => ?_)
  · have hold := (h t₀).1
    have hself := hset t₀
    rw [if_pos rfl] at hself
    rw [hcount]
    unfold pinnedWriterActive at *
    constructor <;> omega
  · have hother := hset t
    rw [if_neg ht] at hother
    omega

/-- `publish` and `drop` of a `PinnedLoan` clear the word. -/
theorem clear (h : w.ReadersInv) {p p' : Publisher cfg} {l : Loan cfg}
    (hp : w.pubs[k]? = some (some p)) (hborrow : p.borrow = some l) (hkind : l.kind = .pinned)
    (hpubs : w'.pubs = w.pubs.set k (some p')) (hborrow' : p'.borrow = none)
    (hword : ∀ t, (w'.shm.topic t).pinnedReaders =
      if t = l.topic then 0 else (w.shm.topic t).pinnedReaders)
    (hguards : w'.guards = w.guards) : w'.ReadersInv := by
  have hset := writersOn_set hp hpubs
  simp only [Option.elim_some, writes_idle hborrow', writes_pinned hborrow hkind] at hset
  have hcount (t : cfg.Topic) : w'.guardsOn t = w.guardsOn t := by
    unfold World.guardsOn
    rw [hguards]
  refine h.set_word hword ?_ (fun t _ => hcount t) (fun t ht => ?_)
  · obtain ⟨hold, hlt⟩ := h l.topic
    have hself := hset l.topic
    rw [if_pos rfl] at hself
    rw [hcount]
    unfold pinnedWriterActive at *
    constructor <;> omega
  · have hother := hset t
    rw [if_neg ht] at hother
    omega

/-- `try_recv_pinned` finds no sentinel and counts a reader. -/
theorem enter (h : w.ReadersInv) {g : PinnedGuard cfg}
    (hfree : (w.shm.topic g.topic).pinnedReaders ≠ pinnedWriterActive)
    (hguards : w'.guards = w.guards ++ [some g]) (hpubs : w'.pubs = w.pubs)
    (hword : ∀ t, (w'.shm.topic t).pinnedReaders = if t = g.topic then
      wrap32 ((w.shm.topic g.topic).pinnedReaders + 1) else (w.shm.topic t).pinnedReaders) :
    w'.ReadersInv := by
  have hcount (t : cfg.Topic) : w'.guardsOn t = w.guardsOn t + if g.topic = t then 1 else 0 := by
    unfold World.guardsOn
    rw [hguards, listTally_append]
    rfl
  have hwriters (t : cfg.Topic) : w'.writersOn t = w.writersOn t := by
    unfold World.writersOn
    rw [hpubs]
  refine h.set_word hword ?_ (fun t ht => ?_) (fun t _ => hwriters t)
  · obtain ⟨hold, hlt⟩ := h g.topic
    rw [hcount, hwriters, if_pos rfl]
    unfold pinnedWriterActive at *
    rw [wrap32_of_lt (by omega)]
    constructor <;> omega
  · rw [hcount, if_neg (Ne.symm ht), Nat.add_zero]

/-- A writer excludes guards, and there is one. -/
theorem alone (h : w.ReadersInv) {t : cfg.Topic} (hwriter : 0 < w.writersOn t) :
    w.guardsOn t = 0 ∧ w.writersOn t = 1 := by
  obtain ⟨hword, hlt⟩ := h t
  unfold pinnedWriterActive at hword
  constructor <;> omega

/-- `Drop for PinnedGuard` takes the reader off. -/
theorem leave (h : w.ReadersInv) {j : Nat} {g : PinnedGuard cfg} (hg : w.guards[j]? = some (some g))
    (hguards : w'.guards = w.guards.set j none) (hpubs : w'.pubs = w.pubs)
    (hword : ∀ t, (w'.shm.topic t).pinnedReaders = if t = g.topic then
      dec32 (w.shm.topic g.topic).pinnedReaders else (w.shm.topic t).pinnedReaders) :
    w'.ReadersInv := by
  have hcount (t : cfg.Topic) :
      w'.guardsOn t + (if g.topic = t then 1 else 0) = w.guardsOn t := by
    unfold World.guardsOn
    rw [hguards]
    exact listTally_set (guardOf t) none hg
  have hwriters (t : cfg.Topic) : w'.writersOn t = w.writersOn t := by
    unfold World.writersOn
    rw [hpubs]
  refine h.set_word hword ?_ (fun t ht => ?_) (fun t _ => hwriters t)
  · obtain ⟨hold, hlt⟩ := h g.topic
    have hself := hcount g.topic
    rw [if_pos rfl] at hself
    -- the guard that leaves shows that there is no writer
    have hwriter : w.writersOn g.topic = 0 := by
      by_contra hne
      have halone := h.alone (Nat.pos_of_ne_zero hne)
      omega
    rw [hwriters, hwriter]
    rw [hwriter] at hold
    rw [dec32_of_pos (by omega) hlt]
    constructor <;> omega
  · have hother := hcount t
    rwa [if_neg (Ne.symm ht)] at hother

end World.ReadersInv

/-- The reader word after a store of one entry. -/
theorem setTopic_readers {shm : Shm cfg} {t : cfg.Topic} {e : TopicEntry} (t' : cfg.Topic) :
    ((shm.setTopic t e).topic t').pinnedReaders =
      if t' = t then e.pinnedReaders else (shm.topic t').pinnedReaders := by
  split
  · rename_i ht
    rw [ht, Shm.setTopic_self]
  · rename_i ht
    rw [Shm.setTopic_of_ne _ _ ht]

/-- An entry whose readers word stays. -/
theorem setTopic_readers_same {shm : Shm cfg} {t : cfg.Topic} {e : TopicEntry}
    (he : e.pinnedReaders = (shm.topic t).pinnedReaders) (t' : cfg.Topic) :
    ((shm.setTopic t e).topic t').pinnedReaders = (shm.topic t').pinnedReaders := by
  rw [setTopic_readers, he]
  split
  · rename_i ht
    rw [ht]
  · rfl

/-- **Step** of the readers words. -/
theorem readersInv_move {a : Act cfg} (h : w.ReadersInv) (hmove : Move w a w') : w'.ReadersInv := by
  cases hmove with
  | stay => exact h
  | «open» id =>
    refine h.frame (fun _ => rfl) rfl (fun t => ?_)
    show listTally _ (w.pubs ++ [some (.fresh cfg id)]) = _
    rw [listTally_append]
    rfl
  | claim hlen hnew hfree => exact h.frame (setTopic_readers_same rfl) rfl (fun _ => rfl)
  | exhaust pool lastFreed cache hp hborrow =>
    exact h.of_pub hp rfl (fun _ => rfl) (fun _ => rfl) rfl
  | loan pool lastFreed cache hp hborrow hkind hlen hactive hblock =>
    refine h.of_pub hp rfl (fun t => ?_) (fun _ => rfl) rfl
    rw [writes_idle hborrow]
    exact writes_ring rfl hkind t
  | pinRefused pool lastFreed cache b hp hborrow hb hactive hnew hreaders =>
    exact h.of_pub hp rfl (fun _ => rfl) (setTopic_readers_same rfl) rfl
  -- the sentinel is stored only over a count of 0
  | pinNew pool lastFreed cache b hp hborrow hb hactive hnew hreaders
  | pinAgain hp hborrow hactive hold hreaders =>
    exact h.acquire hp hborrow rfl rfl rfl rfl hreaders setTopic_readers rfl
  | edit hp hborrow hedit =>
    obtain ⟨⟨data, rfl⟩, ⟨len, rfl⟩, _⟩ := Loan.edit_spec hedit
    refine h.of_pub hp rfl (fun t => ?_) (fun _ => rfl) rfl
    unfold Publisher.writes
    rw [hborrow]
  | publish hp hborrow hkind =>
    rename_i p l
    obtain ⟨hblocks, lastFreed, hpub⟩ :=
      commitToRing_shape w.shm { p with borrow := none } l.blockIdx l.len l.topic
    refine h.of_pub hp rfl (fun t => ?_) (fun t => ?_) rfl
    · rw [hpub, writes_ring hborrow hkind]
      exact writes_idle rfl t
    · show ((commitToRing _ _ _ _ _).1.topic t).pinnedReaders = _
      rw [hblocks.topic_eq]
      exact setTopic_readers_same (e := { w.shm.topic l.topic with
        writeSeq := w.shm.nextSeq l.topic }) rfl t
  -- the end of a pinned loan takes the sentinel away
  | publishPinned hp hborrow hkind =>
    rename_i p l
    refine h.clear hp hborrow hkind rfl rfl (fun t => ?_) rfl
    show ((l.publishPinned w.shm).topic t).pinnedReaders = _
    split
    · rename_i ht
      rw [ht, l.publishPinned_topic]
    · rename_i ht
      rw [l.publishPinned_topic_of_ne _ ht]
  | drop hp hborrow hkind =>
    refine h.of_pub hp rfl (fun t => ?_) (fun _ => rfl) rfl
    rw [writes_ring hborrow hkind]
    exact writes_idle rfl t
  | dropPinned hp hborrow hkind => exact h.clear hp hborrow hkind rfl rfl setTopic_readers rfl
  | dropPublisher hp hborrow =>
    rename_i p
    refine h.frame (fun t => ?_) rfl (fun t => ?_)
    · show ((p.drop w.shm).topic t).pinnedReaders = _
      rw [(Shm.SameButBlocks.drop w.shm p).topic_eq]
    · have hset := listTally_set (fun o : Option (Publisher cfg) => o.elim 0 (·.writes t)) none hp
      simp only [Option.elim_some, writes_idle hborrow] at hset
      exact hset
  | stream | receive => exact h.frame (fun _ => rfl) rfl (fun _ => rfl)
  | dropSample hs =>
    refine h.frame (fun t => ?_) rfl (fun _ => rfl)
    show ((w.shm.release _).topic t).pinnedReaders = _
    rw [(Shm.SameButBlocks.release ..).topic_eq]
  | receivePinned hs hrecv =>
    obtain ⟨hnext, rfl, rfl, rfl⟩ := Stream.tryRecvPinned_inv hrecv
    exact h.enter hnext.noWriter rfl rfl setTopic_readers
  | dropGuard hg => exact h.leave hg rfl rfl setTopic_readers

/-! ### The bytes of the block -/

/-- The packed word of a pinned publish. -/
def pinnedWord (q : Nat) (c : Ring.Claim) : Nat := ((q &&& 0xFFFFFFFF) <<< 32) ||| c.dataLen

/-- The block of a publish still holds its bytes. -/
def Shm.Intact (shm : Shm cfg) (c : Ring.Claim) : Prop :=
  ∀ i < c.dataLen, shm.data c.blockIdx i = c.bytes i

/-- Only the payloads count. -/
theorem Shm.Intact.of_data {shm shm' : Shm cfg} {c : Ring.Claim} (h : shm.Intact c)
    (hdata : shm'.data = shm.data) : shm'.Intact c := by
  intro i hi
  rw [hdata]
  exact h i hi

/-- What one publisher keeps between calls. -/
structure PinRead (w : World cfg) (p : Publisher cfg) : Prop where
  pubs : w.pubs = [some p]
  /-- the last pinned publish is in the block of its topic, unless a loan may have overwritten
      it -/
  published : ∀ t, (w.shm.topic t).pinnedSeq ≠ 0 → ∃ q c,
    (w.shm.topic t).pinnedSeq = pinnedWord q c ∧ w.shm.lastPinned t = some (q, c) ∧
    c.blockIdx = p.pinnedBlocks t ∧ c.blockIdx ≠ noBlock ∧ c.dataLen ≤ cfg.dataCapacity ∧
    (p.writes t = 0 → w.shm.Intact c)
  /-- a guard is of the pinned block of its topic, and reads the last publish -/
  guard : ∀ g, some g ∈ w.guards → ∃ q c, q % 2 ^ 32 = g.seq ∧
    w.shm.lastPinned g.topic = some (q, c) ∧ c.blockIdx = p.pinnedBlocks g.topic ∧
    c.blockIdx ≠ noBlock ∧ c.blockIdx = g.blockIdx ∧ c.dataLen = g.len ∧ w.shm.Intact c

/-- The only publisher is the only writer. -/
theorem writersOn_one {p : Publisher cfg} (hpubs : w.pubs = [some p]) (t : cfg.Topic) :
    w.writersOn t = p.writes t := by
  unfold World.writersOn
  rw [hpubs]
  rfl

/-- The block of a loan is not the pinned block of a topic, unless it is a `PinnedLoan` of that
    topic. -/
theorem loan_ne_pinned {limit : Nat} {p : Publisher cfg} {l : Loan cfg} (hI : w.Counts limit)
    (hL : w.LoansOk) (hp : w.pubs[k]? = some (some p)) (hborrow : p.borrow = some l) {t : cfg.Topic}
    (hne : p.pinnedBlocks t ≠ noBlock) (hwrites : p.writes t = 0) :
    p.pinnedBlocks t ≠ l.blockIdx := by
  intro heq
  have hmem := List.mem_of_getElem? hp
  obtain ⟨_, _, _, hloaned, _⟩ := PinHeld.alone hI
    ⟨p.pinnedBlocks, t, List.mem_map.mpr ⟨some p, hmem, rfl⟩, rfl, hne⟩
  by_cases hkind : l.kind = .pinned
  · -- a block is pinned for one topic only
    obtain ⟨_, hpinned⟩ := (hL p l hmem hborrow).pinned hkind
    rw [writes_pinned hborrow hkind] at hwrites
    have ht : t ≠ l.topic := fun ht => by rw [if_pos ht] at hwrites; cases hwrites
    have htwo := add_le_tally (fun x => (cell x).count (p.pinnedBlocks t)) p.pinnedBlocks ht
    rw [hpinned, ← heq, count_cell hne, if_pos rfl] at htwo
    have hle := le_listTally (fun o => heldBy o (p.pinnedBlocks t)) hp
    have hheld : w.held (p.pinnedBlocks t) ≤ 1 := by
      obtain ⟨c, _, hplaces⟩ := hI.chain
      have hb := hplaces (p.pinnedBlocks t)
      split at hb <;> omega
    have hholds : p.pinned (p.pinnedBlocks t) ≤ p.holds (p.pinnedBlocks t) := by
      unfold Publisher.holds
      omega
    have hheld' : p.holds (p.pinnedBlocks t) ≤ w.held (p.pinnedBlocks t) := hle
    have hpinned' : 2 ≤ p.pinned (p.pinnedBlocks t) := htwo
    omega
  · -- the block of a ring loan is loaned, not pinned
    have hone : p.loaned (p.pinnedBlocks t) = 1 := by
      simp only [Publisher.loaned, hborrow, ne_eq, hkind, not_false_eq_true, true_and, heq, if_true]
    have hle := le_listTally (fun o : Option (Publisher cfg) =>
      o.elim 0 (·.loaned (p.pinnedBlocks t))) hp
    have hle' : p.loaned (p.pinnedBlocks t) ≤ w.loaned (p.pinnedBlocks t) := hle
    omega

namespace PinRead

variable {p p' : Publisher cfg}

/-- The publisher is one of the world. -/
theorem mem_pubs (h : PinRead w p) : some p ∈ w.pubs := by
  rw [h.pubs]
  exact List.mem_singleton_self _

/-- A topic with a live guard is not being written. -/
theorem writes_of_guard (h : PinRead w p) (hR : w.ReadersInv) {g : PinnedGuard cfg}
    (hg : some g ∈ w.guards) : p.writes g.topic = 0 := by
  obtain ⟨j, hj⟩ := List.mem_iff_getElem?.mp hg
  have hle := le_listTally (guardOf g.topic) hj
  have hone : guardOf g.topic (some g) = 1 := if_pos rfl
  by_contra hne
  rw [← writersOn_one h.pubs] at hne
  have halone := (hR.alone (Nat.pos_of_ne_zero hne)).1
  unfold World.guardsOn at halone
  omega

/-- Calls that publish nothing pinned and end no `PinnedLoan`. -/
theorem frame (h : PinRead w p) (hR : w.ReadersInv) (hpubs : w'.pubs = [some p'])
    (hpins : ∀ t, p.pinnedBlocks t ≠ noBlock → p'.pinnedBlocks t = p.pinnedBlocks t)
    (hwrites : ∀ t, p'.writes t = 0 → p.writes t = 0)
    (hseq : ∀ t, (w'.shm.topic t).pinnedSeq = (w.shm.topic t).pinnedSeq)
    (hlog : w'.shm.lastPinned = w.shm.lastPinned)
    (hdata : ∀ t, p.pinnedBlocks t ≠ noBlock → p.writes t = 0 →
      w'.shm.data (p.pinnedBlocks t) = w.shm.data (p.pinnedBlocks t))
    (hguards : ∀ g, some g ∈ w'.guards → some g ∈ w.guards) : PinRead w' p' := by
  -- what is intact stays so, outside the topic that is being written
  have hintact : ∀ t c, c.blockIdx = p.pinnedBlocks t → c.blockIdx ≠ noBlock → p.writes t = 0 →
      w.shm.Intact c → w'.shm.Intact c := by
    intro t c hblock hne hw hc i hi
    rw [hblock] at hne
    rw [hblock, hdata t hne hw, ← hblock]
    exact hc i hi
  refine ⟨hpubs, fun t ht => ?_, fun g hg => ?_⟩
  · rw [hseq] at ht
    obtain ⟨q, c, hword, hc, hblock, hne, hlen, hbytes⟩ := h.published t ht
    refine ⟨q, c, ?_, ?_, ?_, hne, hlen, fun hw => ?_⟩
    · rw [hseq]
      exact hword
    · rw [hlog]
      exact hc
    · rw [hpins t (hblock ▸ hne)]
      exact hblock
    · exact hintact t c hblock hne (hwrites t hw) (hbytes (hwrites t hw))
  · obtain ⟨q, c, hnum, hc, hblock, hne, hsame, hlen, hbytes⟩ := h.guard g (hguards g hg)
    refine ⟨q, c, hnum, ?_, ?_, hne, hsame, hlen, ?_⟩
    · rw [hlog]
      exact hc
    · rw [hpins g.topic (hblock ▸ hne)]
      exact hblock
    · exact hintact g.topic c hblock hne (h.writes_of_guard hR (hguards g hg)) hbytes

/-- A `PinnedLoan` is published. -/
theorem publishPinned (h : PinRead w p) (hR : w.ReadersInv) (hL : w.LoansOk) {l : Loan cfg}
    (hborrow : p.borrow = some l) (hkind : l.kind = .pinned)
    (hpubs : w'.pubs = [some p']) (hpins : p'.pinnedBlocks = p.pinnedBlocks)
    (hshm : w'.shm = l.publishPinned w.shm) (hguards : w'.guards = w.guards) : PinRead w' p' := by
  have hloan := hL p l h.mem_pubs hborrow
  obtain ⟨hne, hpinned⟩ := hloan.pinned hkind
  have hlogOther : ∀ t, t ≠ l.topic → w'.shm.lastPinned t = w.shm.lastPinned t := fun t ht => by
    rw [hshm]
    exact update_of_ne ht ..
  have hdata : w'.shm.data = w.shm.data := by rw [hshm]; rfl
  refine ⟨hpubs, fun t ht => ?_, fun g hg => ?_⟩
  · by_cases htl : t = l.topic
    · subst htl
      refine ⟨w.shm.nextSeq l.topic, ⟨l.blockIdx, l.len, w.shm.data l.blockIdx⟩, ?_, ?_, ?_, hne,
        hloan.len, fun _ i _ => ?_⟩
      · rw [hshm, l.publishPinned_topic]
        rfl
      · rw [hshm]
        exact update_self ..
      · rw [hpins]
        exact hpinned.symm
      · rw [hdata]
    · -- another topic: nothing of it has changed, and the loan was not one of it
      have hseq : (w'.shm.topic t).pinnedSeq = (w.shm.topic t).pinnedSeq := by
        rw [hshm, l.publishPinned_topic_of_ne _ htl]
      rw [hseq] at ht ⊢
      obtain ⟨q, c, hword, hc, hblock, hne, hlen, hbytes⟩ := h.published t ht
      refine ⟨q, c, hword, ?_, ?_, hne, hlen, fun _ => (hbytes ?_).of_data hdata⟩
      · rw [hlogOther t htl]
        exact hc
      · rw [hpins]
        exact hblock
      · rw [writes_pinned hborrow hkind, if_neg htl]
  · -- a guard is of another topic than the one that was being written
    rw [hguards] at hg
    have hwrites := h.writes_of_guard hR hg
    rw [writes_pinned hborrow hkind] at hwrites
    have hother : g.topic ≠ l.topic := fun heq => by rw [if_pos heq] at hwrites; cases hwrites
    obtain ⟨q, c, hnum, hc, hblock, hne, hsame, hlen, hbytes⟩ := h.guard g hg
    refine ⟨q, c, hnum, ?_, ?_, hne, hsame, hlen, hbytes.of_data hdata⟩
    · rw [hlogOther g.topic hother]
      exact hc
    · rw [hpins]
      exact hblock

/-- A `PinnedLoan` is dropped with the bytes of the last publish in its block. -/
theorem dropPinned (h : PinRead w p) (hL : w.LoansOk) {l : Loan cfg}
    (hborrow : p.borrow = some l) (hkind : l.kind = .pinned)
    (hkept : ∀ x ∈ w.shm.lastPinned l.topic,
      ∀ i < x.2.dataLen, w.shm.data l.blockIdx i = x.2.bytes i)
    (hpubs : w'.pubs = [some p']) (hpins : p'.pinnedBlocks = p.pinnedBlocks)
    (hseq : ∀ t, (w'.shm.topic t).pinnedSeq = (w.shm.topic t).pinnedSeq)
    (hlog : w'.shm.lastPinned = w.shm.lastPinned) (hdata : w'.shm.data = w.shm.data)
    (hguards : w'.guards = w.guards) : PinRead w' p' := by
  obtain ⟨_, hpinned⟩ := (hL p l h.mem_pubs hborrow).pinned hkind
  refine ⟨hpubs, fun t ht => ?_, fun g hg => ?_⟩
  · rw [hseq] at ht ⊢
    obtain ⟨q, c, hword, hc, hblock, hne, hlen, hbytes⟩ := h.published t ht
    rw [hpins, hlog]
    refine ⟨q, c, hword, hc, hblock, hne, hlen, fun _ => Shm.Intact.of_data ?_ hdata⟩
    by_cases htl : t = l.topic
    · subst htl
      intro i hi
      rw [hblock, hpinned]
      exact hkept (q, c) hc i hi
    · exact hbytes (by rw [writes_pinned hborrow hkind, if_neg htl])
  · rw [hguards] at hg
    rw [hpins, hlog]
    obtain ⟨q, c, hnum, hc, hblock, hne, hsame, hlen, hbytes⟩ := h.guard g hg
    exact ⟨q, c, hnum, hc, hblock, hne, hsame, hlen, hbytes.of_data hdata⟩

/-- A stream gets a guard for the last pinned publish. -/
theorem receivePinned (h : PinRead w p) (hR : w.ReadersInv) (hA : w.Agree) {s : Stream cfg}
    (hnext : s.NextPinned w.shm) (hpubs : w'.pubs = w.pubs)
    (hseq : ∀ t, (w'.shm.topic t).pinnedSeq = (w.shm.topic t).pinnedSeq)
    (hlog : w'.shm.lastPinned = w.shm.lastPinned) (hdata : w'.shm.data = w.shm.data)
    (hguards : w'.guards = w.guards ++ [some ⟨s.topic, (w.shm.topic s.topic).pinnedSeq >>> 32,
      (w.shm.topic s.topic).pinnedBlock, wrap32 (w.shm.topic s.topic).pinnedSeq⟩]) :
    PinRead w' p := by
  -- the word is not the sentinel, so nobody writes to the block
  have hwrites : p.writes s.topic = 0 := by
    by_contra hne
    rw [← writersOn_one h.pubs] at hne
    obtain ⟨hword, hlt⟩ := hR s.topic
    have hwriter := hnext.noWriter
    unfold pinnedWriterActive at hword hwriter
    omega
  refine ⟨hpubs.trans h.pubs, fun t ht => ?_, fun g hg => ?_⟩
  · rw [hseq] at ht ⊢
    rw [hlog]
    obtain ⟨q, c, hword, hc, hblock, hne, hlen, hbytes⟩ := h.published t ht
    exact ⟨q, c, hword, hc, hblock, hne, hlen, fun hw => (hbytes hw).of_data hdata⟩
  · rw [hguards] at hg
    rw [hlog]
    rcases List.mem_append.mp hg with hold | hnew
    · obtain ⟨q, c, hnum, hc, hblock, hne, hsame, hlen, hbytes⟩ := h.guard g hold
      exact ⟨q, c, hnum, hc, hblock, hne, hsame, hlen, hbytes.of_data hdata⟩
    · cases Option.some.inj (List.mem_singleton.mp hnew)
      obtain ⟨q, c, hword, hc, hblock, hne, hlen, hbytes⟩ := h.published s.topic hnext.published
      have hmem : some p.pinnedBlocks ∈ w.pins := by
        unfold World.pins
        rw [h.pubs]
        exact List.mem_singleton_self _
      -- the shared word is the block of the publisher, and the packed word gives back the
      -- number and the length
      have hagree := hA p.pinnedBlocks s.topic hmem (hblock ▸ hne)
      refine ⟨q, c, ?_, hc, hblock, hne, hblock.trans hagree, ?_, (hbytes hwrites).of_data hdata⟩
      · rw [hword]
        exact (packed_seq q (len_lt hlen)).symm
      · rw [hword]
        exact (packed_len q (len_lt hlen)).symm

end PinRead

/-! ### Steps and runs -/

/-- The calls of the one publisher of the region and of its streams. -/
def Act.single : Act cfg → Bool
  | .open _ => false
  | .dropPublisher _ => false
  | _ => true

/-- A `PinnedLoan` is dropped only when its block holds the bytes of the last pinned publish of
    the topic, if there is one. -/
def DropsUnchanged (w : World cfg) (a : Act cfg) : Prop :=
  match a with
  | .dropLoan k => ∀ o ∈ w.pubs[k]?, ∀ p ∈ o, ∀ l ∈ p.borrow, l.kind = .pinned →
      ∀ x ∈ w.shm.lastPinned l.topic, ∀ i < x.2.dataLen,
        w.shm.data l.blockIdx i = x.2.bytes i
  | _ => True

/-- The condition on the calls: one publisher, and no abandoned writes. -/
def OneWrites (w : World cfg) (a : Act cfg) : Prop := a.single = true ∧ DropsUnchanged w a

/-- A call is of one publisher when its parts are. -/
theorem single_expands : Expands (fun (_ : World cfg) (a : Act cfg) => a.single = true) :=
  .of_parts (fun _ _ _ => rfl) (fun _ _ _ _ => rfl) (fun _ _ _ => rfl)
    (fun _ _ => rfl) (fun _ _ => rfl)

/-- The condition is about the drop of a loan, which is a basic call. -/
theorem dropsUnchanged_expands : Expands (DropsUnchanged : World cfg → Act cfg → Prop) where
  loan _ _ _ _ _ := trivial
  loanTyped _ _ _ _ _ _ := trivial
  edit _ _ _ := trivial
  publish _ _ _ _ _ _ _ := trivial
  publishTyped _ _ _ _ _ _ _ _ := trivial
  drop w w₂ k t hthere := by
    intro o ho p hp l hl hkind
    -- the loan that `publish` drops is not pinned
    obtain ⟨p', l', hpub, hborrow, hkind', _⟩ := hthere.loan
    cases Option.some.inj (hpub.symm.trans ho)
    cases Option.some.inj hp
    cases Option.some.inj (hborrow.symm.trans hl)
    rw [hkind'] at hkind
    cases hkind

/-- Both conditions are about basic calls. -/
theorem oneWrites_expands : Expands (OneWrites : World cfg → Act cfg → Prop) :=
  single_expands.and dropsUnchanged_expands

/-- With one publisher, a call is one of it. -/
theorem one_pub {p p₁ : Publisher cfg} (hpubs : w.pubs = [some p])
    (hp : w.pubs[k]? = some (some p₁)) :
    p₁ = p ∧ ∀ o, w.pubs.set k o = [o] := by
  rw [hpubs] at hp ⊢
  cases k with
  | zero =>
    cases hp
    exact ⟨rfl, fun _ => rfl⟩
  | succ k => cases hp

/-- One publisher is alone with every topic. -/
theorem pinsAlone_single {a : Act cfg} {p : Publisher cfg} (hpubs : w.pubs = [some p])
    (hstep : step w a = some w') : PinsAlone w a := by
  cases a with
  | loanPinned k h =>
    obtain ⟨_, hstep⟩ := withHandle_inv hstep
    obtain ⟨p₁, hp, _, _⟩ := onPublisher_inv hstep
    rw [hpubs] at hp
    intro i hi hik
    rw [hpubs] at hi
    cases k with
    | zero => exact absurd hik (by simp only [List.length_singleton] at hi; omega)
    | succ k => cases hp
  | _ => trivial

/-- Pinning a new block keeps the others. -/
theorem pin_keeps {p : Publisher cfg} {t : cfg.Topic} {b : Nat} (hnew : p.pinnedBlocks t = noBlock)
    (t' : cfg.Topic) (hne : p.pinnedBlocks t' ≠ noBlock) :
    update p.pinnedBlocks t b t' = p.pinnedBlocks t' := by
  rw [update_of_ne]
  rintro rfl
  exact hne hnew

/-- **Step.** -/
theorem pinRead_move {a : Act cfg} {p : Publisher cfg} {limit : Nat} (hI : w.Counts limit)
    (hL : w.LoansOk) (hA : w.Agree) (hR : w.ReadersInv) (h : PinRead w p) (ha : a.single = true)
    (hkept : DropsUnchanged w a) (hmove : Move w a w') : ∃ p', PinRead w' p' := by
  -- calls that leave the pinned blocks, the log and the bytes alone
  have hframe : ∀ p' : Publisher cfg, w'.pubs = [some p'] →
      (∀ t, p.pinnedBlocks t ≠ noBlock → p'.pinnedBlocks t = p.pinnedBlocks t) →
      (∀ t, p'.writes t = 0 → p.writes t = 0) →
      (∀ t, (w'.shm.topic t).pinnedSeq = (w.shm.topic t).pinnedSeq) →
      w'.shm.lastPinned = w.shm.lastPinned → w'.shm.data = w.shm.data →
      (∀ g, some g ∈ w'.guards → some g ∈ w.guards) → ∃ p', PinRead w' p' :=
    fun p' hpubs hpins hwrites hseq hlog hdata hguards =>
      ⟨p', h.frame hR hpubs hpins hwrites hseq hlog (fun t _ _ => by rw [hdata]) hguards⟩
  cases hmove with
  | stay => exact ⟨p, h⟩
  | «open» | dropPublisher => cases ha
  | claim hlen hnew hfree =>
    exact hframe p h.pubs (fun _ _ => rfl) (fun _ hw => hw) (setTopic_pinnedSeq rfl) rfl rfl
      (fun _ hg => hg)
  | exhaust pool lastFreed cache hp hborrow =>
    obtain ⟨rfl, hset⟩ := one_pub h.pubs hp
    exact hframe _ (hset _) (fun _ _ => rfl) (fun _ hw => hw) (fun _ => rfl) rfl rfl
      (fun _ hg => hg)
  | loan pool lastFreed cache hp hborrow hkind hlen hactive hblock =>
    obtain ⟨rfl, hset⟩ := one_pub h.pubs hp
    exact hframe _ (hset _) (fun _ _ => rfl) (fun t _ => writes_idle hborrow t) (fun _ => rfl)
      rfl rfl (fun _ hg => hg)
  | pinRefused pool lastFreed cache b hp hborrow hb hactive hnew
  | pinNew pool lastFreed cache b hp hborrow hb hactive hnew =>
    obtain ⟨rfl, hset⟩ := one_pub h.pubs hp
    exact hframe _ (hset _) (pin_keeps hnew) (fun t _ => writes_idle hborrow t)
      (setTopic_pinnedSeq rfl) rfl rfl (fun _ hg => hg)
  | pinAgain hp hborrow hactive hold hreaders =>
    obtain ⟨rfl, hset⟩ := one_pub h.pubs hp
    exact hframe _ (hset _) (fun _ _ => rfl) (fun t _ => writes_idle hborrow t)
      (setTopic_pinnedSeq rfl) rfl rfl (fun _ hg => hg)
  | edit hp hborrow hedit =>
    obtain ⟨rfl, hset⟩ := one_pub h.pubs hp
    obtain ⟨⟨data, rfl⟩, ⟨len, rfl⟩, _⟩ := Loan.edit_spec hedit
    refine ⟨_, h.frame hR (hset _) (fun _ _ => rfl) (fun t hw => ?_) (fun _ => rfl) rfl
      (fun t hne hw => ?_) (fun _ hg => hg)⟩
    · unfold Publisher.writes at hw ⊢
      rw [hborrow]
      exact hw
    · exact update_of_ne (loan_ne_pinned hI hL hp hborrow hne hw) ..
  | publish hp hborrow hkind =>
    rename_i p₁ l
    obtain ⟨rfl, hset⟩ := one_pub h.pubs hp
    obtain ⟨⟨pool, rc, hshm⟩, lastFreed, hpub⟩ :=
      commitToRing_shape w.shm { p₁ with borrow := none } l.blockIdx l.len l.topic
    have hseq : ∀ t, ((w.shm.setTopic l.topic { w.shm.topic l.topic with
        writeSeq := w.shm.nextSeq l.topic }).topic t).pinnedSeq = (w.shm.topic t).pinnedSeq :=
      setTopic_pinnedSeq rfl
    simp only [World.withPub, hshm, hpub] at hframe ⊢
    exact hframe _ (hset _) (fun _ _ => rfl) (fun t _ => writes_ring hborrow hkind t) hseq rfl rfl
      (fun _ hg => hg)
  | publishPinned hp hborrow hkind =>
    obtain ⟨rfl, hset⟩ := one_pub h.pubs hp
    exact ⟨_, h.publishPinned hR hL hborrow hkind (hset _) rfl rfl rfl⟩
  | drop hp hborrow hkind =>
    obtain ⟨rfl, hset⟩ := one_pub h.pubs hp
    exact hframe _ (hset _) (fun _ _ => rfl) (fun t _ => writes_ring hborrow hkind t) (fun _ => rfl)
      rfl rfl (fun _ hg => hg)
  | dropPinned hp hborrow hkind =>
    obtain ⟨rfl, hset⟩ := one_pub h.pubs hp
    exact ⟨_, h.dropPinned hL hborrow hkind (hkept _ hp _ rfl _ hborrow hkind) (hset _) rfl
      (setTopic_pinnedSeq rfl) rfl rfl rfl⟩
  | stream | receive =>
    exact hframe p h.pubs (fun _ _ => rfl) (fun _ hw => hw) (fun _ => rfl) rfl rfl (fun _ hg => hg)
  | dropSample hs =>
    rename_i j s
    obtain ⟨pool, rc, hrelease⟩ := Shm.SameButBlocks.release w.shm s.blockIdx
    rw [hrelease] at hframe ⊢
    exact hframe p h.pubs (fun _ _ => rfl) (fun _ hw => hw) (fun _ => rfl) rfl rfl (fun _ hg => hg)
  | receivePinned hs hrecv =>
    obtain ⟨hnext, rfl, rfl, rfl⟩ := Stream.tryRecvPinned_inv hrecv
    exact ⟨p, h.receivePinned hR hA hnext rfl (setTopic_pinnedSeq rfl) rfl rfl rfl⟩
  | dropGuard hg =>
    refine hframe p h.pubs (fun _ _ => rfl) (fun _ hw => hw) (setTopic_pinnedSeq rfl) rfl rfl
      (fun g hmem => ?_)
    rcases List.mem_or_eq_of_mem_set hmem with hold | hnew
    · exact hold
    · cases hnew

/-- **Run.** -/
theorem pinRead_run {id : Nat} {as : List (Act cfg)}
    (hrun : Run step OneWrites (create cfg id) as w) : ∃ p, PinRead w p := by
  -- a new region has no pinned publish and no readers
  have hstart : (create cfg id).Agree ∧ (create cfg id).ReadersInv ∧
      ∃ p, PinRead (create cfg id) p := by
    refine ⟨agree_create id, fun t => ⟨rfl, ?_⟩, .fresh cfg id, rfl, fun t ht => absurd rfl ht,
      nofun⟩
    show 0 < 2 ^ 32
    norm_num
  have hend := books_run (X := fun w => w.Agree ∧ w.ReadersInv ∧ ∃ p, PinRead w p)
    oneWrites_expands (fun hI hL h hok hstep hmove => ?_) hrun hstart
  · exact hend.2.2.2.2
  · obtain ⟨hsingle, hkept⟩ := hok
    obtain ⟨hA, hR, p, hread⟩ := h
    exact ⟨agree_move hA (pinsAlone_single hread.pubs hstep) (pinMove_move hL hmove),
      readersInv_move hR hmove, pinRead_move hI hL hA hR hread hsingle hkept hmove⟩

/-- `Deref for PinnedGuard`: the bytes a guard reads. -/
def Shm.guardBytes (shm : Shm cfg) (g : PinnedGuard cfg) : List UInt8 :=
  (List.range g.len).map (shm.data g.blockIdx)

/-- **A pinned read returns what was published.** With one publisher and any streams, in every
    state that whole calls can reach, as long as a `PinnedLoan` is dropped without publishing
    only when its block holds the bytes of the last pinned publish: a live guard reads the
    bytes and the length of the last pinned publish of its topic, and has its number (of which
    the region keeps 32 bits). -/
theorem pinned_read_returns_publish {id : Nat} {as : List (Act cfg)}
    (hrun : Run step OneWrites (create cfg id) as w) {g : PinnedGuard cfg}
    (hg : some g ∈ w.guards) :
    ∃ q c, w.shm.lastPinned g.topic = some (q, c) ∧ q % 2 ^ 32 = g.seq ∧
      w.shm.guardBytes g = payload c := by
  obtain ⟨p, hread⟩ := pinRead_run hrun
  obtain ⟨q, c, hnum, hc, _, _, hsame, hlen, hbytes⟩ := hread.guard g hg
  refine ⟨q, c, hc, hnum, ?_⟩
  unfold Shm.guardBytes payload
  rw [← hlen, ← hsame]
  exact List.map_congr_left fun i hi => hbytes i (List.mem_range.mp hi)

/-- Two pinned publishes in the same block, each read by a stream, and a third loan. -/
def rewrittenSteps : List (Act oneSlot) :=
  [.register 0 [47], .waitForPeer [47], .loanPinned 0 ⟨oneSlot.topic0, 5⟩,
    .edit 0 (.setData [1, 2]),
    .publishLoan 0, .tryRecvPinned 0, .dropGuard 0, .loanPinned 0 ⟨oneSlot.topic0, 5⟩,
    .edit 0 (.setData [3]), .publishLoan 0, .tryRecvPinned 0, .loanPinned 0 ⟨oneSlot.topic0, 5⟩]

/-- The calls other than those of another publisher and the drop of a loan. -/
def Act.keepsLoans : Act cfg → Bool
  | .dropLoan _ => false
  | a => a.single

/-- When no loan is dropped the condition is met. -/
theorem oneWrites_of_keepsLoans (w : World cfg) (a : Act cfg)
    (h : a.keepsLoans = true) : OneWrites w a := by
  cases a with
  | dropLoan | «open» | dropPublisher => cases h
  | _ => exact ⟨rfl, trivial⟩

/-- The second guard reads the second publish. -/
theorem pinned_read_returns_publish_rewritten : ∃ (w : World oneSlot) (g : PinnedGuard oneSlot),
    Run step OneWrites (create oneSlot 5) rewrittenSteps w ∧ some g ∈ w.guards ∧
    g.seq = 2 ∧ w.shm.guardBytes g = [3] ∧
    ∃ q c, w.shm.lastPinned g.topic = some (q, c) ∧ q % 2 ^ 32 = g.seq ∧
      w.shm.guardBytes g = payload c := by
  obtain ⟨w, hkeeps, _, ho, g, rfl, hseq, hbytes⟩ := exists_run_of_exec step
    (fun _ a => a.keepsLoans = true) (s := create oneSlot 5) (l := rewrittenSteps)
    (p := fun w => ∃ o ∈ w.guards, ∃ g ∈ o, g.seq = 2 ∧ w.shm.guardBytes g = [3])
    (by decide +kernel)
  have hrun := hkeeps.mono oneWrites_of_keepsLoans
  exact ⟨w, g, hrun, ho, hseq, hbytes, pinned_read_returns_publish hrun ho⟩

/-- The second loan is abandoned after a byte was written. -/
def abandonedSteps : List (Act oneSlot) :=
  [.register 0 [47], .waitForPeer [47], .loanPinned 0 ⟨oneSlot.topic0, 5⟩,
    .edit 0 (.setData [1, 2]),
    .publishLoan 0, .loanPinned 0 ⟨oneSlot.topic0, 5⟩, .edit 0 (.setData [9]), .dropLoan 0,
    .tryRecvPinned 0]

/-- **An abandoned loan is visible.** The only pinned publish is number 1 with the bytes `1 2`;
    the guard for it reads the bytes `9 2`. -/
theorem abandoned_loan_is_visible : ∃ (w : World oneSlot) (g : PinnedGuard oneSlot),
    Run step (fun _ a => a.single = true) (create oneSlot 5) abandonedSteps w ∧
    some g ∈ w.guards ∧ g.seq = 1 ∧ (w.shm.topic oneSlot.topic0).writeSeq = 1 ∧
    (w.shm.lastPinned g.topic).map (fun x => (x.1, payload x.2)) = some (1, [1, 2]) ∧
    w.shm.guardBytes g = [9, 2] := by
  obtain ⟨w, hrun, _, ho, g, rfl, hguard⟩ := exists_run_of_exec step (fun _ a => a.single = true)
    (s := create oneSlot 5) (l := abandonedSteps)
    (p := fun w => ∃ o ∈ w.guards, ∃ g ∈ o, g.seq = 1 ∧
      (w.shm.topic oneSlot.topic0).writeSeq = 1 ∧
      (w.shm.lastPinned g.topic).map (fun x => (x.1, payload x.2)) = some (1, [1, 2]) ∧
      w.shm.guardBytes g = [9, 2]) (by decide +kernel)
  exact ⟨w, g, hrun, ho, hguard⟩

end Crossbar.Region
