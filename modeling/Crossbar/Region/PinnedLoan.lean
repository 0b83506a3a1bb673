import Crossbar.Region.Pinned
import Crossbar.Region.Stock

namespace Crossbar.Region

open Crossbar.Lib Crossbar.Pool

/-!
# Region — a refused pinned loan, and a pinned publish with a large number

`loan_pinned` stores a newly allocated block in the topic entry before it tries to swap the
reader count, so a call that the readers refuse can move the word that streams read
(`refused_loan_pinned_iff`).

`commit_pinned` packs the low 32 bits of a 64-bit sequence number with the length, and
`try_recv_pinned` compares them with a 64-bit position: a stream sees the publish when its
position is below these 32 bits (`pinned_update_seen_iff`), and number `2 ^ 32` is seen by none.
-/

variable {cfg : ValidConfig} {w w' : World cfg} {k : Nat} {p : Publisher cfg}

/-! ### A refused loan -/

/-- The words of a topic entry that pinned calls read: `TE_PINNED_BLOCK`, `TE_PINNED_SEQ`,
    `TE_PINNED_READERS` and `TE_WRITE_SEQ`. -/
def TopicEntry.shared (e : TopicEntry) : Nat × Nat × Nat × Nat :=
  (e.pinnedBlock, e.pinnedSeq, e.pinnedReaders, e.writeSeq)

/-- Neither the shared words of a topic nor what a stream receives next from it differs. -/
def Unseen (shm shm' : Shm cfg) : Prop :=
  (∀ t, (shm'.topic t).shared = (shm.topic t).shared) ∧
  ∀ s : Stream cfg, (s.tryRecvPinned shm').map Prod.snd = (s.tryRecvPinned shm).map Prod.snd

theorem Unseen.of_topic {shm shm' : Shm cfg} (h : shm'.topic = shm.topic) : Unseen shm shm' := by
  refine ⟨fun t => by rw [h], fun s => ?_⟩
  unfold Stream.tryRecvPinned
  dsimp only
  rw [h]
  -- the same guard in each branch
  split_ifs <;> rfl

/-- If the call is refused, it has not been seen. -/
def RefusedUnseen (shm : Shm cfg) (p : Publisher cfg) (h : Handle cfg) : Prop :=
  ∀ e, (p.loanPinned shm h).2.2 = .error e → Unseen shm (p.loanPinned shm h).1

/-- A call of `loan_pinned` with a handle of its own that the readers refuse does not pin a block,
    unless that is the block of the topic already. -/
def PinsNothingNew (shm : Shm cfg) (p : Publisher cfg) (free : List Nat) (h : Handle cfg) : Prop :=
  h.publisherId = p.id → p.pinnedBlocks h.topicIdx = noBlock →
    (shm.topic h.topicIdx).pinnedReaders ≠ 0 →
    ∀ b, p.nextBlock free = some b → b = (shm.topic h.topicIdx).pinnedBlock

/-- The end of `loan_pinned`, for the block `b`: the sentinel is set or the call is refused. -/
theorem loanPinned_claim {shm shm' : Shm cfg} {p' : Publisher cfg} {h : Handle cfg} {b : Nat}
    (hown : h.publisherId = p.id) (hpin : p.pinnedBlock shm h.topicIdx = (shm', p', .ok b)) :
    ((shm'.topic h.topicIdx).pinnedReaders = 0 ∧ ∃ l, (p.loanPinned shm h).2.2 = .ok l) ∨
    ((shm'.topic h.topicIdx).pinnedReaders ≠ 0 ∧
      ∃ e, p.loanPinned shm h = (shm', p', .error e)) := by
  unfold Publisher.loanPinned
  rw [if_neg (not_not.mpr hown), hpin]
  by_cases hreaders : (shm'.topic h.topicIdx).pinnedReaders = 0
  · refine Or.inl ⟨hreaders, ?_⟩
    simp only [if_pos hreaders]
    exact ⟨_, rfl⟩
  · refine Or.inr ⟨hreaders, ?_⟩
    simp only [if_neg hreaders]
    exact ⟨_, rfl⟩

/-- `loan_pinned` stores the block that it has got in the topic entry, and then looks at the
    readers. -/
theorem refusedUnseen_of_newBlock {shm : Shm cfg} {h : Handle cfg} {free : List Nat} {b : Nat}
    (hown : h.publisherId = p.id) (hpinned : p.pinnedBlocks h.topicIdx = noBlock)
    (hnext : p.nextBlock free = some b) {pool : FreeList} {lastFreed : Nat} {cache : List Nat}
    (hobtain : p.obtainBlock shm = ({ shm with pool := pool },
      { p with lastFreed := lastFreed, cache := cache }, .ok b)) :
    RefusedUnseen shm p h ↔ PinsNothingNew shm p free h := by
  have hpin : p.pinnedBlock shm h.topicIdx =
      (Shm.setTopic { shm with pool := pool } h.topicIdx
        { shm.topic h.topicIdx with pinnedBlock := b },
      { p with
        lastFreed := lastFreed
        cache := cache
        pinnedBlocks := Function.update p.pinnedBlocks h.topicIdx b }, .ok b) := by
    rw [Publisher.pinnedBlock, if_neg (not_not.mpr hpinned), hobtain]
  have htopic := Shm.setTopic_self { shm with pool := pool } h.topicIdx
    { shm.topic h.topicIdx with pinnedBlock := b }
  rcases loanPinned_claim hown hpin with ⟨hzero, l, hloan⟩ | ⟨hreaders, e, hloan⟩
  · rw [htopic] at hzero
    refine iff_of_true (fun e he => ?_) (fun _ _ hne => absurd hzero hne)
    rw [hloan] at he
    cases he
  · rw [htopic] at hreaders
    constructor
    · intro hunseen _ _ _ b' hb'
      cases hnext.symm.trans hb'
      have hwords := (hunseen e (by rw [hloan])).1 h.topicIdx
      rw [hloan, htopic] at hwords
      exact congrArg Prod.fst hwords
    · -- the store writes the word that is there
      intro hnew e' _
      have hword := hnew hown hpinned hreaders b hnext
      rw [hloan]
      apply Unseen.of_topic
      show Function.update shm.topic h.topicIdx _ = shm.topic
      rw [hword]
      exact Function.update_eq_self _ _

/-- **A refused pinned loan.** In every state that whole calls can reach, and for every publisher
    and handle: `loan_pinned`, if it fails, leaves the shared words of every topic and what every
    stream receives next as they were, if and only if it is not refused by the readers after it
    has had to pin another block than the one the topic has. -/
theorem refused_loan_pinned_iff {id : Nat} {as : List (Act cfg)}
    (hrun : Run step (fun _ _ => True) (create cfg id) as w) (hp : w.pubs[k]? = some (some p))
    (h : Handle cfg) :
    ∃ free, w.shm.pool.Chain free ∧
      (RefusedUnseen w.shm p h ↔ PinsNothingNew w.shm p free h) := by
  obtain ⟨free, hl, hrange, -⟩ := (counts_run hrun).free hp
  refine ⟨free, hl, ?_⟩
  have hsame : Unseen w.shm w.shm := .of_topic rfl
  by_cases hown : h.publisherId = p.id
  · by_cases hpinned : p.pinnedBlocks h.topicIdx = noBlock
    · obtain ⟨hnone, hsome⟩ := obtainBlock_eq (p := p) hl
        (fun b hb => hrange b (List.mem_append_right _ hb))
      cases hnext : p.nextBlock free with
      | none =>
        -- `PoolExhausted`
        have hloan : p.loanPinned w.shm h = (w.shm, p, .error .poolExhausted) := by
          rw [Publisher.loanPinned, if_neg (not_not.mpr hown), Publisher.pinnedBlock,
            if_neg (not_not.mpr hpinned), hnone hnext]
        refine iff_of_true (fun e _ => by rw [hloan]; exact hsame) (fun _ _ _ b hb => ?_)
        rw [hnext] at hb
        cases hb
      | some b =>
        obtain ⟨pool, free', lastFreed, cache, hobtain, -, -⟩ := hsome b hnext
        exact refusedUnseen_of_newBlock hown hpinned hnext hobtain
    · -- the publisher has its block already
      have hpin : p.pinnedBlock w.shm h.topicIdx =
          (w.shm, p, .ok (p.pinnedBlocks h.topicIdx)) := by
        rw [Publisher.pinnedBlock, if_pos hpinned]
      refine iff_of_true (fun e he => ?_) (fun _ hno => absurd hno hpinned)
      rcases loanPinned_claim hown hpin with ⟨-, l, hloan⟩ | ⟨-, e', hloan⟩
      · rw [hloan] at he
        cases he
      · rw [hloan]
        exact hsame
  · have hloan : p.loanPinned w.shm h = (w.shm, p, .error .handleMismatch) := by
      rw [Publisher.loanPinned, if_pos hown]
    exact iff_of_true (fun e _ => by rw [hloan]; exact hsame) (fun heq => absurd heq hown)

/-- The reader of its pinned block refuses publisher 0, and nobody sees it. -/
theorem refused_loan_pinned_own : ∃ (w : World oneSlot) (p : Publisher oneSlot),
    Run step (fun _ _ => True) (create oneSlot 5) pinnedSteps w ∧ w.pubs[0]? = some (some p) ∧
    (w.shm.topic oneSlot.topic0).pinnedReaders = 1 ∧
    RefusedUnseen w.shm p ⟨oneSlot.topic0, 5⟩ := by
  obtain ⟨w, hrun, hreaders, _, hp, p, rfl, hpinned⟩ := exists_run_of_exec step (fun _ _ => True)
    (s := create oneSlot 5) (l := pinnedSteps)
    (p := fun w => (w.shm.topic oneSlot.topic0).pinnedReaders = 1 ∧
      ∃ o ∈ w.pubs[0]?, ∃ p ∈ o, p.pinnedBlocks oneSlot.topic0 = 3) (by decide +kernel)
  obtain ⟨free, -, hiff⟩ := refused_loan_pinned_iff hrun hp ⟨oneSlot.topic0, 5⟩
  refine ⟨w, p, hrun, hp, hreaders, hiff.mpr (fun _ hno => ?_)⟩
  have hno' : p.pinnedBlocks oneSlot.topic0 = noBlock := hno
  rw [hpinned] at hno'
  exact absurd hno' (by decide)

/-- A stream holds a guard of what publisher 0 has published in its pinned block 2; publisher 1
    has just been opened. -/
def guardedSteps : List (Act oneSlot) :=
  [.register 0 [47], .waitForPeer [47], .waitForPeer [47], .loan 0 ⟨oneSlot.topic0, 5⟩,
    .dropLoan 0, .loanPinned 0 ⟨oneSlot.topic0, 5⟩, .edit 0 (.setData [7]), .publishLoan 0,
    .tryRecvPinned 0, .open 6]

/-- The block that a stream at position 0 reads. -/
def firstRead (shm : Shm oneSlot) : Option Nat :=
  (Stream.tryRecvPinned ⟨oneSlot.topic0, 0, 0, []⟩ shm).map fun r => r.2.2.blockIdx

/-- The error of a call. -/
def errorOf {α : Type} (r : Shm oneSlot × Publisher oneSlot × Except Error α) : Option Error :=
  match r.2.2 with
  | .error e => some e
  | .ok _ => none

/-- Publisher 1 is refused, and has moved the word: the second stream would have read block 2, and
    reads block 3, which nobody has written. -/
theorem refused_loan_moves_word : ∃ (w : World oneSlot) (p : Publisher oneSlot),
    Run step (fun _ _ => True) (create oneSlot 5) guardedSteps w ∧ w.pubs[1]? = some (some p) ∧
    errorOf (p.loanPinned w.shm ⟨oneSlot.topic0, 6⟩) = some (.pinnedReadersActive 1 0) ∧
    (w.shm.topic oneSlot.topic0).pinnedBlock = 2 ∧
    ((p.loanPinned w.shm ⟨oneSlot.topic0, 6⟩).1.topic oneSlot.topic0).pinnedBlock = 3 ∧
    firstRead w.shm = some 2 ∧ firstRead (p.loanPinned w.shm ⟨oneSlot.topic0, 6⟩).1 = some 3 := by
  obtain ⟨w, hrun, hword, hread, _, hp, p, rfl, herr, hword', hread'⟩ := exists_run_of_exec step
    (fun _ _ => True) (s := create oneSlot 5) (l := guardedSteps)
    (p := fun w => (w.shm.topic oneSlot.topic0).pinnedBlock = 2 ∧ firstRead w.shm = some 2 ∧
      ∃ o ∈ w.pubs[1]?, ∃ p ∈ o,
        errorOf (p.loanPinned w.shm ⟨oneSlot.topic0, 6⟩) = some (.pinnedReadersActive 1 0) ∧
        ((p.loanPinned w.shm ⟨oneSlot.topic0, 6⟩).1.topic oneSlot.topic0).pinnedBlock = 3 ∧
        firstRead (p.loanPinned w.shm ⟨oneSlot.topic0, 6⟩).1 = some 3) (by decide +kernel)
  exact ⟨w, p, hrun, hp, herr, hword, hword', hread, hread'⟩

/-! ### The number of a pinned publish -/

/-- **When a pinned publish is seen.** In every state that whole calls can reach, as long as a
    publisher pins a topic only when no other live publisher has (as when there is one
    publisher), a stream of the topic receives what a `PinnedLoan` has just published, with its
    length, if and only if the position of the stream is below the sequence number of the publish
    modulo `2 ^ 32`. -/
theorem pinned_update_seen_iff {id : Nat} {as : List (Act cfg)}
    (hrun : Run step PinsAlone (create cfg id) as w) (hp : w.pubs[k]? = some (some p))
    {l : Loan cfg} (hborrow : p.borrow = some l) (hkind : l.kind = .pinned)
    (hpublish : step w (.publishLoan k) = some w') {s : Stream cfg} (hs : s.topic = l.topic) :
    (w'.shm.topic l.topic).writeSeq = w.shm.nextSeq l.topic ∧
    ((∃ shm s' g, s.tryRecvPinned w'.shm = some (shm, s', g) ∧ g.len = l.len) ↔
      s.lastSeq < w.shm.nextSeq l.topic % 2 ^ 32) := by
  obtain ⟨hI, hL, hA⟩ := books_run pinsAlone_expands
    (fun _ hL hA hok _ hmove => agree_move hA hok (pinMove_move hL hmove)) hrun (agree_create id)
  have hmem := List.mem_of_getElem? hp
  have hloan := hL p l hmem hborrow
  obtain ⟨hne, hpinned⟩ := hloan.pinned hkind
  -- the block of the loan is the word of the topic, so streams look at it
  have hword := hA p.pinnedBlocks l.topic (List.mem_map.mpr ⟨some p, hmem, rfl⟩) (hpinned ▸ hne)
  have hresult : l.publish w.shm { p with borrow := none } =
      (l.publishPinned w.shm, { p with borrow := none }) := by
    simp only [Loan.publish, hkind]
  rw [step_publishLoan hp hborrow, hresult] at hpublish
  cases hpublish
  have hrecv := publishPinned_recv hloan.len (hword.symm.trans hpinned)
    (hI.lt_of_held (held_of_loan hL hp hborrow)) hs
  refine ⟨by show ((l.publishPinned w.shm).topic l.topic).writeSeq = _; rw [l.publishPinned_topic],
    ?_⟩
  show (∃ shm s' g, s.tryRecvPinned (l.publishPinned w.shm) = some (shm, s', g) ∧ g.len = l.len) ↔ _
  rw [hrecv]
  -- the stream compares its position with the 32 bits of the number
  constructor
  · rintro ⟨shm, s', g, hsome, -⟩
    by_contra hge
    rw [if_neg hge] at hsome
    cases hsome
  · intro hlt
    rw [if_pos hlt]
    exact ⟨_, _, _, rfl, rfl⟩

/-- The handle of publisher 5. -/
def pinHandle : Handle oneSlot := ⟨oneSlot.topic0, 5⟩

/-- The loan that publisher 5 gets for its pinned block. -/
def pinLoan : Loan oneSlot := ⟨.pinned, oneSlot.topic0, 3, 0⟩

/-- One byte is published; two are written to the block again. -/
def rewriteSteps : List (Act oneSlot) :=
  [.register 0 [47], .waitForPeer [47], .loanPinned 0 pinHandle, .edit 0 (.setData [6]),
    .publishLoan 0, .loanPinned 0 pinHandle, .edit 0 (.setData [7, 8])]

/-- The second publish is seen by a stream that has received the first one. -/
theorem pinned_update_seen_second : ∃ (w w' : World oneSlot),
    Run step PinsAlone (create oneSlot 5) rewriteSteps w ∧ step w (.publishLoan 0) = some w' ∧
    ∃ shm s' g, Stream.tryRecvPinned ⟨oneSlot.topic0, 1, 0, []⟩ w'.shm = some (shm, s', g) ∧
      g.len = 2 := by
  obtain ⟨w, hrun, hseq, _, hp, p, rfl, hborrow⟩ := exists_run_of_exec step PinsAlone
    (s := create oneSlot 5) (l := rewriteSteps)
    (p := fun w => w.shm.nextSeq oneSlot.topic0 = 2 ∧ ∃ o ∈ w.pubs[0]?, ∃ p ∈ o,
      p.borrow = some ⟨.pinned, oneSlot.topic0, 3, 2⟩) (by decide +kernel)
  have hpublish := step_publishLoan hp hborrow
  refine ⟨w, _, hrun, hpublish,
    (pinned_update_seen_iff hrun hp hborrow rfl hpublish (s := ⟨oneSlot.topic0, 1, 0, []⟩)
      rfl).2.mpr ?_⟩
  show 1 < w.shm.nextSeq oneSlot.topic0 % 2 ^ 32
  rw [hseq]
  decide

/-! ### Number `2 ^ 32` -/

/-- One publisher, which has pinned block 3, and one stream that has received nothing; `n`
    publishes, no loan and no guard. -/
structure Republished (n : Nat) (w : World oneSlot) (p : Publisher oneSlot) : Prop where
  pubs : w.pubs = [some p]
  id : p.id = 5
  pinned : p.pinnedBlocks oneSlot.topic0 = 3
  borrow : p.borrow = none
  stream : ∃ s ∈ w.streams, s.topic = oneSlot.topic0 ∧ s.lastSeq = 0
  guards : w.guards.isEmpty = true
  active : (w.shm.topic oneSlot.topic0).active = true
  block : (w.shm.topic oneSlot.topic0).pinnedBlock = 3
  readers : (w.shm.topic oneSlot.topic0).pinnedReaders = 0
  writeSeq : (w.shm.topic oneSlot.topic0).writeSeq = n

/-- The first such state, as a test. -/
def freshlyPinned (w : World oneSlot) : Bool :=
  match w.pubs with
  | [some p] =>
    decide (p.id = 5 ∧ p.pinnedBlocks oneSlot.topic0 = 3 ∧ p.borrow = none) &&
      (w.streams.any fun s => decide (s.topic = oneSlot.topic0 ∧ s.lastSeq = 0)) &&
      w.guards.isEmpty &&
      decide ((w.shm.topic oneSlot.topic0).active = true ∧
        (w.shm.topic oneSlot.topic0).pinnedBlock = 3 ∧
        (w.shm.topic oneSlot.topic0).pinnedReaders = 0 ∧
        (w.shm.topic oneSlot.topic0).writeSeq = 0)
  | _ => false

theorem freshlyPinned_spec {w : World oneSlot} (h : freshlyPinned w = true) :
    ∃ p, Republished 0 w p := by
  unfold freshlyPinned at h
  split at h
  · rename_i p hpubs
    simp only [Bool.and_eq_true, decide_eq_true_eq, List.any_eq_true] at h
    obtain ⟨⟨⟨⟨hid, hpinned, hborrow⟩, hstream⟩, hguards⟩, hactive, hblock, hreaders, hseq⟩ := h
    exact ⟨p, hpubs, hid, hpinned, hborrow, hstream, hguards, hactive, hblock, hreaders, hseq⟩
  · cases h

/-- The pinned loan of such a publisher. -/
def pinLoaned (w : World oneSlot) (p : Publisher oneSlot) : World oneSlot :=
  w.withPub 0 (w.shm.setReaders oneSlot.topic0 pinnedWriterActive)
    { p with borrow := some pinLoan }

variable {n : Nat} {v : World oneSlot} {q : Publisher oneSlot}

theorem Republished.loan (h : Republished n v q) :
    step v (.loanPinned 0 pinHandle) = some (pinLoaned v q) ∧
      PinsAlone v (.loanPinned 0 pinHandle) := by
  have hown : pinHandle.publisherId = q.id := h.id.symm
  have hne : q.pinnedBlocks pinHandle.topicIdx ≠ noBlock := by
    show q.pinnedBlocks oneSlot.topic0 ≠ noBlock
    rw [h.pinned]
    decide
  have hactive : (v.shm.topic pinHandle.topicIdx).active = true := h.active
  have hreaders : (v.shm.topic pinHandle.topicIdx).pinnedReaders = 0 := h.readers
  have hp : v.pubs[0]? = some (some q) := by rw [h.pubs]; rfl
  have hloan : q.loanPinned v.shm pinHandle =
      (v.shm.setReaders oneSlot.topic0 pinnedWriterActive, q, .ok pinLoan) := by
    have hpin : q.pinnedBlock v.shm pinHandle.topicIdx = (v.shm, q, .ok 3) := by
      rw [Publisher.pinnedBlock, if_pos hne]
      exact congrArg (fun b => (v.shm, q, Except.ok b)) h.pinned
    rw [Publisher.loanPinned, if_neg (not_not.mpr hown), hpin]
    simp only [if_pos hreaders]
    rfl
  refine ⟨?_, fun i hi hik => absurd ?_ hik⟩
  · simp only [step, World.withHandle, hactive, if_true, World.onPublisher, hp, h.borrow, hloan,
      keepLoan]
    rfl
  · rw [h.pubs] at hi
    exact Nat.lt_one_iff.mp hi

/-- The publisher's next publish, of no bytes. -/
theorem Republished.publish (h : Republished n v q) :
    ∃ v', step (pinLoaned v q) (.publishLoan 0) = some v' ∧
      v'.shm = pinLoan.publishPinned (pinLoaned v q).shm ∧
      Republished (wrap64 (n + 1)) v' { q with borrow := none } := by
  have hpubs : (pinLoaned v q).pubs = [some { q with borrow := some pinLoan }] := by
    show v.pubs.set 0 _ = _
    rw [h.pubs]
    rfl
  have hp : (pinLoaned v q).pubs[0]? = some (some { q with borrow := some pinLoan }) := by
    rw [hpubs]
    rfl
  have htopic := Shm.setTopic_self v.shm oneSlot.topic0
    { v.shm.topic oneSlot.topic0 with pinnedReaders := pinnedWriterActive }
  have hnext : (pinLoaned v q).shm.nextSeq oneSlot.topic0 = wrap64 (n + 1) := by
    show wrap64 (((v.shm.setReaders oneSlot.topic0 pinnedWriterActive).topic
      oneSlot.topic0).writeSeq + 1) = _
    rw [Shm.setReaders, htopic, ← h.writeSeq]
  have hentry := pinLoan.publishPinned_topic (pinLoaned v q).shm
  refine ⟨_, step_publishLoan hp rfl, rfl, ?_⟩
  refine
    { pubs := ?_, id := h.id, pinned := h.pinned, borrow := rfl, stream := h.stream,
      guards := h.guards, active := ?_, block := ?_, readers := ?_, writeSeq := ?_ }
  · show (pinLoaned v q).pubs.set 0 _ = _
    rw [hpubs]
    rfl
  · exact (congrArg TopicEntry.active (hentry.trans rfl)).trans
      ((congrArg TopicEntry.active htopic).trans h.active)
  · exact (congrArg TopicEntry.pinnedBlock (hentry.trans rfl)).trans
      ((congrArg TopicEntry.pinnedBlock htopic).trans h.block)
  · exact congrArg TopicEntry.pinnedReaders hentry
  · exact (congrArg TopicEntry.writeSeq hentry).trans hnext

/-- Any number of publishes, one after the other. -/
theorem exists_republished (n : Nat) (hn : n < 2 ^ 64) :
    ∃ as w p, Run step PinsAlone (create oneSlot 5) as w ∧ Republished n w p := by
  induction n with
  | zero =>
    obtain ⟨w, hrun, htest⟩ := exists_run_of_exec step PinsAlone (s := create oneSlot 5)
      (l := [.register 0 [47], .waitForPeer [47], .loanPinned 0 pinHandle, .dropLoan 0])
      (p := fun w => freshlyPinned w) (by decide +kernel)
    obtain ⟨p, hp⟩ := freshlyPinned_spec htest
    exact ⟨_, w, p, hrun, hp⟩
  | succ n ih =>
    obtain ⟨as, w, p, hrun, hw⟩ := ih (by omega)
    obtain ⟨hloan, halone⟩ := hw.loan
    obtain ⟨w', hpublish, -, hw'⟩ := hw.publish
    rw [wrap64_of_lt hn] at hw'
    have hlast : PinsAlone (pinLoaned w p) (.publishLoan 0) := trivial
    exact ⟨_, w', _, hrun.append (.cons halone hloan (.single hlast hpublish)), hw'⟩

/-- **Publish number `2 ^ 32` is not seen.** After `2 ^ 32 - 1` pinned publishes by one publisher,
    with no guard, the next pinned publish, of no bytes, has the 64-bit number `2 ^ 32`, and a
    stream at position 0 receives nothing. -/
theorem update_two_pow_unseen : ∃ (as : List (Act oneSlot)) (w w' : World oneSlot)
    (p : Publisher oneSlot) (s : Stream oneSlot),
    Run step PinsAlone (create oneSlot 5) as w ∧ w.pubs = [some p] ∧ p.borrow = some pinLoan ∧
    w.guards = [] ∧ step w (.publishLoan 0) = some w' ∧ s ∈ w'.streams ∧
    s.topic = oneSlot.topic0 ∧ s.lastSeq = 0 ∧
    (w'.shm.topic oneSlot.topic0).writeSeq = 2 ^ 32 ∧ s.tryRecvPinned w'.shm = none := by
  obtain ⟨as, w, p, hrun, hw⟩ := exists_republished (2 ^ 32 - 1) (by norm_num)
  obtain ⟨hloan, halone⟩ := hw.loan
  obtain ⟨w', hpublish, hshm, hw'⟩ := hw.publish
  have hseq : wrap64 (2 ^ 32 - 1 + 1) = 2 ^ 32 := by norm_num [wrap64]
  obtain ⟨s, hs, htopic, hlast⟩ := hw'.stream
  have hblock : ((pinLoaned w p).shm.topic pinLoan.topic).pinnedBlock = pinLoan.blockIdx := by
    have hself := Shm.setTopic_self w.shm oneSlot.topic0
      { w.shm.topic oneSlot.topic0 with pinnedReaders := pinnedWriterActive }
    exact (congrArg TopicEntry.pinnedBlock hself).trans hw.block
  have hnext : (pinLoaned w p).shm.nextSeq oneSlot.topic0 = 2 ^ 32 := by
    have hwritten := congrArg TopicEntry.writeSeq (pinLoan.publishPinned_topic (pinLoaned w p).shm)
    rw [← hshm] at hwritten
    exact hwritten.symm.trans (hw'.writeSeq.trans hseq)
  have hrecv := publishPinned_recv (s := s) (l := pinLoan) (Nat.zero_le _) hblock (by decide) htopic
  refine ⟨_, pinLoaned w p, w', { p with borrow := some pinLoan }, s,
    hrun.append (.single halone hloan), ?_, rfl, List.isEmpty_iff.mp hw.guards, hpublish, hs,
    htopic, hlast, hw'.writeSeq.trans hseq, ?_⟩
  · show w.pubs.set 0 _ = _
    rw [hw.pubs]
    rfl
  · rw [hshm, hrecv, hlast, if_neg]
    show ¬0 < (pinLoaned w p).shm.nextSeq oneSlot.topic0 % 2 ^ 32
    rw [hnext, Nat.mod_self]
    exact Nat.lt_irrefl 0

end Crossbar.Region
