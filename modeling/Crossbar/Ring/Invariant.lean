import Crossbar.Ring.Model

namespace Crossbar.Ring

open Crossbar.Lib

/-!
# Ring — the protocol invariant

The invariant comes in two layers, each with the steps it survives:

* `Core st` — exclusion and books: at most one publisher is between mark and close of an
  entry, the publishers' locals agree with the entry they have marked, a block's refcount is
  the number of references on it, and a block that is referenced is held by nobody, one that
  is not by at most one agent.  It survives every step that stores no `SEQ_WRITING` over
  `SEQ_WRITING` and overflows no refcount (`Clear`).
* `Inv st` — the log: a marked entry has a publisher inside, a claimed number is closed or has
  a publisher at work on it, a committed entry holds the block, length and bytes of the
  publish that claimed its number, and so does what a stream has read while the number
  stands.  It also needs claimed numbers to stay below
  `SEQ_WRITING` (`Ok`).
-/

variable {cfg : ValidConfig} {P S : Type}

/-! ### Admissible steps -/

section

variable (single : P → Bool)

/-- The entry that the step stores `SEQ_WRITING` into, with the claimed sequence number. -/
def marks (st : State cfg P S) : Act cfg P S → Option (cfg.EntryIdx × Nat)
  | .commit p spurious =>
    match st.pub p with
    | .commit c (.acquire _) => if single p then some (c.idx, c.seq) else none
    | .commit c (.cas _ current) =>
      if spurious = false ∧ (st.shm.entry c.idx).seq = current then some (c.idx, c.seq) else none
    | .commit c .force => some (c.idx, c.seq)
    | _ => none
  | _ => none

/-- The step does not store `SEQ_WRITING` over `SEQ_WRITING`. -/
def marksClear (st : State cfg P S) (a : Act cfg P S) : Bool :=
  match marks single st a with
  | some (e, _) => (st.shm.entry e).seq != seqWriting
  | none => true

/-- The sequence number the step claims stays below `SEQ_WRITING`. -/
def claimFits (st : State cfg P S) : Act cfg P S → Bool
  | .commit p _ =>
    match st.pub p with
    | .loaned l => decide (st.shm.writeSeq l.topic + 1 < seqWriting)
    | _ => true
  | .pinned t => decide (st.shm.writeSeq t + 1 < seqWriting)
  | _ => true

/-- The refcount the step increments stays a `u32`. -/
def bumpFits (st : State cfg P S) : Act cfg P S → Bool
  | .recv s _ =>
    match st.str s with
    | some m =>
      match m.pc with
      | .casRc _ _ _ rc => decide (rc + 1 < 2 ^ 32)
      | _ => true
    | none => true
  | _ => true

/-- A step that marks no marked entry and overflows no refcount. -/
structure Clear (st : State cfg P S) (a : Act cfg P S) : Prop where
  marksClear : marksClear single st a = true
  bumpFits : bumpFits st a = true

/-- An admissible step. -/
structure Ok (st : State cfg P S) (a : Act cfg P S) : Prop extends Clear single st a where
  claimFits : claimFits st a = true

instance (st : State cfg P S) (a : Act cfg P S) : Decidable (Clear single st a) :=
  decidable_of_iff (marksClear single st a = true ∧ bumpFits st a = true)
    ⟨fun h => ⟨h.1, h.2⟩, fun h => ⟨h.1, h.2⟩⟩

instance (st : State cfg P S) (a : Act cfg P S) : Decidable (Ok single st a) :=
  decidable_of_iff (Clear single st a ∧ claimFits st a = true)
    ⟨fun h => ⟨h.1, h.2⟩, fun h => ⟨h.1, h.2⟩⟩

end

/-! ### Exclusion and books -/

/-- What a running commit's locals say about the entry `x` it has marked, and about the
    block it has taken out of it. -/
def CommitPc.locals (c : Commit cfg) (x : Entry) : CommitPc → Prop
  | .cas _ current => current ≠ seqWriting
  | .setRc old => x.blockIdx = old
  | .storeBlock old => x.blockIdx = old
  | .storeLen _ => x.blockIdx = c.blockIdx
  | .close _ => x.blockIdx = c.blockIdx ∧ x.dataLen = c.len
  | .recycle old => old < cfg.blockCount
  | _ => True

/-- A running commit against the entry it writes. -/
structure CommitCore (sh : Shm cfg) (c : Commit cfg) (pc : CommitPc) : Prop where
  block_lt : c.blockIdx < cfg.blockCount
  crit : pc.inCrit = true → (sh.entry c.idx).seq = seqWriting
  locals : pc.locals c (sh.entry c.idx)

/-- A publisher against the entries. -/
def PubCore (sh : Shm cfg) : PubPc cfg → Prop
  | .idle => True
  | .loaned l => l.blockIdx < cfg.blockCount
  | .dropping b => b < cfg.blockCount
  | .commit c pc => CommitCore sh c pc

/-- A stream touches refcounts of blocks only, and adds to positive ones only. -/
def StreamPc.inRange (cfg : ValidConfig) : StreamPc → Prop
  | .loadRc _ b _ | .recheck _ b _ | .undo _ b | .freeing _ b => b < cfg.blockCount
  | .casRc _ b _ rc => 0 < rc ∧ b < cfg.blockCount
  | _ => True

/-- A sample refers to a block of the region. -/
def Sample.inRange : Sample cfg → Prop
  | .live _ _ b _ | .freeing b => b < cfg.blockCount
  | .gone => True

/-- `1` for a block that is referenced. -/
def live (rc : Nat) : Nat := if 0 < rc then 1 else 0

section

variable [Fintype P] [Fintype S]

/-- The counts of block `b`: the refcount is the number of references, and either the
    block is referenced and held by nobody, or at most one agent holds it. -/
structure RefInv (st : State cfg P S) (b : Nat) : Prop where
  count : st.shm.refcount b = st.refs b
  lt : st.shm.refcount b < 2 ^ 32
  owner : st.holders b + live (st.shm.refcount b) ≤ 1

/-- Exclusion and books. -/
structure Core (st : State cfg P S) : Prop where
  pubCore : ∀ p, PubCore st.shm (st.pub p)
  excl : ∀ p q c d pc pd, st.pub p = .commit c pc → st.pub q = .commit d pd →
    pc.inCrit = true → pd.inCrit = true → c.idx = d.idx → p = q
  strRange : ∀ s m, st.str s = some m → m.pc.inRange cfg
  samRange : ∀ x ∈ st.samples, x.inRange
  blocks : ∀ b, b < cfg.blockCount → RefInv st b

end

/-! ### The log -/

/-- A running commit against the log. -/
structure CommitInv (sh : Shm cfg) (c : Commit cfg) (pc : CommitPc) : Prop where
  len_le : c.len ≤ cfg.dataCapacity
  seq_pos : 0 < c.seq
  seq_le : c.seq ≤ sh.writeSeq c.topic
  claimed : pc.isOpen = true →
    sh.claims c.topic c.seq = some ⟨c.blockIdx, c.len, sh.data c.blockIdx⟩
  not_closed : pc.isOpen = true → sh.closed c.topic c.seq = false

/-- A publisher against the log. -/
def PubInv (sh : Shm cfg) : PubPc cfg → Prop
  | .loaned l => l.len ≤ cfg.dataCapacity
  | .commit c pc => CommitInv sh c pc
  | _ => True

/-- A claim took a number of the topic, for a block and a length a stream accepts. -/
structure ClaimInv (sh : Shm cfg) (t : cfg.Topic) (q : Nat) (rec : Claim) : Prop where
  seq_pos : 0 < q
  seq_le : q ≤ sh.writeSeq t
  block_lt : rec.blockIdx < cfg.blockCount
  len_le : rec.dataLen ≤ cfg.dataCapacity

/-- A committed entry holds what the publish that claimed its number was called with. -/
def EntryInv (sh : Shm cfg) (e : cfg.EntryIdx) : Prop :=
  (sh.entry e).seq ≠ seqWriting → (sh.entry e).seq ≠ 0 →
    cfg.slotOf (sh.entry e).seq = e.2 ∧ sh.closed e.1 (sh.entry e).seq = true ∧
    sh.claims e.1 (sh.entry e).seq =
      some ⟨(sh.entry e).blockIdx, (sh.entry e).dataLen, sh.data (sh.entry e).blockIdx⟩

/-- The scan a stream is in. -/
def StreamPc.scan : StreamPc → Option Scan
  | .idle => none
  | .check sc | .loadBlock sc | .loadLen sc _ | .loadRc sc _ _ | .casRc sc _ _ _
  | .recheck sc _ _ | .undo sc _ | .freeing sc _ => some sc

/-- The scan position whose seqlock check the stream has passed. -/
def StreamPc.passed : StreamPc → Option Nat
  | .loadBlock sc | .loadLen sc _ | .loadRc sc _ _ | .casRc sc _ _ _ | .recheck sc _ _ =>
    some sc.pos
  | _ => none

/-- What a reading stream's locals say about the entry `x`, if it still carries the
    sequence number the stream is after. -/
def StreamPc.locals (x : Entry) : StreamPc → Prop
  | .loadLen sc b => x.seq = sc.pos → x.blockIdx = b
  | .loadRc sc b len | .casRc sc b len _ | .recheck sc b len =>
    x.seq = sc.pos → x.blockIdx = b ∧ x.dataLen = len
  | _ => True

/-- A stream against the log. -/
structure StreamInv (sh : Shm cfg) (m : Stream cfg) : Prop where
  last_le : m.lastSeq ≤ sh.writeSeq m.topic
  scan : ∀ sc, m.pc.scan = some sc → 0 < sc.pos ∧ sc.pos ≤ sc.cur ∧ sc.cur ≤ sh.writeSeq m.topic
  passed : ∀ pos, m.pc.passed = some pos → sh.closed m.topic pos = true
  locals : ∀ sc, m.pc.scan = some sc → m.pc.locals (sh.entry (m.topic, cfg.slotOf sc.pos))

/-- A live sample is what the publish that claimed its number was called with. -/
def SampleInv (sh : Shm cfg) : Sample cfg → Prop
  | .live t q b len => sh.claims t q = some ⟨b, len, sh.data b⟩ ∧ sh.closed t q = true
  | _ => True

/-- The protocol invariant. -/
structure Inv [Fintype P] [Fintype S] (st : State cfg P S) : Prop extends Core st where
  seq_lt : ∀ t, st.shm.writeSeq t < seqWriting
  closed_le : ∀ t q, st.shm.closed t q = true → q ≤ st.shm.writeSeq t
  pubs : ∀ p, PubInv st.shm (st.pub p)
  open_inj : ∀ p q c d pc pd, st.pub p = .commit c pc → st.pub q = .commit d pd →
    pc.isOpen = true → pd.isOpen = true → c.topic = d.topic → c.seq = d.seq → p = q
  writing : ∀ e, (st.shm.entry e).seq = seqWriting →
    ∃ p c pc, st.pub p = .commit c pc ∧ pc.inCrit = true ∧ c.idx = e
  accounted : ∀ t q rec, st.shm.claims t q = some rec → st.shm.closed t q = true ∨
    ∃ p c pc, st.pub p = .commit c pc ∧ pc.isOpen = true ∧ c.topic = t ∧ c.seq = q
  valid : ∀ t q rec, st.shm.claims t q = some rec → ClaimInv st.shm t q rec
  entries : ∀ e, EntryInv st.shm e
  streams : ∀ s m, st.str s = some m → StreamInv st.shm m
  samples : ∀ x ∈ st.samples, SampleInv st.shm x

end Crossbar.Ring
