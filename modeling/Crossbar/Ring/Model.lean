import Crossbar.Protocol.Layout
import Crossbar.Lib.Run
import Crossbar.Lib.Tally

namespace Crossbar.Ring

open Function Crossbar.Lib

/-!
# Ring — publishers and streams as interleaved atomic steps

The seqlock ring of `src/protocol/region.rs` and `src/platform/subscription.rs`, one atomic
load, store, fetch-op or CAS a step, under sequentially consistent interleaving:

* `commitStep` — `Region::commit_to_ring`: claim a sequence number, mark the entry
  `SEQ_WRITING` (unconditional store, CAS loop, or the forced store after 1024 spins),
  load the old block, set the new block's refcount to 1, store block and length, close
  the seqlock, release the old block;
* `streamStep` — `Stream::try_recv` with its window scan, and `try_read_slot_raw` for each
  sequence number of the window;
* `dropSample` — `release_block` of a live `Sample`.

A program counter is named after the operation that comes next.  The block allocator is
abstract here: `loan` hands a publisher any block that is referenced and held by nobody
(`State.isFree`), and a block whose last reference went away is held by the agent that
dropped it until the allocator has it back.  `Crossbar.Pool.Publisher` puts the code's
free list, publisher cache and `last_freed` cell in its place.

The history variables `claims`, `closed`, `committed`, `replaced`, `released`, and the
fields `since`, `returned`, `emptied`, `passedOpen` of a stream, record what happened; no
step reads them.
-/

/-- The payload area of a block: its bytes by offset. -/
abbrev Payload : Type := Nat → UInt8

/-- A ring entry: the seqlock word `RE_SEQ`, `RE_BLOCK_IDX` and `RE_DATA_LEN`. -/
@[ext]
structure Entry where
  seq : Nat
  blockIdx : Nat
  dataLen : Nat
  deriving DecidableEq

/-- What the publish that claimed a sequence number was called with: the block, the
    length, and the bytes the block held at the call. -/
structure Claim where
  blockIdx : Nat
  dataLen : Nat
  bytes : Payload

variable (cfg : ValidConfig)

/-- The shared words of the region that the ring protocol reads and writes. -/
structure Shm where
  writeSeq : cfg.Topic → Nat
  entry : cfg.EntryIdx → Entry
  refcount : Nat → Nat
  data : Nat → Payload
  claims : cfg.Topic → Nat → Option Claim
  closed : cfg.Topic → Nat → Bool
  committed : cfg.EntryIdx → Nat
  replaced : Nat → Nat
  released : Nat → Nat

/-- A live `Loan`. -/
structure Loan where
  topic : cfg.Topic
  blockIdx : Nat
  len : Nat

/-- The arguments of a running `commit_to_ring` and the sequence number it claimed. -/
structure Commit extends Loan cfg where
  seq : Nat

/-- The next operation of a running `commit_to_ring`, with the locals it needs. -/
inductive CommitPc where
  | acquire (spins : Nat)
  | cas (spins current : Nat)
  | force
  | loadOld
  | setRc (old : Nat)
  | storeBlock (old : Nat)
  | storeLen (old : Nat)
  | close (old : Nat)
  | release (old : Nat)
  | recycle (old : Nat)
  deriving DecidableEq

/-- Where a publisher is. -/
inductive PubPc where
  | idle
  | loaned (l : Loan cfg)
  | dropping (blockIdx : Nat)
  | commit (c : Commit cfg) (pc : CommitPc)

/-- The position of the window scan of `try_recv`: the loaded `write_seq`, the sequence
    number being examined, and whether the scan has already passed over a claimed
    sequence number whose publisher had not closed its entry yet. -/
structure Scan where
  cur : Nat
  pos : Nat
  passedOpen : Bool
  deriving DecidableEq

/-- The next operation of a stream, with the locals it needs. -/
inductive StreamPc where
  | idle
  | check (sc : Scan)
  | loadBlock (sc : Scan)
  | loadLen (sc : Scan) (blockIdx : Nat)
  | loadRc (sc : Scan) (blockIdx dataLen : Nat)
  | casRc (sc : Scan) (blockIdx dataLen rc : Nat)
  | recheck (sc : Scan) (blockIdx dataLen : Nat)
  | undo (sc : Scan) (blockIdx : Nat)
  | freeing (sc : Scan) (blockIdx : Nat)
  deriving DecidableEq

/-- A `Stream`: its topic, `last_seq`, and where its `try_recv` is. -/
structure Stream where
  topic : cfg.Topic
  lastSeq : Nat
  pc : StreamPc
  since : Nat
  returned : List Nat
  emptied : Bool

/-- A `Sample`: live, being freed by its last drop, or gone. -/
inductive Sample where
  | live (topic : cfg.Topic) (seq blockIdx dataLen : Nat)
  | freeing (blockIdx : Nat)
  | gone
  deriving DecidableEq

/-- The whole system: shared words, publishers `P`, streams `S` and all samples so far. -/
structure State (P S : Type) where
  shm : Shm cfg
  pub : P → PubPc cfg
  str : S → Option (Stream cfg)
  samples : List (Sample cfg)

variable {cfg}

/-- The ring entry a commit writes. -/
def Commit.idx (c : Commit cfg) : cfg.EntryIdx := (c.topic, cfg.slotOf c.seq)

/-! ### What an agent holds -/

/-- The commit has marked its entry and not closed it yet. -/
def CommitPc.inCrit : CommitPc → Bool
  | .loadOld | .setRc _ | .storeBlock _ | .storeLen _ | .close _ => true
  | _ => false

/-- The commit has claimed its sequence number and not closed its entry yet. -/
def CommitPc.isOpen : CommitPc → Bool
  | .release _ | .recycle _ => false
  | _ => true

/-- The publisher is not in the middle of a publish. -/
def PubPc.quiet : PubPc cfg → Bool
  | .commit _ _ => false
  | _ => true

/-- References on block `b` that a publisher carries: on its new block between the
    refcount store and the ring store, on the replaced block until its release. -/
def PubPc.refs (b : Nat) : PubPc cfg → Nat
  | .commit c (.storeBlock _) => if c.blockIdx = b then 1 else 0
  | .commit _ (.storeLen old) => if old = b then 1 else 0
  | .commit _ (.close old) => if old = b then 1 else 0
  | .commit _ (.release old) => if old = b then 1 else 0
  | _ => 0

/-- Whether a publisher holds the unreferenced block `b`. -/
def PubPc.holds (b : Nat) : PubPc cfg → Nat
  | .idle => 0
  | .loaned l => if l.blockIdx = b then 1 else 0
  | .dropping b' => if b' = b then 1 else 0
  | .commit c (.acquire _) => if c.blockIdx = b then 1 else 0
  | .commit c (.cas _ _) => if c.blockIdx = b then 1 else 0
  | .commit c .force => if c.blockIdx = b then 1 else 0
  | .commit c .loadOld => if c.blockIdx = b then 1 else 0
  | .commit c (.setRc _) => if c.blockIdx = b then 1 else 0
  | .commit _ (.recycle old) => if old = b then 1 else 0
  | .commit _ _ => 0

/-- References on block `b` that a stream took and has not confirmed or undone yet. -/
def StreamPc.refs (b : Nat) : StreamPc → Nat
  | .recheck _ b' _ => if b' = b then 1 else 0
  | .undo _ b' => if b' = b then 1 else 0
  | _ => 0

/-- Whether a stream is giving the unreferenced block `b` back. -/
def StreamPc.holds (b : Nat) : StreamPc → Nat
  | .freeing _ b' => if b' = b then 1 else 0
  | _ => 0

/-- The references of a possibly absent stream. -/
def streamRefs (b : Nat) : Option (Stream cfg) → Nat
  | some m => m.pc.refs b
  | none => 0

/-- The holding of a possibly absent stream. -/
def streamHolds (b : Nat) : Option (Stream cfg) → Nat
  | some m => m.pc.holds b
  | none => 0

/-- A live sample is a reference on its block. -/
def Sample.refs (b : Nat) : Sample cfg → Nat
  | .live _ _ b' _ => if b' = b then 1 else 0
  | _ => 0

/-- A sample whose drop took the last reference holds the block until it is freed. -/
def Sample.holds (b : Nat) : Sample cfg → Nat
  | .freeing b' => if b' = b then 1 else 0
  | _ => 0

/-- The ring entry holds block `b`. -/
def Entry.refs (b : Nat) (e : Entry) : Nat := if e.blockIdx = b then 1 else 0

section

variable {P S : Type} [Fintype P] [Fintype S]

/-- All references on block `b`: ring entries, publishers in the middle of a commit,
    streams in the middle of a read, live samples. -/
def State.refs (st : State cfg P S) (b : Nat) : Nat :=
  tally (Entry.refs b) st.shm.entry + tally (PubPc.refs b) st.pub +
    tally (streamRefs b) st.str + listTally (Sample.refs b) st.samples

/-- How many agents hold the unreferenced block `b`. -/
def State.holders (st : State cfg P S) (b : Nat) : Nat :=
  tally (PubPc.holds b) st.pub + tally (streamHolds b) st.str +
    listTally (Sample.holds b) st.samples

/-- A block the allocator may hand out: not referenced and not held. -/
def State.isFree (st : State cfg P S) (b : Nat) : Prop :=
  st.shm.refcount b = 0 ∧ st.holders b = 0

instance (st : State cfg P S) (b : Nat) : Decidable (st.isFree b) :=
  inferInstanceAs (Decidable (_ ∧ _))

end

/-! ### Stores to shared words -/

namespace Shm

variable (sh : Shm cfg)

/-- Store `SEQ_WRITING` into an entry's seqlock word. -/
def mark (e : cfg.EntryIdx) : Shm cfg :=
  { sh with entry := update sh.entry e { sh.entry e with seq := seqWriting } }

/-- Store a block index into an entry; the block it replaces is recorded. -/
def storeBlock (e : cfg.EntryIdx) (b : Nat) : Shm cfg :=
  { sh with
    entry := update sh.entry e { sh.entry e with blockIdx := b }
    replaced := update sh.replaced (sh.entry e).blockIdx
      (sh.replaced (sh.entry e).blockIdx + 1) }

/-- Store a length into an entry. -/
def storeLen (e : cfg.EntryIdx) (len : Nat) : Shm cfg :=
  { sh with entry := update sh.entry e { sh.entry e with dataLen := len } }

/-- Close the seqlock of an entry with the claimed sequence number. -/
def close (e : cfg.EntryIdx) (seq : Nat) : Shm cfg :=
  { sh with
    entry := update sh.entry e { sh.entry e with seq := seq }
    closed := update sh.closed e.1 (update (sh.closed e.1) seq true)
    committed := update sh.committed e seq }

/-- Store a refcount. -/
def setRc (b n : Nat) : Shm cfg :=
  { sh with refcount := update sh.refcount b n }

/-- A publisher's release of a replaced block: `fetch_sub(1)`. -/
def release (b : Nat) : Shm cfg :=
  { sh with
    refcount := update sh.refcount b (dec32 (sh.refcount b))
    released := update sh.released b (sh.released b + 1) }

/-- `fetch_add(1) + 1` on a topic's `write_seq` by a ring publish. -/
def claim (l : Loan cfg) : Shm cfg :=
  let seq := wrap64 (sh.writeSeq l.topic + 1)
  { sh with
    writeSeq := update sh.writeSeq l.topic seq
    claims := update sh.claims l.topic
      (update (sh.claims l.topic) seq (some ⟨l.blockIdx, l.len, sh.data l.blockIdx⟩)) }

/-- `fetch_add(1)` on a topic's `write_seq` by `commit_pinned`: a number without a ring
    entry. -/
def claimPinned (t : cfg.Topic) : Shm cfg :=
  { sh with writeSeq := update sh.writeSeq t (wrap64 (sh.writeSeq t + 1)) }

/-- The publish that claimed `seq` has not closed its entry yet. -/
def isOpen (t : cfg.Topic) (seq : Nat) : Bool := (sh.claims t seq).isSome && !sh.closed t seq

end Shm

/-! ### `Region::commit_to_ring` -/

/-- The spin limit of the CAS loop. -/
def spinLimit : Nat := 1024

/-- One atomic step of `commit_to_ring` after the claim.  `single` is the flag
    `single_publisher`; `spurious` lets the weak CAS fail for no reason. -/
def commitStep (single spurious : Bool) (sh : Shm cfg) (c : Commit cfg) :
    CommitPc → Shm cfg × PubPc cfg
  | .acquire spins =>
    if single then (sh.mark c.idx, .commit c .loadOld)
    else if (sh.entry c.idx).seq = seqWriting then
      if spins + 1 > spinLimit then (sh, .commit c .force)
      else (sh, .commit c (.acquire (spins + 1)))
    else (sh, .commit c (.cas spins (sh.entry c.idx).seq))
  | .cas spins current =>
    if spurious = false ∧ (sh.entry c.idx).seq = current then
      (sh.mark c.idx, .commit c .loadOld)
    else (sh, .commit c (.acquire spins))
  | .force => (sh.mark c.idx, .commit c .loadOld)
  | .loadOld => (sh, .commit c (.setRc (sh.entry c.idx).blockIdx))
  | .setRc old => (sh.setRc c.blockIdx 1, .commit c (.storeBlock old))
  | .storeBlock old => (sh.storeBlock c.idx c.blockIdx, .commit c (.storeLen old))
  | .storeLen old => (sh.storeLen c.idx c.len, .commit c (.close old))
  | .close old => (sh.close c.idx c.seq, .commit c (.release old))
  | .release old =>
    if old ≠ noBlock ∧ old < cfg.blockCount then
      -- the last reference: the block goes to `last_freed`, still in this publisher's hands
      (sh.release old, if sh.refcount old = 1 then .commit c (.recycle old) else .idle)
    else (sh, .idle)
  | .recycle _ => (sh, .idle)

/-! ### `Stream::try_recv` -/

/-- Go on with the scan after a slot that gave nothing; `opened` tells whether its
    publisher was still at work. -/
def Scan.next (sc : Scan) (opened : Bool) : StreamPc :=
  if sc.pos < sc.cur then .check ⟨sc.cur, sc.pos + 1, sc.passedOpen || opened⟩ else .idle

/-- The first sequence number of the scan: `last_seq + 1`, or the start of the window of
    `ring_depth` numbers below `current` for a stream that has fallen behind. -/
def scanStart (depth lastSeq current : Nat) : Nat :=
  if current - (lastSeq + 1) ≥ depth then current - depth + 1 else lastSeq + 1

/-- Leave slot `sc.pos` empty-handed. -/
def Stream.skip (m : Stream cfg) (sc : Scan) (opened : Bool) : Stream cfg :=
  { m with pc := sc.next opened, emptied := !decide (sc.pos < sc.cur) }

/-- One atomic step of `try_recv`; the third component is the sample it returns. -/
def streamStep (spurious : Bool) (sh : Shm cfg) (m : Stream cfg) :
    Shm cfg × Stream cfg × Option (Sample cfg) :=
  match m.pc with
  | .idle =>
    if sh.writeSeq m.topic ≤ m.lastSeq then (sh, { m with emptied := true }, none)
    else
      (sh, { m with
        pc := .check ⟨sh.writeSeq m.topic,
          scanStart cfg.ringDepth m.lastSeq (sh.writeSeq m.topic), false⟩
        emptied := false }, none)
  | .check sc =>
    if (sh.entry (m.topic, cfg.slotOf sc.pos)).seq = sc.pos then
      (sh, { m with pc := .loadBlock sc }, none)
    else (sh, m.skip sc (sh.isOpen m.topic sc.pos), none)
  | .loadBlock sc =>
    (sh, { m with pc := .loadLen sc (sh.entry (m.topic, cfg.slotOf sc.pos)).blockIdx }, none)
  | .loadLen sc b =>
    let len := (sh.entry (m.topic, cfg.slotOf sc.pos)).dataLen
    if b = noBlock ∨ cfg.blockCount ≤ b ∨ cfg.dataCapacity < len then (sh, m.skip sc false, none)
    else (sh, { m with pc := .loadRc sc b len }, none)
  | .loadRc sc b len =>
    if sh.refcount b = 0 then (sh, m.skip sc false, none)
    else (sh, { m with pc := .casRc sc b len (sh.refcount b) }, none)
  | .casRc sc b len rc =>
    if spurious = false ∧ sh.refcount b = rc then
      (sh.setRc b (wrap32 (rc + 1)), { m with pc := .recheck sc b len }, none)
    else (sh, { m with pc := .loadRc sc b len }, none)
  | .recheck sc b len =>
    if (sh.entry (m.topic, cfg.slotOf sc.pos)).seq = sc.pos then
      (sh, { m with pc := .idle, lastSeq := sc.pos, returned := m.returned ++ [sc.pos] },
        some (.live m.topic sc.pos b len))
    else (sh, { m with pc := .undo sc b }, none)
  | .undo sc b =>
    (sh.setRc b (dec32 (sh.refcount b)),
      if sh.refcount b = 1 then { m with pc := .freeing sc b } else m.skip sc false, none)
  | .freeing sc _ => (sh, m.skip sc false, none)

/-! ### The system -/

variable (cfg) in
/-- One atomic step of one agent, with the choices its environment makes. -/
inductive Act (P S : Type) where
  /-- the allocator hands block `b` to `Publisher::loan` -/
  | loan (p : P) (t : cfg.Topic) (b : Nat)
  /-- a write through the loan -/
  | write (p : P) (bytes : Payload) (len : Nat)
  /-- `Loan` dropped without publishing -/
  | dropLoan (p : P)
  /-- the allocator has the dropped loan's block back -/
  | freed (p : P)
  /-- next step of `Loan::publish` -/
  | commit (p : P) (spurious : Bool)
  /-- `commit_pinned` claims a sequence number of the topic -/
  | pinned (t : cfg.Topic)
  /-- `Subscriber::subscribe` -/
  | subscribe (s : S) (t : cfg.Topic)
  /-- next step of `Stream::try_recv` -/
  | recv (s : S) (spurious : Bool)
  /-- `Drop for Sample`: the `fetch_sub` of `release_block` -/
  | dropSample (k : Nat)
  /-- the allocator has the dropped sample's block back -/
  | freedSample (k : Nat)

section

variable {P S : Type} [Fintype P] [Fintype S] [DecidableEq P] [DecidableEq S]

/-- One step of the system.  `single p` is publisher `p`'s `single_publisher` flag, which
    `Publisher::loan` sets to `is_owner`. -/
def step (single : P → Bool) (st : State cfg P S) : Act cfg P S → Option (State cfg P S)
  | .loan p t b =>
    match st.pub p with
    | .idle =>
      if b < cfg.blockCount ∧ st.isFree b then
        some { st with pub := update st.pub p (.loaned ⟨t, b, 0⟩) }
      else none
    | _ => none
  | .write p bytes len =>
    match st.pub p with
    | .loaned l =>
      if len ≤ cfg.dataCapacity then
        some { st with
          shm := { st.shm with data := update st.shm.data l.blockIdx bytes }
          pub := update st.pub p (.loaned { l with len := len }) }
      else none
    | _ => none
  | .dropLoan p =>
    match st.pub p with
    | .loaned l => some { st with pub := update st.pub p (.dropping l.blockIdx) }
    | _ => none
  | .freed p =>
    match st.pub p with
    | .dropping _ => some { st with pub := update st.pub p .idle }
    | _ => none
  | .commit p spurious =>
    match st.pub p with
    | .loaned l =>
      some { st with
        shm := st.shm.claim l
        pub := update st.pub p
          (.commit ⟨l, wrap64 (st.shm.writeSeq l.topic + 1)⟩ (.acquire 0)) }
    | .commit c pc =>
      some { st with
        shm := (commitStep (single p) spurious st.shm c pc).1
        pub := update st.pub p (commitStep (single p) spurious st.shm c pc).2 }
    | _ => none
  | .pinned t => some { st with shm := st.shm.claimPinned t }
  | .subscribe s t =>
    match st.str s with
    | none => some { st with
        str := update st.str s
          (some ⟨t, st.shm.writeSeq t, .idle, st.shm.writeSeq t, [], false⟩) }
    | some _ => none
  | .recv s spurious =>
    match st.str s with
    | some m =>
      some { st with
        shm := (streamStep spurious st.shm m).1
        str := update st.str s (some (streamStep spurious st.shm m).2.1)
        samples := st.samples ++ (streamStep spurious st.shm m).2.2.toList }
    | none => none
  | .dropSample k =>
    match st.samples[k]? with
    | some (.live _ _ b _) =>
      some { st with
        shm := st.shm.setRc b (dec32 (st.shm.refcount b))
        samples := st.samples.set k (if st.shm.refcount b = 1 then .freeing b else .gone) }
    | _ => none
  | .freedSample k =>
    match st.samples[k]? with
    | some (.freeing _) => some { st with samples := st.samples.set k .gone }
    | _ => none

variable (cfg P S) in
/-- The region right after `Publisher::create`: no publish, no stream, all blocks free. -/
def init : State cfg P S where
  shm :=
    { writeSeq := fun _ => 0
      entry := fun _ => ⟨0, noBlock, 0⟩
      refcount := fun _ => 0
      data := fun _ _ => 0
      claims := fun _ _ => none
      closed := fun _ _ => false
      committed := fun _ => 0
      replaced := fun _ => 0
      released := fun _ => 0 }
  pub := fun _ => .idle
  str := fun _ => none
  samples := []

end

/-- Publisher `p` loans block `b` for the first topic and takes `n` steps of
    `Loan::publish`. -/
def publishSteps {cfg : ValidConfig} {P S : Type} (p : P) (b n : Nat) : List (Act cfg P S) :=
  .loan p cfg.topic0 b :: List.replicate n (.commit p false)

end Crossbar.Ring
