import Crossbar.Pool.Publisher

namespace Crossbar.Region

open Function Crossbar.Lib Crossbar.Pool

/-!
# Region — publishers, streams and samples by whole calls

The public calls of `src/platform/shm.rs`, `loan.rs` and `subscription.rs` on one region, one
call a step, with the code of `src/protocol/region.rs` under them.  Nothing comes between the
operations of a call here, so a CAS loop is its one successful iteration and a seqlock is
open only inside `commit_to_ring`.

* `Publisher.allocCached` — the recycled block, the publisher's cache, the refill loop;
* `Loan.edit` — writing through a loan;
* `commitToRing` — store the block in the next ring entry, release the block it replaces;
* `tryRecv` — the window scan over `tryReadSlotRaw`;
* `loanPinned`, `commitPinned`, `tryRecvPinned` — the pinned block of a topic;
* `step` — one call of one `Publisher`, `Stream`, `Sample` or `PinnedGuard`.

A `Loan`, `TypedLoan` or `PinnedLoan` borrows its publisher mutably, so a publisher has at
most one and can do nothing else, not even be dropped, until the loan is gone.  Heartbeats,
futex wakes, the subscriber count and the discovery registry are left out: no call that is
modelled here reads them.

The history variables `log` and `lastPinned` record what every publish to a ring, and the last
pinned publish of a topic, was called with, the field `returned` of a stream the numbers it has
received from the ring, and the field `seq` of a guard the number it was obtained for; no call
reads them.
-/

/-- The variants of `Error` that the calls below return. -/
inductive Error where
  | poolExhausted
  | dataTooLarge (size capacity : Nat)
  | pinnedReadersActive (count topicIdx : Nat)
  | topicNotFound (uri : List UInt8)
  | maxTopicsReached
  | uriTooLong (len max : Nat)
  | alignmentError (align max : Nat)
  | handleMismatch
  | regionCorrupted (msg : String)
  deriving DecidableEq

/-- `TE_URI_MAX`. -/
def teUriMax : Nat := 64

/-- `PINNED_WRITER_ACTIVE`: the reader count that means a `PinnedLoan` is live. -/
def pinnedWriterActive : Nat := 2 ^ 32 - 1

/-- `uri_hash`: 64-bit FNV-1a. -/
def uriHash (uri : List UInt8) : UInt64 :=
  uri.foldl (fun h b => (h ^^^ b.toUInt64) * 0x100000001b3) 0xcbf29ce484222325

/-- A topic entry.  `uri` is `TE_URI[0..TE_URI_LEN)`; between calls an entry is free or
    active, never `TE_STATE_INIT`. -/
structure TopicEntry where
  active : Bool
  uriHash : UInt64
  uri : List UInt8
  typeSize : Nat
  writeSeq : Nat
  pinnedBlock : Nat
  pinnedSeq : Nat
  pinnedReaders : Nat

/-- A topic entry of the zeroed file. -/
def TopicEntry.zero : TopicEntry := ⟨false, 0, [], 0, 0, 0, 0, 0⟩

variable (cfg : ValidConfig)

/-- The shared words of the region. -/
structure Shm where
  pool : FreeList
  refcount : Nat → Nat
  data : Nat → Ring.Payload
  topic : cfg.Topic → TopicEntry
  entry : cfg.EntryIdx → Ring.Entry
  log : cfg.Topic → Nat → Option Ring.Claim
  lastPinned : cfg.Topic → Option (Nat × Ring.Claim)

/-- `Topic`: the handle that `register` returns. -/
structure Handle where
  topicIdx : cfg.Topic
  publisherId : Nat

/-- Which of the three loan types a loan is. -/
inductive LoanKind where
  | untyped
  | typed
  | pinned
  deriving DecidableEq

/-- A live `Loan`, `TypedLoan` or `PinnedLoan`.  For a `TypedLoan` the length is
    `size_of::<T>()`; the block of a `PinnedLoan` is the publisher's pinned block. -/
structure Loan where
  kind : LoanKind
  topic : cfg.Topic
  blockIdx : Nat
  len : Nat
  deriving DecidableEq

/-- A `Publisher` with its own `Region`: `lastFreed` is `Region.last_freed`, `cache` is
    `block_cache[0..cache_len)`, `borrow` the loan that borrows the publisher. -/
structure Publisher where
  id : Nat
  lastFreed : Nat
  cache : List Nat
  pinnedBlocks : cfg.Topic → Nat
  borrow : Option (Loan cfg)

/-- A `Stream`. -/
structure Stream where
  topic : cfg.Topic
  lastSeq : Nat
  typeSize : Nat
  returned : List Nat

/-- A `Sample`, or a `TypedSample` with `len = size_of::<T>()`. -/
structure Sample where
  blockIdx : Nat
  len : Nat
  deriving DecidableEq

/-- A `PinnedGuard`: the block and length it reads, and the topic it is counted in. -/
structure PinnedGuard where
  topic : cfg.Topic
  seq : Nat
  blockIdx : Nat
  len : Nat

/-- The region with every publisher, stream, sample and guard made on it; `none` stands for
    one that has been dropped. -/
structure World where
  shm : Shm cfg
  pubs : List (Option (Publisher cfg))
  streams : List (Stream cfg)
  samples : List (Option Sample)
  guards : List (Option (PinnedGuard cfg))

/-- A new `Publisher`, of `create` and of `open`. -/
def Publisher.fresh (id : Nat) : Publisher cfg where
  id := id
  lastFreed := noBlock
  cache := []
  pinnedBlocks := fun _ => noBlock
  borrow := none

/-- `Publisher::create`: the free list holds every block, the ring entries hold none, and the
    rest of the new file is zero. -/
def create (id : Nat) : World cfg where
  shm :=
    { pool := initFreeList cfg
      refcount := fun _ => 0
      data := fun _ _ => 0
      topic := fun _ => .zero
      entry := fun _ => ⟨0, noBlock, 0⟩
      log := fun _ _ => none
      lastPinned := fun _ => none }
  pubs := [some (.fresh cfg id)]
  streams := []
  samples := []
  guards := []

variable {cfg}

/-! ### The topic table -/

namespace Shm

variable (shm : Shm cfg)

/-- Change one topic entry. -/
def setTopic (t : cfg.Topic) (e : TopicEntry) : Shm cfg :=
  { shm with topic := update shm.topic t e }

/-- The scan of `register_inner` and of `subscribe` for an active entry with this URI: the
    hashes first, then the bytes. -/
def findTopic (uri : List UInt8) : Option cfg.Topic :=
  (List.finRange cfg.maxTopics).find? fun t =>
    (shm.topic t).active && (shm.topic t).uriHash == uriHash uri && (shm.topic t).uri == uri

/-- The second scan of `register_inner`, for a free entry. -/
def freeTopic : Option cfg.Topic :=
  (List.finRange cfg.maxTopics).find? fun t => !(shm.topic t).active

/-- `Publisher::register_inner`, for the publisher with this id. -/
def registerInner (id : Nat) (uri : List UInt8) (typeSize : Nat) :
    Shm cfg × Except Error (Handle cfg) :=
  if teUriMax < uri.length then (shm, .error (.uriTooLong uri.length teUriMax))
  else
    match shm.findTopic uri with
    | some t => (shm, .ok ⟨t, id⟩)
    | none =>
      match shm.freeTopic with
      | some t =>
        -- the pinned words of the entry are not written
        (shm.setTopic t
          { shm.topic t with
            active := true, uriHash := uriHash uri, uri := uri, typeSize := typeSize,
            writeSeq := 0 },
          .ok ⟨t, id⟩)
      | none => (shm, .error .maxTopicsReached)

/-- `Publisher::register`. -/
def register (id : Nat) (uri : List UInt8) : Shm cfg × Except Error (Handle cfg) :=
  shm.registerInner id uri 0

/-- `Publisher::register_typed` for a type of this size and alignment. -/
def registerTyped (id : Nat) (uri : List UInt8) (size align : Nat) :
    Shm cfg × Except Error (Handle cfg) :=
  if 8 < align then (shm, .error (.alignmentError align 8))
  else shm.registerInner id uri (wrap32 size)

/-- `Subscriber::subscribe`: the stream starts at the latest sequence number. -/
def subscribe (uri : List UInt8) : Except Error (Stream cfg) :=
  match shm.findTopic uri with
  | some t => .ok ⟨t, (shm.topic t).writeSeq, (shm.topic t).typeSize, []⟩
  | none => .error (.topicNotFound uri)

/-- `wait_for_peer` of `channel.rs`: the stream starts from the beginning. -/
def waitForPeer (uri : List UInt8) : Except Error (Stream cfg) :=
  match shm.subscribe uri with
  | .ok s => .ok { s with lastSeq := 0 }
  | .error e => .error e

end Shm

/-! ### Allocation -/

variable (cfg) in
/-- The refill loop of `alloc_cached`, for at most `n` blocks; `true` when it met an index
    out of range. -/
def refill : Nat → FreeList → List Nat → FreeList × List Nat × Bool
  | 0, pool, cache => (pool, cache, false)
  | n + 1, pool, cache =>
    match allocBlock cfg pool with
    | (pool', .block b) => refill n pool' (cache ++ [b])
    | (pool', .exhausted) => (pool', cache, false)
    | (pool', .corrupted) => (pool', cache, true)

namespace Publisher

/-- `Region::alloc_recycled`: swap `NO_BLOCK` into `last_freed`. -/
def allocRecycled (p : Publisher cfg) : Publisher cfg × Option Nat :=
  ({ p with lastFreed := noBlock }, if p.lastFreed ≠ noBlock then some p.lastFreed else none)

/-- `Publisher::alloc_cached`. -/
def allocCached (shm : Shm cfg) (p : Publisher cfg) :
    Shm cfg × Publisher cfg × Except Error (Option Nat) :=
  match p.allocRecycled with
  | (p, some b) => (shm, p, .ok (some b))
  | (p, none) =>
    match takeCache p.cache with
    | some (b, rest) => (shm, { p with cache := rest }, .ok (some b))
    | none =>
      match refill cfg (cacheSize - p.cache.length) shm.pool p.cache with
      | (pool, cache, true) =>
        ({ shm with pool := pool }, { p with cache := cache },
          .error (.regionCorrupted "free-list contains out-of-bounds block index"))
      | (pool, cache, false) =>
        match takeCache cache with
        | some (b, rest) => ({ shm with pool := pool }, { p with cache := rest }, .ok (some b))
        | none => ({ shm with pool := pool }, { p with cache := cache }, .ok none)

/-- `alloc_cached()?.ok_or(PoolExhausted)?`, the way both kinds of loan get their block. -/
def obtainBlock (shm : Shm cfg) (p : Publisher cfg) :
    Shm cfg × Publisher cfg × Except Error Nat :=
  match p.allocCached shm with
  | (shm, p, .ok (some b)) => (shm, p, .ok b)
  | (shm, p, .ok none) => (shm, p, .error .poolExhausted)
  | (shm, p, .error e) => (shm, p, .error e)

/-- `Publisher::loan_preamble` and what `loan` and `loan_typed` make of its block. -/
def loanWith (kind : LoanKind) (len : Nat) (shm : Shm cfg) (p : Publisher cfg) (h : Handle cfg) :
    Shm cfg × Publisher cfg × Except Error (Loan cfg) :=
  if h.publisherId ≠ p.id then (shm, p, .error .handleMismatch)
  else
    match p.obtainBlock shm with
    | (shm, p, .ok b) => (shm, p, .ok ⟨kind, h.topicIdx, b, len⟩)
    | (shm, p, .error e) => (shm, p, .error e)

/-- `Publisher::loan`. -/
def loan (shm : Shm cfg) (p : Publisher cfg) (h : Handle cfg) :
    Shm cfg × Publisher cfg × Except Error (Loan cfg) :=
  p.loanWith .untyped 0 shm h

/-- `Publisher::loan_typed` for a type of this size. -/
def loanTyped (size : Nat) (shm : Shm cfg) (p : Publisher cfg) (h : Handle cfg) :
    Shm cfg × Publisher cfg × Except Error (Loan cfg) :=
  p.loanWith .typed size shm h

/-- The pinned block of a topic: the one this publisher has, or a new one, which is also
    stored in the topic entry (`set_pinned_block`). -/
def pinnedBlock (shm : Shm cfg) (p : Publisher cfg) (t : cfg.Topic) :
    Shm cfg × Publisher cfg × Except Error Nat :=
  if p.pinnedBlocks t ≠ noBlock then (shm, p, .ok (p.pinnedBlocks t))
  else
    match p.obtainBlock shm with
    | (shm, p, .ok b) =>
      (shm.setTopic t { shm.topic t with pinnedBlock := b },
        { p with pinnedBlocks := update p.pinnedBlocks t b }, .ok b)
    | (shm, p, .error e) => (shm, p, .error e)

/-- `Publisher::loan_pinned`.  The block stays pinned when the CAS on the readers fails. -/
def loanPinned (shm : Shm cfg) (p : Publisher cfg) (h : Handle cfg) :
    Shm cfg × Publisher cfg × Except Error (Loan cfg) :=
  if h.publisherId ≠ p.id then (shm, p, .error .handleMismatch)
  else
    match p.pinnedBlock shm h.topicIdx with
    | (shm, p, .error e) => (shm, p, .error e)
    | (shm, p, .ok b) =>
      let e := shm.topic h.topicIdx
      if e.pinnedReaders = 0 then
        (shm.setTopic h.topicIdx { e with pinnedReaders := pinnedWriterActive }, p,
          .ok ⟨.pinned, h.topicIdx, b, 0⟩)
      else
        let count := if e.pinnedReaders = pinnedWriterActive then 0 else e.pinnedReaders
        (shm, p, .error (.pinnedReadersActive count h.topicIdx))

end Publisher

/-! ### Publishing -/

namespace Shm

/-- `Region::free_block`. -/
def free (shm : Shm cfg) (b : Nat) : Shm cfg := { shm with pool := freeBlock cfg shm.pool b }

/-- The sequence number the next publish on `t` claims. -/
def nextSeq (shm : Shm cfg) (t : cfg.Topic) : Nat := wrap64 ((shm.topic t).writeSeq + 1)

/-- Steps 1 to 6 of `commit_to_ring`: claim a sequence number, set the refcount of the new
    block, write the entry.  The two ways of marking the entry in step 2 leave the same word,
    which step 6 overwrites. -/
def storeEntry (shm : Shm cfg) (t : cfg.Topic) (b len : Nat) : Shm cfg :=
  { shm.setTopic t { shm.topic t with writeSeq := shm.nextSeq t } with
    refcount := update shm.refcount b 1
    entry := update shm.entry (t, cfg.slotOf (shm.nextSeq t)) ⟨shm.nextSeq t, b, len⟩
    log := update shm.log t
      (update (shm.log t) (shm.nextSeq t) (some ⟨b, len, shm.data b⟩)) }

/-- `fetch_sub(1)` on the refcount of a block. -/
def decRef (shm : Shm cfg) (b : Nat) : Shm cfg :=
  { shm with refcount := update shm.refcount b (dec32 (shm.refcount b)) }

/-- `release_block`: drop a reference, free the block when it was the last one. -/
def release (shm : Shm cfg) (b : Nat) : Shm cfg :=
  if cfg.blockCount ≤ b then shm
  else if shm.refcount b = 1 then (shm.decRef b).free b
  else shm.decRef b

end Shm

/-- Step 7 of `commit_to_ring`: drop the ring's reference to the old block.  A block that was
    referenced by the ring alone becomes the recycled block, and the one it displaces there
    is freed. -/
def releaseOld (shm : Shm cfg) (p : Publisher cfg) (old : Nat) : Shm cfg × Publisher cfg :=
  if old ≠ noBlock ∧ old < cfg.blockCount then
    if shm.refcount old = 1 then
      if p.lastFreed ≠ noBlock then
        ((shm.decRef old).free p.lastFreed, { p with lastFreed := old })
      else (shm.decRef old, { p with lastFreed := old })
    else (shm.decRef old, p)
  else (shm, p)

/-- `Region::commit_to_ring`. -/
def commitToRing (shm : Shm cfg) (p : Publisher cfg) (b len : Nat) (t : cfg.Topic) :
    Shm cfg × Publisher cfg :=
  releaseOld (shm.storeEntry t b len) p (shm.entry (t, cfg.slotOf (shm.nextSeq t))).blockIdx

/-- `Region::commit_pinned`: the sequence number and the length, packed in one word. -/
def commitPinned (shm : Shm cfg) (len : Nat) (t : cfg.Topic) : Shm cfg :=
  shm.setTopic t
    { shm.topic t with
      writeSeq := shm.nextSeq t
      pinnedSeq := ((shm.nextSeq t &&& 0xFFFFFFFF) <<< 32) ||| len }

/-- Store the reader count of a topic's pinned block. -/
def Shm.setReaders (shm : Shm cfg) (t : cfg.Topic) (n : Nat) : Shm cfg :=
  shm.setTopic t { shm.topic t with pinnedReaders := n }

/-- Copy bytes into a block, from an offset on. -/
def Shm.poke (shm : Shm cfg) (b off : Nat) (bytes : List UInt8) : Shm cfg :=
  { shm with
    data := update shm.data b fun i =>
      if off ≤ i ∧ i < off + bytes.length then bytes.getD (i - off) 0 else shm.data b i }

/-- `u32::to_le_bytes`. -/
def leBytes32 (n : Nat) : List UInt8 :=
  [.ofNat n, .ofNat (n / 2 ^ 8), .ofNat (n / 2 ^ 16), .ofNat (n / 2 ^ 24)]

/-- A call that writes through a loan. -/
inductive Edit where
  /-- any bytes, through `as_mut_slice` or `as_mut` -/
  | fill (bytes : Ring.Payload)
  | setData (data : List UInt8)
  | setLen (n : Nat)
  | write (buf : List UInt8)
  | writeStructured (header : List UInt8) (entries : List (List UInt8))

namespace Loan

variable (l : Loan cfg) (shm : Shm cfg)

/-- The bytes that `as_mut_slice` or `as_mut` gives access to: a `TypedLoan` has those of the
    value. -/
def room : Nat :=
  match l.kind with
  | .typed => l.len
  | _ => cfg.dataCapacity

/-- Writing through `as_mut_slice` or `as_mut`. -/
def fill (bytes : Ring.Payload) : Shm cfg :=
  { shm with
    data := update shm.data l.blockIdx fun i =>
      if i < l.room then bytes i else shm.data l.blockIdx i }

/-- `Loan::set_data` and `PinnedLoan::set_data`. -/
def setData (data : List UInt8) : Shm cfg × Loan cfg × Except Error Unit :=
  if cfg.dataCapacity < data.length then
    (shm, l, .error (.dataTooLarge data.length cfg.dataCapacity))
  else (shm.poke l.blockIdx 0 data, { l with len := data.length }, .ok ())

/-- `Loan::set_len` and `PinnedLoan::set_len`. -/
def setLen (n : Nat) : Loan cfg × Except Error Unit :=
  if cfg.dataCapacity < n then (l, .error (.dataTooLarge n cfg.dataCapacity))
  else ({ l with len := n }, .ok ())

/-- `io::Write::write` of a `Loan`; `none` is the error `block full`. -/
def write (buf : List UInt8) : Shm cfg × Loan cfg × Option Nat :=
  if cfg.dataCapacity - l.len = 0 ∧ buf ≠ [] then (shm, l, none)
  else
    let n := min buf.length (cfg.dataCapacity - l.len)
    (shm.poke l.blockIdx l.len (buf.take n), { l with len := l.len + n }, some n)

/-- `Loan::write_structured` and `PinnedLoan::write_structured`, for the bytes of the header
    and of every entry. -/
def writeStructured (header : List UInt8) (entries : List (List UInt8)) :
    Shm cfg × Loan cfg × Except Error Unit :=
  let array := entries.flatten
  let total := header.length + array.length + 4
  if cfg.dataCapacity < total then (shm, l, .error (.dataTooLarge total cfg.dataCapacity))
  else
    let shm := shm.poke l.blockIdx 0 header
    let shm := shm.poke l.blockIdx header.length array
    let shm := shm.poke l.blockIdx (header.length + array.length) (leBytes32 entries.length)
    (shm, (l.setLen total).1, (l.setLen total).2)

/-- The effect of a writing call; `none` when the loan type does not have the method. -/
def edit : Edit → Option (Shm cfg × Loan cfg)
  | .fill bytes => some (l.fill shm bytes, l)
  | .setData data =>
    if l.kind = .typed then none else some ((l.setData shm data).1, (l.setData shm data).2.1)
  | .setLen n => if l.kind = .typed then none else some (shm, (l.setLen n).1)
  | .write buf =>
    if l.kind = .untyped then some ((l.write shm buf).1, (l.write shm buf).2.1) else none
  | .writeStructured header entries =>
    if l.kind = .typed then none
    else some ((l.writeStructured shm header entries).1, (l.writeStructured shm header entries).2.1)

/-- `publish` of a `PinnedLoan`, which also clears the writer sentinel. -/
def publishPinned : Shm cfg :=
  { (commitPinned shm l.len l.topic).setReaders l.topic 0 with
    lastPinned := update shm.lastPinned l.topic
      (some (shm.nextSeq l.topic, ⟨l.blockIdx, l.len, shm.data l.blockIdx⟩)) }

/-- `publish` of the three loan types. -/
def publish (p : Publisher cfg) : Shm cfg × Publisher cfg :=
  match l.kind with
  | .pinned => (l.publishPinned shm, p)
  | _ => commitToRing shm p l.blockIdx l.len l.topic

/-- `Drop` of the three loan types. -/
def drop : Shm cfg :=
  match l.kind with
  | .pinned => shm.setReaders l.topic 0
  | _ => shm.free l.blockIdx

end Loan

namespace Publisher

/-- `Publisher::publish`: `loan`, `set_data`, `publish`.  A loan whose data does not fit is
    dropped. -/
def publish (shm : Shm cfg) (p : Publisher cfg) (h : Handle cfg) (data : List UInt8) :
    Shm cfg × Publisher cfg × Except Error Unit :=
  match p.loan shm h with
  | (shm, p, .error e) => (shm, p, .error e)
  | (shm, p, .ok l) =>
    match l.setData shm data with
    | (shm, l, .error e) => (l.drop shm, p, .error e)
    | (shm, l, .ok _) => ((l.publish shm p).1, (l.publish shm p).2, .ok ())

/-- `Publisher::publish_typed`: `loan_typed` and `send` of a value with these bytes. -/
def publishTyped (size : Nat) (shm : Shm cfg) (p : Publisher cfg) (h : Handle cfg)
    (value : Ring.Payload) : Shm cfg × Publisher cfg × Except Error Unit :=
  match p.loanTyped size shm h with
  | (shm, p, .error e) => (shm, p, .error e)
  | (shm, p, .ok l) =>
    ((l.publish (l.fill shm value) p).1, (l.publish (l.fill shm value) p).2, .ok ())

/-- The loop of `Drop for Publisher` over the pinned blocks. -/
def freePinned (shm : Shm cfg) (p : Publisher cfg) : List cfg.Topic → Shm cfg
  | [] => shm
  | t :: ts =>
    if p.pinnedBlocks t ≠ noBlock then freePinned (shm.free (p.pinnedBlocks t)) p ts
    else freePinned shm p ts

/-- `Drop for Publisher`: the pinned blocks, the recycled block, the cached blocks. -/
def drop (shm : Shm cfg) (p : Publisher cfg) : Shm cfg :=
  let shm := p.freePinned shm (List.finRange cfg.maxTopics)
  let shm := match p.allocRecycled.2 with
    | some b => shm.free b
    | none => shm
  p.cache.foldl Shm.free shm

end Publisher

/-! ### Receiving -/

/-- `SlotRead`, with the sequence number that was read. -/
structure SlotRead where
  seq : Nat
  blockIdx : Nat
  dataLen : Nat
  deriving DecidableEq

namespace Shm

/-- `Stream::try_read_slot_raw`.  The second seqlock check reads the word the first one
    passed, so the reference is never undone. -/
def tryReadSlotRaw (shm : Shm cfg) (t : cfg.Topic) (seq : Nat) : Option (Shm cfg × SlotRead) :=
  let e := shm.entry (t, cfg.slotOf seq)
  if e.seq ≠ seq then none
  else if e.blockIdx = noBlock then none
  else if cfg.blockCount ≤ e.blockIdx then none
  else if cfg.dataCapacity < e.dataLen then none
  else if shm.refcount e.blockIdx = 0 then none
  else
    some ({ shm with
        refcount := update shm.refcount e.blockIdx
          (wrap32 (shm.refcount e.blockIdx + 1)) },
      ⟨seq, e.blockIdx, e.dataLen⟩)

/-- The loop of `try_recv` over `n` sequence numbers from `seq` on. -/
def scanRing (shm : Shm cfg) (t : cfg.Topic) : Nat → Nat → Option (Shm cfg × SlotRead)
  | 0, _ => none
  | n + 1, seq =>
    match shm.tryReadSlotRaw t seq with
    | some r => some r
    | none => scanRing shm t n (seq + 1)

end Shm

namespace Stream

/-- The window scan of `try_recv` and `try_recv_typed`. -/
def scan (s : Stream cfg) (shm : Shm cfg) : Option (Shm cfg × SlotRead) :=
  let cur := (shm.topic s.topic).writeSeq
  if cur ≤ s.lastSeq then none
  else
    let start := s.lastSeq + 1
    let scanStart := if cfg.ringDepth ≤ cur - start then cur - cfg.ringDepth + 1 else start
    shm.scanRing s.topic (cur + 1 - scanStart) scanStart

/-- The stream after it has received number `q` from the ring. -/
def advance (s : Stream cfg) (q : Nat) : Stream cfg :=
  { s with lastSeq := q, returned := s.returned ++ [q] }

/-- `Stream::try_recv`. -/
def tryRecv (s : Stream cfg) (shm : Shm cfg) : Option (Shm cfg × Stream cfg × Sample) :=
  (s.scan shm).map fun (shm, r) => (shm, s.advance r.seq, ⟨r.blockIdx, r.dataLen⟩)

/-- `Stream::try_recv_typed` for a type of this size. -/
def tryRecvTyped (size : Nat) (s : Stream cfg) (shm : Shm cfg) :
    Option (Shm cfg × Stream cfg × Sample) :=
  if s.typeSize ≠ 0 ∧ s.typeSize ≠ size then none
  else (s.scan shm).map fun (shm, r) => (shm, s.advance r.seq, ⟨r.blockIdx, size⟩)

/-- `Stream::try_recv_pinned`.  The second load of the packed word sees what the first saw. -/
def tryRecvPinned (s : Stream cfg) (shm : Shm cfg) :
    Option (Shm cfg × Stream cfg × PinnedGuard cfg) :=
  let e := shm.topic s.topic
  if e.pinnedSeq = 0 then none
  else if e.pinnedSeq >>> 32 ≤ s.lastSeq then none
  else if e.pinnedBlock = noBlock then none
  else if cfg.blockCount ≤ e.pinnedBlock then none
  else if e.pinnedReaders = pinnedWriterActive then none
  else
    some (shm.setReaders s.topic (wrap32 (e.pinnedReaders + 1)),
      { s with lastSeq := e.pinnedSeq >>> 32 },
      ⟨s.topic, e.pinnedSeq >>> 32, e.pinnedBlock, wrap32 e.pinnedSeq⟩)

end Stream

/-! ### The calls -/

/-- A call.  Publishers, streams, samples and guards are named by their place in the lists of
    the world. -/
inductive Act (cfg : ValidConfig) where
  | «open» (id : Nat)
  | register (k : Nat) (uri : List UInt8)
  | registerTyped (k : Nat) (uri : List UInt8) (size align : Nat)
  | loan (k : Nat) (h : Handle cfg)
  | loanTyped (k : Nat) (h : Handle cfg) (size : Nat)
  | loanPinned (k : Nat) (h : Handle cfg)
  | edit (k : Nat) (e : Edit)
  | publishLoan (k : Nat)
  | dropLoan (k : Nat)
  | publish (k : Nat) (h : Handle cfg) (data : List UInt8)
  | publishTyped (k : Nat) (h : Handle cfg) (size : Nat) (value : Ring.Payload)
  | dropPublisher (k : Nat)
  | subscribe (uri : List UInt8)
  | waitForPeer (uri : List UInt8)
  | tryRecv (i : Nat)
  | tryRecvTyped (i : Nat) (size : Nat)
  | dropSample (j : Nat)
  | tryRecvPinned (i : Nat)
  | dropGuard (j : Nat)

namespace World

variable (w : World cfg)

/-- A call on a publisher that no loan borrows. -/
def onPublisher (k : Nat) (f : Publisher cfg → Shm cfg × Option (Publisher cfg)) :
    Option (World cfg) :=
  match w.pubs[k]? with
  | some (some p) =>
    match p.borrow with
    | none => some { w with shm := (f p).1, pubs := w.pubs.set k (f p).2 }
    | some _ => none
  | _ => none

/-- A call on the loan that borrows a publisher.  `f` gets the publisher without it. -/
def onLoan (k : Nat) (f : Publisher cfg → Loan cfg → Option (Shm cfg × Publisher cfg)) :
    Option (World cfg) :=
  match w.pubs[k]? with
  | some (some p) =>
    match p.borrow with
    | some l =>
      match f { p with borrow := none } l with
      | some (shm, p') => some { w with shm := shm, pubs := w.pubs.set k (some p') }
      | none => none
    | none => none
  | _ => none

/-- A new stream, when the call has found the topic. -/
def addStream (r : Except Error (Stream cfg)) : World cfg :=
  match r with
  | .ok s => { w with streams := w.streams ++ [s] }
  | .error _ => w

/-- A call with a handle.  Only `register` makes handles, so the topic is active. -/
def withHandle (h : Handle cfg) (r : Option (World cfg)) : Option (World cfg) :=
  if (w.shm.topic h.topicIdx).active = true then r else none

/-- A call of a stream that may return a sample. -/
def receive (i : Nat) (f : Stream cfg → Option (Shm cfg × Stream cfg × Sample)) :
    Option (World cfg) :=
  match w.streams[i]? with
  | some s =>
    match f s with
    | some (shm, s', sample) =>
      some { w with
        shm := shm, streams := w.streams.set i s', samples := w.samples ++ [some sample] }
    | none => some w
  | none => none

end World

/-- Keep the loan that a call returned. -/
def keepLoan (r : Shm cfg × Publisher cfg × Except Error (Loan cfg)) :
    Shm cfg × Option (Publisher cfg) :=
  match r with
  | (shm, p, .ok l) => (shm, some { p with borrow := some l })
  | (shm, p, .error _) => (shm, some p)

/-- One call.  `none` when there is nothing to call it on, or when the borrow checker refuses
    it; a typed loan of a type larger than a block is undefined behaviour in the source and
    left out. -/
def step (w : World cfg) : Act cfg → Option (World cfg)
  | .open id => some { w with pubs := w.pubs ++ [some (.fresh cfg id)] }
  | .register k uri => w.onPublisher k fun p => ((w.shm.register p.id uri).1, some p)
  | .registerTyped k uri size align =>
    w.onPublisher k fun p => ((w.shm.registerTyped p.id uri size align).1, some p)
  | .loan k h => w.withHandle h (w.onPublisher k fun p => keepLoan (p.loan w.shm h))
  | .loanTyped k h size =>
    if size ≤ cfg.dataCapacity then
      w.withHandle h (w.onPublisher k fun p => keepLoan (p.loanTyped size w.shm h))
    else none
  | .loanPinned k h => w.withHandle h (w.onPublisher k fun p => keepLoan (p.loanPinned w.shm h))
  | .edit k e =>
    w.onLoan k fun p l =>
      (l.edit w.shm e).map fun (shm, l') => (shm, { p with borrow := some l' })
  | .publishLoan k => w.onLoan k fun p l => some (l.publish w.shm p)
  | .dropLoan k => w.onLoan k fun p l => some (l.drop w.shm, p)
  | .publish k h data =>
    w.withHandle h (w.onPublisher k fun p =>
      ((p.publish w.shm h data).1, some (p.publish w.shm h data).2.1))
  | .publishTyped k h size value =>
    if size ≤ cfg.dataCapacity then
      w.withHandle h (w.onPublisher k fun p =>
        ((p.publishTyped size w.shm h value).1, some (p.publishTyped size w.shm h value).2.1))
    else none
  | .dropPublisher k => w.onPublisher k fun p => (p.drop w.shm, none)
  | .subscribe uri => some (w.addStream (w.shm.subscribe uri))
  | .waitForPeer uri => some (w.addStream (w.shm.waitForPeer uri))
  | .tryRecv i => w.receive i fun s => s.tryRecv w.shm
  | .tryRecvTyped i size => w.receive i fun s => s.tryRecvTyped size w.shm
  | .dropSample j =>
    match w.samples[j]? with
    | some (some s) =>
      some { w with shm := w.shm.release s.blockIdx, samples := w.samples.set j none }
    | _ => none
  | .tryRecvPinned i =>
    match w.streams[i]? with
    | some s =>
      match s.tryRecvPinned w.shm with
      | some (shm, s', g) =>
        some { w with shm := shm, streams := w.streams.set i s', guards := w.guards ++ [some g] }
      | none => some w
    | none => none
  | .dropGuard j =>
    match w.guards[j]? with
    | some (some g) =>
      some { w with
        shm := w.shm.setReaders g.topic (dec32 (w.shm.topic g.topic).pinnedReaders)
        guards := w.guards.set j none }
    | _ => none

end Crossbar.Region
