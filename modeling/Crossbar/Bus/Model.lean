import Crossbar.Protocol.Layout
import Crossbar.Lib.Run

namespace Crossbar.Bus

open Function Crossbar.Lib

/-!
# Bus — one publisher, many subscribers, one atomic step at a time

The broadcast ring of `src/platform/pod_bus.rs` under sequentially consistent interleaving:

* `writeStep` — `PodBus::publish_unchecked`: odd stamp, the value word by word, even stamp,
  `write_seq`;
* `visitStep` — one slot of `PodBus::slowest_subscriber_cursor` with its two prune branches;
  `pubStep` puts the scan and the write together to `try_publish`;
* `connectStep` — `BusSubscriber::connect` from the load of `write_seq` on, with
  `claim_subscriber_slot`;
* `recvStart` / `recvStep` — `BusSubscriber::try_recv`;
* `dropStep` — `Drop for BusSubscriber`.

The environment advances the clock, ends processes (`exit`: their subscribers take no more
steps) and starts them.  A program counter is named after the operation that comes next.  An
unsigned subtraction that would underflow leads to the program counter `fault`.

`log`, `init`, `received`, `call` and `calls` are history variables; no step reads them.
-/

/-! ### Parameters -/

/-- The parameters of a bus that `create_inner` accepts; `words` is the size of the value
    type in words. -/
structure BusConfig where
  ringSize : Nat
  watermark : Option Nat
  words : Nat
  ringSize_lt : ringSize < 2 ^ 32
  ringSize_pow : Config.isPowerOfTwo ringSize = true
  watermark_lt : ∀ w ∈ watermark, w < ringSize

/-- `MAX_SUBSCRIBER_SLOTS`. -/
def maxSubscriberSlots : Nat := 64

/-- An index into the subscriber slots. -/
abbrev SlotIdx : Type := Fin maxSubscriberSlots

/-- The age in microseconds after which a claim is pruned. -/
def claimTimeout : Nat := 5000000

/-- `n & VALUE_MASK`: the low 62 bits. -/
def value62 (n : Nat) : Nat := n % 2 ^ 62

/-- `u64::MAX`. -/
def maxU64 : Nat := 2 ^ 64 - 1

/-- An unsigned subtraction, `none` when it underflows. -/
def checkedSub (a b : Nat) : Option Nat := if b ≤ a then some (a - b) else none

theorem checkedSub_of_le {a b : Nat} (h : b ≤ a) : checkedSub a b = some (a - b) := if_pos h

namespace BusConfig

variable (cfg : BusConfig)

theorem ringSize_isPow : ∃ k, cfg.ringSize = 2 ^ k := (isPowerOfTwo_iff _).mp cfg.ringSize_pow

theorem ringSize_pos : 0 < cfg.ringSize := by
  obtain ⟨k, hk⟩ := cfg.ringSize_isPow
  rw [hk]
  positivity

/-- The ring slot of a sequence number, `seq & mask`. -/
def slotOf (seq : Nat) : Fin cfg.ringSize := maskIdx cfg.ringSize cfg.ringSize_pos seq

/-- Sequence numbers of one slot that are less than a ring apart are equal. -/
theorem eq_of_slotOf_eq {a b : Nat} (h : cfg.slotOf a = cfg.slotOf b) (hab : a ≤ b)
    (hlt : b < a + cfg.ringSize) : a = b :=
  eq_of_maskIdx_eq cfg.ringSize_isPow h hab hlt

/-- A value of the `Pod` type, by words. -/
abbrev Value (W : Type) : Type := Fin cfg.words → W

end BusConfig

/-! ### Shared memory -/

/-- The packed `state_cursor` word: the state with its 62-bit value.  `FREE` is the word 0. -/
inductive SlotWord where
  | free
  | active (cursor : Nat)
  | claiming (ts : Nat)
  deriving DecidableEq

/-- A subscriber slot of the header. -/
structure SubSlot where
  pid : Nat
  word : SlotWord
  deriving DecidableEq

section

variable (cfg : BusConfig) (W : Type)

/-- A slot of the ring. -/
structure RingSlot where
  stamp : Nat
  data : cfg.Value W

/-- `write_seq`, the ring, and the values published so far. -/
structure Mem where
  writeSeq : Nat
  ring : Fin cfg.ringSize → RingSlot cfg W
  log : List (cfg.Value W)

/-! ### The publisher -/

/-- The next operation of `publish_unchecked`; `ws` is the loaded `write_seq`. -/
inductive WritePc where
  | load
  | markOdd (ws : Nat)
  | word (ws : Nat) (k : Fin cfg.words)
  | markEven (ws : Nat)
  | advance (ws : Nat)

/-- The locals of `slowest_subscriber_cursor`, and the `write_seq` its caller has loaded. -/
structure Scan where
  ws : Nat
  i : SlotIdx
  minCursor : Nat
  hasActive : Bool

/-- The next operation of the scan at slot `i`. -/
inductive VisitPc where
  | word
  | clock (ts : Nat)
  | pruneClaim (ts : Nat)
  | loadPid (cursor : Nat)
  | checkPid (cursor pid : Nat)
  | pruneActive
  | clearPid

/-- Where the publisher is, with the value it publishes. -/
inductive PubPc where
  | idle
  | start (v : cfg.Value W)
  | scan (v : cfg.Value W) (sc : Scan) (pc : VisitPc)
  | write (v : cfg.Value W) (pc : WritePc cfg)

/-! ### Subscribers -/

/-- The next operation of a subscriber. -/
inductive SubPc where
  | absent
  /-- `connect`: load `write_seq` -/
  | connect
  /-- `claim_subscriber_slot` at slot `i`: read the clock, CAS, store pid, store `ACTIVE` -/
  | clock (i : SlotIdx)
  | claim (i : SlotIdx) (ts : Nat)
  | storePid (i : SlotIdx) (ts : Nat)
  | activate (i : SlotIdx) (ts : Nat)
  /-- connected, between calls -/
  | rest
  /-- `try_recv`: load the stamp, read the words, reload the stamp, store the cursor -/
  | stamp
  | read (s : Nat) (k : Fin cfg.words) (buf : cfg.Value W)
  | restamp (s : Nat) (buf : cfg.Value W)
  | update (i : SlotIdx) (v : cfg.Value W)
  /-- `drop`: store `FREE`, store pid 0 -/
  | release (i : SlotIdx)
  | clearPid (i : SlotIdx)
  | gone
  /-- an unsigned subtraction has underflowed -/
  | fault

/-- A `BusSubscriber`.  `crashed` is set when its process ends.  `init` is the cursor that
    `connect` loaded, `received` the numbered values it has got, `call` the cursor and the
    head of the running `try_recv`, and `calls` the same of the finished ones, with the
    result. -/
structure Sub where
  pc : SubPc cfg W
  cursor : Nat
  totalLagged : Nat
  slotIndex : Option SlotIdx
  crashed : Bool
  init : Nat
  received : List (Nat × cfg.Value W)
  call : Nat × Nat
  calls : List (Nat × Nat × Option (cfg.Value W))

/-- The bus: the ring, the subscriber slots, clock and live processes, the publisher with
    its `cached_slowest`, and the subscribers. -/
structure State (S : Type) where
  mem : Mem cfg W
  slots : SlotIdx → SubSlot
  now : Nat
  alive : Nat → Bool
  cachedSlowest : Nat
  pub : PubPc cfg W
  sub : S → Sub cfg W

end

variable {cfg : BusConfig} {W : Type}

/-! ### `publish_unchecked` -/

namespace Mem

variable (m : Mem cfg W)

/-- Store a stamp. -/
def setStamp (j : Fin cfg.ringSize) (n : Nat) : Mem cfg W :=
  { m with ring := update m.ring j { m.ring j with stamp := n } }

/-- Store one word of a value. -/
def setWord (j : Fin cfg.ringSize) (k : Fin cfg.words) (w : W) : Mem cfg W :=
  { m with
    ring := update m.ring j { m.ring j with data := update (m.ring j).data k w } }

end Mem

/-- Go on with word `k`, or with the even stamp after the last one. -/
def WritePc.next (ws k : Nat) : WritePc cfg :=
  if h : k < cfg.words then .word ws ⟨k, h⟩ else .markEven ws

/-- One atomic step of `publish_unchecked(v)`; `none` when it returns. -/
def writeStep (m : Mem cfg W) (v : cfg.Value W) : WritePc cfg → Mem cfg W × Option (WritePc cfg)
  | .load => (m, some (.markOdd m.writeSeq))
  | .markOdd ws => (m.setStamp (cfg.slotOf ws) (wrap64 (ws * 2 + 1)), some (.next ws 0))
  | .word ws k => (m.setWord (cfg.slotOf ws) k (v k), some (.next ws (k + 1)))
  | .markEven ws => (m.setStamp (cfg.slotOf ws) (wrap64 (ws * 2 + 2)), some (.advance ws))
  | .advance ws => ({ m with writeSeq := wrap64 (ws + 1), log := m.log ++ [v] }, none)

/-! ### `slowest_subscriber_cursor` -/

/-- Store the packed word of a slot. -/
def setWordAt (slots : SlotIdx → SubSlot) (i : SlotIdx) (w : SlotWord) : SlotIdx → SubSlot :=
  update slots i { slots i with word := w }

/-- Store the pid of a slot. -/
def setPidAt (slots : SlotIdx → SubSlot) (i : SlotIdx) (pid : Nat) : SlotIdx → SubSlot :=
  update slots i { slots i with pid := pid }

/-- Count an active cursor. -/
def Scan.count (sc : Scan) (cursor : Nat) : Scan :=
  { sc with hasActive := true, minCursor := if cursor < sc.minCursor then cursor else sc.minCursor }

/-- What a step of the scan leads to: another operation on the same slot, or its end. -/
inductive VisitNext where
  | stay (pc : VisitPc)
  | done (sc : Scan)

/-- One atomic step of the scan at slot `sc.i`. -/
def visitStep (slots : SlotIdx → SubSlot) (now : Nat) (alive : Nat → Bool) (sc : Scan) :
    VisitPc → (SlotIdx → SubSlot) × VisitNext
  | .word =>
    match (slots sc.i).word with
    | .claiming ts => (slots, .stay (.clock ts))
    | .active cursor => (slots, .stay (.loadPid cursor))
    | .free => (slots, .done sc)
  -- `now.saturating_sub(claim_ts)`
  | .clock ts => (slots, if now - ts > claimTimeout then .stay (.pruneClaim ts) else .done sc)
  | .pruneClaim ts =>
    if (slots sc.i).word = .claiming ts then (setWordAt slots sc.i .free, .stay .clearPid)
    else (slots, .done sc)
  | .loadPid cursor => (slots, .stay (.checkPid cursor (slots sc.i).pid))
  | .checkPid cursor pid =>
    (slots, if pid ≠ 0 ∧ alive pid = false then .stay .pruneActive else .done (sc.count cursor))
  | .pruneActive => (setWordAt slots sc.i .free, .stay .clearPid)
  | .clearPid => (setPidAt slots sc.i 0, .done sc)

/-! ### `try_publish` -/

/-- The end of the scan: `cached_slowest` and the decision between `Full` and the write. -/
def scanEnd {S : Type} (st : State cfg W S) (effective : Nat) (v : cfg.Value W) (sc : Scan) :
    State cfg W S :=
  if sc.hasActive then
    { st with
      cachedSlowest := sc.minCursor
      pub := if sc.ws ≥ wrap64 (sc.minCursor + effective) then .idle else .write v .load }
  else { st with pub := .write v .load }

/-- Go on to the next slot, or end the scan after the last one. -/
def scanNext {S : Type} (st : State cfg W S) (effective : Nat) (v : cfg.Value W) (sc : Scan) :
    State cfg W S :=
  if h : sc.i.val + 1 < maxSubscriberSlots then
    { st with pub := .scan v { sc with i := ⟨sc.i.val + 1, h⟩ } .word }
  else scanEnd st effective v sc

/-- One atomic step of the publisher. -/
def pubStep {S : Type} (st : State cfg W S) : Option (State cfg W S) :=
  match st.pub, cfg.watermark with
  | .idle, _ => none
  | .start v, some w =>
    some { st with
      pub :=
        if st.mem.writeSeq ≥ wrap64 (st.cachedSlowest + (cfg.ringSize - w)) then
          .scan v ⟨st.mem.writeSeq, ⟨0, by decide⟩, maxU64, false⟩ .word
        else .write v .load }
  | .scan v sc pc, some w =>
    match visitStep st.slots st.now st.alive sc pc with
    | (slots, .stay pc') => some { st with slots := slots, pub := .scan v sc pc' }
    | (slots, .done sc') => some (scanNext { st with slots := slots } (cfg.ringSize - w) v sc')
  | .write v pc, _ =>
    some { st with
      mem := (writeStep st.mem v pc).1
      pub :=
        match (writeStep st.mem v pc).2 with
        | some pc' => .write v pc'
        | none => .idle }
  | _, none => none

/-! ### `connect` -/

namespace Sub

variable (m : Sub cfg W)

/-- The call of `try_recv` returns `r`. -/
def ret (r : Option (cfg.Value W)) : Sub cfg W :=
  { m with pc := .rest, calls := m.calls ++ [(m.call.1, m.call.2, r)] }

/-- Go on with the next slot in `claim_subscriber_slot`, or fail with `PoolExhausted`. -/
def claimNext (i : SlotIdx) : Sub cfg W :=
  if h : i.val + 1 < maxSubscriberSlots then { m with pc := .clock ⟨i.val + 1, h⟩ }
  else { m with pc := .gone }

/-- Go on with word `k` of the value, or with the second stamp after the last one. -/
def readNext (s k : Nat) (buf : cfg.Value W) : Sub cfg W :=
  if h : k < cfg.words then { m with pc := .read s ⟨k, h⟩ buf } else { m with pc := .restamp s buf }

end Sub

/-- A `BusSubscriber` whose `connect` begins. -/
def newSub : Sub cfg W where
  pc := .connect
  cursor := 0
  totalLagged := 0
  slotIndex := none
  crashed := false
  init := 0
  received := []
  call := (0, 0)
  calls := []

/-- One atomic step of `connect`. -/
def connectStep {S : Type} (st : State cfg W S) (pid : Nat) (m : Sub cfg W) :
    Option ((SlotIdx → SubSlot) × Sub cfg W) :=
  match m.pc with
  | .connect =>
    let m' := { m with cursor := st.mem.writeSeq, init := st.mem.writeSeq }
    some (st.slots, { m' with
      pc := if cfg.watermark.isSome then .clock ⟨0, by decide⟩ else .rest })
  | .clock i => some (st.slots, { m with pc := .claim i st.now })
  | .claim i ts =>
    if (st.slots i).word = .free then
      some (setWordAt st.slots i (.claiming (value62 ts)), { m with pc := .storePid i ts })
    else some (st.slots, m.claimNext i)
  | .storePid i ts => some (setPidAt st.slots i pid, { m with pc := .activate i ts })
  | .activate i _ =>
    some (setWordAt st.slots i (.active (value62 m.cursor)),
      { m with pc := .rest, slotIndex := some i })
  | _ => none

/-! ### `try_recv` -/

/-- The head load of `try_recv`, with the skip to the oldest value still in the ring. -/
def recvStart (mem : Mem cfg W) (m : Sub cfg W) : Sub cfg W :=
  let m' := { m with call := (m.cursor, mem.writeSeq) }
  if m.cursor ≥ mem.writeSeq then m'.ret none
  else
    match checkedSub mem.writeSeq m.cursor with
    | none => { m' with pc := .fault }
    | some behind =>
      if behind > cfg.ringSize then
        match checkedSub mem.writeSeq cfg.ringSize with
        | none => { m' with pc := .fault }
        | some oldest =>
          match checkedSub oldest m.cursor with
          | none => { m' with pc := .fault }
          | some skipped =>
            { m' with
              totalLagged := wrap64 (m.totalLagged + skipped)
              cursor := oldest
              pc := .stamp }
      else { m' with pc := .stamp }

/-- The second stamp agrees with the first one, `s`: the value is number `cursor`, or a newer
    one that tells how far the subscriber has fallen behind. -/
def recvEnd (m : Sub cfg W) (s : Nat) (buf : cfg.Value W) : Sub cfg W :=
  if s = wrap64 (m.cursor * 2 + 2) then
    let m' := { m with
      cursor := wrap64 (m.cursor + 1)
      received := m.received ++ [(m.cursor, buf)] }
    match m.slotIndex with
    | some i => { m' with pc := .update i buf }
    | none => m'.ret (some buf)
  else
    match checkedSub (s / 2) 1 with
    | none => { m with pc := .fault }
    | some writtenSeq =>
      match checkedSub (wrap64 (writtenSeq + 1)) m.cursor with
      | none => { m with pc := .fault }
      | some skipped =>
        { m with
          totalLagged := wrap64 (m.totalLagged + skipped)
          cursor := wrap64 (writtenSeq + 1) }.ret none

/-- One atomic step of a running `try_recv`. -/
def recvStep [Inhabited W] (mem : Mem cfg W) (slots : SlotIdx → SubSlot) (m : Sub cfg W) :
    Option ((SlotIdx → SubSlot) × Sub cfg W) :=
  match m.pc with
  | .stamp =>
    let s := (mem.ring (cfg.slotOf m.cursor)).stamp
    if s &&& 1 ≠ 0 then some (slots, m.ret none)
    else if s = 0 then some (slots, m.ret none)
    else some (slots, m.readNext s 0 default)
  | .read s k buf =>
    some (slots, m.readNext s (k + 1)
      (update buf k ((mem.ring (cfg.slotOf m.cursor)).data k)))
  | .restamp s buf =>
    if (mem.ring (cfg.slotOf m.cursor)).stamp ≠ s then some (slots, m.ret none)
    else some (slots, recvEnd m s buf)
  | .update i v => some (setWordAt slots i (.active (value62 m.cursor)), m.ret (some v))
  | _ => none

/-! ### `drop` -/

/-- One atomic step of `Drop for BusSubscriber`. -/
def dropStep (slots : SlotIdx → SubSlot) (m : Sub cfg W) :
    Option ((SlotIdx → SubSlot) × Sub cfg W) :=
  match m.pc with
  | .rest =>
    match m.slotIndex with
    | some i => some (slots, { m with pc := .release i })
    | none => some (slots, { m with pc := .gone })
  | .release i => some (setWordAt slots i .free, { m with pc := .clearPid i })
  | .clearPid i => some (setPidAt slots i 0, { m with pc := .gone })
  | _ => none

/-! ### The system -/

/-- The subscriber has begun to connect and is not gone. -/
def SubPc.present : SubPc cfg W → Bool
  | .absent | .gone => false
  | _ => true

variable (cfg W) in
/-- One step of one agent, or of the environment. -/
inductive Act (S : Type) where
  /-- `try_publish(v)` is called -/
  | publish (v : cfg.Value W)
  /-- next step of the publisher -/
  | pub
  /-- `connect` is called -/
  | connect (s : S)
  /-- next step of `connect` -/
  | join (s : S)
  /-- `try_recv` is called and loads the head -/
  | recv (s : S)
  /-- next step of `try_recv` -/
  | read (s : S)
  /-- next step of `drop` -/
  | drop (s : S)
  /-- the clock advances -/
  | tick (n : Nat)
  /-- a process ends, with all its subscribers -/
  | exit (pid : Nat)
  /-- a process starts -/
  | spawn (pid : Nat)

section

variable {S : Type} [DecidableEq S] [Inhabited W]

namespace State

/-- Replace subscriber `s` and the slots. -/
def setSub (st : State cfg W S) (s : S) (r : (SlotIdx → SubSlot) × Sub cfg W) : State cfg W S :=
  { st with slots := r.1, sub := update st.sub s r.2 }

/-- Subscriber `s` takes a step of `f`, if its process is alive. -/
def subStep (st : State cfg W S) (s : S)
    (f : Sub cfg W → Option ((SlotIdx → SubSlot) × Sub cfg W)) : Option (State cfg W S) :=
  if (st.sub s).crashed then none else (f (st.sub s)).map (st.setSub s)

end State

/-- One step of the bus.  `pid s` is the process that subscriber `s` runs in. -/
def step (pid : S → Nat) (st : State cfg W S) : Act cfg W S → Option (State cfg W S)
  | .publish v =>
    match st.pub with
    | .idle =>
      some { st with pub := if cfg.watermark.isSome then .start v else .write v .load }
    | _ => none
  | .pub => pubStep st
  | .connect s =>
    if (st.sub s).pc.present = false ∧ (st.sub s).crashed = false ∧ st.alive (pid s) = true then
      some { st with sub := update st.sub s newSub }
    else none
  | .join s => st.subStep s (connectStep st (pid s))
  | .recv s =>
    st.subStep s fun m =>
      match m.pc with
      | .rest => some (st.slots, recvStart st.mem m)
      | _ => none
  | .read s => st.subStep s (recvStep st.mem st.slots)
  | .drop s => st.subStep s (dropStep st.slots)
  | .tick n => some { st with now := st.now + n }
  | .exit p =>
    some { st with
      alive := update st.alive p false
      sub := fun s =>
        if pid s = p ∧ (st.sub s).pc.present = true then { st.sub s with crashed := true }
        else st.sub s }
  | .spawn p => some { st with alive := update st.alive p true }

variable (cfg W S) in
/-- The bus right after `create`, with no process but the publisher's. -/
def init : State cfg W S where
  mem :=
    { writeSeq := 0
      ring := fun _ => ⟨0, default⟩
      log := [] }
  slots := fun _ => ⟨0, .free⟩
  now := 0
  alive := fun _ => false
  cachedSlowest := 0
  pub := .idle
  sub := fun _ => { newSub with pc := .absent }

end

end Crossbar.Bus
