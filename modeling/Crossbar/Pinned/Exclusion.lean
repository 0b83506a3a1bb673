import Crossbar.Lib.Run
import Crossbar.Lib.Tally
import Crossbar.Region.Model

namespace Crossbar.Pinned

open Function Crossbar.Lib Crossbar.Region

/-!
# Pinned — writers and readers of one topic, step by step

`loan_pinned`, `publish` and `drop` of a `PinnedLoan`, `try_recv_pinned` and the drop of a
`PinnedGuard` on one topic, one atomic operation a step, for any number of publishers and
streams.  The word `TE_PINNED_READERS` is at once a reader count and a writer lock: a writer
swaps `0` for `PINNED_WRITER_ACTIVE` and stores `0` at the end, whatever the word holds then; a
reader counts itself in by a CAS, looks at the packed word again and, when that has changed,
counts itself out.

* `Reader.registered` / `Writer.holds` — the share of one stream or publisher in the word;
* `Inv` — the word is the sum of the shares, and fits 32 bits;
* `writerStep_share` / `readerStep_share` — a step moves the word by the difference of the
  shares of the one that moves, from which `inv_step` and `pinned_exclusion` follow;
* `tryRecvPinned_alone` — the steps of one call, with nothing between them, are the call of
  `Crossbar.Region`.

The words of other topics, the pool and the payloads take no part; what `alloc_cached` returns
is left to the action.  Publishes and receives through the ring move `write_seq` and
`last_seq`, and are actions of their own here.
-/

/-- Where a publisher is in its pinned calls. -/
inductive WriterPc where
  | idle
  /-- `loan_pinned` has a new block and stores it in the topic entry -/
  | setBlock (b : Nat)
  /-- `loan_pinned` claims the readers word -/
  | claim (b : Nat)
  /-- a `PinnedLoan` of this block and length is live -/
  | loaned (b len : Nat)
  /-- `publish` has claimed a number and stores it with the length -/
  | storeSeq (len seq : Nat)
  /-- `publish` clears the readers word -/
  | clear
  /-- `loan_pinned` returns an error -/
  | failed (e : Error)
  deriving DecidableEq

/-- A publisher: `pinnedBlock` is its `pinned_blocks[topic_idx]`. -/
structure Writer where
  pinnedBlock : Nat
  pc : WriterPc

/-- Where a stream is in `try_recv_pinned`; `packed` and `b` are what it has loaded. -/
inductive ReaderPc where
  | idle
  /-- the block index is next -/
  | block (packed : Nat)
  /-- the top of the CAS loop -/
  | load (packed b : Nat)
  | cas (packed b current : Nat)
  /-- counted in; the packed word is loaded again -/
  | recheck (packed b : Nat)
  /-- the packed word has changed; `fetch_sub` is next -/
  | undo
  deriving DecidableEq

/-- A stream with the guards it has handed out and that are still live. -/
structure Reader (cfg : ValidConfig) where
  lastSeq : Nat
  pc : ReaderPc
  guards : List (PinnedGuard cfg)

/-- The topic entry, the publishers `P` and the streams `S`. -/
structure State (cfg : ValidConfig) (P S : Type*) where
  entry : TopicEntry
  writer : P → Writer
  reader : S → Reader cfg

/-- A call, or the next atomic step of a running one. -/
inductive Act (P S : Type*) where
  /-- `loan_pinned`; `alloc` is the answer of `alloc_cached`, if it is asked -/
  | loanPinned (p : P) (alloc : Except Error Nat)
  | goWriter (p : P)
  /-- a write through the loan that sets its length -/
  | setLen (p : P) (n : Nat)
  | publish (p : P)
  | drop (p : P)
  /-- `try_recv_pinned`, with its first load -/
  | tryRecvPinned (i : S)
  | goReader (i : S) (spurious : Bool)
  | dropGuard (i : S) (k : Nat)
  /-- the `fetch_add` of a publish through the ring -/
  | ringPublish
  /-- the stream starts at, or receives from the ring, number `q` -/
  | ringRecv (i : S) (q : Nat)

variable {cfg : ValidConfig} {P S : Type*}

/-- The topic entry `e`, on which nobody is active. -/
def init (cfg : ValidConfig) (P S : Type*) (e : TopicEntry) : State cfg P S where
  entry := e
  writer := fun _ => ⟨noBlock, .idle⟩
  reader := fun _ => ⟨0, .idle, []⟩

/-! ### Steps -/

/-- The first half of `loan_pinned`, up to the first operation on the topic entry. -/
def Writer.start (w : Writer) (alloc : Except Error Nat) : Writer :=
  if w.pinnedBlock ≠ noBlock then { w with pc := .claim w.pinnedBlock }
  else
    match alloc with
    | .ok b => ⟨b, .setBlock b⟩
    | .error e => { w with pc := .failed e }

section

variable (t : cfg.Topic)

/-- The next step of `loan_pinned` or `publish`; `none` when no call is running. -/
def writerStep (e : TopicEntry) : WriterPc → Option (TopicEntry × WriterPc)
  | .idle | .loaned .. => none
  | .setBlock b => some ({ e with pinnedBlock := b }, .claim b)
  | .claim b =>
    if e.pinnedReaders = 0 then some ({ e with pinnedReaders := pinnedWriterActive }, .loaned b 0)
    else
      let count := if e.pinnedReaders = pinnedWriterActive then 0 else e.pinnedReaders
      some (e, .failed (.pinnedReadersActive count t))
  | .storeSeq len seq =>
    some ({ e with pinnedSeq := ((seq &&& 0xFFFFFFFF) <<< 32) ||| len }, .clear)
  | .clear => some ({ e with pinnedReaders := 0 }, .idle)
  | .failed _ => some (e, .idle)

/-- The first load of `try_recv_pinned`, with the checks of the packed word. -/
def Reader.start (r : Reader cfg) (packed : Nat) : Reader cfg :=
  if packed = 0 then r
  else if packed >>> 32 ≤ r.lastSeq then r
  else { r with pc := .block packed }

/-- The next step of `try_recv_pinned`; `none` when no call is running. -/
def readerStep (spurious : Bool) (e : TopicEntry) (r : Reader cfg) :
    Option (TopicEntry × Reader cfg) :=
  match r.pc with
  | .idle => none
  | .block packed =>
    if e.pinnedBlock = noBlock then some (e, { r with pc := .idle })
    else if cfg.blockCount ≤ e.pinnedBlock then some (e, { r with pc := .idle })
    else some (e, { r with pc := .load packed e.pinnedBlock })
  | .load packed b =>
    if e.pinnedReaders = pinnedWriterActive then some (e, { r with pc := .idle })
    else some (e, { r with pc := .cas packed b e.pinnedReaders })
  | .cas packed b current =>
    if e.pinnedReaders = current ∧ spurious = false then
      some ({ e with pinnedReaders := wrap32 (current + 1) }, { r with pc := .recheck packed b })
    else some (e, { r with pc := .load packed b })
  | .recheck packed b =>
    if e.pinnedSeq ≠ packed then some (e, { r with pc := .undo })
    else
      some (e, { lastSeq := packed >>> 32, pc := .idle,
                 guards := r.guards ++ [⟨t, packed >>> 32, b, wrap32 packed⟩] })
  | .undo => some ({ e with pinnedReaders := dec32 e.pinnedReaders }, { r with pc := .idle })

variable [DecidableEq P] [DecidableEq S]

/-- Publisher `p` goes on as `w`, and leaves the entry `e`. -/
def State.setWriter (s : State cfg P S) (p : P) (e : TopicEntry) (w : Writer) : State cfg P S :=
  { s with entry := e, writer := update s.writer p w }

/-- Stream `i` goes on as `r`, and leaves the entry `e`. -/
def State.setReader (s : State cfg P S) (i : S) (e : TopicEntry) (r : Reader cfg) :
    State cfg P S :=
  { s with entry := e, reader := update s.reader i r }

/-- One action. -/
def step (s : State cfg P S) : Act P S → Option (State cfg P S)
  | .loanPinned p alloc =>
    if (s.writer p).pc = .idle then some (s.setWriter p s.entry ((s.writer p).start alloc))
    else none
  | .goWriter p =>
    (writerStep t s.entry (s.writer p).pc).map fun (e, pc) =>
      s.setWriter p e { s.writer p with pc := pc }
  | .setLen p n =>
    match (s.writer p).pc with
    | .loaned b len =>
      -- a length over the capacity is refused
      let len := if cfg.dataCapacity < n then len else n
      some (s.setWriter p s.entry { s.writer p with pc := .loaned b len })
    | _ => none
  | .publish p =>
    match (s.writer p).pc with
    | .loaned _ len =>
      let seq := wrap64 (s.entry.writeSeq + 1)
      some (s.setWriter p { s.entry with writeSeq := seq }
        { s.writer p with pc := .storeSeq len seq })
    | _ => none
  | .drop p =>
    match (s.writer p).pc with
    | .loaned .. =>
      some (s.setWriter p { s.entry with pinnedReaders := 0 } { s.writer p with pc := .idle })
    | _ => none
  | .tryRecvPinned i =>
    if (s.reader i).pc = .idle then
      some (s.setReader i s.entry ((s.reader i).start s.entry.pinnedSeq))
    else none
  | .goReader i spurious =>
    (readerStep t spurious s.entry (s.reader i)).map fun (e, r) => s.setReader i e r
  | .dropGuard i k =>
    if k < (s.reader i).guards.length then
      some (s.setReader i { s.entry with pinnedReaders := dec32 s.entry.pinnedReaders }
        { s.reader i with guards := (s.reader i).guards.eraseIdx k })
    else none
  | .ringPublish =>
    some { s with entry := { s.entry with writeSeq := wrap64 (s.entry.writeSeq + 1) } }
  | .ringRecv i q =>
    if (s.reader i).pc = .idle then
      some (s.setReader i s.entry { s.reader i with lastSeq := q })
    else none

end

/-! ### What the readers word counts -/

/-- Whether a publisher has a live `PinnedLoan`: from the CAS that claims the word to the store
    that clears it. -/
def WriterPc.live : WriterPc → Bool
  | .loaned .. | .storeSeq .. | .clear => true
  | .idle | .setBlock _ | .claim _ | .failed _ => false

/-- Whether a stream is inside `try_recv_pinned` and has counted itself in. -/
def ReaderPc.inside : ReaderPc → Bool
  | .recheck .. | .undo => true
  | .idle | .block _ | .load .. | .cas .. => false

/-- The share of a publisher in the readers word. -/
def Writer.holds (w : Writer) : Nat := if w.pc.live then 1 else 0

/-- The readers a stream has registered: its guards, and the call that has yet to validate or
    to undo. -/
def Reader.registered (r : Reader cfg) : Nat :=
  r.guards.length + if r.pc.inside then 1 else 0

section

variable [Fintype P] [Fintype S]

/-- The readers that are registered. -/
def State.readers (s : State cfg P S) : Nat := tally Reader.registered s.reader

/-- The `PinnedLoan`s that are live. -/
def State.writers (s : State cfg P S) : Nat := tally Writer.holds s.writer

/-- The readers word is the sum of all shares, and a stream does not try to count itself in
    over the sentinel. -/
structure Inv (s : State cfg P S) : Prop where
  word : s.entry.pinnedReaders = s.readers + pinnedWriterActive * s.writers
  lt : s.entry.pinnedReaders < 2 ^ 32
  cas : ∀ i packed b current, (s.reader i).pc = .cas packed b current →
    current ≠ pinnedWriterActive

theorem holds_of_live {w : Writer} (h : w.pc.live = true) : w.holds = 1 := by
  unfold Writer.holds
  rw [if_pos h]

theorem inv_init {e : TopicEntry} (he : e.pinnedReaders = 0) : Inv (init cfg P S e) := by
  have hreaders : (init cfg P S e).readers = 0 := tally_eq_zero _ _ (fun _ => rfl)
  have hwriters : (init cfg P S e).writers = 0 := tally_eq_zero _ _ (fun _ => rfl)
  refine ⟨?_, ?_, nofun⟩
  · rw [hreaders, hwriters]
    exact he
  · change e.pinnedReaders < _
    rw [he]
    decide

namespace Inv

variable {s : State cfg P S}

/-- A live loan has the word to itself. -/
theorem alone (h : Inv s) {p : P} (hp : (s.writer p).pc.live = true) :
    s.entry.pinnedReaders = pinnedWriterActive ∧ s.readers = 0 ∧ s.writers = 1 := by
  have hle : 1 ≤ s.writers := by
    rw [← holds_of_live hp]
    exact le_tally Writer.holds s.writer p
  have hword := h.word
  have hlt := h.lt
  unfold pinnedWriterActive at *
  refine ⟨?_, ?_, ?_⟩ <;> omega

/-- While a reader is registered, the word counts the readers. -/
theorem counts (h : Inv s) (hpos : 0 < s.readers) :
    s.entry.pinnedReaders = s.readers ∧ s.writers = 0 := by
  have hword := h.word
  have hlt := h.lt
  unfold pinnedWriterActive at *
  constructor <;> omega

/-- A registered reader is counted in the word. -/
theorem word_pos (h : Inv s) {i : S} (hi : 0 < (s.reader i).registered) :
    0 < s.entry.pinnedReaders := by
  have hle : (s.reader i).registered ≤ s.readers := le_tally Reader.registered s.reader i
  rw [(h.counts (by omega)).1]
  omega

/-- A publisher moves, and the word by the difference of its shares. -/
theorem setWriter [DecidableEq P] (h : Inv s) (p : P) {e : TopicEntry} {w : Writer}
    (hword : e.pinnedReaders + pinnedWriterActive * (s.writer p).holds =
      s.entry.pinnedReaders + pinnedWriterActive * w.holds)
    (hlt : e.pinnedReaders < 2 ^ 32) : Inv (s.setWriter p e w) := by
  have hold := h.word
  have htally : (s.setWriter p e w).writers + (s.writer p).holds = s.writers + w.holds :=
    tally_update Writer.holds s.writer p w
  refine ⟨?_, hlt, h.cas⟩
  change e.pinnedReaders = s.readers + _
  unfold pinnedWriterActive at *
  omega

/-- A publisher goes on without a change of its share or of the word. -/
theorem writer_same [DecidableEq P] (h : Inv s) (p : P) {e : TopicEntry} {w : Writer}
    (hlive : w.pc.live = (s.writer p).pc.live)
    (hword : e.pinnedReaders = s.entry.pinnedReaders) : Inv (s.setWriter p e w) := by
  refine h.setWriter p ?_ ?_
  · rw [hword, Writer.holds, Writer.holds, hlive]
  · rw [hword]
    exact h.lt

/-- A stream moves, and the word by the difference of its shares. -/
theorem setReader [DecidableEq S] (h : Inv s) (i : S) {e : TopicEntry} {r : Reader cfg}
    (hword : e.pinnedReaders + (s.reader i).registered = s.entry.pinnedReaders + r.registered)
    (hlt : e.pinnedReaders < 2 ^ 32)
    (hcas : ∀ packed b current, r.pc = .cas packed b current → current ≠ pinnedWriterActive) :
    Inv (s.setReader i e r) := by
  have hold := h.word
  have htally : (s.setReader i e r).readers + (s.reader i).registered = s.readers + r.registered :=
    tally_update Reader.registered s.reader i r
  refine ⟨?_, hlt, fun j => ?_⟩
  · change e.pinnedReaders = _ + pinnedWriterActive * s.writers
    omega
  · change ∀ packed b current, (update s.reader i r j).pc = _ → _
    by_cases hj : j = i
    · subst hj
      rw [update_self]
      exact hcas
    · rw [update_of_ne hj]
      exact h.cas j

end Inv

end

/-! ### What a step does to the word -/

/-- A publisher that starts has no share in the word. -/
theorem Writer.start_live (w : Writer) (alloc : Except Error Nat) :
    (w.start alloc).pc.live = false := by
  unfold Writer.start
  split
  · rfl
  · split
    · rfl
    · rfl

/-- A step of a publisher moves the word by the difference of its shares.  The store that
    clears the word finds the sentinel there. -/
theorem writerStep_share {t : cfg.Topic} {e e' : TopicEntry} {w : Writer} {pc : WriterPc}
    (hstep : writerStep t e w.pc = some (e', pc)) (hlt : e.pinnedReaders < 2 ^ 32)
    (hlive : w.pc.live = true → e.pinnedReaders = pinnedWriterActive) :
    e'.pinnedReaders + pinnedWriterActive * w.holds =
      e.pinnedReaders + pinnedWriterActive * Writer.holds ⟨w.pinnedBlock, pc⟩ ∧
    e'.pinnedReaders < 2 ^ 32 := by
  obtain ⟨blk, pc₀⟩ := w
  cases pc₀ with
  | idle | loaned => cases hstep
  | setBlock | storeSeq | failed =>
    cases hstep
    exact ⟨rfl, hlt⟩
  | claim b =>
    simp only [writerStep] at hstep
    split at hstep
    · -- the CAS finds no share in the word
      rename_i hzero
      cases hstep
      refine ⟨?_, (by decide : pinnedWriterActive < 2 ^ 32)⟩
      show pinnedWriterActive + pinnedWriterActive * 0 = e.pinnedReaders + pinnedWriterActive * 1
      omega
    · cases hstep
      exact ⟨rfl, hlt⟩
  | clear =>
    -- the loan that ends is live, so the word is its sentinel
    have hword := hlive rfl
    cases hstep
    refine ⟨?_, Nat.two_pow_pos 32⟩
    show 0 + pinnedWriterActive * 1 = e.pinnedReaders + pinnedWriterActive * 0
    omega

/-- The first load of a stream registers nobody. -/
theorem Reader.start_spec (r : Reader cfg) (packed : Nat) (hidle : r.pc = .idle) :
    (r.start packed).registered = r.registered ∧
      ∀ p b c, (r.start packed).pc ≠ .cas p b c := by
  unfold Reader.start
  split
  · exact ⟨rfl, by rw [hidle]; nofun⟩
  · split
    · exact ⟨rfl, by rw [hidle]; nofun⟩
    · unfold Reader.registered
      rw [hidle]
      exact ⟨rfl, nofun⟩

/-- A step of a stream moves the word by the difference of its shares. -/
theorem readerStep_share {t : cfg.Topic} {spurious : Bool} {e e' : TopicEntry}
    {r r' : Reader cfg} (hstep : readerStep t spurious e r = some (e', r'))
    (hlt : e.pinnedReaders < 2 ^ 32) (hshare : r.pc.inside = true → 0 < e.pinnedReaders)
    (hcas : ∀ p b c, r.pc = .cas p b c → c ≠ pinnedWriterActive) :
    e'.pinnedReaders + r.registered = e.pinnedReaders + r'.registered ∧
    e'.pinnedReaders < 2 ^ 32 ∧
    ∀ p b c, r'.pc = .cas p b c → c ≠ pinnedWriterActive := by
  obtain ⟨lastSeq, pc, guards⟩ := r
  cases pc with
  | idle => cases hstep
  | block packed =>
    simp only [readerStep] at hstep
    split at hstep
    · cases hstep
      exact ⟨rfl, hlt, nofun⟩
    · split at hstep
      · cases hstep
        exact ⟨rfl, hlt, nofun⟩
      · cases hstep
        exact ⟨rfl, hlt, nofun⟩
  | load packed b =>
    simp only [readerStep] at hstep
    split at hstep
    · cases hstep
      exact ⟨rfl, hlt, nofun⟩
    · rename_i hfree
      cases hstep
      refine ⟨rfl, hlt, fun p b' c heq => ?_⟩
      cases heq
      exact hfree
  | cas packed b current =>
    simp only [readerStep] at hstep
    split at hstep
    · -- counted in: there is room, for the word was not the sentinel
      rename_i heq
      have hfree := hcas packed b current rfl
      cases hstep
      have hwrap : wrap32 (current + 1) = current + 1 := by
        apply wrap32_of_lt
        unfold pinnedWriterActive at hfree
        omega
      simp only [hwrap, heq.1]
      refine ⟨?_, ?_, nofun⟩
      · show current + 1 + (guards.length + 0) = current + (guards.length + 1)
        omega
      · unfold pinnedWriterActive at hfree
        omega
    · cases hstep
      exact ⟨rfl, hlt, nofun⟩
  | recheck packed b =>
    simp only [readerStep] at hstep
    split at hstep
    · cases hstep
      exact ⟨rfl, hlt, nofun⟩
    · -- the call in flight becomes a guard
      cases hstep
      refine ⟨?_, hlt, nofun⟩
      show _ + (guards.length + 1) = _ + ((guards ++ [_]).length + 0)
      rw [List.length_append, List.length_singleton]
  | undo =>
    -- the stream is counted, so `fetch_sub` does not wrap
    have hpos := hshare rfl
    cases hstep
    simp only [dec32_of_pos hpos hlt]
    refine ⟨?_, by omega, nofun⟩
    show _ - 1 + (guards.length + 1) = _ + (guards.length + 0)
    omega

/-! ### Runs -/

section

variable [Fintype P] [Fintype S] [DecidableEq P] [DecidableEq S] {t : cfg.Topic}

variable {s s' : State cfg P S}

/-- **Step.** Every action moves the word with the shares. -/
theorem inv_step (a : Act P S) (h : Inv s) (hstep : step t s a = some s') : Inv s' := by
  cases a with
  | loanPinned p alloc =>
    simp only [step] at hstep
    split at hstep
    · rename_i hidle
      cases hstep
      refine h.writer_same p ?_ rfl
      rw [Writer.start_live, hidle]
      rfl
    · cases hstep
  | goWriter p =>
    simp only [step, Option.map_eq_some_iff] at hstep
    obtain ⟨⟨e, pc⟩, hw, rfl⟩ := hstep
    obtain ⟨hword, hlt⟩ := writerStep_share hw h.lt (fun hlive => (h.alone hlive).1)
    exact h.setWriter p hword hlt
  | setLen p | publish p =>
    simp only [step] at hstep
    split at hstep
    · rename_i hpc
      cases hstep
      refine h.writer_same p ?_ rfl
      rw [hpc]
      rfl
    · cases hstep
  | drop p =>
    simp only [step] at hstep
    split at hstep
    · -- the store of `0` finds the sentinel
      rename_i hpc
      have hlive : (s.writer p).pc.live = true := by rw [hpc]; rfl
      have hword := (h.alone hlive).1
      cases hstep
      refine h.setWriter p ?_ (Nat.two_pow_pos 32)
      rw [holds_of_live hlive]
      show 0 + pinnedWriterActive * 1 = s.entry.pinnedReaders + pinnedWriterActive * 0
      omega
    · cases hstep
  | tryRecvPinned i =>
    simp only [step] at hstep
    split at hstep
    · rename_i hidle
      cases hstep
      obtain ⟨hreg, hcas⟩ := (s.reader i).start_spec s.entry.pinnedSeq hidle
      exact h.setReader i (by rw [hreg]) h.lt (fun p b c hc => absurd hc (hcas p b c))
    · cases hstep
  | goReader i spurious =>
    simp only [step, Option.map_eq_some_iff] at hstep
    obtain ⟨⟨e, r⟩, hr, rfl⟩ := hstep
    have hshare : (s.reader i).pc.inside = true → 0 < s.entry.pinnedReaders := by
      intro hin
      refine h.word_pos (i := i) ?_
      rw [Reader.registered, if_pos hin]
      omega
    obtain ⟨hword, hlt, hcas⟩ := readerStep_share hr h.lt hshare (h.cas i)
    exact h.setReader i hword hlt hcas
  | dropGuard i k =>
    simp only [step] at hstep
    split at hstep
    · -- likewise a guard that is live
      rename_i hk
      have hlen := List.length_eraseIdx_of_lt hk
      have hpos : 0 < s.entry.pinnedReaders := by
        refine h.word_pos (i := i) ?_
        unfold Reader.registered
        omega
      have hlt := h.lt
      cases hstep
      refine h.setReader i ?_ ?_ (h.cas i)
      · simp only [dec32_of_pos hpos hlt, Reader.registered, hlen]
        omega
      · simp only [dec32_of_pos hpos hlt]
        omega
    · cases hstep
  | ringPublish =>
    cases hstep
    exact ⟨h.word, h.lt, h.cas⟩
  | ringRecv i q =>
    simp only [step] at hstep
    split at hstep
    · cases hstep
      exact h.setReader i rfl h.lt (h.cas i)
    · cases hstep

/-- **Run.** The readers word is the sum of the shares in every reachable state. -/
theorem inv_run {e : TopicEntry} {as : List (Act P S)} (he : e.pinnedReaders = 0)
    (hrun : Run (step t) (fun _ _ => True) (init cfg P S e) as s) : Inv s :=
  hrun.invariant (inv_init he) (fun _ a _ h _ hstep => inv_step a h hstep)

/-- **Writer and reader exclusion.** In every interleaving a live `PinnedLoan` excludes every
    guard and every other `PinnedLoan`.  As long as there are fewer than `2 ^ 32 - 1` readers,
    the readers word is the sentinel exactly while a loan is live and the number of registered
    readers otherwise, and it is `0` when there is no loan, no guard and no reader in flight. -/
theorem pinned_exclusion {e : TopicEntry} {as : List (Act P S)} (he : e.pinnedReaders = 0)
    (hrun : Run (step t) (fun _ _ => True) (init cfg P S e) as s) :
    (∀ p i, (s.writer p).pc.live = true → (s.reader i).guards = []) ∧
    (∀ p q, (s.writer p).pc.live = true → (s.writer q).pc.live = true → p = q) ∧
    (s.readers < 2 ^ 32 - 1 →
      (s.entry.pinnedReaders = pinnedWriterActive ↔ ∃ p, (s.writer p).pc.live = true) ∧
      ((∀ p, (s.writer p).pc.live = false) →
        s.entry.pinnedReaders = ∑ i, ((s.reader i).guards.length +
          if (s.reader i).pc.inside then 1 else 0)) ∧
      ((∀ p, (s.writer p).pc.live = false) →
        (∀ i, (s.reader i).guards = [] ∧ (s.reader i).pc.inside = false) →
        s.entry.pinnedReaders = 0)) := by
  have h := inv_run he hrun
  have hnone : (∀ p, (s.writer p).pc.live = false) → s.entry.pinnedReaders = s.readers := by
    intro hno
    have hzero : s.writers = 0 := tally_eq_zero _ _ (fun p => if_neg (by rw [hno p]; nofun))
    rw [h.word, hzero]
    omega
  refine ⟨?_, ?_, fun hfew => ⟨⟨?_, ?_⟩, hnone, ?_⟩⟩
  · intro p i hp
    have hle : (s.reader i).registered ≤ s.readers := le_tally Reader.registered s.reader i
    rw [(h.alone hp).2.1, Reader.registered] at hle
    exact List.eq_nil_of_length_eq_zero (by omega)
  · -- two live loans would be two shares of the sentinel
    intro p q hp hq
    by_contra hne
    have hle : (s.writer p).holds + (s.writer q).holds ≤ s.writers :=
      add_le_tally Writer.holds s.writer hne
    rw [holds_of_live hp, holds_of_live hq, (h.alone hp).2.2] at hle
    omega
  · -- without a loan the word would be the number of readers
    intro hword
    by_contra hno
    have hcount := hnone (fun p => Bool.eq_false_iff.mpr (fun hp => hno ⟨p, hp⟩))
    unfold pinnedWriterActive at hword
    omega
  · rintro ⟨p, hp⟩
    exact (h.alone hp).1
  · intro hno hidle
    rw [hnone hno]
    refine tally_eq_zero _ _ (fun i => ?_)
    obtain ⟨hguards, hin⟩ := hidle i
    rw [Reader.registered, hguards, hin]
    rfl

end

/-- The streams of two readers. -/
def readerA : Fin 2 := ⟨0, Nat.two_pos⟩

def readerB : Fin 2 := ⟨1, Nat.one_lt_two⟩

/-- One publish, then a stream with a guard and one that has counted itself in. -/
def twoReaders : List (Act (Fin 1) (Fin 2)) :=
  [.loanPinned 0 (.ok 0), .goWriter 0, .goWriter 0, .setLen 0 3, .publish 0, .goWriter 0,
    .goWriter 0, .tryRecvPinned readerA, .goReader readerA false, .goReader readerA false,
    .tryRecvPinned readerB, .goReader readerB false, .goReader readerB false,
    .goReader readerA true, .goReader readerA false, .goReader readerA false,
    .goReader readerA false, .goReader readerB false, .goReader readerB false,
    .goReader readerB false]

theorem pinned_exclusion_two_readers :
    ∃ s, Run (step oneSlot.topic0) (fun _ _ => True) (init oneSlot (Fin 1) (Fin 2) .zero)
      twoReaders s ∧ s.readers = 2 ∧ s.entry.pinnedReaders = 2 ∧
      (∀ p, (s.writer p).pc.live = false) := by
  obtain ⟨s, hrun, hguard, hreaders⟩ := exists_run_of_exec (step oneSlot.topic0) (fun _ _ => True)
    (s := init oneSlot (Fin 1) (Fin 2) .zero) (l := twoReaders)
    (p := fun s => (s.reader 0).guards.length = 1 ∧ s.readers = 2) (by decide +kernel)
  obtain ⟨hexcl, -, hword⟩ := pinned_exclusion rfl hrun
  obtain ⟨-, hcount, -⟩ := hword (by omega)
  have hlive : ∀ p, (s.writer p).pc.live = false := by
    intro p
    refine Bool.eq_false_iff.mpr (fun hp => ?_)
    rw [hexcl p 0 hp] at hguard
    cases hguard
  exact ⟨s, hrun, hreaders, (hcount hlive).trans hreaders, hlive⟩

/-! ### One call alone -/

section

variable [DecidableEq S] {t : cfg.Topic} {s s' : State cfg P S} {i : S} {e e' : TopicEntry}
  {r r' : Reader cfg} {as : List (Act P S)}

theorem setReader_self (hentry : s.entry = e) (hreader : s.reader i = r) :
    s.setReader i e r = s := by
  subst hentry hreader
  unfold State.setReader
  rw [update_eq_self]

variable [DecidableEq P]

/-- The next step of stream `i`, then the rest of a run. -/
theorem goReader_cons (hstep : readerStep t false e r = some (e', r'))
    (hrun : Run (step t) (fun _ _ => True) (s.setReader i e' r') as s') :
    Run (step t) (fun _ _ => True) (s.setReader i e r) (.goReader i false :: as) s' := by
  refine .cons trivial ?_ hrun
  have hreader : (s.setReader i e r).reader i = r := update_self ..
  simp only [step, hreader]
  change (readerStep t false e r).map _ = _
  rw [hstep, Option.map_some]
  simp only [State.setReader, update_idem]

/-- `try_recv_pinned` with nothing between its steps is the call of `Crossbar.Region`. -/
theorem tryRecvPinned_alone {shm : Shm cfg} {str : Stream cfg} {gs : List (PinnedGuard cfg)}
    (hentry : s.entry = shm.topic str.topic) (hreader : s.reader i = ⟨str.lastSeq, .idle, gs⟩) :
    ∃ n, Run (step str.topic) (fun _ _ => True) s
      (.tryRecvPinned i :: List.replicate n (.goReader i false))
      (match str.tryRecvPinned shm with
        | none => s
        | some (shm', str', g) =>
          s.setReader i (shm'.topic str.topic) ⟨str'.lastSeq, .idle, gs ++ [g]⟩) := by
  have hstart : step str.topic s (.tryRecvPinned i) = some (s.setReader i (shm.topic str.topic)
      (Reader.start ⟨str.lastSeq, .idle, gs⟩ (shm.topic str.topic).pinnedSeq)) := by
    simp only [step, hreader, hentry, if_true]
  have hself := setReader_self hentry hreader
  unfold Stream.tryRecvPinned
  simp only
  -- the checks of the call, in its order; each failure ends the call where it began
  by_cases hzero : (shm.topic str.topic).pinnedSeq = 0
  · rw [Reader.start, if_pos hzero, hself] at hstart
    rw [if_pos hzero]
    exact ⟨0, .single trivial hstart⟩
  rw [if_neg hzero]
  by_cases hold : (shm.topic str.topic).pinnedSeq >>> 32 ≤ str.lastSeq
  · rw [Reader.start, if_neg hzero, if_pos hold, hself] at hstart
    rw [if_pos hold]
    exact ⟨0, .single trivial hstart⟩
  rw [if_neg hold]
  rw [Reader.start, if_neg hzero, if_neg hold] at hstart
  by_cases hnone : (shm.topic str.topic).pinnedBlock = noBlock
  · rw [if_pos hnone]
    refine ⟨1, .cons trivial hstart (goReader_cons (if_pos hnone) ?_)⟩
    rw [hself]
    exact .nil s
  rw [if_neg hnone]
  by_cases hrange : cfg.blockCount ≤ (shm.topic str.topic).pinnedBlock
  · rw [if_pos hrange]
    refine ⟨1, .cons trivial hstart
      (goReader_cons ((if_neg hnone).trans (if_pos hrange)) ?_)⟩
    rw [hself]
    exact .nil s
  rw [if_neg hrange]
  by_cases hwriter : (shm.topic str.topic).pinnedReaders = pinnedWriterActive
  · rw [if_pos hwriter]
    refine ⟨2, .cons trivial hstart
      (goReader_cons ((if_neg hnone).trans (if_neg hrange)) (goReader_cons (if_pos hwriter) ?_))⟩
    rw [hself]
    exact .nil s
  rw [if_neg hwriter]
  refine ⟨4, .cons trivial hstart
    (goReader_cons ((if_neg hnone).trans (if_neg hrange)) (goReader_cons (if_neg hwriter)
      (goReader_cons (if_pos ⟨rfl, rfl⟩) (goReader_cons (if_neg (not_not_intro rfl)) ?_))))⟩
  simp only [Shm.setReaders, Shm.setTopic, update_self]
  exact .nil _

end

end Crossbar.Pinned
