import Crossbar.Region.Messages

namespace Crossbar.Region

open Function Crossbar.Lib Crossbar.Pool

/-!
# Region — exact delivery

`drain` calls `try_recv` until it returns `None`.  `exact_delivery` says that it yields the
ring publishes of the window `(max(last_seq, write_seq - ring_depth), write_seq]`, all of
them, in order, with their bytes and lengths, in every state that whole calls can reach:

* `Shm.LogInv.readable_iff` — in the window, a number is readable when it was published and
  its block is referenced;
* `drain_eq` — so the drain collects the log over the window: receiving a message takes a
  reference to its own block, which no other entry holds;
* `overflow_hides_message` — with `2 ^ 32 - 1` samples of one message the refcount wraps to 0
  and the next stream does not find the message.
-/

variable {cfg : ValidConfig} {w : World cfg}

/-- `Deref for Sample`: the bytes of a sample. -/
def Shm.bytes (shm : Shm cfg) (s : Sample) : List UInt8 :=
  (List.range s.len).map (shm.data s.blockIdx)

/-- The bytes that a publish was called with. -/
def payload (c : Ring.Claim) : List UInt8 := (List.range c.dataLen).map c.bytes

/-- The region after a sample of block `b` is kept, or dropped. -/
def Shm.dropUnless (keep : Bool) (shm : Shm cfg) (b : Nat) : Shm cfg :=
  match keep with
  | true => shm
  | false => shm.release b

/-- Call `try_recv` until it returns `None`, at most `n` times, and collect the numbers and the
    bytes; `none` when `n` calls were not enough.  `keep` says which samples are kept until
    the end: the others are dropped before the next call. -/
def drain (keep : Nat → Bool) : Nat → Shm cfg → Stream cfg → Option (List (Nat × List UInt8))
  | 0, _, _ => none
  | n + 1, shm, s =>
    match s.tryRecv shm with
    | none => some []
    | some (shm', s', sample) =>
      (drain keep n (shm'.dropUnless (keep s'.lastSeq) sample.blockIdx) s').map
        ((s'.lastSeq, shm'.bytes sample) :: ·)

/-- The ring publishes on `t` in `(low, high]`, with their numbers. -/
def Shm.publishes (shm : Shm cfg) (t : cfg.Topic) (low high : Nat) : List (Nat × List UInt8) :=
  (List.range' (low + 1) (high - low)).filterMap fun q =>
    (shm.log t q).map fun c => (q, payload c)

section

variable {shm : Shm cfg} {t : cfg.Topic} {q : Nat} {c : Ring.Claim}

/-- In the window, a number can be read when it was published and its block is referenced. -/
theorem Shm.LogInv.readable_iff (h : shm.LogInv)
    (hq : (shm.topic t).writeSeq - cfg.ringDepth < q) :
    shm.Readable t q ↔ ∃ c, shm.log t q = some c ∧ shm.refcount c.blockIdx ≠ 0 := by
  constructor
  · rintro ⟨hseq, hne, _, _, hrc⟩
    obtain ⟨c, hc, hblock, _⟩ := h.entry t (cfg.slotOf q) hne
    rw [hseq] at hc
    rw [hblock] at hrc
    exact ⟨c, hc, hrc⟩
  · rintro ⟨c, hc, hrc⟩
    obtain ⟨_, _, _, hlt, hlen⟩ := h.bound t q c hc
    unfold Shm.Readable
    rw [h.kept t q c hc (by omega)]
    exact ⟨rfl, ne_noBlock hlt, hlt, hlen, hrc⟩

/-- The bytes of a publish are in its block as long as it is in the window. -/
theorem Shm.LogInv.data_eq (h : shm.LogInv) (hc : shm.log t q = some c)
    (hq : (shm.topic t).writeSeq - cfg.ringDepth < q) : shm.data c.blockIdx = c.bytes := by
  have hkept := h.kept t q c hc (by omega)
  have hlt := (h.bound t q c hc).2.2.2.1
  obtain ⟨c', hc', _, hbytes⟩ := h.entry t (cfg.slotOf q) (by rw [hkept]; exact ne_noBlock hlt)
  rw [hkept, hc] at hc'
  cases hc'
  exact hbytes

/-- Two publishes of the window are in different blocks. -/
theorem Shm.LogInv.block_ne (h : shm.LogInv) {q' : Nat} {c' : Ring.Claim}
    (hc : shm.log t q = some c) (hc' : shm.log t q' = some c')
    (hq : (shm.topic t).writeSeq - cfg.ringDepth < q) (hlt : q < q') :
    c'.blockIdx ≠ c.blockIdx := by
  intro heq
  have hkept := h.kept t q c hc (by omega)
  have hkept' := h.kept t q' c' hc' (by omega)
  have hne := ne_noBlock (h.bound t q c hc).2.2.2.1
  have hsame := h.unique (t, cfg.slotOf q) (t, cfg.slotOf q') (by rw [hkept]; exact hne)
    (by rw [hkept, hkept']; exact heq.symm)
  rw [hsame, hkept', Ring.Entry.mk.injEq] at hkept
  omega

/-- A sample that is dropped at once leaves no trace. -/
theorem Shm.addRef_release {b : Nat} (hb : b < cfg.blockCount) (hpos : shm.refcount b ≠ 0)
    (hword : shm.refcount b < 2 ^ 32) : (shm.addRef b).release b = shm := by
  have hback : dec32 (wrap32 (shm.refcount b + 1)) = shm.refcount b := by
    unfold dec32 wrap32
    omega
  have hmore : (shm.addRef b).refcount b ≠ 1 := by
    show update shm.refcount b (wrap32 (shm.refcount b + 1)) b ≠ 1
    rw [update_self]
    unfold wrap32
    omega
  rw [Shm.release, if_neg (by omega), if_neg hmore]
  simp only [Shm.decRef, Shm.addRef, update_self, update_idem, hback,
    update_eq_self]

/-- Without a publish up to `q`, the list starts with `q`. -/
theorem Shm.publishes_of_first {low high : Nat} (hlow : low < q) (hhigh : q ≤ high)
    (hc : shm.log t q = some c) (hfirst : ∀ q', low < q' → q' < q → shm.log t q' = none) :
    shm.publishes t low high = (q, payload c) :: shm.publishes t q high := by
  have hsplit : List.range' (low + 1) (high - low) =
      List.range' (low + 1) (q - (low + 1)) ++ q :: List.range' (q + 1) (high - q) := by
    rw [← List.range'_succ, show high - low = (q - (low + 1)) + (high - q + 1) by omega,
      ← List.range'_append_1, show low + 1 + (q - (low + 1)) = q by omega]
  have hnone : (List.range' (low + 1) (q - (low + 1))).filterMap
      (fun q => (shm.log t q).map fun c => (q, payload c)) = [] := by
    refine List.filterMap_eq_nil_iff.mpr (fun q' hq' => ?_)
    obtain ⟨hge, hlt⟩ := List.mem_range'_1.mp hq'
    rw [hfirst q' (by omega) (by omega), Option.map_none]
  unfold Shm.publishes
  rw [hsplit, List.filterMap_append, hnone, List.nil_append,
    List.filterMap_cons_some (by rw [hc]; rfl)]

theorem Shm.publishes_of_none {low high : Nat}
    (hnone : ∀ q, low < q → q ≤ high → shm.log t q = none) : shm.publishes t low high = [] := by
  refine List.filterMap_eq_nil_iff.mpr (fun q hq => ?_)
  obtain ⟨hge, hlt⟩ := List.mem_range'_1.mp hq
  rw [hnone q (by omega) (by omega), Option.map_none]

end

/-- The blocks of the publishes above `low` are referenced. -/
def Shm.Referenced (shm : Shm cfg) (t : cfg.Topic) (low : Nat) : Prop :=
  ∀ q c, low < q → shm.log t q = some c →
    shm.refcount c.blockIdx ≠ 0 ∧ shm.refcount c.blockIdx < 2 ^ 32

/-- What is left to the next call after a message was received. -/
theorem referenced_next {shm : Shm cfg} {t : cfg.Topic} {low q : Nat} {c : Ring.Claim}
    (h : shm.LogInv) (href : shm.Referenced t low) (keep : Bool) (hlow : low < q)
    (hwindow : (shm.topic t).writeSeq - cfg.ringDepth < q) (hc : shm.log t q = some c) :
    ∃ shm', (shm.addRef c.blockIdx).dropUnless keep c.blockIdx = shm' ∧ shm'.LogInv ∧
      shm'.Referenced t q ∧ shm'.topic = shm.topic ∧ shm'.log = shm.log := by
  cases keep with
  | true =>
    refine ⟨_, rfl, h.of_blocks ⟨_, _, rfl⟩, fun q' c' hlt hc' => ?_, rfl, rfl⟩
    show update shm.refcount _ _ _ ≠ 0 ∧ update shm.refcount _ _ _ < 2 ^ 32
    rw [update_of_ne (h.block_ne hc hc' hwindow hlt)]
    exact href q' c' (by omega) hc'
  | false =>
    obtain ⟨hpos, hword⟩ := href q c hlow hc
    refine ⟨shm, ?_, h, fun q' c' hlt hc' => href q' c' (by omega) hc', rfl, rfl⟩
    exact Shm.addRef_release (h.bound t q c hc).2.2.2.1 hpos hword

/-- Draining a stream collects the publishes of its window. -/
theorem drain_eq (keep : Nat → Bool) (n : Nat) {shm : Shm cfg} {s : Stream cfg} (h : shm.LogInv)
    (href : shm.Referenced s.topic (s.behind shm))
    (hn : (shm.topic s.topic).writeSeq - s.behind shm < n) :
    drain keep n shm s =
      some (shm.publishes s.topic (s.behind shm) (shm.topic s.topic).writeSeq) := by
  induction n generalizing shm s with
  | zero => exact absurd hn (Nat.not_lt_zero _)
  | succ n ih =>
    have hbehind : (shm.topic s.topic).writeSeq - cfg.ringDepth ≤ s.behind shm :=
      Nat.le_max_right ..
    -- a publish of the window can be read
    have hread : ∀ q c, s.behind shm < q → shm.log s.topic q = some c →
        shm.Readable s.topic q := fun q c hlow hc =>
      (h.readable_iff (by omega)).mpr ⟨c, hc, (href q c hlow hc).1⟩
    rcases s.scan_spec shm with ⟨hscan, hall⟩ | ⟨q, hlow, hle, hreadable, hfirst, hscan⟩
    · have hnone : s.tryRecv shm = none := by rw [Stream.tryRecv, hscan]; rfl
      rw [drain, hnone, Shm.publishes_of_none]
      intro q hlow hle
      rw [Option.eq_none_iff_forall_ne_some]
      exact fun c hc => hall q hlow hle (hread q c hlow hc)
    · obtain ⟨c, hc, _⟩ := (h.readable_iff (by omega)).mp hreadable
      have hkept := h.kept s.topic q c hc (by omega)
      have hrecv := Stream.tryRecv_of_next ⟨hlow, hle, hreadable, hfirst⟩
      rw [Shm.blockAt, hkept] at hrecv
      obtain ⟨shm', hshm, hlog', href', htopic', hlogeq⟩ :=
        referenced_next h href (keep q) hlow (by omega) hc
      -- the stream is at `q` now, and so is the lower end of its window
      have hbehind' : (s.advance q).behind shm' = q := by
        show max q ((shm'.topic s.topic).writeSeq - cfg.ringDepth) = q
        rw [htopic']
        omega
      have hrest : drain keep n shm' (s.advance q) =
          some (shm.publishes s.topic q (shm.topic s.topic).writeSeq) := by
        have hleft : (shm'.topic (s.advance q).topic).writeSeq - (s.advance q).behind shm' < n := by
          rw [hbehind', htopic']
          show (shm.topic s.topic).writeSeq - q < n
          omega
        rw [ih hlog' (hbehind'.symm ▸ href') hleft, hbehind', htopic', Shm.publishes, hlogeq]
        rfl
      have hbytes : (shm.addRef c.blockIdx).bytes ⟨c.blockIdx, c.dataLen⟩ = payload c := by
        show (List.range c.dataLen).map (shm.data c.blockIdx) = payload c
        rw [h.data_eq hc (by omega)]
        rfl
      rw [Shm.publishes_of_first hlow hle hc]
      · rw [drain, hrecv]
        show (drain keep n ((shm.addRef c.blockIdx).dropUnless (keep q) c.blockIdx)
          (s.advance q)).map ((q, (shm.addRef c.blockIdx).bytes ⟨c.blockIdx, c.dataLen⟩) :: ·) = _
        rw [hshm, hrest, hbytes]
        rfl
      · intro q' hlow' hlt'
        rw [Option.eq_none_iff_forall_ne_some]
        exact fun c' hc' => hfirst q' hlow' hlt' (hread q' c' hlow' hc')

/-- The ring refers to the blocks of the window. -/
theorem World.Sound.referenced (h : w.Sound) (s : Stream cfg) :
    w.shm.Referenced s.topic (s.behind w.shm) := by
  intro q c hlow hc
  have hbehind : (w.shm.topic s.topic).writeSeq - cfg.ringDepth ≤ s.behind w.shm :=
    Nat.le_max_right ..
  have hkept := h.log.kept s.topic q c hc (by omega)
  have hne := ne_noBlock (h.log.bound s.topic q c hc).2.2.2.1
  have hpos := w.shm.referenced_of_entry w.sampled (s.topic, cfg.slotOf q)
    (by rw [hkept]; exact hne)
  rw [hkept, Shm.referenced_of_ne _ _ hne, ← h.blocks.refs _ hne] at hpos
  exact ⟨Nat.pos_iff_ne_zero.mp hpos, h.blocks.word _⟩

/-- **Exact delivery.** In every state that whole calls can reach without a counter overflow,
    a stream has received rising numbers, and calling its `try_recv` until it returns `None`
    yields the ring publishes of its topic in `(max(last_seq, write_seq - ring_depth),
    write_seq]`, with their bytes and lengths, in order and once each, whether or not the
    samples are dropped on the way.  `ring_depth + 1` calls are enough. -/
theorem exact_delivery {id : Nat} {as : List (Act cfg)} (hrun : Run step Fits (create cfg id) as w)
    {i : Nat} {s : Stream cfg} (hs : w.streams[i]? = some s) :
    s.returned.Pairwise (· < ·) ∧ ∀ keep n, cfg.ringDepth < n →
      drain keep n w.shm s = some (w.shm.publishes s.topic
        (max s.lastSeq ((w.shm.topic s.topic).writeSeq - cfg.ringDepth))
        (w.shm.topic s.topic).writeSeq) := by
  have h := sound_run hrun
  refine ⟨(h.streams s (List.mem_of_getElem? hs)).1, fun keep n hn => ?_⟩
  refine drain_eq keep n h.log (h.referenced s) ?_
  unfold Stream.behind
  omega

/-- Three messages and a pinned publish between them, more than the ring holds, and a second
    stream that has received the first one. -/
def overrunSteps : List (Act twoSlots) :=
  [.register 0 [47], .subscribe [47], .waitForPeer [47], .publish 0 ⟨twoSlots.topic0, 5⟩ [1, 2],
    .tryRecv 1, .publish 0 ⟨twoSlots.topic0, 5⟩ [3], .loanPinned 0 ⟨twoSlots.topic0, 5⟩,
    .publishLoan 0, .dropSample 0, .publish 0 ⟨twoSlots.topic0, 5⟩ [4, 5, 6]]

/-- A stream that has received nothing gets the message after the pinned publish, the only one
    that is left. -/
theorem exact_delivery_after_overrun : ∃ (w : World twoSlots) (s : Stream twoSlots),
    Run step Fits (create twoSlots 5) overrunSteps w ∧ w.streams[0]? = some s ∧
    (w.shm.topic s.topic).writeSeq = 4 ∧ w.shm.publishes s.topic 2 4 = [(4, [4, 5, 6])] ∧
    s.returned.Pairwise (· < ·) ∧ ∀ keep n, twoSlots.ringDepth < n →
      drain keep n w.shm s = some (w.shm.publishes s.topic
        (max s.lastSeq ((w.shm.topic s.topic).writeSeq - twoSlots.ringDepth))
        (w.shm.topic s.topic).writeSeq) := by
  obtain ⟨w, hrun, s, hs, hseq, hlog⟩ := exists_run_of_exec step Fits (s := create twoSlots 5)
    (l := overrunSteps) (p := fun w => ∃ s ∈ w.streams[0]?, (w.shm.topic s.topic).writeSeq = 4 ∧
      w.shm.publishes s.topic 2 4 = [(4, [4, 5, 6])]) (by decide +kernel)
  exact ⟨w, s, hrun, hs, hseq, hlog, exact_delivery hrun hs⟩

/-- **An overflow hides a message.** `2 ^ 32 - 1` streams keep a sample of one message, so its
    refcount has wrapped to 0: the next stream's `try_recv` returns `None` at once, although
    the message is the only one published and in the stream's window. -/
theorem overflow_hides_message : ∃ (as : List (Act oneSlot)) (w : World oneSlot)
    (s : Stream oneSlot), Run step (fun _ _ => True) (create oneSlot 0) as w ∧
      w.streams[2 ^ 32 - 1]? = some s ∧ s.lastSeq = 0 ∧ (w.shm.topic s.topic).writeSeq = 1 ∧
      w.shm.publishes s.topic 0 1 = [(1, [])] ∧ s.tryRecv w.shm = none := by
  obtain ⟨n, hn⟩ : ∃ n, n = 2 ^ 32 - 1 := ⟨_, rfl⟩
  obtain ⟨as, hrun⟩ := received_run (n := n + 1) (i := n) (by omega) (by omega)
  refine ⟨as, received (n + 1) n, ⟨oneSlot.topic0, 0, 0, []⟩, hrun, ?_, rfl, ?_, ?_, ?_⟩
  · rw [← hn]
    show (List.replicate n _ ++ List.replicate (n + 1 - n) _)[n]? = _
    rw [List.getElem?_append_right (by simp), List.length_replicate, Nat.sub_self,
      List.getElem?_replicate, if_pos (by omega)]
  · show (announced.1.topic oneSlot.topic0).writeSeq = 1
    decide
  · show announced.1.publishes oneSlot.topic0 0 1 = [(1, [])]
    decide
  · rw [Stream.tryRecv]
    rcases Stream.scan_spec ⟨oneSlot.topic0, 0, 0, []⟩ (received (n + 1) n).shm with
      ⟨hnone, _⟩ | ⟨q, hlow, hle, hread, _, _⟩
    · rw [hnone]
      rfl
    · -- the only number of the window is 1, and its block has refcount 0
      have hseq : ((received (n + 1) n).shm.topic oneSlot.topic0).writeSeq = 1 := by
        show (announced.1.topic oneSlot.topic0).writeSeq = 1
        decide
      have hle : q ≤ ((received (n + 1) n).shm.topic oneSlot.topic0).writeSeq := hle
      obtain rfl : q = 1 := by omega
      obtain ⟨_, _, _, _, hrc⟩ := hread
      rw [received_entry] at hrc
      refine absurd ?_ hrc
      show update announced.1.refcount 3 (wrap32 (n + 1)) 3 = 0
      rw [update_self, hn]
      rfl

end Crossbar.Region
