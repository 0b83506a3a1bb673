import Crossbar.Channel.Model
import Crossbar.Region.Typed

namespace Crossbar.Channel

open Function Crossbar.Lib Crossbar.Region

/-!
# Channel — each direction is a bounded queue

`queue` reads a region as the abstract link of `Lib.Fifo`: what was sent is the log of the topic
`/ch`, how far the receiver has come is the `last_seq` of its stream.

* `Carries` — the region of an endpoint that has registered its topic, and its history;
* `Carries.publish`, `Carries.tryRecv` — a publish is a send of the queue, a `try_recv` a receive;
* `inv_step`, `inv_run` — so every step of the two endpoints, and every run, keeps both regions
  in step with their queues;
* `channel_is_two_queues`, `channel_loses_nothing` — the results.
-/

section

variable {c : ValidConfig} {w w' : World c} {h : Handle c} {t : c.Topic}
variable {es : List (Event (List UInt8))}

/-! ### A region as a queue -/

/-- The message with this number. -/
def message (shm : Shm c) (t : c.Topic) (q : Nat) : List UInt8 :=
  ((shm.log t q).map payload).getD []

/-- The queue that the topic of a region and its stream are. -/
def queue (w : World c) (t : c.Topic) : Fifo (List UInt8) where
  sent := (List.range (w.shm.topic t).writeSeq).map fun i => message w.shm t (i + 1)
  taken := (w.streams[0]?.map Stream.lastSeq).getD 0

/-- Every loan is an ordinary one on this topic. -/
def LoansOn (w : World c) (t : c.Topic) : Prop :=
  ∀ p l, some p ∈ w.pubs → p.borrow = some l → l.kind = .untyped ∧ l.topic = t

/-- The region is the queue that its history leaves. -/
structure Carries (w : World c) (h : Handle c) (es : List (Event (List UInt8))) : Prop where
  found : w.shm.findTopic chUri = some h.topicIdx
  loans : LoansOn w h.topicIdx
  /-- every number was published to the ring -/
  logged : ∀ q, 0 < q → q ≤ (w.shm.topic h.topicIdx).writeSeq →
    ∃ m, w.shm.log h.topicIdx q = some m
  streams : ∀ s ∈ w.streams, s.topic = h.topicIdx
  accepted : Fifo.Accepts c.ringDepth es (queue w h.topicIdx)

/-- One publisher changes. -/
theorem LoansOn.set (hl : LoansOn w t) {o : Option (Publisher c)} {k : Nat}
    (hpubs : w'.pubs = w.pubs.set k o)
    (hnew : ∀ p l, o = some p → p.borrow = some l → l.kind = .untyped ∧ l.topic = t) :
    LoansOn w' t := by
  intro p l hp hborrow
  rw [hpubs] at hp
  rcases List.mem_or_eq_of_mem_set hp with hold | heq
  · exact hl p l hold hborrow
  · exact hnew p l heq.symm hborrow

/-- The topics, the log and the streams stay as they are. -/
theorem Carries.frame (hc : Carries w h es) (htopic : w'.shm.topic = w.shm.topic)
    (hlog : w'.shm.log = w.shm.log) (hstreams : w'.streams = w.streams)
    (hloans : LoansOn w' h.topicIdx) : Carries w' h es := by
  have hqueue : queue w' h.topicIdx = queue w h.topicIdx := by
    unfold queue message
    rw [htopic, hlog, hstreams]
  refine ⟨?_, hloans, ?_, ?_, ?_⟩
  · unfold Shm.findTopic
    rw [htopic]
    exact hc.found
  · rw [htopic, hlog]
    exact hc.logged
  · rw [hstreams]
    exact hc.streams
  · rw [hqueue]
    exact hc.accepted

/-! ### Sending -/

/-- The search compares what a publish leaves. -/
theorem findTopic_storeEntry (shm : Shm c) (t : c.Topic) (b len : Nat) (uri : List UInt8) :
    (shm.storeEntry t b len).findTopic uri = shm.findTopic uri := by
  unfold Shm.findTopic
  congr 1
  funext t'
  by_cases ht : t' = t
  · subst ht
    rw [Shm.storeEntry_topic_self]
  · rw [Shm.storeEntry_topic_of_ne _ _ _ ht]

/-- **A publish is a send.** `shm` is the region after the loan was made and written. -/
theorem Carries.publish (hc : Carries w h es) {shm : Shm c} {b len : Nat}
    (htopic : shm.topic = w.shm.topic) (hlog : shm.log = w.shm.log)
    (hfit : (w.shm.topic h.topicIdx).writeSeq + 1 < 2 ^ 64)
    (hblocks : (shm.storeEntry h.topicIdx b len).SameButBlocks w'.shm)
    (hstreams : w'.streams = w.streams) (hloans : LoansOn w' h.topicIdx) :
    Carries w' h (es ++ [.sent (shm.bytes ⟨b, len⟩)]) := by
  have hnext : shm.nextSeq h.topicIdx = (w.shm.topic h.topicIdx).writeSeq + 1 := by
    unfold Shm.nextSeq
    rw [htopic]
    exact wrap64_of_lt hfit
  have hseq : (w'.shm.topic h.topicIdx).writeSeq = (w.shm.topic h.topicIdx).writeSeq + 1 := by
    rw [hblocks.topic_eq, Shm.storeEntry_topic_self]
    exact hnext
  have hnew : w'.shm.log h.topicIdx ((w.shm.topic h.topicIdx).writeSeq + 1) =
      some ⟨b, len, shm.data b⟩ := by
    rw [hblocks.log_eq, ← hnext]
    exact shm.storeEntry_log_self b len
  have hold : ∀ q, q ≤ (w.shm.topic h.topicIdx).writeSeq →
      w'.shm.log h.topicIdx q = w.shm.log h.topicIdx q := by
    intro q hq
    rw [hblocks.log_eq, Shm.storeEntry_log_of_ne, hlog]
    intro heq
    have hlast := congrArg Prod.snd heq
    simp only [hnext] at hlast
    omega
  refine ⟨?_, hloans, ?_, ?_, ?_⟩
  · unfold Shm.findTopic
    rw [hblocks.topic_eq]
    have hfound := findTopic_storeEntry shm h.topicIdx b len chUri
    unfold Shm.findTopic at hfound
    rw [hfound, htopic]
    exact hc.found
  · -- the new number is logged, the others were
    intro q hpos hq
    rcases Nat.lt_or_ge (w.shm.topic h.topicIdx).writeSeq q with hlt | hle
    · obtain rfl : q = (w.shm.topic h.topicIdx).writeSeq + 1 := by omega
      exact ⟨_, hnew⟩
    · rw [hold q hle]
      exact hc.logged q hpos hle
  · rw [hstreams]
    exact hc.streams
  · -- the queue has the message at its end, and the reader has taken nothing
    refine hc.accepted.snoc ?_
    show some _ = some (queue w' h.topicIdx)
    have hsent : (queue w' h.topicIdx).sent =
        (queue w h.topicIdx).sent ++ [shm.bytes ⟨b, len⟩] := by
      show List.map _ (List.range (w'.shm.topic h.topicIdx).writeSeq) = _
      rw [hseq, List.range_succ, List.map_append]
      congr 1
      · refine List.map_congr_left fun i hi => ?_
        have hlt := List.mem_range.mp hi
        unfold message
        rw [hold (i + 1) hlt]
      · show [message w'.shm h.topicIdx _] = _
        unfold message
        rw [hnew]
        rfl
    have htaken : (queue w' h.topicIdx).taken = (queue w h.topicIdx).taken := by
      unfold queue
      rw [hstreams]
    rw [← hsent, ← htaken]

/-- A publisher without a loan. -/
theorem LoansOn.set_idle (hl : LoansOn w t) {p : Publisher c} {k : Nat}
    (hpubs : w'.pubs = w.pubs.set k (some p)) (hborrow : p.borrow = none) : LoansOn w' t := by
  refine hl.set hpubs fun q l hq hlo => ?_
  cases hq
  rw [hborrow] at hlo
  cases hlo

/-- `loan` takes a block. -/
theorem Carries.loan (hc : Carries w h es) (hstep : Region.step w (.loan 0 h) = some w') :
    Carries w' h es := by
  obtain ⟨-, hstep⟩ := withHandle_inv hstep
  obtain ⟨p, -, hborrow, rfl⟩ := onPublisher_inv hstep
  obtain ⟨pool, lastFreed, cache, r, hloan, hok⟩ := p.loanWith_shape w.shm .untyped 0 h
  cases r with
  | error e =>
    simp only [Publisher.loan, hloan, keepLoan]
    exact hc.frame rfl rfl rfl (hc.loans.set_idle rfl hborrow)
  | ok l =>
    obtain ⟨b, rfl⟩ := hok l rfl
    simp only [Publisher.loan, hloan, keepLoan]
    refine hc.frame rfl rfl rfl (hc.loans.set rfl fun q l hq hl => ?_)
    cases hq
    cases hl
    exact ⟨rfl, rfl⟩

/-- The loan of the publisher. -/
theorem Carries.loan_of (hc : Carries w h es) {p : Publisher c} {l : Loan c}
    (hp : w.pubs[0]? = some (some p)) (hborrow : p.borrow = some l) :
    l.kind = .untyped ∧ l.topic = h.topicIdx :=
  hc.loans p l (List.mem_of_getElem? hp) hborrow

/-- Writing through a loan. -/
theorem Carries.edit (hc : Carries w h es) {e : Edit}
    (hstep : Region.step w (.edit 0 e) = some w') : Carries w' h es := by
  rw [Region.step] at hstep
  obtain ⟨p, l, shm, p', hp, hborrow, hf, rfl⟩ := onLoan_inv hstep
  obtain ⟨⟨shm', l'⟩, hedit, heq⟩ := Option.map_eq_some_iff.mp hf
  cases heq
  obtain ⟨⟨data, rfl⟩, ⟨len, rfl⟩, -⟩ := Loan.edit_spec hedit
  refine hc.frame rfl rfl rfl (hc.loans.set rfl fun q l' hq hl => ?_)
  cases hq
  cases hl
  obtain ⟨hkind, htopic⟩ := hc.loan_of hp hborrow
  exact ⟨hkind, htopic⟩

/-- Dropping a loan frees its block. -/
theorem Carries.dropLoan (hc : Carries w h es) (hstep : Region.step w (.dropLoan 0) = some w') :
    Carries w' h es := by
  rw [Region.step] at hstep
  obtain ⟨p, l, shm, p', hp, hborrow, hdrop, rfl⟩ := onLoan_inv hstep
  cases hdrop
  obtain ⟨hkind, -⟩ := hc.loan_of hp hborrow
  have hfree : l.drop w.shm = w.shm.free l.blockIdx := by simp only [Loan.drop, hkind]
  refine hc.frame ?_ ?_ rfl (hc.loans.set_idle rfl rfl)
  · show (l.drop w.shm).topic = _
    rw [hfree]
    rfl
  · show (l.drop w.shm).log = _
    rw [hfree]
    rfl

/-- Publishing an ordinary loan stores an entry and moves blocks. -/
theorem publish_untyped {l : Loan c} (hkind : l.kind = .untyped) (shm : Shm c) (p : Publisher c) :
    (shm.storeEntry l.topic l.blockIdx l.len).SameButBlocks (l.publish shm p).1 ∧
      (l.publish shm p).2.borrow = p.borrow := by
  have hcommit : l.publish shm p = commitToRing shm p l.blockIdx l.len l.topic := by
    simp only [Loan.publish, hkind]
  rw [hcommit]
  obtain ⟨hblocks, lastFreed, hp⟩ := commitToRing_shape shm p l.blockIdx l.len l.topic
  exact ⟨hblocks, by rw [hp]⟩

/-- `publish` of a loan. -/
theorem Carries.publishLoan (hc : Carries w h es)
    (hfit : SeqFits w (.publishLoan 0)) (hstep : Region.step w (.publishLoan 0) = some w') :
    Carries w' h (es ++ Write.publishLoan.events h w) := by
  rw [Region.step] at hstep
  obtain ⟨p, l, shm, p', hp, hborrow, hpub, rfl⟩ := onLoan_inv hstep
  obtain ⟨hkind, htopic⟩ := hc.loan_of hp hborrow
  obtain ⟨hblocks, hidle⟩ := publish_untyped hkind w.shm { p with borrow := none }
  rw [Option.some.inj hpub, htopic] at hblocks
  rw [Option.some.inj hpub] at hidle
  simp only [Write.events, hp, hborrow]
  exact hc.publish rfl rfl (hfit _) hblocks rfl (hc.loans.set_idle rfl hidle)

/-- `send`: the message is sent when the call returns `Ok`, and otherwise nothing is. -/
theorem Carries.send (hc : Carries w h es) {data : List UInt8}
    (hfit : SeqFits w (.publish 0 h data)) (hstep : Region.step w (.publish 0 h data) = some w') :
    Carries w' h (es ++ (Write.send data).events h w) := by
  obtain ⟨-, hstep⟩ := withHandle_inv hstep
  obtain ⟨p, hp, hborrow, rfl⟩ := onPublisher_inv hstep
  obtain ⟨pool, lastFreed, cache, r, hloan, hok⟩ := p.loanWith_shape w.shm .untyped 0 h
  simp only [Write.events, hp]
  cases r with
  | error e =>
    have hpub : p.publish w.shm h data = ({ w.shm with pool := pool },
        { p with lastFreed := lastFreed, cache := cache }, .error e) := by
      simp only [Publisher.publish, Publisher.loan, hloan]
    simp only [hpub, List.append_nil]
    exact hc.frame rfl rfl rfl (hc.loans.set_idle rfl hborrow)
  | ok l =>
    obtain ⟨b, rfl⟩ := hok l rfl
    by_cases hlen : c.dataCapacity < data.length
    · -- the loan is dropped
      have hpub : p.publish w.shm h data =
          ({ w.shm with pool := Pool.freeBlock c pool b },
            { p with lastFreed := lastFreed, cache := cache },
            .error (.dataTooLarge data.length c.dataCapacity)) := by
        simp only [Publisher.publish, Publisher.loan, hloan, Loan.setData, if_pos hlen]
        rfl
      simp only [hpub, List.append_nil]
      exact hc.frame rfl rfl rfl (hc.loans.set_idle rfl hborrow)
    · obtain ⟨l, hl⟩ : ∃ l : Loan c, l = ⟨.untyped, h.topicIdx, b, data.length⟩ := ⟨_, rfl⟩
      obtain ⟨shm, hshm⟩ : ∃ shm : Shm c,
        shm = ({ w.shm with pool := pool } : Shm c).poke b 0 data := ⟨_, rfl⟩
      obtain ⟨q, hq⟩ : ∃ q : Publisher c,
        q = { p with lastFreed := lastFreed, cache := cache } := ⟨_, rfl⟩
      have hpub : p.publish w.shm h data =
          ((l.publish shm q).1, (l.publish shm q).2, .ok ()) := by
        simp only [Publisher.publish, Publisher.loan, hloan, Loan.setData, if_neg hlen, hl, hshm,
          hq]
      obtain ⟨hblocks, hidle⟩ := publish_untyped (l := l) (by rw [hl]) shm q
      have hdata : shm.bytes ⟨b, data.length⟩ = data := by
        have hpoke := ({ w.shm with pool := pool } : Shm c).bytes_poke b 0 data
        rw [Nat.zero_add, ← hshm] at hpoke
        exact hpoke
      simp only [hpub]
      rw [← hdata]
      rw [hl] at hblocks
      have htopic : shm.topic = w.shm.topic := by
        rw [hshm]
        rfl
      have hlog : shm.log = w.shm.log := by
        rw [hshm]
        rfl
      refine hc.publish htopic hlog (hfit _) ?_ rfl
        (hc.loans.set_idle rfl (hidle.trans (by rw [hq]; exact hborrow)))
      rw [hl]
      exact hblocks

/-! ### Receiving -/

/-- The next message of the queue is the first of the stream's window. -/
theorem queue_next (hc : Carries w h es) {s : Stream c} (hs : w.streams[0]? = some s) :
    (queue w h.topicIdx).next c.ringDepth = s.behind w.shm := by
  have ht := hc.streams s (List.mem_of_getElem? hs)
  unfold Fifo.next Stream.behind queue
  rw [hs, ht, List.length_map, List.length_range]
  rfl

/-- **A `try_recv` is a receive.** -/
theorem Carries.tryRecv (hc : Carries w h es) (hsound : w.Sound)
    (hstep : Region.step w (.tryRecv 0) = some w') :
    Carries w' h (es ++ Read.tryRecv.events w) := by
  obtain ⟨s, hs, hcase⟩ := receive_inv hstep
  have ht := hc.streams s (List.mem_of_getElem? hs)
  have hbehind : (w.shm.topic s.topic).writeSeq - c.ringDepth ≤ s.behind w.shm :=
    Nat.le_max_right ..
  -- every number of the window can be read
  have hread : ∀ q, s.behind w.shm < q → q ≤ (w.shm.topic s.topic).writeSeq →
      ∃ m, w.shm.log s.topic q = some m ∧ w.shm.Readable s.topic q := by
    intro q hlow hle
    obtain ⟨m, hm⟩ := hc.logged q (by omega) (by rw [← ht]; exact hle)
    rw [← ht] at hm
    exact ⟨m, hm, (hsound.log.readable_iff (by omega)).mpr
      ⟨m, hm, (hsound.referenced s q m hlow hm).1⟩⟩
  have hlength : (queue w h.topicIdx).sent.length = (w.shm.topic s.topic).writeSeq := by
    rw [ht]
    simp [queue]
  rcases hcase with ⟨hnone, rfl⟩ | ⟨shm, s', sample, hsome, rfl⟩
  · simp only [Read.events, hs, hnone]
    refine { hc with accepted := hc.accepted.snoc ?_ }
    have hend : (queue w' h.topicIdx).sent.length ≤ (queue w' h.topicIdx).next c.ringDepth := by
      rw [hlength, queue_next hc hs]
      rcases s.scan_spec w'.shm with ⟨-, hall⟩ | ⟨q, -, -, -, -, hscan⟩
      · by_contra hlt
        obtain ⟨-, -, hreadable⟩ := hread (s.behind w'.shm + 1) (by omega) (by omega)
        exact hall _ (by omega) (by omega) hreadable
      · rw [Stream.tryRecv, hscan] at hnone
        cases hnone
    exact if_pos hend
  · simp only [Read.events, hs, hsome]
    obtain ⟨q, hnext, rfl, rfl, rfl⟩ := Stream.tryRecv_inv hsome
    obtain ⟨m, hm, -⟩ := hread q hnext.above hnext.le
    -- the first number of the window is readable, so it is the one
    obtain rfl : q = s.behind w.shm + 1 := by
      have habove := hnext.above
      have hle := hnext.le
      by_contra hne
      obtain ⟨-, -, hfirst⟩ := hread (s.behind w.shm + 1) (by omega) (by omega)
      exact hnext.first _ (by omega) (by omega) hfirst
    have hkept := hsound.log.kept s.topic _ m hm (by omega)
    have hbytes : (w.shm.addRef (w.shm.blockAt s.topic (s.behind w.shm + 1))).bytes
        ⟨w.shm.blockAt s.topic (s.behind w.shm + 1),
          (w.shm.entry (s.topic, c.slotOf (s.behind w.shm + 1))).dataLen⟩ = payload m := by
      rw [Shm.blockAt, hkept]
      show (List.range m.dataLen).map (w.shm.data m.blockIdx) = payload m
      rw [hsound.log.data_eq hm (by omega)]
      rfl
    have hlt : 0 < w.streams.length := (List.getElem?_eq_some_iff.mp hs).1
    refine ⟨hc.found, hc.loans, hc.logged, fun s' hs' => ?_, hc.accepted.snoc ?_⟩
    · rcases List.mem_or_eq_of_mem_set hs' with hold | rfl
      · exact hc.streams s' hold
      · exact ht
    · rw [hbytes]
      have hat : (queue w h.topicIdx).sent[(queue w h.topicIdx).next c.ringDepth]? =
          some (payload m) := by
        have hle := hnext.le
        rw [queue_next hc hs]
        show ((List.range _).map _)[_]? = _
        rw [List.getElem?_map, List.getElem?_range (by rw [← ht]; omega)]
        show some (message w.shm h.topicIdx (s.behind w.shm + 1)) = _
        rw [message, ← ht, hm]
        rfl
      refine (if_pos hat).trans ?_
      rw [queue_next hc hs]
      unfold queue
      simp only [List.getElem?_set_self hlt]
      rfl

/-- Dropping a sample gives its block back. -/
theorem Carries.dropSample (hc : Carries w h es) {j : Nat}
    (hstep : Region.step w (.dropSample j) = some w') : Carries w' h es := by
  obtain ⟨s, -, rfl⟩ := dropSample_inv hstep
  have hblocks := Shm.SameButBlocks.release w.shm s.blockIdx
  exact hc.frame hblocks.topic_eq hblocks.log_eq rfl hc.loans

/-! ### The beginning and the end -/

/-- Dropping the publisher gives its blocks back; what it has sent stays. -/
theorem Carries.dropPublisher (hc : Carries w h es)
    (hstep : Region.step w (.dropPublisher 0) = some w') : Carries w' h es := by
  obtain ⟨p, -, -, rfl⟩ := onPublisher_inv hstep
  have hblocks := Shm.SameButBlocks.drop w.shm p
  exact hc.frame hblocks.topic_eq hblocks.log_eq rfl (hc.loans.set rfl nofun)

/-- A region on which nothing has been registered. -/
structure Unused (w : World c) : Prop where
  free : ∀ t, (w.shm.topic t).active = false
  streams : w.streams = []
  samples : w.samples = []
  loans : ∀ p, some p ∈ w.pubs → p.borrow = none

/-- Nobody has published in a new region. -/
theorem unused_create (id : Nat) : Unused (create c id) := by
  refine ⟨fun _ => rfl, rfl, rfl, fun p hp => ?_⟩
  cases Option.some.inj (List.mem_singleton.mp hp)
  rfl

/-- No topic is found there. -/
theorem Unused.findTopic (hu : Unused w) (uri : List UInt8) : w.shm.findTopic uri = none := by
  refine List.find?_eq_none.mpr fun t _ => ?_
  simp [hu.free t]

/-- A dropped publisher publishes nothing. -/
theorem Unused.dropPublisher (hu : Unused w)
    (hstep : Region.step w (.dropPublisher 0) = some w') : Unused w' := by
  obtain ⟨p, -, -, rfl⟩ := onPublisher_inv hstep
  refine ⟨fun t => ?_, hu.streams, hu.samples, fun q hq => ?_⟩
  · show ((p.drop w.shm).topic t).active = false
    rw [(Shm.SameButBlocks.drop w.shm p).topic_eq]
    exact hu.free t
  · rcases List.mem_or_eq_of_mem_set hq with hold | heq
    · exact hu.loans q hold
    · cases heq

/-- There is nothing to read from. -/
theorem Unused.read (hu : Unused w) (a : Read) : Region.step w a.act ≠ some w' := by
  intro hstep
  cases a with
  | tryRecv =>
    obtain ⟨s, hs, -⟩ := receive_inv hstep
    rw [hu.streams] at hs
    cases hs
  | dropSample j =>
    obtain ⟨s, hs, -⟩ := dropSample_inv hstep
    rw [hu.samples] at hs
    cases hs

/-- `register("/ch")` claims the first free entry of a new region. -/
theorem Unused.registerInner (hu : Unused w) (id : Nat) :
    w.shm.register id chUri =
      match w.shm.freeTopic with
      | some t => (w.shm.setTopic t ((w.shm.topic t).claimed chUri 0), .ok ⟨t, id⟩)
      | none => (w.shm, .error .maxTopicsReached) := by
  rw [Shm.register, Shm.registerInner, if_neg (by decide), hu.findTopic]
  rfl

/-- The region is an empty queue then. -/
theorem Unused.register (hu : Unused w) (hreg : registered w = some h)
    (hstep : Region.step w (.register 0 chUri) = some w') :
    Carries w' h [] ∧ w'.streams = [] := by
  obtain ⟨p, hp, -, rfl⟩ := onPublisher_inv hstep
  simp only [registered, hp, hu.registerInner p.id] at hreg ⊢
  cases hfree : w.shm.freeTopic with
  | none =>
    rw [hfree] at hreg
    cases hreg
  | some t =>
    rw [hfree] at hreg
    cases hreg
    have hseq : ((w.shm.setTopic t ((w.shm.topic t).claimed chUri 0)).topic t).writeSeq = 0 := by
      show (update w.shm.topic t _ t).writeSeq = 0
      rw [update_self]
      rfl
    refine ⟨⟨findTopic_claimed t 0 (hu.findTopic chUri), ?_, ?_, ?_, ?_⟩, hu.streams⟩
    · intro q l hq hborrow
      rcases List.mem_or_eq_of_mem_set hq with hold | heq
      · rw [hu.loans q hold] at hborrow
        cases hborrow
      · cases heq
        rw [hu.loans p (List.mem_of_getElem? hp)] at hborrow
        cases hborrow
    · intro q hpos hq
      rw [hseq] at hq
      omega
    · rw [hu.streams]
      exact nofun
    · unfold queue
      rw [hseq, hu.streams]
      exact Fifo.accepts_nil

/-- `wait_for_peer` subscribes from the beginning. -/
theorem Carries.join (hc : Carries w h es) (hnone : w.streams = [])
    (hstep : Region.step w (.waitForPeer chUri) = some w') : Carries w' h es := by
  cases hstep
  simp only [Shm.waitForPeer, Shm.subscribe, hc.found, World.addStream, hnone, List.nil_append]
  refine ⟨hc.found, hc.loans, hc.logged, fun s hs => ?_, ?_⟩
  · rw [List.mem_singleton.mp hs]
  · have haccepted := hc.accepted
    unfold queue at haccepted ⊢
    rw [hnone] at haccepted
    exact haccepted

/-! ### What a call on a region does -/

/-- A region before and after `register`. -/
def Tells (o : Option (Handle c)) (w : World c) (es : List (Event (List UInt8))) : Prop :=
  match o with
  | some h => Carries w h es
  | none => Unused w ∧ es = []

/-- **Step** of a writing call. -/
theorem Carries.write (hc : Carries w h es) (a : Write) (hfit : Fits w (a.act h))
    (hstep : Region.step w (a.act h) = some w') : Carries w' h (es ++ a.events h w) := by
  cases a with
  | send data => exact hc.send hfit.2 hstep
  | loan =>
    rw [show Write.loan.events h w = [] from rfl, List.append_nil]
    exact hc.loan hstep
  | edit e =>
    rw [show (Write.edit e).events h w = [] from rfl, List.append_nil]
    exact hc.edit hstep
  | publishLoan => exact hc.publishLoan hfit.2 hstep
  | dropLoan =>
    rw [show Write.dropLoan.events h w = [] from rfl, List.append_nil]
    exact hc.dropLoan hstep

/-- **Step** of a reading call. -/
theorem Carries.read (hc : Carries w h es) (hsound : w.Sound) (a : Read)
    (hstep : Region.step w a.act = some w') : Carries w' h (es ++ a.events w) := by
  cases a with
  | tryRecv => exact hc.tryRecv hsound hstep
  | dropSample j =>
    rw [show (Read.dropSample j).events w = [] from rfl, List.append_nil]
    exact hc.dropSample hstep

/-- The streams belong to the reader. -/
theorem write_streams (a : Write) (hstep : Region.step w (a.act h) = some w') :
    w'.streams = w.streams := by
  cases a with
  | send | loan =>
    obtain ⟨-, hstep⟩ := withHandle_inv hstep
    obtain ⟨p, -, -, rfl⟩ := onPublisher_inv hstep
    rfl
  | edit | publishLoan | dropLoan =>
    rw [Write.act, Region.step] at hstep
    obtain ⟨p, l, shm, p', -, -, -, rfl⟩ := onLoan_inv hstep
    rfl

/-- A dropped publisher leaves the streams. -/
theorem dropPublisher_streams (hstep : Region.step w (.dropPublisher 0) = some w') :
    w'.streams = w.streams := by
  obtain ⟨p, -, -, rfl⟩ := onPublisher_inv hstep
  rfl

end

/-! ### The two endpoints -/

/-- The peer of the peer. -/
theorem Side.peer_peer (d : Side) : d.peer.peer = d := by cases d <;> rfl

/-- The endpoint has no stream yet. -/
def Phase.early : Phase → Bool
  | .absent | .created | .waiting => true
  | .connected | .misled _ | .closed => false

variable {cfg : Side → ValidConfig} {s s' : State cfg} {d e : Side}

/-- The invariant. -/
structure Inv (s : State cfg) : Prop where
  sound : ∀ d, (s.region d).Sound
  tells : ∀ d, Tells (s.topic d) (s.region d) (s.events d)
  /-- the topic is registered on the way to `waiting` -/
  untold : ∀ d, s.phase d = .absent ∨ s.phase d = .created → s.topic d = none
  unread : ∀ d, (s.phase d.peer).early = true → (s.region d).streams = []
  /-- no region was left -/
  clean : ∀ d, s.left d = none ∧ ∀ rest, s.phase d ≠ .misled rest

/-- No region exists, and none was left. -/
theorem inv_init (id : Side → Nat) : Inv (init cfg id fun _ => none) where
  sound d := sound_create (id d)
  tells d := ⟨unused_create (id d), rfl⟩
  untold _ _ := rfl
  unread _ _ := rfl
  clean _ := ⟨rfl, by rintro rest ⟨⟩⟩

/-- An endpoint goes on. -/
theorem Inv.goto (hI : Inv s) {ph : Phase} (hclean : ∀ rest, ph ≠ .misled rest)
    (huntold : ph = .absent ∨ ph = .created → s.topic e = none)
    (hunread : ∀ d, d.peer = e → ph.early = true → (s.region d).streams = []) :
    Inv (s.goto e ph) := by
  refine ⟨hI.sound, hI.tells, fun d hd => ?_, fun d hd => ?_, fun d => ⟨(hI.clean d).1, ?_⟩⟩
  · simp only [State.goto] at hd ⊢
    by_cases hde : d = e
    · subst hde
      rw [update_self] at hd
      exact huntold hd
    · rw [update_of_ne hde] at hd
      exact hI.untold d hd
  · simp only [State.goto] at hd ⊢
    by_cases hde : d.peer = e
    · subst hde
      rw [update_self] at hd
      exact hunread d rfl hd
    · rw [update_of_ne hde] at hd
      exact hI.unread d hd
  · by_cases hde : d = e
    · subst hde
      simpa only [State.goto, update_self] using hclean
    · simpa only [State.goto, update_of_ne hde] using (hI.clean d).2

/-- A region changes, and with it what is known of it. -/
theorem Inv.put (hI : Inv s) {w : World (cfg d)} {o : Option (Handle (cfg d))}
    {es : List (Event (List UInt8))} (hsound : w.Sound) (htells : Tells o w es)
    (huntold : s.phase d = .absent ∨ s.phase d = .created → o = none)
    (hunread : (s.phase d.peer).early = true → w.streams = []) :
    Inv { s with
      topic := update s.topic d o
      region := update s.region d w
      events := update s.events d es } := by
  refine ⟨fun d' => ?_, fun d' => ?_, fun d' hd => ?_, fun d' hd => ?_, hI.clean⟩
  all_goals by_cases hdd : d' = d
  all_goals try subst hdd
  · simpa only [update_self] using hsound
  · simpa only [update_of_ne hdd] using hI.sound d'
  · simpa only [update_self] using htells
  · simpa only [update_of_ne hdd] using hI.tells d'
  · simpa only [update_self] using huntold hd
  · simpa only [update_of_ne hdd] using hI.untold d' hd
  · simpa only [update_self] using hunread hd
  · simpa only [update_of_ne hdd] using hI.unread d' hd

/-- A call on a region is a step of it, and has events. -/
theorem call_inv {a : Region.Act (cfg d)} {es : List (Event (List UInt8))}
    (hcall : s.call d a es = some s') :
    ∃ w, Region.step (s.region d) a = some w ∧ s' = { s with
      region := update s.region d w
      events := update s.events d (s.events d ++ es) } := by
  obtain ⟨w, hstep, heq⟩ := Option.map_eq_some_iff.mp hcall
  exact ⟨w, hstep, heq.symm⟩

/-- A call that leaves the handles alone. -/
theorem Inv.call (hI : Inv s) {w : World (cfg d)} {es : List (Event (List UInt8))}
    (hsound : w.Sound) (htells : Tells (s.topic d) w (s.events d ++ es))
    (hunread : (s.phase d.peer).early = true → w.streams = []) :
    Inv { s with
      region := update s.region d w
      events := update s.events d (s.events d ++ es) } := by
  have hput := hI.put hsound htells (hI.untold d) hunread
  rwa [update_eq_self] at hput

/-- The end of an endpoint. -/
theorem Inv.shut (hI : Inv s) (hshut : s.shut e = some s') : Inv s' := by
  obtain ⟨s₁, hcall, rfl⟩ := Option.map_eq_some_iff.mp hshut
  obtain ⟨w, hstep, rfl⟩ := call_inv hcall
  have hfit : Fits (s.region e) (.dropPublisher 0) := ⟨trivial, trivial⟩
  refine Inv.goto (hI.call (sound_step (hI.sound e) hfit hstep) ?_ ?_) (by rintro rest ⟨⟩)
    (fun h => by rcases h with h | h <;> cases h) (fun d _ h => by cases h)
  · have htells := hI.tells e
    rw [List.append_nil]
    cases htopic : s.topic e with
    | none =>
      rw [htopic] at htells
      exact ⟨htells.1.dropPublisher hstep, htells.2⟩
    | some h =>
      rw [htopic] at htells
      exact Carries.dropPublisher htells hstep
  · intro hearly
    rw [dropPublisher_streams hstep]
    exact hI.unread e hearly

/-- `register("/ch")`. -/
theorem Inv.register (hI : Inv s) (hphase : s.phase e = .created) {h : Handle (cfg e)}
    (hreg : registered (s.region e) = some h)
    (hcall : s.call e (.register 0 chUri) [] = some s') :
    Inv { s'.goto e .waiting with topic := update s'.topic e (some h) } := by
  obtain ⟨w, hstep, rfl⟩ := call_inv hcall
  have htells := hI.tells e
  rw [hI.untold e (Or.inr hphase)] at htells
  obtain ⟨hcarries, hstreams⟩ := htells.1.register hreg hstep
  have hgoto : Inv (s.goto e .waiting) := by
    refine hI.goto (by rintro rest ⟨⟩) (fun h => by rcases h with h | h <;> cases h)
      (fun d hd _ => ?_)
    exact hI.unread d (by rw [hd, hphase]; rfl)
  have hfit : Fits (s.region e) (.register 0 chUri) := ⟨trivial, trivial⟩
  refine hgoto.put (d := e) (sound_step (hI.sound e) hfit hstep) ?_ ?_
    (fun _ => hstreams)
  · rw [htells.2]
    exact hcarries
  · intro hd
    simp [State.goto] at hd

/-- `wait_for_peer` finds the peer. -/
theorem Inv.join (hI : Inv s) (hphase : s.phase e = .waiting)
    {r : Stream (cfg e.peer)} (hfound : (s.region e.peer).shm.waitForPeer chUri = .ok r)
    (hcall : s.call e.peer (.waitForPeer chUri) [] = some s') : Inv (s'.goto e .connected) := by
  obtain ⟨w, hstep, rfl⟩ := call_inv hcall
  have hnone := hI.unread e.peer (by rw [Side.peer_peer, hphase]; rfl)
  have htells := hI.tells e.peer
  have hgoto : Inv (s.goto e .connected) :=
    hI.goto (by rintro rest ⟨⟩) (fun h => by rcases h with h | h <;> cases h)
      (fun d _ h => by cases h)
  have hfit : Fits (s.region e.peer) (.waitForPeer chUri) := ⟨trivial, trivial⟩
  refine hgoto.call (d := e.peer) (sound_step (hI.sound e.peer) hfit hstep) ?_ ?_
  · show Tells (s.topic e.peer) w (s.events e.peer ++ [])
    rw [List.append_nil]
    cases htopic : s.topic e.peer with
    | none =>
      rw [htopic] at htells
      rw [Shm.waitForPeer, Shm.subscribe, htells.1.findTopic] at hfound
      cases hfound
    | some h =>
      rw [htopic] at htells
      exact Carries.join htells hnone hstep
  · intro hearly
    simp [State.goto, Side.peer_peer, Phase.early] at hearly

/-- **Step.** -/
theorem inv_step {a : Act} (hI : Inv s) (hok : InRange s a) (hstep : step s a = some s') :
    Inv s' := by
  cases a with
  | create e =>
    obtain ⟨hphase, hstep⟩ := Option.ite_none_right_eq_some.mp hstep
    cases hstep
    have hgoto : Inv (s.goto e .created) := by
      refine hI.goto (by rintro rest ⟨⟩) (fun _ => hI.untold e (Or.inl hphase))
        (fun d hd _ => hI.unread d ?_)
      rw [hd, hphase]
      rfl
    -- there was nothing to remove
    rw [← (hI.clean e).1, update_eq_self]
    exact hgoto
  | register e =>
    obtain ⟨hphase, hstep⟩ := Option.ite_none_right_eq_some.mp hstep
    split at hstep
    · rename_i h hreg
      obtain ⟨s₁, hcall, rfl⟩ := Option.map_eq_some_iff.mp hstep
      exact hI.register hphase hreg hcall
    · exact hI.shut hstep
  | attempt e found =>
    obtain ⟨hphase, hstep⟩ := Option.ite_none_right_eq_some.mp hstep
    simp only [(hI.clean e.peer).1] at hstep
    split at hstep
    · split at hstep
      · rename_i r hfound
        obtain ⟨s₁, hcall, rfl⟩ := Option.map_eq_some_iff.mp hstep
        exact hI.join hphase hfound hcall
      · cases hstep
        exact hI
    · cases hstep
      exact hI
  | giveUp | close =>
    obtain ⟨-, hstep⟩ := Option.ite_none_right_eq_some.mp hstep
    exact hI.shut hstep
  | write e c =>
    obtain ⟨-, hstep⟩ := Option.ite_none_right_eq_some.mp hstep
    split at hstep
    · rename_i h htopic
      obtain ⟨w, hcall, rfl⟩ := call_inv hstep
      simp only [InRange, htopic] at hok
      have htells := hI.tells e
      rw [htopic] at htells
      refine hI.call (sound_step (hI.sound e) hok hcall) ?_ (fun hearly => ?_)
      · rw [htopic]
        exact Carries.write htells c hok hcall
      · rw [write_streams c hcall]
        exact hI.unread e hearly
    · cases hstep
  | read e c =>
    obtain ⟨-, hstep⟩ := Option.ite_none_right_eq_some.mp hstep
    split at hstep
    case h_2 rest hphase => exact absurd hphase ((hI.clean e).2 rest)
    case h_3 => cases hstep
    rename_i hphase
    obtain ⟨w, hcall, rfl⟩ := call_inv hstep
    have htells := hI.tells e.peer
    refine hI.call (sound_step (hI.sound e.peer) hok hcall) ?_ (fun hearly => ?_)
    · cases htopic : s.topic e.peer with
      | none =>
        rw [htopic] at htells
        exact absurd hcall (htells.1.read c)
      | some h =>
        rw [htopic] at htells
        exact Carries.read htells (hI.sound e.peer) c hcall
    · rw [Side.peer_peer, hphase] at hearly
      cases hearly

/-- **Run.** -/
theorem inv_run {id : Side → Nat} {as : List Act} {ok : State cfg → Act → Prop}
    (hle : ∀ s a, ok s a → InRange s a)
    (hrun : Run step ok (init cfg id fun _ => none) as s) : Inv s :=
  hrun.invariant (inv_init id) fun s a _ hI hok hstep => inv_step hI (hle s a hok) hstep

/-- The history of a region is one of its queue. -/
theorem Inv.accepts (hI : Inv s) (d : Side) :
    ∃ f, Fifo.Accepts (cfg d).ringDepth (s.events d) f := by
  have htells := hI.tells d
  cases htopic : s.topic d with
  | none =>
    rw [htopic] at htells
    rw [htells.2]
    exact ⟨_, Fifo.accepts_nil⟩
  | some h =>
    rw [htopic] at htells
    exact ⟨_, htells.accepted⟩

/-- **A channel is two bounded queues.** When no earlier endpoint has left a region at either path,
    then however the steps of the two endpoints interleave, each a whole call on a region, from
    the creation of the regions to the end of either one, what goes through each direction is
    what goes through a queue that keeps the last `ring_depth` messages: a message that is
    received is the oldest one that is still kept and was not received before, with its bytes,
    from the first message on even if it was sent before the receiver had connected, and
    `try_recv` returns `None` only when no message is left. -/
theorem channel_is_two_queues {id : Side → Nat} {as : List Act}
    (hrun : Run step InRange (init cfg id fun _ => none) as s) (d : Side) :
    ∃ f, Fifo.Accepts (cfg d).ringDepth (s.events d) f ∧
      (Event.receives (s.events d)).Sublist (Event.sends (s.events d)) := by
  obtain ⟨f, hf⟩ := (inv_run (fun _ _ h => h) hrun).accepts d
  obtain ⟨hsent, hsub⟩ := Fifo.received_sublist hf
  exact ⟨f, hf, hsent ▸ hsub.trans (List.take_sublist ..)⟩

/-- Three messages to a client that is slow to connect, over a ring of two. -/
def floodSteps : List Act :=
  [.create .client, .register .client, .create .server, .register .server,
    .attempt .server true, .write .server (.send [1]), .write .server (.send [2]),
    .write .server (.send [3]), .attempt .client true, .read .client .tryRecv,
    .read .client .tryRecv, .read .client .tryRecv]

/-- Three messages into two slots: the first one is lost. -/
theorem channel_is_two_queues_flood : ∃ s,
    Run step InRange (init (fun _ => twoSlots) (fun _ => 5) fun _ => none) floodSteps s ∧
    s.events .server = [.sent [1], .sent [2], .sent [3], .received [2], .received [3], .nothing] ∧
    ∃ f, Fifo.Accepts twoSlots.ringDepth (s.events .server) f ∧
      (Event.receives (s.events .server)).Sublist (Event.sends (s.events .server)) := by
  obtain ⟨s, hrun, hevents⟩ := exists_run_of_exec step InRange
    (s := init (fun _ => twoSlots) (fun _ => 5) fun _ => none) (l := floodSteps)
    (p := fun s => s.events .server =
      [.sent [1], .sent [2], .sent [3], .received [2], .received [3], .nothing])
    (by decide +kernel)
  exact ⟨s, hrun, hevents, channel_is_two_queues hrun .server⟩

/-! ### A channel that is never full -/

/-- A call has events for its own side only. -/
theorem call_events {a : Region.Act (cfg e)} {es : List (Event (List UInt8))}
    (hcall : s.call e a es = some s') (d : Side) :
    s'.events d = s.events d ∨ d = e ∧ s'.events d = s.events d ++ es := by
  obtain ⟨w, -, rfl⟩ := call_inv hcall
  by_cases hde : d = e
  · subst hde
    exact Or.inr ⟨rfl, update_self ..⟩
  · exact Or.inl (update_of_ne hde ..)

/-- A call that the users of the channel do not see. -/
theorem call_quiet {a : Region.Act (cfg e)} (hcall : s.call e a [] = some s') (d : Side) :
    s'.events d = s.events d := by
  rcases call_events hcall d with hsame | ⟨-, hmore⟩
  · exact hsame
  · rw [hmore, List.append_nil]

/-- Dropping an endpoint has no events. -/
theorem shut_quiet (hshut : s.shut e = some s') (d : Side) : s'.events d = s.events d := by
  obtain ⟨s₁, hcall, rfl⟩ := Option.map_eq_some_iff.mp hshut
  exact call_quiet hcall d

section

variable {c : ValidConfig} {w : World c} {h : Handle c}

/-- A writing call sends at most one message. -/
theorem write_events (a : Write) : a.events h w = [] ∨ ∃ m, a.events h w = [.sent m] := by
  cases a with
  | send | publishLoan =>
    simp only [Write.events]
    split
    · split
      · exact Or.inr ⟨_, rfl⟩
      · exact Or.inl rfl
    · exact Or.inl rfl
  | loan | edit e | dropLoan => exact Or.inl rfl

/-- A reading call sends nothing. -/
theorem read_events (a : Read) :
    a.events w = [] ∨ ∃ e, a.events w = [e] ∧ ∀ m, e ≠ .sent m := by
  cases a with
  | tryRecv =>
    simp only [Read.events]
    split
    · split
      · exact Or.inr ⟨_, rfl, nofun⟩
      · exact Or.inr ⟨_, rfl, nofun⟩
    · exact Or.inl rfl
  | dropSample j => exact Or.inl rfl

end

/-- What a step adds to the history of a region: what the endpoint that made it has sent, or what
    the other one has received. -/
theorem step_events {a : Act} (hI : Inv s) (hstep : step s a = some s') (d : Side) :
    s'.events d = s.events d ∨
    (∃ c h, a = .write d c ∧ s.topic d = some h ∧
      s'.events d = s.events d ++ c.events h (s.region d)) ∨
    ∃ c : Read, s'.events d = s.events d ++ c.events (s.region d) := by
  cases a with
  | create e =>
    obtain ⟨-, hstep⟩ := Option.ite_none_right_eq_some.mp hstep
    cases hstep
    exact Or.inl rfl
  | register e =>
    obtain ⟨-, hstep⟩ := Option.ite_none_right_eq_some.mp hstep
    split at hstep
    · obtain ⟨s₁, hcall, rfl⟩ := Option.map_eq_some_iff.mp hstep
      exact Or.inl (call_quiet hcall d)
    · exact Or.inl (shut_quiet hstep d)
  | attempt e found =>
    obtain ⟨-, hstep⟩ := Option.ite_none_right_eq_some.mp hstep
    simp only [(hI.clean e.peer).1] at hstep
    split at hstep
    · split at hstep
      · obtain ⟨s₁, hcall, rfl⟩ := Option.map_eq_some_iff.mp hstep
        exact Or.inl (call_quiet hcall d)
      · cases hstep
        exact Or.inl rfl
    · cases hstep
      exact Or.inl rfl
  | giveUp e | close e =>
    obtain ⟨-, hstep⟩ := Option.ite_none_right_eq_some.mp hstep
    exact Or.inl (shut_quiet hstep d)
  | write e c =>
    obtain ⟨-, hstep⟩ := Option.ite_none_right_eq_some.mp hstep
    split at hstep
    · rename_i h htopic
      rcases call_events hstep d with hsame | ⟨rfl, hmore⟩
      · exact Or.inl hsame
      · exact Or.inr (Or.inl ⟨c, h, rfl, htopic, hmore⟩)
    · cases hstep
  | read e c =>
    obtain ⟨-, hstep⟩ := Option.ite_none_right_eq_some.mp hstep
    split at hstep
    case h_2 rest hphase => exact absurd hphase ((hI.clean e).2 rest)
    case h_3 => cases hstep
    rcases call_events hstep d with hsame | ⟨rfl, hmore⟩
    · exact Or.inl hsame
    · exact Or.inr (Or.inr ⟨c, hmore⟩)

/-- **Step** of the pace. -/
theorem paced_step {a : Act} (hI : Inv s) (hp : Fifo.Paced (cfg d).ringDepth (s.events d))
    (hok : Paced s a) (hstep : step s a = some s') :
    Fifo.Paced (cfg d).ringDepth (s'.events d) := by
  rcases step_events hI hstep d with hsame | ⟨c, h, rfl, htopic, hmore⟩ | ⟨c, hmore⟩
  · rw [hsame]
    exact hp
  · rcases write_events (h := h) (w := s.region d) c with hnone | ⟨m, hm⟩
    · rw [hmore, hnone, List.append_nil]
      exact hp
    · simp only [Paced, htopic] at hok
      rw [hmore, hm]
      refine hp.snoc (fun m' _ => hok ?_)
      rw [hm]
      exact List.cons_ne_nil _ _
  · rcases read_events (w := s.region d) c with hnone | ⟨e, he, hnot⟩
    · rw [hmore, hnone, List.append_nil]
      exact hp
    · rw [hmore, he]
      exact hp.snoc (fun m hm => absurd hm (hnot m))

/-- **A channel that is never full loses nothing.** When no earlier endpoint has left a region, and
    no message is sent on a region while `ring_depth` messages of it are waiting, then however
    whole calls interleave, in each direction what was received is what was sent, from the first
    message on, in order and without a gap, and whenever `try_recv` returned `None`, everything
    sent before had been received. -/
theorem channel_loses_nothing {id : Side → Nat} {as : List Act}
    (hrun : Run step (fun s a => InRange s a ∧ Paced s a) (init cfg id fun _ => none) as s)
    (d : Side) :
    Event.receives (s.events d) <+: Event.sends (s.events d) ∧
      ∀ p q, s.events d = p ++ .nothing :: q → Event.receives p = Event.sends p := by
  obtain ⟨f, hf⟩ := (inv_run (fun _ _ h => h.1) hrun).accepts d
  have hpaced : Fifo.Paced (cfg d).ringDepth (s.events d) :=
    (hrun.invariant (I := fun s => Inv s ∧ Fifo.Paced (cfg d).ringDepth (s.events d))
      ⟨inv_init id, Fifo.paced_nil⟩ fun _ _ _ hs hok hstep =>
        ⟨inv_step hs.1 hok.1 hstep, paced_step hs.1 hs.2 hok.2 hstep⟩).2
  have hlossless := hf.lossless hpaced
  refine ⟨?_, fun p q heq => hf.nothing hpaced heq⟩
  rw [hlossless.received, ← hlossless.sent]
  exact List.take_prefix ..

instance (s : State cfg) (a : Act) : Decidable (Paced s a) :=
  match a with
  | .write e c =>
    match h : s.topic e with
    | some hd => decidable_of_iff (c.events hd (s.region e) ≠ [] →
        (Event.sends (s.events e)).length <
          (Event.receives (s.events e)).length + (cfg e).ringDepth) (by simp only [Paced, h])
    | none => .isTrue (by simp only [Paced, h])
  | .read .. | .create _ | .register _ | .attempt _ _ | .giveUp _ | .close _ => .isTrue trivial

/-- A request before the client has finished `connect`, a reply, and the end of the server. -/
def talkSteps : List Act :=
  [.create .server, .register .server, .attempt .server true, .create .client,
    .attempt .server true, .register .client, .attempt .server true,
    .write .server (.send [1, 2]), .attempt .client true, .read .client .tryRecv,
    .read .client (.dropSample 0), .write .client .loan, .write .client (.edit (.setData [3])),
    .write .client .publishLoan, .read .client .tryRecv, .close .server]

/-- One message, and one look at the empty queue. -/
theorem channel_loses_nothing_talk : ∃ s,
    Run step (fun s a => InRange s a ∧ Paced s a)
      (init (fun _ => twoSlots) (fun _ => 5) fun _ => none) talkSteps s ∧
    s.events .server = [.sent [1, 2], .received [1, 2], .nothing] ∧
    Event.receives (s.events .server) <+: Event.sends (s.events .server) ∧
    ∀ p q, s.events .server = p ++ .nothing :: q → Event.receives p = Event.sends p := by
  obtain ⟨s, hrun, hevents⟩ := exists_run_of_exec step (fun s a => InRange s a ∧ Paced s a)
    (s := init (fun _ => twoSlots) (fun _ => 5) fun _ => none) (l := talkSteps)
    (p := fun s => s.events .server = [.sent [1, 2], .received [1, 2], .nothing])
    (by decide +kernel)
  exact ⟨s, hrun, hevents, channel_loses_nothing hrun .server⟩

/-- With a region that was left, the server receives an old message, and not the one that its client
    sends. -/
example : (exec step InRange
    (init (fun _ => twoSlots) (fun _ => 5) fun d => if d = .client then some [[9]] else none)
    [.create .server, .register .server, .attempt .server true, .create .client,
      .register .client, .attempt .client true, .write .client (.send [1]),
      .read .server .tryRecv, .read .server .tryRecv]).any
    (fun s => s.events .client == [.sent [1], .received [9], .nothing]) = true := by
  decide +kernel

end Crossbar.Channel
