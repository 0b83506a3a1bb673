import Crossbar.Region.Model

namespace Crossbar.Region

open Function Crossbar.Lib Crossbar.Pool

/-!
# Region — what a call does

Inversion lemmas for the calls of `Crossbar.Region.Model`, stated once so that no invariant
has to unfold a call again:

* `onPublisher_inv`, `onLoan_inv`, `receive_inv` — the three ways a call reaches its object;
* `Publisher.allocCached_shape` — allocation touches the free list, `last_freed` and the cache;
* `Loan.edit_spec` — writing through a loan changes the bytes of its block;
* `Stream.scan_spec` — the window scan returns the first readable number of
  `(max(last_seq, write_seq - ring_depth), write_seq]`, or there is none;
* `publish_expand`, `publishTyped_expand` — `Publisher::publish` and `publish_typed` are the
  calls on a loan, one after the other.
-/

variable {cfg : ValidConfig} {w w' : World cfg} {k : Nat}

/-! ### Changing a topic entry -/

/-- The entry that was stored is read. -/
@[simp] theorem Shm.setTopic_self (shm : Shm cfg) (t : cfg.Topic) (e : TopicEntry) :
    (shm.setTopic t e).topic t = e := update_self ..

/-- The other entries do not change. -/
theorem Shm.setTopic_of_ne (shm : Shm cfg) {t t' : cfg.Topic} (e : TopicEntry) (ht : t' ≠ t) :
    (shm.setTopic t e).topic t' = shm.topic t' := update_of_ne ht ..

/-- The topic entry after a pinned publish. -/
theorem Loan.publishPinned_topic (l : Loan cfg) (shm : Shm cfg) :
    (l.publishPinned shm).topic l.topic =
      { shm.topic l.topic with
        writeSeq := shm.nextSeq l.topic
        pinnedSeq := ((shm.nextSeq l.topic &&& 0xFFFFFFFF) <<< 32) ||| l.len
        pinnedReaders := 0 } := by
  show ((commitPinned shm l.len l.topic).setReaders l.topic 0).topic l.topic = _
  rw [Shm.setReaders, Shm.setTopic_self, commitPinned, Shm.setTopic_self]

/-- A pinned publish changes no other topic. -/
theorem Loan.publishPinned_topic_of_ne (l : Loan cfg) (shm : Shm cfg) {t : cfg.Topic}
    (ht : t ≠ l.topic) : (l.publishPinned shm).topic t = shm.topic t := by
  show ((commitPinned shm l.len l.topic).setReaders l.topic 0).topic t = _
  rw [Shm.setReaders, Shm.setTopic_of_ne _ _ ht, commitPinned, Shm.setTopic_of_ne _ _ ht]

/-! ### Reaching the object of a call -/

/-- A call of a publisher needs it alive and without a loan. -/
theorem onPublisher_inv {f : Publisher cfg → Shm cfg × Option (Publisher cfg)}
    (h : w.onPublisher k f = some w') :
    ∃ p, w.pubs[k]? = some (some p) ∧ p.borrow = none ∧
      w' = { w with shm := (f p).1, pubs := w.pubs.set k (f p).2 } := by
  unfold World.onPublisher at h
  split at h
  · rename_i p hp
    split at h
    · rename_i hborrow
      cases h
      exact ⟨p, hp, hborrow, rfl⟩
    · cases h
  · cases h

/-- A call with a handle needs the topic to be active. -/
theorem withHandle_inv {h : Handle cfg} {r : Option (World cfg)} (hr : w.withHandle h r = some w') :
    (w.shm.topic h.topicIdx).active = true ∧ r = some w' :=
  Option.ite_none_right_eq_some.mp hr

/-- A call that consumes a loan needs one. -/
theorem onLoan_inv {f : Publisher cfg → Loan cfg → Option (Shm cfg × Publisher cfg)}
    (h : w.onLoan k f = some w') :
    ∃ p l shm p', w.pubs[k]? = some (some p) ∧ p.borrow = some l ∧
      f { p with borrow := none } l = some (shm, p') ∧
      w' = { w with shm := shm, pubs := w.pubs.set k (some p') } := by
  unfold World.onLoan at h
  split at h
  · rename_i p hp
    split at h
    · rename_i l hborrow
      split at h
      · rename_i shm p' hf
        cases h
        exact ⟨p, l, shm, p', hp, hborrow, hf, rfl⟩
      · cases h
    · cases h
  · cases h

/-- A stream that receives nothing leaves the world as it is; otherwise there is a sample more. -/
theorem receive_inv {i : Nat} {f : Stream cfg → Option (Shm cfg × Stream cfg × Sample)}
    (h : w.receive i f = some w') :
    ∃ s, w.streams[i]? = some s ∧ ((f s = none ∧ w' = w) ∨
      ∃ shm s' sample, f s = some (shm, s', sample) ∧
        w' = { w with
          shm := shm, streams := w.streams.set i s', samples := w.samples ++ [some sample] }) := by
  unfold World.receive at h
  split at h
  · rename_i s hs
    refine ⟨s, hs, ?_⟩
    split at h
    · rename_i shm s' sample hf
      cases h
      exact Or.inr ⟨shm, s', sample, hf, rfl⟩
    · rename_i hf
      cases h
      exact Or.inl ⟨hf, rfl⟩
  · cases h

/-- Only a live sample is dropped. -/
theorem dropSample_inv {j : Nat} (h : step w (.dropSample j) = some w') :
    ∃ s, w.samples[j]? = some (some s) ∧
      w' = { w with shm := w.shm.release s.blockIdx, samples := w.samples.set j none } := by
  simp only [step] at h
  split at h
  · rename_i s hs
    cases h
    exact ⟨s, hs, rfl⟩
  · cases h

/-- The same for `try_recv_pinned` and its guard. -/
theorem receivePinned_inv {i : Nat} (h : step w (.tryRecvPinned i) = some w') :
    ∃ s, w.streams[i]? = some s ∧ (w' = w ∨
      ∃ shm s' g, s.tryRecvPinned w.shm = some (shm, s', g) ∧
        w' = { w with
          shm := shm, streams := w.streams.set i s', guards := w.guards ++ [some g] }) := by
  simp only [step] at h
  split at h
  · rename_i s hs
    refine ⟨s, hs, ?_⟩
    split at h
    · rename_i shm s' g hrecv
      cases h
      exact Or.inr ⟨shm, s', g, hrecv, rfl⟩
    · cases h
      exact Or.inl rfl
  · cases h

/-- Only a live guard is dropped, and takes back its reader. -/
theorem dropGuard_inv {j : Nat} (h : step w (.dropGuard j) = some w') :
    ∃ g, w.guards[j]? = some (some g) ∧
      w' = { w with
        shm := w.shm.setReaders g.topic (dec32 (w.shm.topic g.topic).pinnedReaders)
        guards := w.guards.set j none } := by
  simp only [step] at h
  split at h
  · rename_i g hg
    cases h
    exact ⟨g, hg, rfl⟩
  · cases h

/-! ### The shape of an allocation -/

section

variable (shm : Shm cfg) (p : Publisher cfg)

/-- `alloc_cached` touches the free list, `last_freed` and the cache. -/
theorem Publisher.allocCached_shape : ∃ pool lastFreed cache r,
    p.allocCached shm =
      ({ shm with pool := pool }, { p with lastFreed := lastFreed, cache := cache }, r) := by
  unfold allocCached
  split
  · rename_i p' b hrec
    obtain rfl : _ = p' := congrArg Prod.fst hrec
    exact ⟨shm.pool, noBlock, p.cache, .ok (some b), rfl⟩
  · rename_i p' hrec
    obtain rfl : _ = p' := congrArg Prod.fst hrec
    split
    · rename_i b rest _
      exact ⟨shm.pool, noBlock, rest, .ok (some b), rfl⟩
    · split
      · rename_i pool cache _
        exact ⟨pool, noBlock, cache, _, rfl⟩
      · rename_i pool cache _
        split
        · rename_i b rest _
          exact ⟨pool, noBlock, rest, .ok (some b), rfl⟩
        · exact ⟨pool, noBlock, cache, .ok none, rfl⟩

/-- A loan takes blocks from the free list, the cache or `last_freed`, and changes no other field.
    -/
theorem Publisher.obtainBlock_shape : ∃ pool lastFreed cache r,
    p.obtainBlock shm =
      ({ shm with pool := pool }, { p with lastFreed := lastFreed, cache := cache }, r) := by
  obtain ⟨pool, lastFreed, cache, r, halloc⟩ := p.allocCached_shape shm
  refine ⟨pool, lastFreed, cache, ?_⟩
  rcases r with e | _ | b
  · exact ⟨.error e, by simp only [obtainBlock, halloc]⟩
  · exact ⟨.error .poolExhausted, by simp only [obtainBlock, halloc]⟩
  · exact ⟨.ok b, by simp only [obtainBlock, halloc]⟩

/-- A loan that is not pinned: no handle of this publisher, no block, or a loan of a block. -/
theorem Publisher.loanWith_shape (kind : LoanKind) (len : Nat) (h : Handle cfg) :
    ∃ pool lastFreed cache, ∃ r : Except Error (Loan cfg),
      p.loanWith kind len shm h =
        ({ shm with pool := pool }, { p with lastFreed := lastFreed, cache := cache }, r) ∧
      ∀ l, r = .ok l → ∃ b, l = ⟨kind, h.topicIdx, b, len⟩ := by
  by_cases hid : h.publisherId = p.id
  · obtain ⟨pool, lastFreed, cache, r, hobtain⟩ := p.obtainBlock_shape shm
    refine ⟨pool, lastFreed, cache, ?_⟩
    cases r with
    | error e =>
      refine ⟨.error e, ?_, nofun⟩
      simp only [loanWith, hid, ne_eq, not_true_eq_false, if_false, hobtain]
    | ok b =>
      refine ⟨.ok ⟨kind, h.topicIdx, b, len⟩, ?_, ?_⟩
      · simp only [loanWith, hid, ne_eq, not_true_eq_false, if_false, hobtain]
      · rintro l hl
        cases hl
        exact ⟨b, rfl⟩
  · refine ⟨shm.pool, p.lastFreed, p.cache, .error .handleMismatch, ?_, nofun⟩
    rw [loanWith, if_pos hid]

end

/-! ### Writing through a loan -/

section

variable {shm : Shm cfg}

/-- The words differ at most in the bytes of block `b`. -/
def Shm.SameButData (b : Nat) (shm shm' : Shm cfg) : Prop :=
  ∃ data, shm' = { shm with data := update shm.data b data }

/-- Nothing is written. -/
theorem Shm.SameButData.refl (b : Nat) (shm : Shm cfg) : shm.SameButData b shm :=
  ⟨shm.data b, by rw [update_eq_self]⟩

/-- Another copy into the same block. -/
theorem Shm.SameButData.poke {b : Nat} {shm' : Shm cfg} (h : shm.SameButData b shm') (off : Nat)
    (bytes : List UInt8) : shm.SameButData b (shm'.poke b off bytes) := by
  obtain ⟨data, rfl⟩ := h
  refine ⟨fun i => if off ≤ i ∧ i < off + bytes.length then bytes.getD (i - off) 0
    else data i, ?_⟩
  simp only [Shm.poke, update_self, update_idem]

namespace Loan

variable (l : Loan cfg)

/-- What a writing call leaves of the region and of the loan. -/
structure Edited (shm : Shm cfg) (r : Shm cfg × Loan cfg) : Prop where
  data : shm.SameButData l.blockIdx r.1
  loan : ∃ len, r.2 = { l with len := len }
  len : l.len ≤ cfg.dataCapacity → r.2.len ≤ cfg.dataCapacity

/-- A call that fails changes nothing. -/
theorem Edited.refl (shm : Shm cfg) : l.Edited shm (shm, l) := ⟨.refl _ _, ⟨l.len, rfl⟩, id⟩

/-- `set_len` never exceeds the capacity. -/
theorem setLen_edited {shm shm' : Shm cfg} (hdata : shm.SameButData l.blockIdx shm') (n : Nat) :
    l.Edited shm (shm', (l.setLen n).1) := by
  unfold setLen
  split
  · exact ⟨hdata, ⟨l.len, rfl⟩, id⟩
  · rename_i hn
    exact ⟨hdata, ⟨n, rfl⟩, fun _ => Nat.le_of_not_lt hn⟩

/-- `set_data` writes into the block of the loan only. -/
theorem setData_edited (shm : Shm cfg) (data : List UInt8) :
    l.Edited shm ((l.setData shm data).1, (l.setData shm data).2.1) := by
  unfold setData
  split
  · exact .refl l shm
  · rename_i hlen
    refine ⟨(Shm.SameButData.refl _ shm).poke 0 data, ⟨data.length, rfl⟩, fun _ => ?_⟩
    exact Nat.le_of_not_lt hlen

/-- `write` writes into the block of the loan only. -/
theorem write_edited (shm : Shm cfg) (buf : List UInt8) :
    l.Edited shm ((l.write shm buf).1, (l.write shm buf).2.1) := by
  unfold write
  split
  · exact .refl l shm
  · refine ⟨(Shm.SameButData.refl _ shm).poke _ _, ⟨_, rfl⟩, fun hle => ?_⟩
    show l.len + min buf.length (cfg.dataCapacity - l.len) ≤ cfg.dataCapacity
    omega

/-- `write_structured` writes into the block of the loan only. -/
theorem writeStructured_edited (shm : Shm cfg) (header : List UInt8) (entries : List (List UInt8)) :
    l.Edited shm ((l.writeStructured shm header entries).1,
      (l.writeStructured shm header entries).2.1) := by
  unfold writeStructured
  dsimp only
  split
  · exact .refl l shm
  · exact l.setLen_edited ((((Shm.SameButData.refl _ shm).poke _ _).poke _ _).poke _ _) _

/-- Writing through a loan changes the bytes of its block, and the loan's length within the
    capacity. -/
theorem edit_spec {l : Loan cfg} {r : Shm cfg × Loan cfg} {e : Edit}
    (hedit : l.edit shm e = some r) : l.Edited shm r := by
  cases e with
  | fill bytes =>
    cases hedit
    exact ⟨⟨_, rfl⟩, ⟨l.len, rfl⟩, id⟩
  | setData data =>
    obtain ⟨_, heq⟩ := Option.ite_none_left_eq_some.mp hedit
    cases heq
    exact l.setData_edited shm data
  | setLen n =>
    obtain ⟨_, heq⟩ := Option.ite_none_left_eq_some.mp hedit
    cases heq
    exact l.setLen_edited (.refl _ _) n
  | write buf =>
    obtain ⟨_, heq⟩ := Option.ite_none_right_eq_some.mp hedit
    cases heq
    exact l.write_edited shm buf
  | writeStructured header entries =>
    obtain ⟨_, heq⟩ := Option.ite_none_left_eq_some.mp hedit
    cases heq
    exact l.writeStructured_edited shm header entries

end Loan

end

/-! ### The window scan -/

namespace Shm

variable (shm : Shm cfg) (t : cfg.Topic)

/-- `try_read_slot_raw(q)` finds a message. -/
def Readable (q : Nat) : Prop :=
  (shm.entry (t, cfg.slotOf q)).seq = q ∧
    (shm.entry (t, cfg.slotOf q)).blockIdx ≠ noBlock ∧
    (shm.entry (t, cfg.slotOf q)).blockIdx < cfg.blockCount ∧
    (shm.entry (t, cfg.slotOf q)).dataLen ≤ cfg.dataCapacity ∧
    shm.refcount (shm.entry (t, cfg.slotOf q)).blockIdx ≠ 0

/-- The region with one more reference to block `b`. -/
def addRef (b : Nat) : Shm cfg :=
  { shm with refcount := update shm.refcount b (wrap32 (shm.refcount b + 1)) }

/-- What `try_read_slot_raw(q)` returns when it finds a message. -/
def slotRead (q : Nat) : SlotRead :=
  ⟨q, (shm.entry (t, cfg.slotOf q)).blockIdx, (shm.entry (t, cfg.slotOf q)).dataLen⟩

variable {shm t}

/-- A readable slot is returned, with one more reference. -/
theorem tryReadSlotRaw_of_readable {q : Nat} (h : shm.Readable t q) :
    shm.tryReadSlotRaw t q =
      some (shm.addRef (shm.entry (t, cfg.slotOf q)).blockIdx, shm.slotRead t q) := by
  obtain ⟨hseq, hne, hlt, hlen, hrc⟩ := h
  dsimp only [tryReadSlotRaw]
  rw [if_neg (not_not.mpr hseq), if_neg hne, if_neg (by omega), if_neg (by omega), if_neg hrc]
  rfl

/-- A slot that is not readable is skipped. -/
theorem tryReadSlotRaw_of_not_readable {q : Nat} (h : ¬ shm.Readable t q) :
    shm.tryReadSlotRaw t q = none := by
  dsimp only [tryReadSlotRaw]
  split_ifs with hseq hne hlt hlen hrc
  · rfl
  · rfl
  · rfl
  · rfl
  · rfl
  · exact absurd ⟨not_not.mp hseq, hne, by omega, by omega, hrc⟩ h

variable (shm t) in
/-- The loop returns the first readable number, or there is none. -/
theorem scanRing_spec (n q : Nat) :
    (shm.scanRing t n q = none ∧ ∀ i, q ≤ i → i < q + n → ¬ shm.Readable t i) ∨
    ∃ i, q ≤ i ∧ i < q + n ∧ shm.Readable t i ∧ (∀ j, q ≤ j → j < i → ¬ shm.Readable t j) ∧
      shm.scanRing t n q =
        some (shm.addRef (shm.entry (t, cfg.slotOf i)).blockIdx, shm.slotRead t i) := by
  induction n generalizing q with
  | zero => exact Or.inl ⟨rfl, fun i hle hlt => absurd hlt (by omega)⟩
  | succ n ih =>
    by_cases hq : shm.Readable t q
    · refine Or.inr ⟨q, le_refl q, by omega, hq, fun j hle hlt => absurd hlt (by omega), ?_⟩
      rw [scanRing, tryReadSlotRaw_of_readable hq]
    · have hscan : shm.scanRing t (n + 1) q = shm.scanRing t n (q + 1) := by
        rw [scanRing, tryReadSlotRaw_of_not_readable hq]
      -- below `q + 1` there is only `q` itself
      have hfrom : ∀ j, q ≤ j → j ≠ q → q + 1 ≤ j := fun j hle hne => by omega
      rw [hscan]
      rcases ih (q + 1) with ⟨hnone, hall⟩ | ⟨i, hle, hlt, hread, hfirst, hsome⟩
      · refine Or.inl ⟨hnone, fun i hle hlt hread => ?_⟩
        by_cases hi : i = q
        · exact hq (hi ▸ hread)
        · exact hall i (hfrom i hle hi) (by omega) hread
      · refine Or.inr ⟨i, by omega, by omega, hread, fun j hle' hlt' hread' => ?_, hsome⟩
        by_cases hj : j = q
        · exact hq (hj ▸ hread')
        · exact hfirst j (hfrom j hle' hj) hlt' hread'

end Shm

/-- The lower end of the window that a scan looks at: `q` is in it when it is larger. -/
def Stream.behind (s : Stream cfg) (shm : Shm cfg) : Nat :=
  max s.lastSeq ((shm.topic s.topic).writeSeq - cfg.ringDepth)

/-- The window scan returns the first readable number of the window, or there is none. -/
theorem Stream.scan_spec (s : Stream cfg) (shm : Shm cfg) :
    (s.scan shm = none ∧ ∀ q, s.behind shm < q → q ≤ (shm.topic s.topic).writeSeq →
      ¬ shm.Readable s.topic q) ∨
    ∃ q, s.behind shm < q ∧ q ≤ (shm.topic s.topic).writeSeq ∧ shm.Readable s.topic q ∧
      (∀ q', s.behind shm < q' → q' < q → ¬ shm.Readable s.topic q') ∧
      s.scan shm =
        some (shm.addRef (shm.entry (s.topic, cfg.slotOf q)).blockIdx, shm.slotRead s.topic q) := by
  unfold scan behind
  dsimp only
  generalize (shm.topic s.topic).writeSeq = cur
  by_cases hcur : cur ≤ s.lastSeq
  · rw [if_pos hcur]
    exact Or.inl ⟨rfl, fun q hlow hhigh => absurd hhigh (by omega)⟩
  · rw [if_neg hcur]
    -- both starts of the scan are the number after the lower end of the window
    have hstart : (if cfg.ringDepth ≤ cur - (s.lastSeq + 1) then cur - cfg.ringDepth + 1
        else s.lastSeq + 1) = max s.lastSeq (cur - cfg.ringDepth) + 1 := by
      split <;> omega
    rw [hstart]
    generalize hlow : max s.lastSeq (cur - cfg.ringDepth) = low
    have hpos := cfg.ringDepth_pos
    have hle : low < cur := by omega
    rcases shm.scanRing_spec s.topic (cur + 1 - (low + 1)) (low + 1) with
      ⟨hnone, hall⟩ | ⟨q, hge, hlt, hread, hfirst, hsome⟩
    · exact Or.inl ⟨hnone, fun q h₁ h₂ => hall q h₁ (by omega)⟩
    · exact Or.inr ⟨q, hge, by omega, hread, hfirst, hsome⟩

/-- `q` is the first readable number of the window of `s`. -/
structure Stream.Next (s : Stream cfg) (shm : Shm cfg) (q : Nat) : Prop where
  above : s.behind shm < q
  le : q ≤ (shm.topic s.topic).writeSeq
  readable : shm.Readable s.topic q
  first : ∀ q', s.behind shm < q' → q' < q → ¬ shm.Readable s.topic q'

/-- The block in the ring entry of number `q`. -/
def Shm.blockAt (shm : Shm cfg) (t : cfg.Topic) (q : Nat) : Nat :=
  (shm.entry (t, cfg.slotOf q)).blockIdx

/-- The scan finds the first readable number. -/
theorem Stream.scan_of_next {s : Stream cfg} {shm : Shm cfg} {q : Nat} (h : s.Next shm q) :
    s.scan shm = some (shm.addRef (shm.blockAt s.topic q), shm.slotRead s.topic q) := by
  rcases s.scan_spec shm with ⟨_, hall⟩ | ⟨q', hlow, _, hread, hfirst, hsome⟩
  · exact absurd h.readable (hall q h.above h.le)
  · -- neither of the two first numbers is below the other
    have heq : q' = q := by
      rcases Nat.lt_trichotomy q' q with hlt | heq | hgt
      · exact absurd hread (h.first q' hlow hlt)
      · exact heq
      · exact absurd h.readable (hfirst q h.above hgt)
    subst heq
    exact hsome

/-- `try_recv` returns the next readable number. -/
theorem Stream.tryRecv_of_next {s : Stream cfg} {shm : Shm cfg} {q : Nat} (h : s.Next shm q) :
    s.tryRecv shm = some (shm.addRef (shm.blockAt s.topic q), s.advance q,
      ⟨shm.blockAt s.topic q, (shm.entry (s.topic, cfg.slotOf q)).dataLen⟩) := by
  unfold tryRecv
  rw [s.scan_of_next h]
  rfl

/-- What the scan returns is the first readable message of the window. -/
theorem Stream.scan_inv {s : Stream cfg} {shm shm' : Shm cfg} {r : SlotRead}
    (h : s.scan shm = some (shm', r)) :
    ∃ q, s.Next shm q ∧ shm' = shm.addRef (shm.blockAt s.topic q) ∧
      r = shm.slotRead s.topic q := by
  rcases s.scan_spec shm with ⟨hnone, _⟩ | ⟨q, hlow, hle, hread, hfirst, hsome⟩
  · rw [hnone] at h
    cases h
  · rw [hsome] at h
    cases h
    exact ⟨q, ⟨hlow, hle, hread, hfirst⟩, rfl, rfl⟩

/-- A sample of `try_recv` is the first readable message of the window. -/
theorem Stream.tryRecv_inv {s s' : Stream cfg} {shm shm' : Shm cfg} {sample : Sample}
    (h : s.tryRecv shm = some (shm', s', sample)) :
    ∃ q, s.Next shm q ∧ shm' = shm.addRef (shm.blockAt s.topic q) ∧
      s' = s.advance q ∧
      sample = ⟨shm.blockAt s.topic q, (shm.entry (s.topic, cfg.slotOf q)).dataLen⟩ := by
  obtain ⟨⟨shm₁, r⟩, hscan, h⟩ := Option.map_eq_some_iff.mp h
  obtain ⟨q, hnext, rfl, rfl⟩ := Stream.scan_inv hscan
  cases h
  exact ⟨q, hnext, rfl, rfl, rfl⟩

/-- A sample of `try_recv_typed` likewise, for a type of the registered size. -/
theorem Stream.tryRecvTyped_inv {s s' : Stream cfg} {shm shm' : Shm cfg} {sample : Sample}
    {size : Nat} (h : s.tryRecvTyped size shm = some (shm', s', sample)) :
    (s.typeSize = 0 ∨ s.typeSize = size) ∧
    ∃ q, s.Next shm q ∧ shm' = shm.addRef (shm.blockAt s.topic q) ∧
      s' = s.advance q ∧ sample = ⟨shm.blockAt s.topic q, size⟩ := by
  obtain ⟨hsize, h⟩ := Option.ite_none_left_eq_some.mp h
  obtain ⟨⟨shm₁, r⟩, hscan, h⟩ := Option.map_eq_some_iff.mp h
  obtain ⟨q, hnext, rfl, rfl⟩ := Stream.scan_inv hscan
  cases h
  exact ⟨by omega, q, hnext, rfl, rfl, rfl⟩

/-! ### The calls that are made of others -/

/-- The way back of `onPublisher_inv`. -/
theorem onPublisher_eq {p : Publisher cfg} (hp : w.pubs[k]? = some (some p))
    (hborrow : p.borrow = none) (f : Publisher cfg → Shm cfg × Option (Publisher cfg)) :
    w.onPublisher k f = some { w with shm := (f p).1, pubs := w.pubs.set k (f p).2 } := by
  simp only [World.onPublisher, hp, hborrow]

/-- The world in which publisher `k` is `p`. -/
def World.withPub (w : World cfg) (k : Nat) (shm : Shm cfg) (p : Publisher cfg) : World cfg :=
  { w with shm := shm, pubs := w.pubs.set k (some p) }

/-- The publisher that is stored is read. -/
theorem withPub_pubs {p : Publisher cfg} {o : Option (Publisher cfg)} (hp : w.pubs[k]? = some o)
    (shm : Shm cfg) : (w.withPub k shm p).pubs[k]? = some (some p) := by
  obtain ⟨hlt, _⟩ := List.getElem?_eq_some_iff.mp hp
  show (w.pubs.set k (some p))[k]? = some (some p)
  rw [List.getElem?_set_self hlt]

/-- Publishing the loan of a publisher. -/
theorem step_publishLoan {p : Publisher cfg} {l : Loan cfg} (hp : w.pubs[k]? = some (some p))
    (hborrow : p.borrow = some l) :
    step w (.publishLoan k) =
      some (w.withPub k (l.publish w.shm { p with borrow := none }).1
        (l.publish w.shm { p with borrow := none }).2) := by
  simp only [step, World.onLoan, hp, hborrow, World.withPub]

/-- Dropping the loan of a publisher. -/
theorem step_dropLoan {p : Publisher cfg} {l : Loan cfg} (hp : w.pubs[k]? = some (some p))
    (hborrow : p.borrow = some l) :
    step w (.dropLoan k) = some (w.withPub k (l.drop w.shm) { p with borrow := none }) := by
  simp only [step, World.onLoan, hp, hborrow, World.withPub]

/-- Writing through the loan of a publisher. -/
theorem step_edit {p : Publisher cfg} {l l' : Loan cfg} {shm : Shm cfg} {e : Edit}
    (hp : w.pubs[k]? = some (some p)) (hborrow : p.borrow = some l)
    (hedit : l.edit w.shm e = some (shm, l')) :
    step w (.edit k e) = some (w.withPub k shm { p with borrow := some l' }) := by
  simp only [step, World.onLoan, hp, hborrow, hedit, Option.map_some, World.withPub]

/-- In `w₁` publisher `k` has a loan of this kind on topic `t`; the topic entries are those
    of `w`. -/
structure HasLoan (w w₁ : World cfg) (k : Nat) (kind : LoanKind) (t : cfg.Topic) : Prop where
  loan : ∃ p l, w₁.pubs[k]? = some (some p) ∧ p.borrow = some l ∧ l.kind = kind ∧ l.topic = t
  topic : w₁.shm.topic = w.shm.topic

/-- What `loan` and `loan_typed` do: the loan has failed, or it is there. -/
theorem loanWith_step (w : World cfg) (p : Publisher cfg) (kind : LoanKind) (len : Nat)
    (h : Handle cfg) :
    ∃ shm p₁ r, p.loanWith kind len w.shm h = (shm, p₁, r) ∧ p₁.borrow = p.borrow ∧
      (∀ e, r = .error e → keepLoan (p.loanWith kind len w.shm h) = (shm, some p₁)) ∧
      ∀ l, r = .ok l → keepLoan (p.loanWith kind len w.shm h) =
          (shm, some { p₁ with borrow := some l }) ∧ l.kind = kind ∧ l.topic = h.topicIdx ∧
        shm.topic = w.shm.topic := by
  obtain ⟨pool, lastFreed, cache, r, hloan, hkind⟩ := p.loanWith_shape w.shm kind len h
  refine ⟨_, _, r, hloan, rfl, ?_, ?_⟩
  · rintro e rfl
    simp only [keepLoan, hloan]
  · rintro l rfl
    obtain ⟨b, rfl⟩ := hkind l rfl
    refine ⟨?_, rfl, rfl, rfl⟩
    simp only [keepLoan, hloan]

/-- `Publisher::publish` is `loan`, `set_data`, and `publish` or, when the data does not fit,
    the drop of the loan; or only the failed `loan`. -/
theorem publish_expand {h : Handle cfg} {data : List UInt8}
    (hstep : step w (.publish k h data) = some w') :
    step w (.loan k h) = some w' ∨
    ∃ w₁ w₂, step w (.loan k h) = some w₁ ∧ step w₁ (.edit k (.setData data)) = some w₂ ∧
      HasLoan w w₂ k .untyped h.topicIdx ∧
      (step w₂ (.publishLoan k) = some w' ∨ step w₂ (.dropLoan k) = some w') := by
  obtain ⟨hactive, hstep⟩ := withHandle_inv hstep
  obtain ⟨p, hp, hborrow, rfl⟩ := onPublisher_inv hstep
  obtain ⟨shm, p₁, r, hloan, hborrow₁, herr, hok⟩ := loanWith_step w p .untyped 0 h
  have hloanStep : step w (.loan k h) = some { w with
      shm := (keepLoan (p.loan w.shm h)).1,
      pubs := w.pubs.set k (keepLoan (p.loan w.shm h)).2 } := by
    rw [step, World.withHandle, if_pos hactive]
    exact onPublisher_eq hp hborrow _
  rw [hborrow] at hborrow₁
  cases r with
  | error e =>
    left
    rw [hloanStep, Publisher.loan, herr e rfl]
    simp only [Publisher.publish, Publisher.loan, hloan]
  | ok l =>
    right
    obtain ⟨hkeep, hkind, htopic, hshm⟩ := hok l rfl
    rw [Publisher.loan, hkeep] at hloanStep
    have hdrop : { p₁ with borrow := none } = p₁ := by rw [← hborrow₁]
    have hedit : l.edit shm (.setData data) = some ((l.setData shm data).1,
        (l.setData shm data).2.1) := by
      rw [Loan.edit, if_neg (by rw [hkind]; nofun)]
    have hset := l.setData_edited shm data
    refine ⟨w.withPub k shm { p₁ with borrow := some l }, _, hloanStep,
      step_edit (withPub_pubs hp shm) rfl hedit,
      ⟨⟨_, _, withPub_pubs (withPub_pubs hp _) _, rfl, ?_⟩, ?_⟩, ?_⟩
    · obtain ⟨len, hlen⟩ := hset.loan
      rw [show (l.setData shm data).2.1 = _ from hlen]
      exact ⟨hkind, htopic⟩
    · obtain ⟨bytes, hbytes⟩ := hset.data
      show (l.setData shm data).1.topic = w.shm.topic
      rw [show (l.setData shm data).1 = _ from hbytes]
      exact hshm
    rw [step_publishLoan (withPub_pubs (withPub_pubs hp _) _) rfl,
      step_dropLoan (withPub_pubs (withPub_pubs hp _) _) rfl]
    simp only [hdrop, World.withPub, List.set_set, Publisher.publish, Publisher.loan, hloan]
    rcases hset : l.setData shm data with ⟨shm₂, l₂, e | u⟩
    · exact Or.inr rfl
    · exact Or.inl rfl

/-- `Publisher::publish_typed` is `loan_typed`, writing the value, and `publish`; or only the
    failed `loan_typed`. -/
theorem publishTyped_expand {h : Handle cfg} {size : Nat} {value : Ring.Payload}
    (hstep : step w (.publishTyped k h size value) = some w') :
    step w (.loanTyped k h size) = some w' ∨
    ∃ w₁ w₂, step w (.loanTyped k h size) = some w₁ ∧
      step w₁ (.edit k (.fill value)) = some w₂ ∧ HasLoan w w₂ k .typed h.topicIdx ∧
      step w₂ (.publishLoan k) = some w' := by
  obtain ⟨hsize, hstep⟩ := Option.ite_none_right_eq_some.mp hstep
  obtain ⟨hactive, hstep⟩ := withHandle_inv hstep
  obtain ⟨p, hp, hborrow, rfl⟩ := onPublisher_inv hstep
  obtain ⟨shm, p₁, r, hloan, hborrow₁, herr, hok⟩ := loanWith_step w p .typed size h
  have hloanStep : step w (.loanTyped k h size) = some { w with
      shm := (keepLoan (p.loanTyped size w.shm h)).1
      pubs := w.pubs.set k (keepLoan (p.loanTyped size w.shm h)).2 } := by
    rw [step, if_pos hsize, World.withHandle, if_pos hactive]
    exact onPublisher_eq hp hborrow _
  rw [hborrow] at hborrow₁
  cases r with
  | error e =>
    left
    rw [hloanStep, Publisher.loanTyped, herr e rfl]
    simp only [Publisher.publishTyped, Publisher.loanTyped, hloan]
  | ok l =>
    right
    obtain ⟨hkeep, hkind, htopic, hshm⟩ := hok l rfl
    rw [Publisher.loanTyped, hkeep] at hloanStep
    have hdrop : { p₁ with borrow := none } = p₁ := by rw [← hborrow₁]
    have hedit : l.edit shm (.fill value) = some (l.fill shm value, l) := rfl
    refine ⟨w.withPub k shm { p₁ with borrow := some l }, _, hloanStep,
      step_edit (withPub_pubs hp shm) rfl hedit,
      ⟨⟨_, l, withPub_pubs (withPub_pubs hp _) _, rfl, hkind, htopic⟩, hshm⟩, ?_⟩
    rw [step_publishLoan (withPub_pubs (withPub_pubs hp _) _) rfl]
    simp only [hdrop, World.withPub, List.set_set, Publisher.publishTyped, Publisher.loanTyped,
      hloan]

end Crossbar.Region
