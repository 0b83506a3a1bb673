import Crossbar.Region.Delivery

namespace Crossbar.Region

open Crossbar.Lib Crossbar.Pool

/-!
# Region — the typed round trip

`register_typed`, `subscribe`, `publish_typed` and `try_recv_typed` after any registrations.
The size of the type is written when the topic entry is claimed, and `register_inner` returns
an existing entry without looking at it:

* `registerTyped_ok` — the entry that `register_typed` returns is the one `subscribe` finds;
* `publishTyped_ok` — what `publish_typed` leaves in the log;
* `typed_round_trip` — the value comes back exactly when an entry that is there already has no
  type size or the size of the type;
* `other_size_not_received` — after a registration with another size it does not.
-/

variable {cfg : ValidConfig} {w w' : World cfg}

/-- `register_typed::<T>`, `subscribe`, `publish_typed::<T>` and `try_recv_typed::<T>`, for a
    type of this size and alignment and a value with these bytes, by publisher `k`.  `none`
    when one of the first three fails; otherwise what the last returns. -/
def typedTrip (w : World cfg) (k : Nat) (uri : List UInt8) (size align : Nat)
    (value : Ring.Payload) : Option (Option (List UInt8)) :=
  match w.pubs[k]? with
  | some (some p) =>
    match w.shm.registerTyped p.id uri size align with
    | (_, .error _) => none
    | (shm, .ok h) =>
      match shm.subscribe uri with
      | .error _ => none
      | .ok s =>
        match p.publishTyped size shm h value with
        | (_, _, .error _) => none
        | (shm, _, .ok _) =>
          some ((s.tryRecvTyped size shm).map fun (shm, _, sample) => shm.bytes sample)
  | _ => none

/-! ### Registration -/

section

variable {shm shm' : Shm cfg} {t : cfg.Topic} {uri : List UInt8}

/-- What the lookup finds is active and has the URI. -/
theorem findTopic_some (h : shm.findTopic uri = some t) :
    (shm.topic t).active = true ∧ (shm.topic t).uri = uri := by
  have hmatch := List.find?_some h
  simp only [Bool.and_eq_true, beq_iff_eq] at hmatch
  exact ⟨hmatch.1.1, hmatch.2⟩

/-- A claimed entry is the one that the lookup finds afterwards. -/
theorem findTopic_claimed (t : cfg.Topic) (typeSize : Nat) (hnew : shm.findTopic uri = none) :
    (shm.setTopic t ((shm.topic t).claimed uri typeSize)).findTopic uri = some t := by
  unfold Shm.findTopic at hnew ⊢
  rw [List.find?_eq_none] at hnew
  cases hfind : (List.finRange cfg.maxTopics).find? _ with
  | none =>
    have hself := List.find?_eq_none.mp hfind t (List.mem_finRange t)
    simp [Shm.setTopic, TopicEntry.claimed] at hself
  | some j =>
    have hmatch := List.find?_some hfind
    by_cases hj : j = t
    · rw [hj]
    · -- another entry is as it was, and did not match
      simp only [Shm.setTopic, Function.update_of_ne hj] at hmatch
      exact absurd hmatch (hnew j (List.mem_finRange j))

/-- `register_typed` returns the entry that `subscribe` finds: the one that had the URI, with the
    region as it was, or a new one with the size of the type. -/
theorem registerTyped_ok {id size align : Nat} {h : Handle cfg}
    (hreg : shm.registerTyped id uri size align = (shm', .ok h)) :
    shm'.findTopic uri = some h.topicIdx ∧ h.publisherId = id ∧
      ((shm.findTopic uri = some h.topicIdx ∧ shm' = shm) ∨
        (shm.findTopic uri = none ∧ (shm'.topic h.topicIdx).typeSize = wrap32 size)) := by
  unfold Shm.registerTyped Shm.registerInner at hreg
  split at hreg
  · cases hreg
  · split at hreg
    · cases hreg
    · cases hfind : shm.findTopic uri with
      | some t =>
        rw [hfind] at hreg
        cases hreg
        exact ⟨hfind, rfl, Or.inl ⟨rfl, rfl⟩⟩
      | none =>
        cases hfree : shm.freeTopic with
        | none =>
          rw [hfind, hfree] at hreg
          cases hreg
        | some t =>
          simp only [hfind, hfree] at hreg
          cases hreg
          refine ⟨findTopic_claimed t (wrap32 size) hfind, rfl, Or.inr ⟨rfl, ?_⟩⟩
          simp [Shm.setTopic]

end

/-! ### Publishing a value -/

/-- A successful `publish_typed` logs the value under the next number of the topic. -/
theorem publishTyped_ok {shm shm' : Shm cfg} {p p' : Publisher cfg} {h : Handle cfg} {size : Nat}
    {value : Ring.Payload} (hpub : p.publishTyped size shm h value = (shm', p', .ok ())) :
    (shm'.topic h.topicIdx).writeSeq = shm.nextSeq h.topicIdx ∧
      ∃ c, shm'.log h.topicIdx (shm.nextSeq h.topicIdx) = some c ∧ c.dataLen = size ∧
        ∀ i < size, c.bytes i = value i := by
  obtain ⟨pool, lastFreed, cache, r, hloan, hkind⟩ := p.loanWith_shape shm .typed size h
  unfold Publisher.publishTyped Publisher.loanTyped at hpub
  rw [hloan] at hpub
  cases r with
  | error e => cases hpub
  | ok l =>
    obtain ⟨b, rfl⟩ := hkind l rfl
    simp only [Prod.mk.injEq] at hpub
    obtain ⟨rfl, -, -⟩ := hpub
    rw [Loan.publish_ring (show LoanKind.typed ≠ .pinned by decide)]
    obtain ⟨⟨pool', rc, hshape⟩, _⟩ := commitToRing_shape
      (Loan.fill ⟨.typed, h.topicIdx, b, size⟩ { shm with pool := pool } value)
      { p with lastFreed := lastFreed, cache := cache } b size h.topicIdx
    rw [hshape]
    refine ⟨?_, _, Shm.storeEntry_log_self .., rfl, fun i hi => ?_⟩
    · show (Shm.topic (Shm.storeEntry _ h.topicIdx b size) h.topicIdx).writeSeq = _
      rw [Shm.storeEntry_topic_self]
      rfl
    · simp [Loan.fill, Loan.room, hi]

/-! ### After registrations -/

/-- `open`, `register` and `register_typed`. -/
def Act.registers : Act cfg → Bool
  | .open _ => true
  | .register .. => true
  | .registerTyped .. => true
  | _ => false

theorem fits_of_registers {a : Act cfg} (ha : a.registers = true) : Fits w a := by
  cases a with
  | «open» | register | registerTyped => exact ⟨trivial, trivial⟩
  | _ => cases ha

/-- Nothing has been loaned or published. -/
structure World.Unused (w : World cfg) : Prop where
  idle : ∀ p, some p ∈ w.pubs → p.borrow = none
  seq : ∀ t, (w.shm.topic t).writeSeq = 0

theorem registerInner_seq {shm : Shm cfg} (hseq : ∀ t, (shm.topic t).writeSeq = 0) (id : Nat)
    (uri : List UInt8) (typeSize : Nat) (t : cfg.Topic) :
    ((shm.registerInner id uri typeSize).1.topic t).writeSeq = 0 := by
  unfold Shm.registerInner
  split
  · exact hseq t
  · split
    · exact hseq t
    · split
      · rename_i t' _
        by_cases ht : t = t'
        · simp [Shm.setTopic, ht]
        · simp only [Shm.setTopic, Function.update_of_ne ht]
          exact hseq t
      · exact hseq t

/-- A registration by a publisher that is not changed. -/
theorem unused_register {k : Nat} {f : Publisher cfg → Shm cfg} (h : w.Unused)
    (hf : ∀ p t, ((f p).topic t).writeSeq = 0)
    (hstep : w.onPublisher k (fun p => (f p, some p)) = some w') : w'.Unused := by
  obtain ⟨p, hp, hborrow, rfl⟩ := onPublisher_inv hstep
  refine ⟨fun p' hp' => ?_, hf p⟩
  rcases List.mem_or_eq_of_mem_set hp' with hold | heq
  · exact h.idle p' hold
  · cases Option.some.inj heq
    exact hborrow

theorem unused_step {a : Act cfg} (h : w.Unused) (ha : a.registers = true)
    (hstep : step w a = some w') : w'.Unused := by
  cases a with
  | «open» id =>
    cases hstep
    refine ⟨fun p hp => ?_, h.seq⟩
    rcases List.mem_append.mp hp with hold | hnew
    · exact h.idle p hold
    · cases Option.some.inj (List.mem_singleton.mp hnew)
      rfl
  | register k uri =>
    exact unused_register h (fun p t => registerInner_seq h.seq p.id uri 0 t) hstep
  | registerTyped k uri size align =>
    refine unused_register h (fun p t => ?_) hstep
    unfold Shm.registerTyped
    split
    · exact h.seq t
    · exact registerInner_seq h.seq p.id uri (wrap32 size) t
  | _ => cases ha

/-- Registrations leave the region unused, and its invariants hold. -/
theorem unused_run {id : Nat} {as : List (Act cfg)}
    (hrun : Run step (fun _ a => a.registers = true) (create cfg id) as w) :
    w.Unused ∧ w.Sound := by
  refine ⟨hrun.invariant ⟨fun p hp => ?_, fun _ => rfl⟩
    (fun _ _ _ h ha hstep => unused_step h ha hstep),
    sound_run (hrun.mono fun _ _ => fits_of_registers)⟩
  cases Option.some.inj (List.mem_singleton.mp hp)
  rfl

/-- A stream at the last number receives what is published next. -/
theorem tryRecvTyped_next {s : Stream cfg} {c : Ring.Claim} {size : Nat} (h : w.Sound)
    (hsize : s.typeSize = 0 ∨ s.typeSize = size)
    (hseq : (w.shm.topic s.topic).writeSeq = s.lastSeq + 1)
    (hc : w.shm.log s.topic (s.lastSeq + 1) = some c) :
    (s.tryRecvTyped size w.shm).map (fun (shm, _, sample) => shm.bytes sample) =
      some ((List.range size).map c.bytes) := by
  have hpos := cfg.ringDepth_pos
  have hbehind : s.behind w.shm = s.lastSeq := by
    unfold Stream.behind
    omega
  have hwindow : (w.shm.topic s.topic).writeSeq - cfg.ringDepth < s.lastSeq + 1 := by omega
  have href := h.referenced s (s.lastSeq + 1) c (by omega) hc
  have hnext : s.Next w.shm (s.lastSeq + 1) :=
    ⟨by omega, by omega, (h.log.readable_iff hwindow).mpr ⟨c, hc, href.1⟩,
      fun q' hlow hlt => absurd hlow (by omega)⟩
  have hkept := h.log.kept s.topic _ c hc (by omega)
  rw [Stream.tryRecvTyped, if_neg (by omega), Stream.scan_of_next hnext]
  simp only [Option.map_some, Shm.slotRead, Shm.bytes, hkept]
  show some ((List.range size).map (w.shm.data c.blockIdx)) = _
  rw [h.log.data_eq hc hwindow]

/-- A stream whose topic has another type size receives nothing. -/
theorem tryRecvTyped_other {s : Stream cfg} {size : Nat} (shm : Shm cfg)
    (hsize : ¬(s.typeSize = 0 ∨ s.typeSize = size)) : s.tryRecvTyped size shm = none := by
  rw [Stream.tryRecvTyped, if_pos (by omega)]

/-- The type size that a stream takes from the entry `register_typed` returns is right exactly
    when that of an entry that had the URI before is. -/
theorem typeSize_registered {shm shm' : Shm cfg} {id size align : Nat} {uri : List UInt8}
    {h : Handle cfg} (hreg : shm.registerTyped id uri size align = (shm', .ok h))
    (hcap : size ≤ cfg.dataCapacity) :
    ((shm'.topic h.topicIdx).typeSize = 0 ∨ (shm'.topic h.topicIdx).typeSize = size) ↔
      ∀ t, shm.findTopic uri = some t →
        (shm.topic t).typeSize = 0 ∨ (shm.topic t).typeSize = size := by
  obtain ⟨_, _, ⟨hold, rfl⟩ | ⟨hnone, hnew⟩⟩ := registerTyped_ok hreg
  · constructor
    · intro htype t ht
      rw [hold] at ht
      cases ht
      exact htype
    · intro hsame
      exact hsame h.topicIdx hold
  · have hlt := cfg.blockSize_lt
    unfold ValidConfig.dataCapacity at hcap
    rw [wrap32_of_lt (by omega)] at hnew
    constructor
    · intro _ t ht
      rw [hnone] at ht
      cases ht
    · intro _
      exact Or.inr hnew

/-- The four calls, one after the other. -/
theorem typedTrip_inv {k : Nat} {uri : List UInt8} {size align : Nat} {value : Ring.Payload}
    {r : Option (List UInt8)} (htrip : typedTrip w k uri size align value = some r) :
    ∃ p shm₁ h s shm₂ p₂, w.pubs[k]? = some (some p) ∧
      w.shm.registerTyped p.id uri size align = (shm₁, .ok h) ∧ shm₁.subscribe uri = .ok s ∧
      p.publishTyped size shm₁ h value = (shm₂, p₂, .ok ()) ∧
      r = (s.tryRecvTyped size shm₂).map fun (shm, _, sample) => shm.bytes sample := by
  unfold typedTrip at htrip
  split at htrip
  · rename_i p hp
    split at htrip
    · cases htrip
    · rename_i shm₁ h hreg
      split at htrip
      · cases htrip
      · rename_i s hsub
        split at htrip
        · cases htrip
        · rename_i shm₂ p₂ _ hpub
          exact ⟨p, shm₁, h, s, shm₂, p₂, hp, hreg, hsub, hpub, (Option.some.inj htrip).symm⟩
  · cases htrip

/-- A stream that subscribes after registrations is at number 0 and has the type size of the
    entry. -/
theorem subscribe_unused {uri : List UInt8} {t : cfg.Topic} {s : Stream cfg} (h : w.Unused)
    (hfind : w.shm.findTopic uri = some t) (hsub : w.shm.subscribe uri = .ok s) :
    s = ⟨t, 0, (w.shm.topic t).typeSize, []⟩ := by
  unfold Shm.subscribe at hsub
  rw [hfind] at hsub
  cases hsub
  rw [h.seq t]

/-- `register_typed` as a step. -/
theorem registerTyped_step {k size align : Nat} {p : Publisher cfg} {uri : List UInt8}
    {shm : Shm cfg} {h : Handle cfg} (hp : w.pubs[k]? = some (some p)) (hborrow : p.borrow = none)
    (hreg : w.shm.registerTyped p.id uri size align = (shm, .ok h)) :
    step w (.registerTyped k uri size align) = some (w.withPub k shm p) := by
  show w.onPublisher k _ = _
  rw [onPublisher_eq hp hborrow, hreg]
  rfl

/-- `publish_typed` as a step. -/
theorem publishTyped_step {k size : Nat} {p p' : Publisher cfg} {value : Ring.Payload}
    {shm : Shm cfg} {h : Handle cfg} (hp : w.pubs[k]? = some (some p)) (hborrow : p.borrow = none)
    (hcap : size ≤ cfg.dataCapacity) (hactive : (w.shm.topic h.topicIdx).active = true)
    (hpub : p.publishTyped size w.shm h value = (shm, p', .ok ())) :
    step w (.publishTyped k h size value) = some (w.withPub k shm p') := by
  rw [step, if_pos hcap, World.withHandle, if_pos hactive, onPublisher_eq hp hborrow]
  simp only [hpub]
  rfl

/-- The first publish overflows no counter. -/
theorem World.Unused.fits (hunused : w.Unused) (k : Nat) (h : Handle cfg) (size : Nat)
    (value : Ring.Payload) : Fits w (.publishTyped k h size value) := by
  refine ⟨trivial, fun t => ?_⟩
  rw [hunused.seq t]
  norm_num

/-- **Typed round trip.** After any registrations on the region, when `register_typed::<T>`,
    `subscribe` and `publish_typed::<T>` succeed for a type that fits in a block, the next
    `try_recv_typed::<T>` returns the value that was published, exactly when an entry that
    had the URI before has no type size or that of the type. -/
theorem typed_round_trip {id : Nat} {as : List (Act cfg)}
    (hrun : Run step (fun _ a => a.registers = true) (create cfg id) as w) {k : Nat}
    {uri : List UInt8} {size align : Nat} (hcap : size ≤ cfg.dataCapacity)
    {value : Ring.Payload} {r : Option (List UInt8)}
    (htrip : typedTrip w k uri size align value = some r) :
    r = some ((List.range size).map value) ↔
      ∀ t, w.shm.findTopic uri = some t →
        (w.shm.topic t).typeSize = 0 ∨ (w.shm.topic t).typeSize = size := by
  obtain ⟨hunused, hsound⟩ := unused_run hrun
  obtain ⟨p, shm₁, h, s, shm₂, p₂, hp, hreg, hsub, hpub, rfl⟩ := typedTrip_inv htrip
  have hborrow := hunused.idle p (List.mem_of_getElem? hp)
  obtain ⟨hfind, _, _⟩ := registerTyped_ok hreg
  -- the world after the registration
  have hstep₁ := registerTyped_step hp hborrow hreg
  have hunused₁ := unused_step hunused rfl hstep₁
  have hsound₁ := sound_step hsound (fits_of_registers rfl) hstep₁
  have hstream : s = ⟨h.topicIdx, 0, (shm₁.topic h.topicIdx).typeSize, []⟩ :=
    subscribe_unused hunused₁ hfind hsub
  have htype : (shm₁.topic h.topicIdx).typeSize = s.typeSize := by rw [hstream]
  rw [← typeSize_registered hreg hcap, htype]
  constructor
  · -- a stream with another type size returns before it looks at the ring
    intro hr
    by_contra hother
    rw [tryRecvTyped_other shm₂ hother] at hr
    cases hr
  intro hright
  -- the world after the publish
  have hnext : shm₁.nextSeq h.topicIdx = 1 := by
    unfold Shm.nextSeq
    rw [show (shm₁.topic h.topicIdx).writeSeq = 0 from hunused₁.seq h.topicIdx]
    rfl
  have hstep₂ := publishTyped_step (w := w.withPub k shm₁ p) (withPub_pubs hp shm₁) hborrow hcap
    (findTopic_some hfind).1 hpub
  have hsound₂ := sound_step hsound₁ (hunused₁.fits k h size value) hstep₂
  obtain ⟨hseq, c, hlog, hlen, hbytes⟩ := publishTyped_ok hpub
  rw [hnext] at hseq hlog
  have hrecv := tryRecvTyped_next (s := s) (c := c) hsound₂ hright (by rw [hstream]; exact hseq)
    (by rw [hstream]; exact hlog)
  refine hrecv.trans (congrArg some (List.map_congr_left fun i hi => ?_))
  exact hbytes i (List.mem_range.mp hi)

/-- The region after these registrations by two publishers: the URI with a type of 4 bytes,
    twice, and another URI. -/
def registeredTwice : List (Act twoSlots) :=
  [.registerTyped 0 [47] 4 4, .open 6, .registerTyped 1 [47] 4 4, .register 1 [48]]

/-- A value of 4 bytes comes back. -/
theorem typed_round_trip_registered : ∃ w : World twoSlots,
    Run step (fun _ a => a.registers = true) (create twoSlots 5) registeredTwice w ∧
    ∃ r, typedTrip w 1 [47] 4 4 (fun i => .ofNat (i + 1)) = some r ∧ r = some [1, 2, 3, 4] := by
  obtain ⟨w, hrun, hsome, hsize⟩ := exists_run_of_exec step (fun _ a => a.registers = true)
    (s := create twoSlots 5) (l := registeredTwice)
    (p := fun w => (typedTrip w 1 [47] 4 4 (fun i => .ofNat (i + 1))).isSome = true ∧
      ∀ t ∈ w.shm.findTopic [47], (w.shm.topic t).typeSize = 4) (by decide +kernel)
  obtain ⟨r, hr⟩ := Option.isSome_iff_exists.mp hsome
  exact ⟨w, hrun, r, hr, (typed_round_trip hrun (by decide) hr).mpr
    (fun t ht => Or.inr (hsize t ht))⟩

/-- **Another size is not received.** After `register_typed` of the URI for a type of 4 bytes,
    the four calls for a type of 8 bytes: the first three succeed, `try_recv_typed` returns
    `None`. -/
theorem other_size_not_received : ∃ w : World oneSlot,
    Run step (fun _ a => a.registers = true) (create oneSlot 5) [.registerTyped 0 [47] 4 4] w ∧
    8 ≤ oneSlot.dataCapacity ∧ typedTrip w 0 [47] 8 8 (fun _ => 0) = some none :=
  exists_run_of_exec _ _ (by decide +kernel)

end Crossbar.Region
