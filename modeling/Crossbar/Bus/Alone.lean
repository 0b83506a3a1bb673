import Crossbar.Lib.Scan
import Crossbar.Bus.Seqlock
import Crossbar.Bus.Whole

namespace Crossbar.Bus

open Function Crossbar.Lib

/-!
# Bus — one call alone

A call of `Crossbar.Bus.Model` with nothing between its steps is the call of
`Crossbar.Bus.Whole`: it comes to its end, with the same bus and the same result.

* `State.bus`, `Sub.whole` — the bus and a subscriber as the whole calls see them;
* `Alone` — only one agent takes steps;
* `tryPublish_alone`, `tryRecv_alone`, `connect_alone`, `drop_alone` — the four calls.
-/

variable {cfg : BusConfig} {W S : Type}

/-! ### The bus between calls -/

/-- The parameters that the two models share. -/
abbrev BusConfig.params (cfg : BusConfig) : Whole.Params where
  ringSize := cfg.ringSize
  watermark := cfg.watermark
  ringSize_lt := Nat.lt_trans cfg.ringSize_lt (Nat.pow_lt_pow_right Nat.one_lt_two (by omega))
  ringSize_pow := cfg.ringSize_pow
  watermark_lt := cfg.watermark_lt

namespace State

variable (st : State cfg W S)

/-- The bus as the whole calls see it. -/
def bus : Whole.Bus cfg.params (cfg.Value W) where
  writeSeq := st.mem.writeSeq
  ring j := ⟨(st.mem.ring j).stamp, (st.mem.ring j).data⟩
  slots := st.slots
  cachedSlowest := st.cachedSlowest

/-- The publisher has returned, and left the bus `b`. -/
def setBus (b : Whole.Bus cfg.params (cfg.Value W)) (log : List (cfg.Value W)) :
    State cfg W S :=
  { st with
    mem := ⟨b.writeSeq, fun j => ⟨(b.ring j).stamp, (b.ring j).value⟩, log⟩
    slots := b.slots
    cachedSlowest := b.cachedSlowest
    pub := .idle }

/-- What `try_publish` leaves. -/
def returned (v : cfg.Value W) :
    Whole.Bus cfg.params (cfg.Value W) × Except Whole.Error Unit → State cfg W S
  | (b, .ok _) => st.setBus b (st.mem.log ++ [v])
  | (b, .error _) => st.setBus b st.mem.log

end State

/-- The subscriber as the whole calls see it. -/
def Sub.whole (m : Sub cfg W) (pid : Nat) : Whole.Subscriber :=
  ⟨pid, m.cursor, m.totalLagged, m.slotIndex⟩

section

variable [Inhabited W] [DecidableEq S]

/-- The agent of `a` takes some steps while nobody else does. -/
def Alone (pid : S → Nat) (a : Act cfg W S) (st st' : State cfg W S) : Prop :=
  Repeats (step pid) (fun _ _ => True) a st st'

variable {pid : S → Nat} {st st' : State cfg W S}

/-! ### `publish_unchecked` -/

/-- One operation of the write. -/
theorem Alone.write {v : cfg.Value W} {pc pc' : WritePc cfg} {mem mem' : Mem cfg W}
    (hst : writeStep mem v pc = (mem', some pc'))
    (h : Alone pid .pub { st with mem := mem', pub := .write v pc' } st') :
    Alone pid .pub { st with mem := mem, pub := .write v pc } st' := by
  refine Repeats.head trivial ?_ h
  simp only [step, pubStep, hst]

/-- The words of the value. -/
theorem Alone.words {v : cfg.Value W} {stamp : Nat} {k : Nat} (hk : k ≤ cfg.words)
    (h : Alone pid .pub { st with
      mem := st.mem.store ⟨stamp, v⟩, pub := .write v (.markEven st.mem.writeSeq) } st') :
    ∀ data : cfg.Value W, (∀ k' : Fin cfg.words, k'.val < k → data k' = v k') →
      Alone pid .pub { st with
        mem := st.mem.store ⟨stamp, data⟩, pub := .write v (.next st.mem.writeSeq k) } st' := by
  -- backward from the last word; the words below `k` are those of `v` already
  refine scan_induction ?_ (fun k ih => ?_) hk
  · intro data hdata
    obtain rfl : data = v := funext fun k' => hdata k' k'.isLt
    rw [WritePc.next, dif_neg (Nat.lt_irrefl _)]
    exact h
  · intro data hdata
    rw [WritePc.next, dif_pos k.isLt]
    refine Alone.write ?_ (ih (update data k (v k)) fun k' hk' => ?_)
    · simp only [writeStep, Mem.setWord, Mem.store, update_self, update_idem]
    · by_cases heq : k' = k
      · rw [heq, update_self]
      · rw [update_of_ne heq]
        exact hdata k' (by omega)

omit [Inhabited W] [DecidableEq S] in
/-- The ring with one slot written, on both sides. -/
theorem ring_update (st : State cfg W S) (j : Fin cfg.ringSize) (stamp : Nat) (v : cfg.Value W) :
    (fun j' => (⟨(update st.bus.ring j ⟨stamp, v⟩ j').stamp,
      (update st.bus.ring j ⟨stamp, v⟩ j').value⟩ : RingSlot cfg W)) =
      update st.mem.ring j ⟨stamp, v⟩ :=
  comp_update (fun x : Whole.Slot (cfg.Value W) => (⟨x.stamp, x.value⟩ : RingSlot cfg W))
    st.bus.ring j ⟨stamp, v⟩

/-- `publish_unchecked`. -/
theorem publishUnchecked_alone (st : State cfg W S) (v : cfg.Value W) :
    Alone pid .pub { st with pub := .write v .load }
      (st.returned v (st.bus.publishUnchecked v, .ok ())) := by
  have hend : st.returned v (st.bus.publishUnchecked v, .ok ()) = { st with
      mem := ⟨wrap64 (st.mem.writeSeq + 1),
        (st.mem.store ⟨wrap64 (st.mem.writeSeq * 2 + 2), v⟩).ring, st.mem.log ++ [v]⟩
      pub := .idle } := by
    show st.setBus _ _ = _
    unfold State.setBus
    congr 2
    exact ring_update st _ _ v
  -- the operations from the last one to the first
  have hadvance : Alone pid .pub { st with
      mem := st.mem.store ⟨wrap64 (st.mem.writeSeq * 2 + 2), v⟩
      pub := .write v (.advance st.mem.writeSeq) }
      (st.returned v (st.bus.publishUnchecked v, .ok ())) := by
    refine Repeats.head trivial ?_ (Repeats.refl _)
    rw [hend]
    rfl
  have heven : writeStep (st.mem.store ⟨wrap64 (st.mem.writeSeq * 2 + 1), v⟩) v
      (.markEven st.mem.writeSeq) =
      (st.mem.store ⟨wrap64 (st.mem.writeSeq * 2 + 2), v⟩, some (.advance st.mem.writeSeq)) := by
    simp only [writeStep, Mem.setStamp, Mem.store, update_self, update_idem]
  have hwords := Alone.words (Nat.zero_le _) (Alone.write heven hadvance)
    (st.mem.ring (cfg.slotOf st.mem.writeSeq)).data
    (fun k' hk' => absurd hk' (Nat.not_lt_zero _))
  have hodd : Alone pid .pub { st with pub := .write v (.markOdd st.mem.writeSeq) }
      (st.returned v (st.bus.publishUnchecked v, .ok ())) := Alone.write rfl hwords
  exact Alone.write rfl hodd

/-! ### `try_publish` -/

section

variable {v : cfg.Value W} {w : Nat} {sc : Scan} {slots : SlotIdx → SubSlot}

omit [Inhabited W] [DecidableEq S] in
/-- The next slot does not depend on where the publisher was. -/
theorem scanNext_pub (st : State cfg W S) (pub : PubPc cfg W) (effective : Nat) :
    scanNext { st with pub := pub } effective v sc = scanNext st effective v sc := by
  unfold scanNext scanEnd
  split
  · rfl
  · split <;> rfl

/-- One operation at a slot. -/
theorem Alone.visit {slots' : SlotIdx → SubSlot} {pc pc' : VisitPc} (hw : cfg.watermark = some w)
    (hv : visitStep slots st.now st.alive sc pc = (slots', .stay pc'))
    (h : Alone pid .pub { st with slots := slots', pub := .scan v sc pc' } st') :
    Alone pid .pub { st with slots := slots, pub := .scan v sc pc } st' := by
  refine Repeats.head trivial ?_ h
  simp only [step, pubStep, hw, hv]

/-- The last operation at a slot. -/
theorem Alone.visited {slots' : SlotIdx → SubSlot} {sc' : Scan} {pc : VisitPc}
    (hw : cfg.watermark = some w)
    (hv : visitStep slots st.now st.alive sc pc = (slots', .done sc'))
    (h : Alone pid .pub (scanNext { st with slots := slots' } (cfg.ringSize - w) v sc') st') :
    Alone pid .pub { st with slots := slots, pub := .scan v sc pc } st' := by
  refine Repeats.head trivial ?_ h
  simp only [step, pubStep, hw, hv]
  exact congrArg some (scanNext_pub { st with slots := slots' } _ _)

/-- The scan with the locals of the whole call. -/
def Scan.with (sc : Scan) (t : Whole.Tally) : Scan :=
  { sc with minCursor := t.minCursor, hasActive := t.hasActive }

/-- Freeing a slot takes two stores. -/
theorem setPidAt_free (slots : SlotIdx → SubSlot) (i : SlotIdx) :
    setPidAt (setWordAt slots i .free) i 0 = update slots i ⟨0, .free⟩ := by
  unfold setPidAt setWordAt
  rw [update_self, update_idem]

/-- One slot. -/
theorem Alone.slot (hw : cfg.watermark = some w)
    (h : Alone pid .pub (scanNext { st with
        slots := (Whole.visit st.now st.alive ⟨slots, sc.minCursor, sc.hasActive⟩ sc.i).slots }
      (cfg.ringSize - w) v
      (sc.with (Whole.visit st.now st.alive ⟨slots, sc.minCursor, sc.hasActive⟩ sc.i))) st') :
    Alone pid .pub { st with slots := slots, pub := .scan v sc .word } st' := by
  unfold Whole.visit at h
  cases hword : (slots sc.i).word with
  | free =>
    simp only [hword] at h
    have hskip : visitStep slots st.now st.alive sc .word = (slots, .done sc) := by
      simp only [visitStep, hword]
    exact Alone.visited hw hskip h
  | claiming ts =>
    simp only [hword] at h
    have hclaim : visitStep slots st.now st.alive sc .word = (slots, .stay (.clock ts)) := by
      simp only [visitStep, hword]
    refine Alone.visit hw hclaim ?_
    by_cases hold : st.now - ts > claimTimeout
    · simp only [if_pos hold] at h
      have hprune : visitStep slots st.now st.alive sc (.clock ts) =
          (slots, .stay (.pruneClaim ts)) := by
        simp only [visitStep, if_pos hold]
      have hfree : visitStep slots st.now st.alive sc (.pruneClaim ts) =
          (setWordAt slots sc.i .free, .stay .clearPid) := by
        simp only [visitStep, if_pos hword]
      refine Alone.visit hw hprune (Alone.visit hw hfree (Alone.visited hw rfl ?_))
      rw [setPidAt_free]
      exact h
    · simp only [if_neg hold] at h
      have hyoung : visitStep slots st.now st.alive sc (.clock ts) = (slots, .done sc) := by
        simp only [visitStep, if_neg hold]
      exact Alone.visited hw hyoung h
  | active c =>
    simp only [hword] at h
    have hload : visitStep slots st.now st.alive sc .word = (slots, .stay (.loadPid c)) := by
      simp only [visitStep, hword]
    have hpid : visitStep slots st.now st.alive sc (.loadPid c) =
        (slots, .stay (.checkPid c (slots sc.i).pid)) := rfl
    refine Alone.visit hw hload (Alone.visit hw hpid ?_)
    by_cases hdead : (slots sc.i).pid ≠ 0 ∧ st.alive (slots sc.i).pid = false
    · simp only [if_pos hdead] at h
      have hprune : visitStep slots st.now st.alive sc (.checkPid c (slots sc.i).pid) =
          (slots, .stay .pruneActive) := by
        simp only [visitStep, if_pos hdead]
      have hfree : visitStep slots st.now st.alive sc .pruneActive =
          (setWordAt slots sc.i .free, .stay .clearPid) := rfl
      refine Alone.visit hw hprune (Alone.visit hw hfree (Alone.visited hw rfl ?_))
      rw [setPidAt_free]
      exact h
    · simp only [if_neg hdead] at h
      have hcount : visitStep slots st.now st.alive sc (.checkPid c (slots sc.i).pid) =
          (slots, .done (sc.count c)) := by
        simp only [visitStep, if_neg hdead]
      exact Alone.visited hw hcount h

/-- The scan from slot `k` on, in the whole call. -/
def scanFrom (now : Nat) (alive : Nat → Bool) (k : Nat) (t : Whole.Tally) : Whole.Tally :=
  ((List.finRange maxSubscriberSlots).drop k).foldl (Whole.visit now alive) t

/-- The slots from `k` on. -/
theorem Alone.scan (hw : cfg.watermark = some w) (ws : Nat) {k : Nat}
    (hk : k ≤ maxSubscriberSlots) : ∀ (hlt : k < maxSubscriberSlots) (t : Whole.Tally),
      Alone pid .pub (scanEnd { st with slots := (scanFrom st.now st.alive k t).slots }
        (cfg.ringSize - w) v (Scan.with ⟨ws, ⟨k, hlt⟩, 0, false⟩
          (scanFrom st.now st.alive k t))) st' →
      Alone pid .pub { st with
        slots := t.slots, pub := .scan v ⟨ws, ⟨k, hlt⟩, t.minCursor, t.hasActive⟩ .word } st' := by
  refine scan_induction (fun hlt => absurd hlt (Nat.lt_irrefl _)) (fun i ih hlt t h => ?_) hk
  have hfold : scanFrom st.now st.alive i t =
      scanFrom st.now st.alive (i + 1) (Whole.visit st.now st.alive t i) := by
    rw [scanFrom, drop_finRange, List.foldl_cons]
    rfl
  rw [hfold] at h
  refine Alone.slot hw ?_
  unfold scanNext
  split
  · rename_i hnext
    exact ih hnext _ h
  · rename_i hlast
    have hnil : scanFrom st.now st.alive (i + 1) (Whole.visit st.now st.alive t i) =
        Whole.visit st.now st.alive t i := by
      have hend : i.val + 1 = maxSubscriberSlots := by
        have hi := i.isLt
        exact Nat.le_antisymm hi (Nat.le_of_not_lt hlast)
      rw [scanFrom, hend, drop_finRange_end, List.foldl_nil]
    rw [hnil] at h
    exact h

end

/-- The rest of `try_publish` after the scan `t`. -/
theorem Alone.scanEnd {v : cfg.Value W} {w : Nat} (hw : cfg.watermark = some w) (i : SlotIdx)
    (t : Whole.Tally) (hscan : Whole.slowestSubscriberCursor st.now st.alive st.slots =
      (t.slots, if t.hasActive then some t.minCursor else none))
    (hslow : st.mem.writeSeq ≥ wrap64 (st.cachedSlowest + (cfg.ringSize - w))) :
    Alone pid .pub (Bus.scanEnd { st with slots := t.slots } (cfg.ringSize - w) v
        (Scan.with ⟨st.mem.writeSeq, i, 0, false⟩ t))
      (st.returned v (st.bus.tryPublish st.now st.alive v)) := by
  unfold Bus.scanEnd Scan.with
  cases hactive : t.hasActive with
  | false =>
    simp only [hactive, Bool.false_eq_true, if_false] at hscan ⊢
    rw [Whole.Bus.tryPublish_of_nobody (b := st.bus) hw hslow hscan]
    exact publishUnchecked_alone { st with slots := t.slots } v
  | true =>
    simp only [hactive, if_true] at hscan ⊢
    rw [Whole.Bus.tryPublish_of_scan (b := st.bus) hw hslow hscan]
    by_cases hfull : st.bus.writeSeq ≥ wrap64 (t.minCursor + (cfg.ringSize - w))
    · rw [if_pos hfull, if_pos (show st.mem.writeSeq ≥ _ from hfull)]
      exact Repeats.refl _
    · rw [if_neg hfull, if_neg (show ¬st.mem.writeSeq ≥ _ from hfull)]
      exact publishUnchecked_alone { st with slots := t.slots, cachedSlowest := t.minCursor } v

/-- **`try_publish` alone.** -/
theorem tryPublish_alone (hidle : st.pub = .idle) (v : cfg.Value W) :
    ∃ n, Run (step pid) (fun _ _ => True) st (.publish v :: List.replicate n .pub)
      (st.returned v (st.bus.tryPublish st.now st.alive v)) := by
  have hcall : ∀ {st₁ : State cfg W S}, step pid st (.publish v) = some st₁ →
      Alone pid .pub st₁ (st.returned v (st.bus.tryPublish st.now st.alive v)) →
      ∃ n, Run (step pid) (fun _ _ => True) st (.publish v :: List.replicate n .pub)
        (st.returned v (st.bus.tryPublish st.now st.alive v)) := by
    rintro st₁ hstep ⟨n, hrun⟩
    exact ⟨n, .cons trivial hstep hrun⟩
  cases hw : cfg.watermark with
  | none =>
    have hstep : step pid st (.publish v) = some { st with pub := .write v .load } := by
      simp only [step, hidle, hw, Option.isSome_none, Bool.false_eq_true, if_false]
    rw [Whole.Bus.tryPublish_of_unbounded hw] at hcall ⊢
    exact hcall hstep (publishUnchecked_alone st v)
  | some w =>
    have hstep : step pid st (.publish v) = some { st with pub := .start v } := by
      simp only [step, hidle, hw, Option.isSome_some, if_true]
    refine hcall hstep ?_
    by_cases hslow : st.mem.writeSeq ≥ wrap64 (st.cachedSlowest + (cfg.ringSize - w))
    · have hstart : step pid { st with pub := .start v } .pub = some { st with
          pub := .scan v ⟨st.mem.writeSeq, ⟨0, by decide⟩, maxU64, false⟩ .word } := by
        simp only [step, pubStep, hw, if_pos hslow]
      refine Repeats.head trivial hstart ?_
      exact Alone.scan hw st.mem.writeSeq (Nat.zero_le _) (by decide) ⟨st.slots, maxU64, false⟩
        (Alone.scanEnd hw _ _ rfl hslow)
    · have hstart : step pid { st with pub := .start v } .pub =
          some { st with pub := .write v .load } := by
        simp only [step, pubStep, hw, if_neg hslow]
      rw [Whole.Bus.tryPublish_of_room (b := st.bus) hw hslow]
      exact Repeats.head trivial hstart (publishUnchecked_alone st v)

/-! ### `try_recv` -/

section

variable {s : S} {m m' : Sub cfg W} {slots slots' : SlotIdx → SubSlot}

omit [Inhabited W] in
theorem setSub_setSub (r r' : (SlotIdx → SubSlot) × Sub cfg W) :
    (st.setSub s r).setSub s r' = st.setSub s r' := by
  simp only [State.setSub, update_idem]

omit [Inhabited W] in
@[simp] theorem setSub_self (r : (SlotIdx → SubSlot) × Sub cfg W) : (st.setSub s r).sub s = r.2 :=
  update_self ..

omit [Inhabited W] in
/-- One step of one subscriber. -/
theorem subStep_setSub {f : Sub cfg W → Option ((SlotIdx → SubSlot) × Sub cfg W)}
    (hm : m.crashed = false) (hf : f m = some (slots', m')) :
    (st.setSub s (slots, m)).subStep s f = some (st.setSub s (slots', m')) := by
  unfold State.subStep
  rw [setSub_self, if_neg (by rw [hm]; decide), hf, Option.map_some, setSub_setSub]

/-- One operation of `try_recv`. -/
theorem Alone.read (hm : m.crashed = false)
    (hst : recvStep st.mem slots m = some (slots', m'))
    (h : Alone pid (.read s) (st.setSub s (slots', m')) st') :
    Alone pid (.read s) (st.setSub s (slots, m)) st' :=
  Repeats.head trivial (subStep_setSub hm hst) h

/-- The words of the value. -/
theorem Alone.readWords {slot : RingSlot cfg W} (hslot : st.mem.ring (cfg.slotOf m.cursor) = slot)
    (hm : m.crashed = false) {k : Nat} (hk : k ≤ cfg.words)
    (h : Alone pid (.read s)
      (st.setSub s (slots, { m with pc := .restamp slot.stamp slot.data })) st') :
    ∀ buf : cfg.Value W, (∀ k' : Fin cfg.words, k'.val < k → buf k' = slot.data k') →
      Alone pid (.read s) (st.setSub s (slots, m.readNext slot.stamp k buf)) st' := by
  refine scan_induction ?_ (fun k ih => ?_) hk
  · intro buf hbuf
    obtain rfl : buf = slot.data := funext fun k' => hbuf k' k'.isLt
    rw [Sub.readNext, dif_neg (Nat.lt_irrefl _)]
    exact h
  · intro buf hbuf
    rw [Sub.readNext, dif_pos k.isLt]
    refine Alone.read hm rfl (ih _ fun k' hk' => ?_)
    by_cases heq : k' = k
    · rw [heq, update_self, hslot]
    · rw [update_of_ne heq]
      exact hbuf k' (by omega)

/-- From the first stamp to the second. -/
theorem Alone.readSlot {slot : RingSlot cfg W} (hslot : st.mem.ring (cfg.slotOf m.cursor) = slot)
    (hm : m.crashed = false) (hpc : m.pc = .stamp) (heven : ¬slot.stamp &&& 1 ≠ 0)
    (hwritten : ¬slot.stamp = 0)
    (h : Alone pid (.read s) (st.setSub s (slots,
      recvEnd { m with pc := .restamp slot.stamp slot.data } slot.stamp slot.data)) st') :
    Alone pid (.read s) (st.setSub s (slots, m)) st' := by
  have hstamp : recvStep st.mem slots m = some (slots, m.readNext slot.stamp 0 default) := by
    simp only [recvStep, hpc, hslot, if_neg heven, if_neg hwritten]
  have hrestamp : recvStep st.mem slots { m with pc := .restamp slot.stamp slot.data } = some
      (slots, recvEnd { m with pc := .restamp slot.stamp slot.data } slot.stamp slot.data) := by
    simp only [recvStep, hslot, ne_eq, not_true_eq_false, if_false]
  exact Alone.read hm hstamp (Alone.readWords hslot hm (Nat.zero_le _)
    (Alone.read hm hrestamp h) default fun k' hk' => absurd hk' (Nat.not_lt_zero _))

/-- The rest of `try_recv` after the skip. -/
theorem readSlot_alone (pid : S → Nat) (s : S) {slot : RingSlot cfg W}
    (hslot : st.mem.ring (cfg.slotOf m.cursor) = slot) (hm : m.crashed = false)
    (hpc : m.pc = .stamp) {p : Nat}
    {b : Whole.Bus cfg.params (cfg.Value W)} {x : Whole.Subscriber} {r : Option (cfg.Value W)}
    (h : st.bus.readSlot (m.whole p) ⟨slot.stamp, slot.data⟩ = some (b, x, r)) :
    ∃ m', m'.pc = .rest ∧ m'.whole p = x ∧ m'.calls = m.calls ++ [(m.call.1, m.call.2, r)] ∧
      b = { st.bus with slots := b.slots } ∧
      Alone pid (.read s) (st.setSub s (st.slots, m)) (st.setSub s (b.slots, m')) := by
  unfold Whole.Bus.readSlot Sub.whole at h
  dsimp only at h
  by_cases hodd : slot.stamp &&& 1 ≠ 0
  · -- the publisher has stopped in the middle of this slot
    rw [if_pos hodd] at h
    cases h
    have hstep : recvStep st.mem st.slots m = some (st.slots, m.ret none) := by
      simp only [recvStep, hpc, hslot, if_pos hodd]
    exact ⟨m.ret none, rfl, rfl, rfl, rfl, Alone.read hm hstep (Repeats.refl _)⟩
  rw [if_neg hodd] at h
  by_cases hzero : slot.stamp = 0
  · rw [if_pos hzero] at h
    cases h
    have hstep : recvStep st.mem st.slots m = some (st.slots, m.ret none) := by
      simp only [recvStep, hpc, hslot, if_neg hodd, if_pos hzero]
    exact ⟨m.ret none, rfl, rfl, rfl, rfl, Alone.read hm hstep (Repeats.refl _)⟩
  rw [if_neg hzero] at h
  by_cases hown : slot.stamp = wrap64 (m.cursor * 2 + 2)
  · -- nobody has written in between, so the second stamp is the first one
    rw [if_neg (not_not.mpr hown)] at h
    cases hidx : m.slotIndex with
    | none =>
      simp only [Whole.Bus.updateShmCursor, hidx] at h
      cases h
      refine ⟨_, ?_, ?_, ?_, rfl, Alone.readSlot hslot hm hpc hodd hzero (Repeats.refl _)⟩
      all_goals simp only [recvEnd, if_pos hown, hidx, Sub.ret, Sub.whole]
    | some i =>
      simp only [Whole.Bus.updateShmCursor, hidx] at h
      cases h
      have hend : recvEnd { m with pc := .restamp slot.stamp slot.data } slot.stamp slot.data =
          { m with
            cursor := wrap64 (m.cursor + 1)
            received := m.received ++ [(m.cursor, slot.data)]
            pc := .update i slot.data } := by
        simp only [recvEnd, if_pos hown, hidx]
      refine ⟨{ m with
        cursor := wrap64 (m.cursor + 1)
        received := m.received ++ [(m.cursor, slot.data)] }.ret (some slot.data), rfl, ?_, rfl, rfl,
        Alone.readSlot hslot hm hpc hodd hzero ?_⟩
      · simp only [Sub.ret, Sub.whole, hidx]
      · rw [hend]
        exact Alone.read hm rfl (Repeats.refl _)
  · rw [if_pos hown] at h
    obtain ⟨writtenSeq, hseq, h⟩ := Option.bind_eq_some_iff.mp h
    obtain ⟨skipped, hskipped, h⟩ := Option.bind_eq_some_iff.mp h
    cases h
    refine ⟨_, ?_, ?_, ?_, rfl, Alone.readSlot hslot hm hpc hodd hzero (Repeats.refl _)⟩
    all_goals simp only [recvEnd, if_neg hown, hseq, hskipped, Sub.ret, Sub.whole]

omit [Inhabited W] [DecidableEq S] in
/-- The head load. -/
theorem recvStart_of_skip (hlt : ¬m.cursor ≥ st.mem.writeSeq) {p : Nat} {x : Whole.Subscriber}
    (h : st.bus.skipAhead (m.whole p) = some x) :
    recvStart st.mem m = { m with
      call := (m.cursor, st.mem.writeSeq)
      cursor := x.cursor
      totalLagged := x.totalLagged
      pc := .stamp } ∧ x = ⟨p, x.cursor, x.totalLagged, m.slotIndex⟩ := by
  unfold recvStart
  rw [if_neg hlt]
  obtain ⟨behind, hbehind, h⟩ := Option.bind_eq_some_iff.mp h
  replace hbehind : checkedSub st.mem.writeSeq m.cursor = some behind := hbehind
  simp only [hbehind]
  by_cases hfar : behind > cfg.ringSize
  · rw [if_pos hfar] at h
    obtain ⟨oldest, holdest, h⟩ := Option.bind_eq_some_iff.mp h
    obtain ⟨skipped, hskipped, h⟩ := Option.bind_eq_some_iff.mp h
    replace holdest : checkedSub st.mem.writeSeq cfg.ringSize = some oldest := holdest
    replace hskipped : checkedSub oldest m.cursor = some skipped := hskipped
    cases h
    simp only [if_pos hfar, holdest, hskipped]
    exact ⟨rfl, rfl⟩
  · rw [if_neg hfar] at h
    cases h
    simp only [if_neg hfar]
    exact ⟨rfl, rfl⟩

/-- **`try_recv` alone.** -/
theorem tryRecv_alone (hm : (st.sub s).crashed = false) (hrest : (st.sub s).pc = .rest)
    {b : Whole.Bus cfg.params (cfg.Value W)} {x : Whole.Subscriber} {r : Option (cfg.Value W)}
    (h : st.bus.tryRecv ((st.sub s).whole (pid s)) = some (b, x, r)) :
    ∃ m', m'.pc = .rest ∧ m'.whole (pid s) = x ∧
      m'.calls = (st.sub s).calls ++ [((st.sub s).cursor, st.mem.writeSeq, r)] ∧
      (st.setSub s (b.slots, m')).bus = b ∧
      ∃ n, Run (step pid) (fun _ _ => True) st (.recv s :: List.replicate n (.read s))
        (st.setSub s (b.slots, m')) := by
  have hcall : step pid st (.recv s) =
      some (st.setSub s (st.slots, recvStart st.mem (st.sub s))) := by
    simp only [step, State.subStep, hm, hrest, Bool.false_eq_true, if_false, Option.map_some]
  unfold Whole.Bus.tryRecv at h
  by_cases hhead : (st.sub s).cursor ≥ st.mem.writeSeq
  · rw [if_pos (show ((st.sub s).whole (pid s)).cursor ≥ st.bus.writeSeq from hhead)] at h
    cases h
    have hstart : recvStart st.mem (st.sub s) =
        { st.sub s with call := ((st.sub s).cursor, st.mem.writeSeq) }.ret none := if_pos hhead
    rw [hstart] at hcall
    refine ⟨{ st.sub s with call := ((st.sub s).cursor, st.mem.writeSeq) }.ret none, rfl, rfl, rfl,
      rfl, 0, ?_⟩
    exact Run.single trivial hcall
  · rw [if_neg (show ¬((st.sub s).whole (pid s)).cursor ≥ st.bus.writeSeq from hhead)] at h
    obtain ⟨x₁, hskip, h⟩ := Option.bind_eq_some_iff.mp h
    obtain ⟨hstart, hx₁⟩ := recvStart_of_skip hhead hskip
    rw [hstart] at hcall
    rw [hx₁] at h
    obtain ⟨m', hpc, hwhole, hcalls, hbus, n, hrun⟩ := readSlot_alone pid s
      (m := { st.sub s with
        call := ((st.sub s).cursor, st.mem.writeSeq)
        cursor := x₁.cursor
        totalLagged := x₁.totalLagged
        pc := .stamp }) rfl hm rfl h
    exact ⟨m', hpc, hwhole, hcalls, hbus.symm, n, .cons trivial hcall hrun⟩

/-! ### `drop` -/

/-- One operation of `drop`. -/
theorem Alone.drop (hm : m.crashed = false) (hst : dropStep slots m = some (slots', m'))
    (h : Alone pid (.drop s) (st.setSub s (slots', m')) st') :
    Alone pid (.drop s) (st.setSub s (slots, m)) st' :=
  Repeats.head trivial (subStep_setSub hm hst) h

omit [Inhabited W] in
theorem setSub_eq_self : st.setSub s (st.slots, st.sub s) = st := by
  unfold State.setSub
  rw [update_eq_self]

/-- **`drop` alone.** -/
theorem drop_alone (hm : (st.sub s).crashed = false) (hrest : (st.sub s).pc = .rest) :
    (st.setSub s ((st.bus.drop ((st.sub s).whole (pid s))).slots,
      { st.sub s with pc := .gone })).bus = st.bus.drop ((st.sub s).whole (pid s)) ∧
    ∃ n, Run (step pid) (fun _ _ => True) st (List.replicate n (.drop s))
      (st.setSub s ((st.bus.drop ((st.sub s).whole (pid s))).slots,
        { st.sub s with pc := .gone })) := by
  have hbus : st.bus.drop ((st.sub s).whole (pid s)) =
      { st.bus with slots := (st.bus.drop ((st.sub s).whole (pid s))).slots } := by
    unfold Whole.Bus.drop
    split <;> rfl
  have hstart : Alone pid (.drop s) (st.setSub s (st.slots, st.sub s)) (st.setSub s
      ((st.bus.drop ((st.sub s).whole (pid s))).slots, { st.sub s with pc := .gone })) := by
    cases hidx : (st.sub s).slotIndex with
    | none =>
      have hgone : dropStep st.slots (st.sub s) =
          some (st.slots, { st.sub s with pc := .gone }) := by
        simp only [dropStep, hrest, hidx]
      refine Alone.drop hm hgone ?_
      simp only [Whole.Bus.drop, Sub.whole, hidx]
      exact Repeats.refl _
    | some i =>
      have hleave : dropStep st.slots (st.sub s) =
          some (st.slots, { st.sub s with pc := .release i }) := by
        simp only [dropStep, hrest, hidx]
      refine Alone.drop hm hleave (Alone.drop hm rfl (Alone.drop hm rfl ?_))
      simp only [Whole.Bus.drop, Sub.whole, hidx, setPidAt_free]
      exact Repeats.refl _
  rw [setSub_eq_self] at hstart
  exact ⟨hbus.symm, hstart⟩

/-! ### `connect` -/

/-- One operation of `connect`. -/
theorem Alone.join (hm : m.crashed = false)
    (hst : connectStep (st.setSub s (slots, m)) (pid s) m = some (slots', m'))
    (h : Alone pid (.join s) (st.setSub s (slots', m')) st') :
    Alone pid (.join s) (st.setSub s (slots, m)) st' :=
  Repeats.head trivial (subStep_setSub hm hst) h

/-- Taken slots are passed. -/
theorem Alone.taken (hm : m.crashed = false) {n k : Nat} (hkn : k ≤ n)
    (htaken : ∀ j : SlotIdx, j.val < n → (st.slots j).word ≠ .free) (hn : n < maxSubscriberSlots)
    (h : Alone pid (.join s) (st.setSub s (st.slots, { m with pc := .clock ⟨n, hn⟩ })) st') :
    ∀ hk : k < maxSubscriberSlots,
      Alone pid (.join s) (st.setSub s (st.slots, { m with pc := .clock ⟨k, hk⟩ })) st' := by
  -- two operations for a taken slot: the clock, and a compare-exchange that fails
  refine scan_induction (fun _ => h) (fun i ih hi => ?_) hkn
  have hnext : i.val + 1 < maxSubscriberSlots := by
    have := i.isLt
    omega
  have hpass : connectStep (st.setSub s (st.slots, { m with pc := .claim ⟨i, hi⟩ st.now })) (pid s)
      { m with pc := .claim ⟨i, hi⟩ st.now } =
        some (st.slots, { m with pc := .clock ⟨i + 1, hnext⟩ }) := by
    refine (if_neg (htaken ⟨i, hi⟩ i.isLt)).trans ?_
    rw [Sub.claimNext, dif_pos hnext]
    rfl
  exact Alone.join hm rfl (Alone.join hm hpass (ih hnext))

/-- What `connect` leaves of the subscriber. -/
def joined (ws : Nat) : Except Whole.Error Whole.Subscriber → Sub cfg W
  | .ok x => { newSub with
      pc := .rest, cursor := x.cursor, init := x.cursor, slotIndex := x.slotIndex }
  | .error _ => { newSub with pc := .gone, cursor := ws, init := ws }

/-- The last slot is taken too: `PoolExhausted`. -/
theorem Alone.lastTaken (hm : m.crashed = false) {i : SlotIdx} (htaken : (st.slots i).word ≠ .free)
    (hlast : ¬i.val + 1 < maxSubscriberSlots) :
    Alone pid (.join s) (st.setSub s (st.slots, { m with pc := .clock i }))
      (st.setSub s (st.slots, { m with pc := .gone })) := by
  have hgone : connectStep (st.setSub s (st.slots, { m with pc := .claim i st.now })) (pid s)
      { m with pc := .claim i st.now } = some (st.slots, { m with pc := .gone }) := by
    refine (if_neg htaken).trans ?_
    rw [Sub.claimNext, dif_neg hlast]
    rfl
  exact Alone.join hm rfl (Alone.join hm hgone (Repeats.refl _))

/-- The claim of a free slot. -/
theorem Alone.claim (hm : m.crashed = false) {i : SlotIdx} (hfree : (st.slots i).word = .free) :
    Alone pid (.join s) (st.setSub s (st.slots, { m with pc := .clock i }))
      (st.setSub s (update st.slots i ⟨pid s, .active (value62 m.cursor)⟩,
        { m with pc := .rest, slotIndex := some i })) := by
  have hclaim : connectStep (st.setSub s (st.slots, { m with pc := .claim i st.now })) (pid s)
      { m with pc := .claim i st.now } =
        some (setWordAt st.slots i (.claiming (value62 st.now)),
          { m with pc := .storePid i st.now }) := if_pos hfree
  have hslots : setWordAt (setPidAt (setWordAt st.slots i (.claiming (value62 st.now))) i (pid s)) i
      (.active (value62 m.cursor)) =
        update st.slots i ⟨pid s, .active (value62 m.cursor)⟩ := by
    simp only [setWordAt, setPidAt, update_self, update_idem]
  rw [← hslots]
  exact Alone.join hm rfl (Alone.join hm hclaim (Alone.join hm rfl (Alone.join hm rfl
    (Repeats.refl _))))

/-- **`connect` alone.** -/
theorem connect_alone (habsent : (st.sub s).pc.present = false)
    (hm : (st.sub s).crashed = false) (halive : st.alive (pid s) = true) :
    (st.setSub s ((st.bus.connect (pid s)).1.slots,
        joined st.mem.writeSeq (st.bus.connect (pid s)).2)).bus = (st.bus.connect (pid s)).1 ∧
    ∃ n, Run (step pid) (fun _ _ => True) st (.connect s :: List.replicate n (.join s))
      (st.setSub s ((st.bus.connect (pid s)).1.slots,
        joined st.mem.writeSeq (st.bus.connect (pid s)).2)) := by
  have hbus : (st.bus.connect (pid s)).1 =
      { st.bus with slots := (st.bus.connect (pid s)).1.slots } := by
    rcases st.bus.connect_cases (pid s) with ⟨slots, i, hok, -⟩ | ⟨e, herr⟩
    · rw [hok]
    · rw [herr]
  refine ⟨hbus.symm, ?_⟩
  have hcall : step pid st (.connect s) = some (st.setSub s (st.slots, newSub)) := by
    simp only [step, habsent, hm, halive, and_self, if_true]
    rfl
  suffices hjoin : Alone pid (.join s) (st.setSub s (st.slots, newSub))
      (st.setSub s ((st.bus.connect (pid s)).1.slots,
        joined st.mem.writeSeq (st.bus.connect (pid s)).2)) by
    obtain ⟨n, hrun⟩ := hjoin
    exact ⟨n, .cons trivial hcall hrun⟩
  cases hw : cfg.watermark with
  | none =>
    have hload : connectStep (st.setSub s (st.slots, newSub)) (pid s) newSub = some (st.slots,
        { newSub with cursor := st.mem.writeSeq, init := st.mem.writeSeq, pc := .rest }) := by
      simp only [connectStep, newSub, hw, Option.isSome_none, Bool.false_eq_true, if_false]
      rfl
    rw [Whole.Bus.connect_unbounded hw, if_pos cfg.ringSize_lt]
    exact Alone.join rfl hload (Repeats.refl _)
  | some w =>
    have hload : connectStep (st.setSub s (st.slots, newSub)) (pid s) newSub = some (st.slots,
        { newSub with
          cursor := st.mem.writeSeq, init := st.mem.writeSeq, pc := .clock ⟨0, by decide⟩ }) := by
      simp only [connectStep, newSub, hw, Option.isSome_some, if_true]
      rfl
    refine Alone.join rfl hload ?_
    cases hfind : (List.finRange maxSubscriberSlots).find?
        (fun i => decide ((st.slots i).word = .free)) with
    | some i =>
      rw [Whole.Bus.connect_of_free (b := st.bus) cfg.ringSize_lt hw _ hfind]
      obtain ⟨hfree, hbefore⟩ := first_of_find hfind
      exact Alone.taken (m := { newSub with cursor := st.mem.writeSeq, init := st.mem.writeSeq })
        rfl (Nat.zero_le i) (fun j hj => of_decide_eq_false (hbefore j hj)) i.isLt
        (Alone.claim rfl (of_decide_eq_true hfree)) _
    | none =>
      rw [Whole.Bus.connect_of_taken (b := st.bus) cfg.ringSize_lt hw _ hfind]
      have htaken : ∀ j, (st.slots j).word ≠ .free := by
        intro j hfree
        exact List.find?_eq_none.mp hfind j (List.mem_finRange j) (decide_eq_true hfree)
      exact Alone.taken (m := { newSub with cursor := st.mem.writeSeq, init := st.mem.writeSeq })
        rfl (Nat.zero_le _) (fun j _ => htaken j) (Nat.sub_lt (by decide) Nat.one_pos)
        (Alone.lastTaken rfl (htaken _) (Nat.lt_irrefl _)) _

end

end

end Crossbar.Bus
