import Crossbar.Bus.Model

namespace Crossbar.Bus

open Function Crossbar.Lib

/-!
# Bus — inversion of the steps

What a step of the bus can do, with its guards: `Visit` for one slot of the publisher's scan,
`PubStep` for the publisher, `SubStep` for a subscriber, and `Step` for the system.  The
invariants of the modules above are proved by cases on these.
-/

variable {cfg : BusConfig} {W S : Type}

/-! ### The publisher -/

/-- A step of the scan at slot `sc.i`. -/
inductive Visit (slots : SlotIdx → SubSlot) (now : Nat) (alive : Nat → Bool) (sc : Scan) :
    VisitPc → (SlotIdx → SubSlot) → VisitNext → Prop
  | free : (slots sc.i).word = .free → Visit slots now alive sc .word slots (.done sc)
  | claiming {ts : Nat} : (slots sc.i).word = .claiming ts →
      Visit slots now alive sc .word slots (.stay (.clock ts))
  | active {c : Nat} : (slots sc.i).word = .active c →
      Visit slots now alive sc .word slots (.stay (.loadPid c))
  | old {ts : Nat} : now - ts > claimTimeout →
      Visit slots now alive sc (.clock ts) slots (.stay (.pruneClaim ts))
  | young {ts : Nat} : ¬ now - ts > claimTimeout →
      Visit slots now alive sc (.clock ts) slots (.done sc)
  | prune {ts : Nat} : (slots sc.i).word = .claiming ts →
      Visit slots now alive sc (.pruneClaim ts) (setWordAt slots sc.i .free) (.stay .clearPid)
  | moved {ts : Nat} : (slots sc.i).word ≠ .claiming ts →
      Visit slots now alive sc (.pruneClaim ts) slots (.done sc)
  | pid (c : Nat) :
      Visit slots now alive sc (.loadPid c) slots (.stay (.checkPid c (slots sc.i).pid))
  | dead {c p : Nat} : p ≠ 0 → alive p = false →
      Visit slots now alive sc (.checkPid c p) slots (.stay .pruneActive)
  | count {c p : Nat} : ¬ (p ≠ 0 ∧ alive p = false) →
      Visit slots now alive sc (.checkPid c p) slots (.done (sc.count c))
  | pruneActive :
      Visit slots now alive sc .pruneActive (setWordAt slots sc.i .free) (.stay .clearPid)
  | clearPid : Visit slots now alive sc .clearPid (setPidAt slots sc.i 0) (.done sc)

/-- `visitStep` does nothing else. -/
theorem visitStep_inv {slots slots' : SlotIdx → SubSlot} {now : Nat} {alive : Nat → Bool}
    {sc : Scan} {pc : VisitPc} {next : VisitNext}
    (h : visitStep slots now alive sc pc = (slots', next)) :
    Visit slots now alive sc pc slots' next := by
  cases pc with
  | word =>
    simp only [visitStep] at h
    split at h <;> rename_i hw <;> cases h
    · exact .claiming hw
    · exact .active hw
    · exact .free hw
  | clock ts =>
    by_cases hold : now - ts > claimTimeout
    · simp only [visitStep, if_pos hold] at h
      cases h
      exact .old hold
    · simp only [visitStep, if_neg hold] at h
      cases h
      exact .young hold
  | pruneClaim ts =>
    simp only [visitStep] at h
    split at h <;> rename_i hw <;> cases h
    · exact .prune hw
    · exact .moved hw
  | loadPid c =>
    cases h
    exact .pid c
  | checkPid c p =>
    by_cases hdead : p ≠ 0 ∧ alive p = false
    · simp only [visitStep, if_pos hdead] at h
      cases h
      exact .dead hdead.1 hdead.2
    · simp only [visitStep, if_neg hdead] at h
      cases h
      exact .count hdead
  | pruneActive =>
    cases h
    exact .pruneActive
  | clearPid =>
    cases h
    exact .clearPid

/-- The publisher after a step of `publish_unchecked(v)`. -/
def PubPc.after (v : cfg.Value W) : Option (WritePc cfg) → PubPc cfg W
  | some pc => .write v pc
  | none => .idle

/-- A step of `try_publish`. -/
inductive PubStep (st : State cfg W S) : State cfg W S → Prop
  | slow {v : cfg.Value W} {w : Nat} : st.pub = .start v → cfg.watermark = some w →
      st.mem.writeSeq ≥ wrap64 (st.cachedSlowest + (cfg.ringSize - w)) →
      PubStep st { st with
        pub := .scan v ⟨st.mem.writeSeq, ⟨0, by decide⟩, maxU64, false⟩ .word }
  | fast {v : cfg.Value W} {w : Nat} : st.pub = .start v → cfg.watermark = some w →
      ¬ st.mem.writeSeq ≥ wrap64 (st.cachedSlowest + (cfg.ringSize - w)) →
      PubStep st { st with pub := .write v .load }
  | stay {v : cfg.Value W} {sc : Scan} {pc pc' : VisitPc} {slots : SlotIdx → SubSlot} :
      st.pub = .scan v sc pc → Visit st.slots st.now st.alive sc pc slots (.stay pc') →
      PubStep st { st with slots := slots, pub := .scan v sc pc' }
  | next {v : cfg.Value W} {sc sc' : Scan} {pc : VisitPc} {slots : SlotIdx → SubSlot}
      (h : sc'.i.val + 1 < maxSubscriberSlots) :
      st.pub = .scan v sc pc → Visit st.slots st.now st.alive sc pc slots (.done sc') →
      PubStep st { st with
        slots := slots, pub := .scan v { sc' with i := ⟨sc'.i.val + 1, h⟩ } .word }
  | full {v : cfg.Value W} {w : Nat} {sc sc' : Scan} {pc : VisitPc} {slots : SlotIdx → SubSlot} :
      ¬ sc'.i.val + 1 < maxSubscriberSlots → cfg.watermark = some w → st.pub = .scan v sc pc →
      Visit st.slots st.now st.alive sc pc slots (.done sc') → sc'.hasActive = true →
      sc'.ws ≥ wrap64 (sc'.minCursor + (cfg.ringSize - w)) →
      PubStep st { st with slots := slots, cachedSlowest := sc'.minCursor, pub := .idle }
  | room {v : cfg.Value W} {w : Nat} {sc sc' : Scan} {pc : VisitPc} {slots : SlotIdx → SubSlot} :
      ¬ sc'.i.val + 1 < maxSubscriberSlots → cfg.watermark = some w → st.pub = .scan v sc pc →
      Visit st.slots st.now st.alive sc pc slots (.done sc') → sc'.hasActive = true →
      ¬ sc'.ws ≥ wrap64 (sc'.minCursor + (cfg.ringSize - w)) →
      PubStep st { st with
        slots := slots, cachedSlowest := sc'.minCursor, pub := .write v .load }
  | nobody {v : cfg.Value W} {sc sc' : Scan} {pc : VisitPc} {slots : SlotIdx → SubSlot} :
      ¬ sc'.i.val + 1 < maxSubscriberSlots → st.pub = .scan v sc pc →
      Visit st.slots st.now st.alive sc pc slots (.done sc') → sc'.hasActive = false →
      PubStep st { st with slots := slots, pub := .write v .load }
  | write {v : cfg.Value W} {pc : WritePc cfg} : st.pub = .write v pc →
      PubStep st { st with
        mem := (writeStep st.mem v pc).1, pub := .after v (writeStep st.mem v pc).2 }

/-- `pubStep` does nothing else. -/
theorem pubStep_inv {st st' : State cfg W S} (h : pubStep st = some st') : PubStep st st' := by
  unfold pubStep at h
  split at h
  · cases h
  · rename_i v w hp hw
    by_cases hge : st.mem.writeSeq ≥ wrap64 (st.cachedSlowest + (cfg.ringSize - w))
    · simp only [if_pos hge] at h
      cases h
      exact .slow hp hw hge
    · simp only [if_neg hge] at h
      cases h
      exact .fast hp hw hge
  · rename_i v sc pc w hp hw
    split at h
    · rename_i slots pc' hvisit
      cases h
      exact .stay hp (visitStep_inv hvisit)
    · rename_i slots sc' hvisit
      have hv := visitStep_inv hvisit
      cases h
      unfold scanNext
      split
      · rename_i hi
        exact .next hi hp hv
      · rename_i hi
        unfold scanEnd
        cases hact : sc'.hasActive with
        | false => exact .nobody hi hp hv hact
        | true =>
          by_cases hfull : sc'.ws ≥ wrap64 (sc'.minCursor + (cfg.ringSize - w))
          · simp only [if_true, if_pos hfull]
            exact .full hi hw hp hv hact hfull
          · simp only [if_true, if_neg hfull]
            exact .room hi hw hp hv hact hfull
  · rename_i v pc hp
    cases h
    have hw := PubStep.write hp
    unfold PubPc.after at hw
    exact hw
  · cases h

/-- The publisher's steps leave the subscribers alone. -/
theorem PubStep.sub_eq {st st' : State cfg W S} (h : PubStep st st') : st'.sub = st.sub := by
  cases h <;> rfl

/-! ### Subscribers -/

/-- A step of subscriber `m` in the bus `st`: the slots and the subscriber afterwards. -/
inductive SubStep [Inhabited W] (pid : Nat) (st : State cfg W S) (m : Sub cfg W) :
    (SlotIdx → SubSlot) → Sub cfg W → Prop
  | load : m.pc = .connect →
      SubStep pid st m st.slots { m with
        cursor := st.mem.writeSeq, init := st.mem.writeSeq
        pc := if cfg.watermark.isSome then .clock ⟨0, by decide⟩ else .rest }
  | clock {i : SlotIdx} : m.pc = .clock i →
      SubStep pid st m st.slots { m with pc := .claim i st.now }
  | claim {i : SlotIdx} {ts : Nat} : m.pc = .claim i ts → (st.slots i).word = .free →
      SubStep pid st m (setWordAt st.slots i (.claiming (value62 ts)))
        { m with pc := .storePid i ts }
  | taken {i : SlotIdx} {ts : Nat} : m.pc = .claim i ts → (st.slots i).word ≠ .free →
      SubStep pid st m st.slots (m.claimNext i)
  | storePid {i : SlotIdx} {ts : Nat} : m.pc = .storePid i ts →
      SubStep pid st m (setPidAt st.slots i pid) { m with pc := .activate i ts }
  | activate {i : SlotIdx} {ts : Nat} : m.pc = .activate i ts →
      SubStep pid st m (setWordAt st.slots i (.active (value62 m.cursor)))
        { m with pc := .rest, slotIndex := some i }
  | recv : m.pc = .rest → SubStep pid st m st.slots (recvStart st.mem m)
  | busy : m.pc = .stamp →
      (st.mem.ring (cfg.slotOf m.cursor)).stamp &&& 1 ≠ 0 ∨
        (st.mem.ring (cfg.slotOf m.cursor)).stamp = 0 →
      SubStep pid st m st.slots (m.ret none)
  | stamp : m.pc = .stamp → (st.mem.ring (cfg.slotOf m.cursor)).stamp &&& 1 = 0 →
      (st.mem.ring (cfg.slotOf m.cursor)).stamp ≠ 0 →
      SubStep pid st m st.slots
        (m.readNext (st.mem.ring (cfg.slotOf m.cursor)).stamp 0 default)
  | read {s : Nat} {k : Fin cfg.words} {buf : cfg.Value W} : m.pc = .read s k buf →
      SubStep pid st m st.slots (m.readNext s (k + 1)
        (update buf k ((st.mem.ring (cfg.slotOf m.cursor)).data k)))
  | torn {s : Nat} {buf : cfg.Value W} : m.pc = .restamp s buf →
      (st.mem.ring (cfg.slotOf m.cursor)).stamp ≠ s → SubStep pid st m st.slots (m.ret none)
  | whole {s : Nat} {buf : cfg.Value W} : m.pc = .restamp s buf →
      (st.mem.ring (cfg.slotOf m.cursor)).stamp = s →
      SubStep pid st m st.slots (recvEnd m s buf)
  | update {i : SlotIdx} {v : cfg.Value W} : m.pc = .update i v →
      SubStep pid st m (setWordAt st.slots i (.active (value62 m.cursor))) (m.ret (some v))
  | leave {i : SlotIdx} : m.pc = .rest → m.slotIndex = some i →
      SubStep pid st m st.slots { m with pc := .release i }
  | leaveOpen : m.pc = .rest → m.slotIndex = none →
      SubStep pid st m st.slots { m with pc := .gone }
  | release {i : SlotIdx} : m.pc = .release i →
      SubStep pid st m (setWordAt st.slots i .free) { m with pc := .clearPid i }
  | clearPid {i : SlotIdx} : m.pc = .clearPid i →
      SubStep pid st m (setPidAt st.slots i 0) { m with pc := .gone }

section

variable [Inhabited W] {pid : Nat} {st : State cfg W S} {m : Sub cfg W}
  {r : (SlotIdx → SubSlot) × Sub cfg W}

/-- Every step of `connect` is one of these. -/
theorem connectStep_inv (h : connectStep st pid m = some r) : SubStep pid st m r.1 r.2 := by
  unfold connectStep at h
  split at h
  · rename_i hpc
    cases h
    exact .load hpc
  · rename_i i hpc
    cases h
    exact .clock hpc
  · rename_i i ts hpc
    split at h <;> rename_i hw <;> cases h
    · exact .claim hpc hw
    · exact .taken hpc hw
  · rename_i i ts hpc
    cases h
    exact .storePid hpc
  · rename_i i ts hpc
    cases h
    exact .activate hpc
  · cases h

/-- Every step of `try_recv` is one of these. -/
theorem recvStep_inv (h : recvStep st.mem st.slots m = some r) : SubStep pid st m r.1 r.2 := by
  unfold recvStep at h
  split at h
  · rename_i hpc
    by_cases hodd : (st.mem.ring (cfg.slotOf m.cursor)).stamp &&& 1 ≠ 0
    · simp only [if_pos hodd] at h
      cases h
      exact .busy hpc (Or.inl hodd)
    · by_cases h0 : (st.mem.ring (cfg.slotOf m.cursor)).stamp = 0
      · simp only [if_neg hodd, if_pos h0] at h
        cases h
        exact .busy hpc (Or.inr h0)
      · simp only [if_neg hodd, if_neg h0] at h
        cases h
        exact .stamp hpc (not_not.mp hodd) h0
  · rename_i s k buf hpc
    cases h
    exact .read hpc
  · rename_i s buf hpc
    split at h <;> rename_i hs <;> cases h
    · exact .torn hpc hs
    · exact .whole hpc (not_not.mp hs)
  · rename_i i v hpc
    cases h
    exact .update hpc
  · cases h

/-- Every step of `drop` is one of these. -/
theorem dropStep_inv (h : dropStep st.slots m = some r) : SubStep pid st m r.1 r.2 := by
  unfold dropStep at h
  split at h
  · rename_i hpc
    split at h <;> rename_i hslot <;> cases h
    · exact .leave hpc hslot
    · exact .leaveOpen hpc hslot
  · rename_i i hpc
    cases h
    exact .release hpc
  · rename_i i hpc
    cases h
    exact .clearPid hpc
  · cases h

end

/-! ### The system -/

variable (cfg W) in
/-- The subscriber that an action moves. -/
def Act.subject : Act cfg W S → Option S
  | .join s | .recv s | .read s | .drop s => some s
  | _ => none

/-- The enabled steps, with their guards. -/
inductive Step [Inhabited W] [DecidableEq S] (pid : S → Nat) (st : State cfg W S) :
    Act cfg W S → State cfg W S → Prop
  | publish {v : cfg.Value W} : st.pub = .idle → Step pid st (.publish v)
      { st with pub := if cfg.watermark.isSome then .start v else .write v .load }
  | pub {st' : State cfg W S} : PubStep st st' → Step pid st .pub st'
  | connect {s : S} : (st.sub s).pc.present = false → (st.sub s).crashed = false →
      st.alive (pid s) = true →
      Step pid st (.connect s) { st with sub := update st.sub s newSub }
  | sub {a : Act cfg W S} {s : S} {slots : SlotIdx → SubSlot} {m : Sub cfg W} :
      a.subject = some s → (st.sub s).crashed = false → SubStep (pid s) st (st.sub s) slots m →
      Step pid st a (st.setSub s (slots, m))
  | tick (n : Nat) : Step pid st (.tick n) { st with now := st.now + n }
  | exit (p : Nat) : Step pid st (.exit p) { st with
      alive := update st.alive p false
      sub := fun s =>
        if pid s = p ∧ (st.sub s).pc.present = true then { st.sub s with crashed := true }
        else st.sub s }
  | spawn (p : Nat) : Step pid st (.spawn p) { st with alive := update st.alive p true }

section

variable [Inhabited W] [DecidableEq S] {pid : S → Nat} {st st' : State cfg W S}

/-- A step of one subscriber is a step of the system. -/
theorem subStep_inv {s : S} {f : Sub cfg W → Option ((SlotIdx → SubSlot) × Sub cfg W)}
    (hf : ∀ r, f (st.sub s) = some r → SubStep (pid s) st (st.sub s) r.1 r.2)
    (h : st.subStep s f = some st') {a : Act cfg W S} (ha : a.subject = some s) :
    Step pid st a st' := by
  unfold State.subStep at h
  split at h
  · cases h
  · rename_i halive
    rw [Option.map_eq_some_iff] at h
    obtain ⟨r, hr, rfl⟩ := h
    exact .sub ha (Bool.not_eq_true _ ▸ halive) (hf r hr)

/-- `step` performs these and nothing else. -/
theorem step_inv {a : Act cfg W S} (h : step pid st a = some st') : Step pid st a st' := by
  cases a with
  | publish v =>
    simp only [step] at h
    split at h
    · rename_i hp
      cases h
      exact .publish hp
    · cases h
  | pub => exact .pub (pubStep_inv h)
  | connect s =>
    simp only [step] at h
    split at h
    · rename_i hc
      cases h
      exact .connect hc.1 hc.2.1 hc.2.2
    · cases h
  | join s => exact subStep_inv (fun _ hr => connectStep_inv hr) h rfl
  | recv s =>
    simp only [step] at h
    refine subStep_inv (fun r hr => ?_) h rfl
    split at hr
    · rename_i hpc
      cases hr
      exact .recv hpc
    · cases hr
  | read s => exact subStep_inv (fun _ hr => recvStep_inv hr) h rfl
  | drop s => exact subStep_inv (fun _ hr => dropStep_inv hr) h rfl
  | tick n =>
    cases h
    exact .tick n
  | exit p =>
    cases h
    exact .exit p
  | spawn p =>
    cases h
    exact .spawn p

end

end Crossbar.Bus
