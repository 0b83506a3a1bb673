import Crossbar.Bus.Seqlock

namespace Crossbar.Bus

open Function Crossbar.Lib

/-!
# Bus — what a lagging subscriber skips

`try_recv` moves its cursor without returning a value in two places.  The head load moves it to
`head - R`, and everything before that is overwritten (`MemInv.stored_recent`).  A stamp that is
newer than the expected one moves it past the number of that stamp, which is still in the slot.
The second place is reached only when the publisher has finished another value in the slot
between the head load and the stamp load; a run in which this does not happen skips no value that
is still there (`lag_skips_no_stored`).
-/

variable {cfg : BusConfig} {W S : Type}

/-! ### The values in the ring -/

/-- Value number `q` is completely in the ring: its slot has the even stamp of `q`. -/
def Mem.Stored (m : Mem cfg W) (q : Nat) : Prop := (m.ring (cfg.slotOf q)).stamp = 2 * q + 2

instance (m : Mem cfg W) (q : Nat) : Decidable (m.Stored q) :=
  inferInstanceAs (Decidable (_ = _))

section

variable {m m' : Mem cfg W} {pub : PubPc cfg W} {x x' : Sub cfg W}

/-- What is stored is at most a ring old: the slot of a number that is a ring older has a newer
    stamp. -/
theorem MemInv.stored_recent (h : MemInv m pub) {q : Nat} (hq : m.Stored q) :
    m.writeSeq ≤ q + cfg.ringSize := by
  unfold Mem.Stored at hq
  by_contra hold
  have hlow := h.low (q + cfg.ringSize) (by omega)
  have hslot : cfg.slotOf (q + cfg.ringSize) = cfg.slotOf q :=
    (maskIdx_eq_iff cfg.ringSize_isPow _ _).mpr (Nat.add_mod_right ..)
  have hpos := cfg.ringSize_pos
  rw [hslot, hq] at hlow
  omega

/-! ### A reader that is not lapped -/

/-- The number of values that the publisher has finished writing, announced or not. -/
def State.written (st : State cfg W S) : Nat :=
  match st.pub with
  | .write _ (.advance _) => st.mem.writeSeq + 1
  | _ => st.mem.writeSeq

/-- A `try_recv` that comes to load its stamp: the publisher has not finished the next value of
    that slot. -/
def stampInTime (st : State cfg W S) : Act cfg W S → Bool
  | .read s =>
    match (st.sub s).pc with
    | .stamp => decide (st.written ≤ (st.sub s).cursor + cfg.ringSize)
    | _ => true
  | _ => true

/-- No reader is lapped before its stamp load, and fewer than `2 ^ 62` publishes. -/
def InTime (st : State cfg W S) (a : Act cfg W S) : Prop :=
  publishFits st a = true ∧ stampInTime st a = true

instance (st : State cfg W S) (a : Act cfg W S) : Decidable (InTime st a) :=
  inferInstanceAs (Decidable (_ ∧ _))

/-- Then an even stamp is the one of the cursor. -/
theorem MemInv.stamp_own {st : State cfg W S} (h : MemInv st.mem st.pub) {c : Nat}
    (hc : c < st.mem.writeSeq) (hle : st.written ≤ c + cfg.ringSize)
    (heven : (st.mem.ring (cfg.slotOf c)).stamp % 2 = 0) :
    (st.mem.ring (cfg.slotOf c)).stamp = 2 * c + 2 := by
  have hseq : st.mem.writeSeq ≤ st.written := by
    unfold State.written
    split
    · exact Nat.le_succ _
    · exact Nat.le_refl _
  have hlow := h.low c hc
  rcases h.cells (cfg.slotOf c) with hcom | ⟨hin, hslot, hbig⟩
  · rcases hcom with hzero | ⟨q, hq, hslot, hlog⟩
    · omega
    · have hlt := (List.getElem?_eq_some_iff.mp hlog).1
      rw [h.len] at hlt
      obtain rfl := cfg.eq_of_slotOf_eq hslot.symm (by omega) (by omega)
      exact hq
  · -- the publisher is in the slot: its stamp is odd until the value is finished
    exfalso
    have hhere := h.here
    unfold State.written at hle
    cases hpub : st.pub with
    | write v pc =>
      rw [hpub] at hhere hin hle
      cases pc with
      | load => cases hin
      | markOdd ws => cases hin
      | word ws k =>
        obtain ⟨rfl, hstamp, -⟩ := hhere
        rw [← hslot] at hstamp
        omega
      | markEven ws =>
        obtain ⟨rfl, hstamp, -⟩ := hhere
        rw [← hslot] at hstamp
        omega
      | advance ws =>
        -- the next value of the slot is there already, a whole ring after `c`
        have hle' : st.mem.writeSeq + 1 ≤ c + cfg.ringSize := hle
        have heq := cfg.eq_of_slotOf_eq hslot (Nat.le_of_lt hc) (by omega)
        omega
    | _ =>
      rw [hpub] at hin
      cases hin

/-- The cursor is where the call began, or a ring behind the head. -/
def Sub.Moved (m : Mem cfg W) (x : Sub cfg W) : Prop :=
  x.cursor = x.call.1 ∨ x.cursor + cfg.ringSize ≤ m.writeSeq

/-- What a `try_recv` knows that has not been lapped. -/
def SubPc.Timely (m : Mem cfg W) (x : Sub cfg W) : SubPc cfg W → Prop
  | .stamp => x.Moved m
  | .read s _ _ | .restamp s _ => s = 2 * x.cursor + 2 ∧ x.Moved m
  | _ => True

theorem SubPc.Timely.evolve (h : x.pc.Timely m x) (hE : Evolves m m') : x.pc.Timely m' x := by
  have hmoved : x.Moved m → x.Moved m' := by
    rintro (hsame | hold)
    · exact Or.inl hsame
    · exact Or.inr (Nat.le_trans hold hE.seq_le)
  cases hpc : x.pc with
  | stamp =>
    rw [hpc] at h
    exact hmoved h
  | read | restamp =>
    rw [hpc] at h
    exact ⟨h.1, hmoved h.2⟩
  | _ => trivial

/-- The step from `x` to `x'` leaves the cursor; if it returns `None`, the call has moved the cursor
    to no more than a ring behind the head. -/
structure Sub.Stays (m : Mem cfg W) (x x' : Sub cfg W) : Prop where
  cursor : x'.cursor = x.cursor
  calls : ∀ c₀ head, x'.calls = x.calls ++ [(c₀, head, none)] → x.Moved m ∧ c₀ = x.call.1

theorem Sub.Stays.ret (h : x.Moved m) : x.Stays m (x.ret none) := by
  refine ⟨rfl, fun c₀ head hr => ?_⟩
  cases List.append_cancel_left hr
  exact ⟨h, rfl⟩

/-- A step within the call. -/
theorem Sub.Stays.of_same {x' : Sub cfg W} (hcursor : x'.cursor = x.cursor)
    (hcalls : x'.calls = x.calls) : x.Stays m x' := by
  refine ⟨hcursor, fun c₀ head hr => ?_⟩
  rw [hcalls] at hr
  exact absurd hr (by simp)

theorem Sub.Stays.readNext (s k : Nat) (buf : cfg.Value W) : x.Stays m (x.readNext s k buf) := by
  unfold Sub.readNext
  split
  · exact .of_same rfl rfl
  · exact .of_same rfl rfl

/-- A cursor that the call has moved is not past a stored value. -/
theorem Sub.Moved.le_stored (h : x.Moved m) (hm : MemInv m pub) (hlt : x.call.1 < x.cursor)
    {q : Nat} (hq : m.Stored q) : x.cursor ≤ q := by
  have hrecent := hm.stored_recent hq
  rcases h with hsame | hold
  · omega
  · omega

/-! ### The two steps that move the cursor -/

/-- The head load. -/
theorem recvStart_cases (m : Mem cfg W) (x : Sub cfg W) :
    recvStart m x = { x with call := (x.cursor, m.writeSeq) }.ret none ∨
    recvStart m x = { x with call := (x.cursor, m.writeSeq), pc := .stamp } ∨
    x.cursor + cfg.ringSize < m.writeSeq ∧
      recvStart m x = { x with
        call := (x.cursor, m.writeSeq)
        totalLagged := wrap64 (x.totalLagged + (m.writeSeq - cfg.ringSize - x.cursor))
        cursor := m.writeSeq - cfg.ringSize
        pc := .stamp } := by
  unfold recvStart
  by_cases hge : x.cursor ≥ m.writeSeq
  · exact Or.inl (if_pos hge)
  · simp only [if_neg hge, checkedSub_of_le (Nat.le_of_not_le hge)]
    by_cases hfar : m.writeSeq - x.cursor > cfg.ringSize
    · simp only [if_pos hfar, checkedSub_of_le (show cfg.ringSize ≤ m.writeSeq by omega),
        checkedSub_of_le (show x.cursor ≤ m.writeSeq - cfg.ringSize by omega)]
      exact Or.inr (Or.inr ⟨by omega, trivial⟩)
    · simp only [if_neg hfar]
      exact Or.inr (Or.inl trivial)

/-- The second stamp agrees with the stamp of the cursor: the value is received. -/
theorem recvEnd_own (m : Mem cfg W) {s : Nat} (buf : cfg.Value W) (hs : s = 2 * x.cursor + 2)
    (hc : x.cursor < 2 ^ 62) :
    (recvEnd x s buf).received = x.received ++ [(x.cursor, buf)] ∧
    (recvEnd x s buf).pc.Timely m (recvEnd x s buf) ∧
    ∀ r, (recvEnd x s buf).calls = x.calls ++ [r] → r.2.2 = some buf := by
  have hown : s = wrap64 (x.cursor * 2 + 2) := by
    rw [wrap64_of_lt (by omega), hs]
    omega
  unfold recvEnd
  rw [if_pos hown]
  dsimp only
  split
  · refine ⟨rfl, trivial, fun r hr => ?_⟩
    exact absurd (congrArg List.length hr) (by simp)
  · refine ⟨rfl, trivial, fun r hr => ?_⟩
    have hlast := List.append_cancel_left hr
    cases hlast
    rfl

/-- After the head load. -/
theorem recvStart_timely (m : Mem cfg W) (x : Sub cfg W) :
    (recvStart m x).pc.Timely m (recvStart m x) := by
  rcases recvStart_cases m x with hret | hstay | ⟨hfar, hskip⟩
  · rw [hret]
    trivial
  · rw [hstay]
    exact Or.inl rfl
  · rw [hskip]
    refine Or.inr ?_
    show m.writeSeq - cfg.ringSize + cfg.ringSize ≤ m.writeSeq
    omega

theorem readNext_timely {s k : Nat} {buf : cfg.Value W} (hs : s = 2 * x.cursor + 2)
    (hmoved : x.Moved m) : (x.readNext s k buf).pc.Timely m (x.readNext s k buf) := by
  unfold Sub.readNext
  split
  · exact ⟨hs, hmoved⟩
  · exact ⟨hs, hmoved⟩

end

/-! ### Runs -/

section

variable [Inhabited W] {st st' : State cfg W S}

/-- A step of a `try_recv` that is not lapped: the cursor stays, or a value is received. -/
theorem recvStep_timely {x x' : Sub cfg W} {slots : SlotIdx → SubSlot}
    (hm : MemInv st.mem st.pub) (hread : ReadInv st.mem x) (h : x.pc.Timely st.mem x)
    (hok : x.pc = .stamp → st.written ≤ x.cursor + cfg.ringSize)
    (hstep : recvStep st.mem st.slots x = some (slots, x')) :
    x'.pc.Timely st.mem x' ∧
    (x.Stays st.mem x' ∨
      x'.received ≠ x.received ∧ ∀ c₀ head, x'.calls ≠ x.calls ++ [(c₀, head, none)]) := by
  have hlt := hm.lt
  have hhere := hread.here
  unfold recvStep at hstep
  split at hstep
  · -- the first stamp: odd, 0, or the one of the cursor
    rename_i hpc
    rw [hpc] at h hhere
    dsimp only at hstep
    split at hstep
    · cases hstep
      exact ⟨trivial, Or.inl (.ret h)⟩
    · rename_i heven
      split at hstep
      · cases hstep
        exact ⟨trivial, Or.inl (.ret h)⟩
      · cases hstep
        rw [not_not, Nat.and_one_is_mod] at heven
        have hown := hm.stamp_own hhere (hok hpc) heven
        exact ⟨readNext_timely hown h, Or.inl (.readNext ..)⟩
  · rename_i s k buf hpc
    rw [hpc] at h
    cases hstep
    exact ⟨readNext_timely h.1 h.2, Or.inl (.readNext ..)⟩
  · -- the second stamp: another one, and the call returns `None`, or the value is received
    rename_i s buf hpc
    rw [hpc] at h hhere
    split at hstep
    · cases hstep
      exact ⟨trivial, Or.inl (.ret h.2)⟩
    · cases hstep
      obtain ⟨hreceived, htimely, hcalls⟩ := recvEnd_own st.mem buf h.1
        (Nat.lt_trans hhere.1.lt hlt)
      refine ⟨htimely, Or.inr ⟨?_, fun c₀ head hr => ?_⟩⟩
      · rw [hreceived]
        simp
      · cases hcalls _ hr
  · -- `update_shm_cursor`, after which the call returns the value
    rename_i i v hpc
    cases hstep
    refine ⟨trivial, Or.inl ⟨rfl, fun c₀ head hr => ?_⟩⟩
    cases List.append_cancel_left hr
  · cases hstep

/-- Every subscriber. -/
def State.Timely (st : State cfg W S) : Prop := ∀ s, (st.sub s).pc.Timely st.mem (st.sub s)

variable [DecidableEq S] {pid : S → Nat} {a : Act cfg W S}

omit [Inhabited W] in
/-- One subscriber moves. -/
theorem State.Timely.setSub (h : st.Timely) (s : S) {r : (SlotIdx → SubSlot) × Sub cfg W}
    (hr : r.2.pc.Timely st.mem r.2) : (st.setSub s r).Timely := by
  intro s'
  by_cases hs : s' = s
  · subst hs
    simp only [State.setSub, update_self]
    exact hr
  · simp only [State.setSub, update_of_ne hs]
    exact h s'

omit [Inhabited W] in
theorem subStep_eq_some {s : S} {f : Sub cfg W → Option ((SlotIdx → SubSlot) × Sub cfg W)}
    (h : st.subStep s f = some st') : ∃ r, f (st.sub s) = some r ∧ st' = st.setSub s r := by
  unfold State.subStep at h
  split at h
  · cases h
  · obtain ⟨r, hr, rfl⟩ := Option.map_eq_some_iff.mp h
    exact ⟨r, hr, rfl⟩

theorem step_recv {s : S} (h : step pid st (.recv s) = some st') :
    st' = st.setSub s (st.slots, recvStart st.mem (st.sub s)) := by
  simp only [step] at h
  obtain ⟨r, hr, rfl⟩ := subStep_eq_some h
  split at hr <;> cases hr
  rfl

/-- With what the condition says of it. -/
theorem step_read {s : S} (hok : InTime st (.read s)) (h : step pid st (.read s) = some st') :
    ∃ slots x', recvStep st.mem st.slots (st.sub s) = some (slots, x') ∧
      st' = st.setSub s (slots, x') ∧
      ((st.sub s).pc = .stamp → st.written ≤ (st.sub s).cursor + cfg.ringSize) := by
  obtain ⟨⟨slots, x'⟩, hr, rfl⟩ := subStep_eq_some h
  refine ⟨slots, x', hr, rfl, fun hpc => ?_⟩
  have htime := hok.2
  simp only [stampInTime, hpc, decide_eq_true_eq] at htime
  exact htime

omit [Inhabited W] [DecidableEq S] in
/-- `connect` does not receive. -/
theorem connectStep_timely {p : Nat} {x : Sub cfg W} {r : (SlotIdx → SubSlot) × Sub cfg W}
    (h : connectStep st p x = some r) : r.2.pc.Timely st.mem r.2 := by
  unfold connectStep at h
  split at h
  · cases h
    dsimp only
    split <;> trivial
  · cases h
    trivial
  · split at h
    · cases h
      trivial
    · cases h
      unfold Sub.claimNext
      split <;> trivial
  · cases h
    trivial
  · cases h
    trivial
  · cases h

omit [Inhabited W] [DecidableEq S] in
/-- `drop` does not receive. -/
theorem dropStep_timely {x : Sub cfg W} {r : (SlotIdx → SubSlot) × Sub cfg W}
    (h : dropStep st.slots x = some r) : r.2.pc.Timely st.mem r.2 := by
  unfold dropStep at h
  split at h
  · split at h <;> cases h <;> trivial
  · cases h
    trivial
  · cases h
    trivial
  · cases h

/-- **Step.** -/
theorem timely_step (hseq : SeqInv st) (h : st.Timely) (hok : InTime st a)
    (hstep : step pid st a = some st') : st'.Timely := by
  cases a with
  | publish v =>
    simp only [step] at hstep
    split at hstep <;> cases hstep
    exact h
  | pub =>
    have hpub := pubStep_inv hstep
    have hE := (seqInv_pub hseq hok.1 hpub).2
    intro s
    rw [hpub.sub_eq]
    exact (h s).evolve hE
  | connect s =>
    simp only [step] at hstep
    split at hstep <;> cases hstep
    exact h.setSub s (r := (st.slots, newSub)) trivial
  | join s =>
    obtain ⟨r, hr, rfl⟩ := subStep_eq_some hstep
    exact h.setSub s (connectStep_timely hr)
  | recv s =>
    obtain rfl := step_recv hstep
    exact h.setSub s (recvStart_timely _ _)
  | read s =>
    obtain ⟨slots, x', hr, rfl, hlap⟩ := step_read hok hstep
    exact h.setSub s (recvStep_timely hseq.mem (hseq.subs s) (h s) hlap hr).1
  | drop s =>
    obtain ⟨r, hr, rfl⟩ := subStep_eq_some hstep
    exact h.setSub s (dropStep_timely hr)
  | tick | spawn =>
    cases hstep
    exact h
  | exit p =>
    cases hstep
    intro s
    have hs := h s
    dsimp only
    split
    · exact hs
    · exact hs

/-- **Run.** -/
theorem timely_run {as : List (Act cfg W S)}
    (hrun : Run (step pid) InTime (init cfg W S) as st) : SeqInv st ∧ st.Timely :=
  hrun.invariant (I := fun st => SeqInv st ∧ st.Timely)
    ⟨seqInv_init cfg W S, fun _ => trivial⟩
    (fun _ _ _ h hok hst => ⟨seqInv_step h.1 hok.1 (step_inv hst), timely_step h.1 h.2 hok hst⟩)

/-- **A lagging subscriber loses no more than it must.** In every run in which no `try_recv` is
    lapped before it loads its stamp: a step of `try_recv` that moves the cursor and receives
    nothing leaves it at no more than the oldest number that is completely stored, and so does a
    call that has moved the cursor and returns `None`. -/
theorem lag_skips_no_stored {as : List (Act cfg W S)}
    (hrun : Run (step pid) InTime (init cfg W S) as st) (hok : InTime st a) {s : S}
    (ha : a = .recv s ∨ a = .read s) (hstep : step pid st a = some st') :
    ((st.sub s).cursor < (st'.sub s).cursor → (st'.sub s).received = (st.sub s).received →
      ∀ q, st'.mem.Stored q → (st'.sub s).cursor ≤ q) ∧
    ∀ c₀ head, (st'.sub s).calls = (st.sub s).calls ++ [(c₀, head, none)] →
      c₀ < (st'.sub s).cursor → ∀ q, st'.mem.Stored q → (st'.sub s).cursor ≤ q := by
  obtain ⟨hseq, htimely⟩ := timely_run hrun
  rcases ha with rfl | rfl
  · obtain rfl := step_recv hstep
    simp only [State.setSub, update_self]
    rcases recvStart_cases st.mem (st.sub s) with hret | hstay | ⟨hfar, hskip⟩
    · -- nothing new: the call returns at once
      rw [hret]
      refine ⟨fun hlt => absurd hlt (Nat.lt_irrefl _), fun c₀ head hr hlt => ?_⟩
      cases List.append_cancel_left hr
      exact absurd hlt (Nat.lt_irrefl _)
    · rw [hstay]
      exact ⟨fun hlt => absurd hlt (Nat.lt_irrefl _), fun c₀ head hr => absurd hr (by simp)⟩
    · -- the skip, to the oldest number that can still be stored
      rw [hskip]
      refine ⟨fun _ _ q hq => ?_, fun c₀ head hr => absurd hr (by simp)⟩
      have hrecent := hseq.mem.stored_recent hq
      show st.mem.writeSeq - cfg.ringSize ≤ q
      omega
  · obtain ⟨slots, x', hr, rfl, hlap⟩ := step_read hok hstep
    simp only [State.setSub, update_self]
    obtain ⟨-, hstays | ⟨hreceived, hcalls⟩⟩ :=
      recvStep_timely hseq.mem (hseq.subs s) (htimely s) hlap hr
    · have hsame := hstays.cursor
      refine ⟨fun hlt => by omega, fun c₀ head hr hlt q hq => ?_⟩
      obtain ⟨hmoved, rfl⟩ := hstays.calls c₀ head hr
      rw [hsame] at hlt ⊢
      exact hmoved.le_stored hseq.mem hlt hq
    · exact ⟨fun _ hr => absurd hr hreceived, fun c₀ head hr => absurd hr (hcalls c₀ head)⟩

end

/-- An unbounded bus with two slots, for values of one word. -/
def pairRing : BusConfig where
  ringSize := 2
  watermark := none
  words := 1
  ringSize_lt := by norm_num
  ringSize_pow := rfl
  watermark_lt := nofun

/-- A whole publish. -/
def publishWord (v : Nat) : List (Act pairRing Nat Unit) :=
  Act.publish (fun _ => v) :: List.replicate 5 Act.pub

/-- A subscriber that is one value more than the ring behind. -/
def behindSteps : List (Act pairRing Nat Unit) :=
  [Act.spawn 7, Act.connect (), Act.join ()] ++ publishWord 10 ++ publishWord 20 ++ publishWord 30

/-- The head load skips number 0, and nothing that is stored. -/
theorem lag_skips_no_stored_behind : ∃ st st' : State pairRing Nat Unit,
    Run (step (fun _ => 7)) InTime (init pairRing Nat Unit) behindSteps st ∧
    step (fun _ => 7) st (.recv ()) = some st' ∧
    (st.sub ()).cursor = 0 ∧ (st'.sub ()).cursor = 1 ∧ ∀ q, st'.mem.Stored q → 1 ≤ q := by
  obtain ⟨st, hrun, st', hstep, hbefore, hafter, hreceived⟩ :=
    exists_run_of_exec (step (fun _ => 7)) InTime (s := init pairRing Nat Unit) (l := behindSteps)
      (p := fun st => ∃ st' ∈ step (fun _ => 7) st (.recv ()), (st.sub ()).cursor = 0 ∧
        (st'.sub ()).cursor = 1 ∧ (st'.sub ()).received = (st.sub ()).received)
      (by decide +kernel)
  refine ⟨st, st', hrun, hstep, hbefore, hafter, ?_⟩
  rw [← hafter]
  exact (lag_skips_no_stored hrun ⟨rfl, rfl⟩ (Or.inl rfl) hstep).1 (by omega) hreceived

/-- The publisher finishes numbers 1 and 2 between the head load and the stamp load. -/
def overtakenSteps : List (Act pairRing Nat Unit) :=
  [Act.spawn 7, Act.connect (), Act.join ()] ++ publishWord 10 ++ [Act.recv ()] ++
    publishWord 20 ++ publishWord 30 ++ [Act.read (), Act.read ()]

/-- The subscriber skips them both, and both are stored. -/
theorem overtaken_skips_stored : ∃ st st' : State pairRing Nat Unit,
    Run (step (fun _ => 7)) Fits (init pairRing Nat Unit) overtakenSteps st ∧
    step (fun _ => 7) st (.read ()) = some st' ∧
    (st.sub ()).cursor = 0 ∧ (st'.sub ()).cursor = 3 ∧ (st'.sub ()).totalLagged = 3 ∧
    (st'.sub ()).calls = [(0, 1, none)] ∧ st'.mem.Stored 1 ∧ st'.mem.Stored 2 := by
  obtain ⟨st, hrun, htest⟩ := exists_run_of_exec (step (fun _ => 7)) Fits
    (s := init pairRing Nat Unit) (l := overtakenSteps)
    (p := fun st : State pairRing Nat Unit =>
      (step (fun _ => 7) st (.read ())).any fun st' : State pairRing Nat Unit =>
        decide ((st.sub ()).cursor = 0 ∧ (st'.sub ()).cursor = 3 ∧ (st'.sub ()).totalLagged = 3 ∧
          (st'.sub ()).calls = [(0, 1, none)] ∧ st'.mem.Stored 1 ∧ st'.mem.Stored 2))
    (by decide +kernel)
  obtain ⟨st', hstep, htest⟩ := (Option.any_eq_true _ _).mp htest
  exact ⟨st, st', hrun, hstep, of_decide_eq_true htest⟩

end Crossbar.Bus
