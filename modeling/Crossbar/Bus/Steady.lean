import Crossbar.Bus.Backpressure

namespace Crossbar.Bus

open Function Crossbar.Lib

/-!
# Bus — the steady state of a bounded bus

While nobody joins, every `try_recv` that finds a value returns it:

* `Sub.CallOk` — where a running `try_recv` stands, and what the finished ones have returned;
* `SubPc.left` / `read_progress` — a running call is always enabled, and one operation nearer
  to its end after each of its steps;
* `Steady` — the states to start from;
* `steady_state_lossless` — assembled from these and `FlowInv`.
-/

variable {cfg : BusConfig} {W S : Type}

/-! ### Calls of `try_recv` -/

/-- A finished call `(cursor, head, result)` has returned the value its cursor was at, if there
    was one. -/
def Answered (mem : Mem cfg W) (r : Nat × Nat × Option (cfg.Value W)) : Prop :=
  r.1 < r.2.1 → ∃ v, r.2.2 = some v ∧ mem.log[r.1]? = some v

/-- A running call has seen the stamp of its cursor. -/
def SubPc.InCall (mem : Mem cfg W) (m : Sub cfg W) : SubPc cfg W → Prop
  | .stamp => m.call.1 = m.cursor
  | .read s _ _ | .restamp s _ => m.call.1 = m.cursor ∧ s = 2 * m.cursor + 2
  | .update _ v => mem.log[m.call.1]? = some v
  | _ => True

/-- The running call and the finished ones, apart from those in `old`. -/
structure Sub.CallOk (mem : Mem cfg W) (old : List (Nat × Nat × Option (cfg.Value W)))
    (m : Sub cfg W) : Prop where
  here : m.pc.InCall mem m
  done : ∀ r ∈ m.calls, r ∈ old ∨ Answered mem r

section

variable {mem : Mem cfg W} {old : List (Nat × Nat × Option (cfg.Value W))} {m : Sub cfg W}

/-- Published values stay published. -/
theorem Sub.CallOk.evolve {mem' : Mem cfg W} (h : m.CallOk mem old) (hE : Evolves mem mem') :
    m.CallOk mem' old := by
  refine ⟨?_, fun r hr => (h.done r hr).imp id (fun hans hlt => ?_)⟩
  · have hloc := h.here
    cases hpc : m.pc with
    | update i v =>
      rw [hpc] at hloc
      exact hE.log _ _ hloc
    | _ =>
      rw [hpc] at hloc
      exact hloc
  · obtain ⟨v, hv, hlog⟩ := hans hlt
    exact ⟨v, hv, hE.log _ _ hlog⟩

/-- A step that finishes no call. -/
theorem Sub.CallOk.of_pc {m' : Sub cfg W} (h : m.CallOk mem old) (hcalls : m'.calls = m.calls)
    (hloc : m'.pc.InCall mem m') : m'.CallOk mem old := by
  refine ⟨hloc, ?_⟩
  rw [hcalls]
  exact h.done

/-- A call returns. -/
theorem Sub.CallOk.ret {r : Option (cfg.Value W)} (h : m.CallOk mem old)
    (hr : Answered mem (m.call.1, m.call.2, r)) : (m.ret r).CallOk mem old := by
  refine ⟨trivial, fun x hx => ?_⟩
  rcases List.mem_append.mp hx with hold | hlast
  · exact h.done x hold
  · rw [List.mem_singleton] at hlast
    subst hlast
    exact Or.inr hr

theorem readNext_inCall {s k : Nat} {buf : cfg.Value W} (h : m.CallOk mem old)
    (hcall : m.call.1 = m.cursor) (hs : s = 2 * m.cursor + 2) :
    (m.readNext s k buf).CallOk mem old := by
  unfold Sub.readNext
  split <;> exact h.of_pc rfl ⟨hcall, hs⟩

/-- **Calls.** A step of a subscriber whose next value is in the ring. -/
theorem Sub.CallOk.step [Inhabited W] {pid : Nat} {st : State cfg W S} {m' : Sub cfg W}
    {slots : SlotIdx → SubSlot} {pub : PubPc cfg W} (h : m.CallOk st.mem old)
    (hm : MemInv st.mem pub) (hread : ReadInv st.mem m) (hsub : SubStep pid st m slots m')
    (hkept : m.pc.connected = true → m.Kept st.mem ∧ ∃ i, m.slotIndex = some i) :
    m'.CallOk st.mem old := by
  have hloc := h.here
  have hhere := hread.here
  cases hsub with
  | load hpc =>
    refine h.of_pc rfl ?_
    split <;> trivial
  | taken hpc _ =>
    unfold Sub.claimNext
    split <;> exact h.of_pc rfl trivial
  | recv hpc =>
    by_cases hlt : m.cursor < st.mem.writeSeq
    · rw [recvStart_behind (hkept (by rw [hpc]; rfl)).1 hlt]
      exact h.of_pc rfl rfl
    · rw [recvStart_empty (not_lt.mp hlt)]
      refine Sub.CallOk.ret (h.of_pc rfl ?_) (fun hbehind => absurd hbehind hlt)
      show SubPc.InCall st.mem _ m.pc
      rw [hpc]
      trivial
  | busy hpc hbusy =>
    -- the slot holds the value, so its stamp is neither odd nor 0
    rw [hpc] at hhere
    obtain ⟨hk, _⟩ := hkept (by rw [hpc]; rfl)
    rw [(hk.next hhere).1, Nat.and_one_is_mod] at hbusy
    omega
  | stamp hpc _ _ =>
    rw [hpc] at hhere hloc
    obtain ⟨hk, _⟩ := hkept (by rw [hpc]; rfl)
    exact readNext_inCall h hloc (hk.next hhere).1
  | read hpc =>
    rw [hpc] at hloc
    exact readNext_inCall h hloc.1 hloc.2
  | torn hpc htorn =>
    rw [hpc] at hhere hloc
    obtain ⟨hk, _⟩ := hkept (by rw [hpc]; rfl)
    rw [(hk.next hhere.1.lt).1, hloc.2] at htorn
    exact absurd rfl htorn
  | @whole s buf hpc hstamp =>
    rw [hpc] at hhere hloc
    obtain ⟨hk, i, hi⟩ := hkept (by rw [hpc]; rfl)
    have hlt := hhere.1.lt
    rw [recvEnd_mine hloc.2 (lt_trans hlt hm.lt) hi]
    refine h.of_pc rfl ?_
    show st.mem.log[m.call.1]? = some buf
    rw [hloc.1, hhere.2 hstamp]
    exact (hk.next hlt).2
  | update hpc =>
    rw [hpc] at hloc
    exact h.ret (fun _ => ⟨_, rfl, hloc⟩)
  | _ => exact h.of_pc rfl trivial

end

/-! ### Progress of a call -/

/-- The operations that a running `try_recv` has still to do. -/
def SubPc.left : SubPc cfg W → Nat
  | .stamp => cfg.words + 3
  | .read _ k _ => cfg.words - k + 2
  | .restamp _ _ => 2
  | .update _ _ => 1
  | _ => 0

theorem readNext_left (m : Sub cfg W) {s k : Nat} {buf : cfg.Value W} (hk : k ≤ cfg.words) :
    (m.readNext s k buf).pc.left = cfg.words - k + 2 := by
  unfold Sub.readNext
  split
  · rfl
  · show 2 = _
    omega

/-- A running call takes its next step, and none of its early exits. -/
theorem recvStep_left [Inhabited W] {mem : Mem cfg W} (slots : SlotIdx → SubSlot) {m : Sub cfg W}
    {old : List (Nat × Nat × Option (cfg.Value W))} {pub : PubPc cfg W} {i : SlotIdx}
    (hm : MemInv mem pub) (hread : ReadInv mem m) (h : m.CallOk mem old) (hk : m.Kept mem)
    (hi : m.slotIndex = some i) (hleft : 0 < m.pc.left) :
    ∃ r, recvStep mem slots m = some r ∧ r.2.pc.left + 1 = m.pc.left := by
  have hloc := h.here
  have hhere := hread.here
  cases hpc : m.pc with
  | stamp =>
    rw [hpc] at hhere
    have hstamp := (hk.next hhere).1
    refine ⟨(slots, m.readNext (2 * m.cursor + 2) 0 default), ?_, ?_⟩
    · have hodd : ¬ ((2 * m.cursor + 2) &&& 1 ≠ 0) := by
        rw [Nat.and_one_is_mod]
        omega
      simp only [recvStep, hpc, hstamp]
      rw [if_neg hodd, if_neg (by omega)]
    · rw [readNext_left m (Nat.zero_le _)]
      rfl
  | read s k buf =>
    have hlt := k.isLt
    refine ⟨(slots, m.readNext s (k + 1)
      (update buf k ((mem.ring (cfg.slotOf m.cursor)).data k))), ?_, ?_⟩
    · simp only [recvStep, hpc]
    rw [readNext_left m (by omega)]
    show cfg.words - (k.val + 1) + 2 + 1 = cfg.words - k.val + 2
    omega
  | restamp s buf =>
    rw [hpc] at hhere hloc
    have hlt := hhere.1.lt
    have hstamp : ¬ (mem.ring (cfg.slotOf m.cursor)).stamp ≠ s := by
      rw [(hk.next hlt).1, hloc.2]
      exact not_not.mpr rfl
    refine ⟨(slots, recvEnd m s buf), ?_, ?_⟩
    · simp only [recvStep, hpc]
      rw [if_neg hstamp]
    · rw [recvEnd_mine hloc.2 (lt_trans hlt hm.lt) hi]
      rfl
  | update j v =>
    refine ⟨(setWordAt slots j (.active (value62 m.cursor)), m.ret (some v)), ?_, rfl⟩
    simp only [recvStep, hpc]
  | _ =>
    rw [hpc] at hleft
    cases hleft

/-! ### Steady states -/

/-- Between calls, or not there. -/
def SubPc.calm : SubPc cfg W → Bool
  | .absent | .rest | .gone => true
  | _ => false

/-- A steady state of a bounded bus: the publisher and the live subscribers are between calls,
    nobody is joining, and every live subscriber has a slot of its own that is `ACTIVE` with its
    cursor.  `seq` is what every run keeps (`seqInv_run`). -/
structure Steady (pid : S → Nat) (st : State cfg W S) : Prop where
  seq : SeqInv st
  idle : st.pub = .idle
  calm : ∀ s, (st.sub s).crashed = false → (st.sub s).pc.calm = true
  alive : ∀ s, (st.sub s).crashed = false → (st.sub s).pc.connected = true →
    st.alive (pid s) = true
  slot : ∀ s, (st.sub s).crashed = false → (st.sub s).pc.connected = true →
    ∃ i, (st.sub s).slotIndex = some i ∧ (st.slots i).word = .active (st.sub s).cursor ∧
      ((st.slots i).pid = pid s ∨ (st.slots i).pid = 0)
  one : ∀ s s' i, (st.sub s).crashed = false → (st.sub s).pc.connected = true →
    (st.sub s').crashed = false → (st.sub s').pc.connected = true →
    (st.sub s).slotIndex = some i → (st.sub s').slotIndex = some i → s = s'
  bound : ∀ s, (st.sub s).crashed = false → (st.sub s).pc.connected = true →
    (st.sub s).cursor ≤ st.mem.writeSeq ∧
    st.mem.writeSeq ≤ (st.sub s).cursor + cfg.effective ∧
    st.cachedSlowest ≤ (st.sub s).cursor ∧ (st.sub s).totalLagged = 0

/-- `connect` is running. -/
def SubPc.connecting (pc : SubPc cfg W) : Bool :=
  match pc with
  | .connect => true
  | pc => pc.joining

/-- The step calls `connect`. -/
def Act.connects : Act cfg W S → Bool
  | .connect _ => true
  | _ => false

/-- Fewer than `2 ^ 62` publishes, and nobody joins. -/
def NoConnect (st : State cfg W S) (a : Act cfg W S) : Prop := Fits st a ∧ a.connects = false

instance (st : State cfg W S) (a : Act cfg W S) : Decidable (NoConnect st a) :=
  inferInstanceAs (Decidable (_ ∧ _))

/-- What every run from a steady state keeps. -/
structure SteadyInv (pid : S → Nat) (old : S → List (Nat × Nat × Option (cfg.Value W)))
    (st : State cfg W S) : Prop where
  own : OwnInv pid st
  flow : FlowInv False st
  calls : ∀ s, (st.sub s).crashed = false → (st.sub s).CallOk st.mem (old s)
  nobody : ∀ s, (st.sub s).crashed = false → (st.sub s).pc.connecting = false

section

variable {pid : S → Nat} {old : S → List (Nat × Nat × Option (cfg.Value W))}
  {st st' : State cfg W S}

variable (st) in
theorem SubPc.not_connecting {pc : SubPc cfg W} (h : pc.connecting = false) :
    pc ≠ .connect ∧ pc.joining = false ∧ pc.claimTime = none ∧ pc.ClaimOk st := by
  cases pc with
  | connect | clock | claim | storePid | activate => cases h
  | _ => exact ⟨nofun, rfl, rfl, trivial⟩

theorem SubPc.calm_cases {pc : SubPc cfg W} (h : pc.calm = true) :
    pc = .absent ∨ pc = .rest ∨ pc = .gone := by
  cases pc with
  | absent => exact Or.inl rfl
  | rest => exact Or.inr (Or.inl rfl)
  | gone => exact Or.inr (Or.inr rfl)
  | _ => cases h

theorem Quiet.not_connecting {m m' : Sub cfg W} (h : Quiet m m') : m'.pc.connecting = false := by
  rcases h.pc with hc | hf
  · cases hpc : m'.pc <;> rw [hpc] at hc <;> first | rfl | cases hc
  · rw [hf]
    rfl

/-- Only `connect` leads into `connect`. -/
theorem SubStep.not_connecting [Inhabited W] {p : Nat} {m m' : Sub cfg W}
    {slots : SlotIdx → SubSlot} (h : SubStep p st m slots m') (hlt : m.cursor + 1 < 2 ^ 64)
    (hm : m.pc.connecting = false) : m'.pc.connecting = false := by
  cases h with
  | load hpc | clock hpc | claim hpc | taken hpc | storePid hpc => rw [hpc] at hm; cases hm
  | recv _ => exact (recvStart_quiet st.mem m).not_connecting
  | stamp | read => exact (readNext_quiet m _ _ _).not_connecting
  | whole _ _ => exact (recvEnd_quiet hlt _ _).not_connecting
  | _ => rfl

/-- The start. -/
theorem Steady.inv (h : Steady pid st) : SteadyInv pid (fun s => (st.sub s).calls) st := by
  have hnobody : ∀ s, (st.sub s).crashed = false → (st.sub s).pc.connecting = false := by
    intro s hlive
    rcases SubPc.calm_cases (h.calm s hlive) with hpc | hpc | hpc <;> rw [hpc] <;> rfl
  -- a live holder is connected
  have hjoined : ∀ {s i ph}, st.Holds s i ph → ph = .joined ∧ (st.sub s).pc.connected = true ∧
      (st.sub s).slotIndex = some i := by
    intro s i ph hold
    cases ph with
    | claimed ts stored =>
      have hts := Sub.held_claimed hold.2
      rw [(SubPc.not_connecting st (hnobody s hold.1)).2.2.1] at hts
      cases hts
    | joined => exact ⟨rfl, Sub.held_joined hold.2⟩
  refine ⟨⟨h.seq, fun s hlive => ?_, fun s hpres hlive => ?_, fun s ts hlive hts => ?_,
    fun s i ph hold => ?_, fun s s' i ph ph' hold hold' => ?_, ?_⟩,
    ⟨nofun, fun s hlive hconn => ?_, fun s hs => ?_, ?_⟩, fun s hlive => ⟨?_, fun r hr => ?_⟩,
    hnobody⟩
  · rcases SubPc.calm_cases (h.calm s hlive) with hpc | hpc | hpc <;> rw [hpc] <;> trivial
  · refine h.alive s hlive ?_
    rcases SubPc.calm_cases (h.calm s hlive) with hpc | hpc | hpc <;> rw [hpc] at hpres ⊢
    · cases hpres
    · rfl
    · cases hpres
  · rw [(SubPc.not_connecting st (hnobody s hlive)).2.2.1] at hts
    cases hts
  · obtain ⟨rfl, hconn, hslot⟩ := hjoined hold
    obtain ⟨j, hj, hword, hpid⟩ := h.slot s hold.1 hconn
    rw [hslot] at hj
    cases hj
    exact ⟨⟨_, hword, le_rfl⟩, hpid⟩
  · obtain ⟨_, hconn, hslot⟩ := hjoined hold
    obtain ⟨_, hconn', hslot'⟩ := hjoined hold'
    exact h.one s s' i hold.1 hconn hold'.1 hconn' hslot hslot'
  · rw [h.idle]
    trivial
  · obtain ⟨i, hi, _⟩ := h.slot s hlive hconn
    exact ⟨i, hi⟩
  · rcases hs.cases with hjoining | hconn
    · rw [(SubPc.not_connecting st (hnobody s hs.1)).2.1] at hjoining
      cases hjoining
    · obtain ⟨hle, hroom, hcached, hlag⟩ := h.bound s hs.1 hconn
      exact ⟨hcached, hle, hroom, hlag⟩
  · rw [h.idle]
    trivial
  · rcases SubPc.calm_cases (h.calm s hlive) with hpc | hpc | hpc <;> rw [hpc] <;> trivial
  · exact Or.inl hr

/-! ### Runs from a steady state -/

/-- Where nobody joins, no claim can go wrong. -/
theorem SteadyInv.ownOk (h : SteadyInv pid old st) (a : Act cfg W S) : OwnOk st a := by
  have hclaim : ∀ s ∈ a.subject, (st.sub s).crashed = false → (st.sub s).pc.ClaimOk st :=
    fun s _ hlive => (SubPc.not_connecting st (h.nobody s hlive)).2.2.2
  cases a with
  | tick n =>
    intro s hlive ts hts
    rw [(SubPc.not_connecting st (h.nobody s hlive)).2.2.1] at hts
    cases hts
  | _ => exact hclaim

theorem SteadyInv.kept (h : SteadyInv pid old st) {s : S} (hlive : (st.sub s).crashed = false)
    (hconn : (st.sub s).pc.connected = true) :
    (st.sub s).Kept st.mem ∧ ∃ i, (st.sub s).slotIndex = some i :=
  ⟨h.flow.kept h.own.seq.mem ⟨hlive, SubPc.tracked_of_connected hconn⟩, h.flow.slot s hlive hconn⟩

variable [Inhabited W] [DecidableEq S]

/-- **Step.** -/
theorem steadyInv_step {w : Nat} (hw : cfg.watermark = some w) {a : Act cfg W S}
    (h : SteadyInv pid old st) (hok : NoConnect st a) (hst : Step pid st a st') :
    SteadyInv pid old st' := by
  have hfacts := fun s hlive => SubPc.not_connecting st (h.nobody s hlive)
  refine ⟨ownInv_step h.own ⟨hok.1, h.ownOk a⟩ hst, flowInv_step hw h.flow h.own ?_ ?_ hst, ?_, ?_⟩
  · intro _ s hlive hjoining
    rw [(hfacts s hlive).2.1] at hjoining
    cases hjoining
  · exact fun s hlive hpc => absurd hpc (hfacts s hlive).1
  · cases hst with
    | pub hpub =>
      intro s
      rw [hpub.sub_eq]
      exact fun hlive => (h.calls s hlive).evolve (seqInv_pub h.own.seq hok.1 hpub).2
    | connect _ _ _ => cases hok.2
    | @sub _ s slots m _ hlive hsub =>
      intro s'
      by_cases hne : s' = s
      · subst hne
        simp only [State.setSub, update_self]
        exact fun _ => (h.calls s' hlive).step h.own.seq.mem (h.own.seq.subs s') hsub (h.kept hlive)
      · simp only [State.setSub, update_of_ne hne]
        exact h.calls s'
    | exit p =>
      intro s
      simp only
      split
      · exact fun hlive => absurd hlive (by simp)
      · exact h.calls s
    | _ => exact h.calls
  · cases hst with
    | pub hpub =>
      rw [hpub.sub_eq]
      exact h.nobody
    | connect _ _ _ => cases hok.2
    | @sub _ s slots m _ hlive hsub =>
      intro s'
      by_cases hne : s' = s
      · subst hne
        have hcur := (h.own.seq.subs s').cursor_le
        have hlt := h.own.seq.mem.lt
        simp only [State.setSub, update_self]
        exact fun _ => hsub.not_connecting (by omega) (h.nobody s' hlive)
      · simp only [State.setSub, update_of_ne hne]
        exact h.nobody s'
    | exit p =>
      intro s
      simp only
      split
      · exact fun hlive => absurd hlive (by simp)
      · exact h.nobody s
    | _ => exact h.nobody

/-- A running call of `try_recv` is enabled, and its next step brings it nearer to its end. -/
theorem read_progress (h : SteadyInv pid old st) {s : S} (hlive : (st.sub s).crashed = false)
    (hleft : 0 < (st.sub s).pc.left) :
    ∃ st', step pid st (.read s) = some st' ∧
      (st'.sub s).pc.left + 1 = (st.sub s).pc.left := by
  have hconn : (st.sub s).pc.connected = true := by
    cases hpc : (st.sub s).pc <;> rw [hpc] at hleft <;> first | rfl | cases hleft
  obtain ⟨hk, i, hi⟩ := h.kept hlive hconn
  obtain ⟨r, hr, hdone⟩ := recvStep_left st.slots h.own.seq.mem (h.own.seq.subs s)
    (h.calls s hlive) hk hi hleft
  refine ⟨st.setSub s r, ?_, ?_⟩
  · simp only [step, State.subStep, hlive, hr]
    rfl
  · simp only [State.setSub, update_self]
    exact hdone

/-- **A bounded bus never overwrites an unread value.** From every steady state, under every
    interleaving of the publisher with the calls of the subscribers, as long as nobody joins:
    every live subscriber stays within `ring_size - watermark` of `write_seq`, has never lagged,
    and each of its finished calls of `try_recv` that began with cursor `c` below the head has
    returned value number `c`.  A running call returns: its next step is enabled and leaves one
    operation less. -/
theorem steady_state_lossless {w : Nat} (hw : cfg.watermark = some w) {st₀ : State cfg W S}
    (h₀ : Steady pid st₀) {as : List (Act cfg W S)} (hrun : Run (step pid) NoConnect st₀ as st)
    {s : S} (hlive : (st.sub s).crashed = false) (hconn : (st.sub s).pc.connected = true) :
    (st.sub s).cursor ≤ st.mem.writeSeq ∧
    st.mem.writeSeq - (st.sub s).cursor ≤ cfg.ringSize - w ∧
    (st.sub s).totalLagged = 0 ∧
    (∀ r ∈ (st.sub s).calls, r ∈ (st₀.sub s).calls ∨
      (r.1 < r.2.1 → ∃ v, r.2.2 = some v ∧ st.mem.log[r.1]? = some v)) ∧
    (0 < (st.sub s).pc.left → ∃ st', step pid st (.read s) = some st' ∧
      (st'.sub s).pc.left + 1 = (st.sub s).pc.left) := by
  have h : SteadyInv pid (fun s => (st₀.sub s).calls) st :=
    hrun.invariant h₀.inv (fun _ _ _ hI hok hst => steadyInv_step hw hI hok (step_inv hst))
  obtain ⟨_, hle, hroom, hlag⟩ := h.flow.paced s ⟨hlive, SubPc.tracked_of_connected hconn⟩
  rw [BusConfig.effective_eq hw] at hroom
  exact ⟨hle, by omega, hlag, (h.calls s hlive).done, read_progress h hlive⟩

end

/-- The publisher fills the ring, and the first subscriber reads. -/
def fillSteps : List (Act tightBus Nat Bool) :=
  .publish (fun _ => 1) :: List.replicate 6 .pub ++ .recv false :: List.replicate 4 (.read false)

/-- After two subscribers have joined: value number 0 is returned. -/
theorem steady_state_lossless_two : ∃ st₀ st : State tightBus Nat Bool,
    Steady twoPids st₀ ∧ Run (step twoPids) NoConnect st₀ fillSteps st ∧
    (st.sub false).calls = [(0, 1, some (fun _ => 1))] ∧ (st.sub false).totalLagged = 0 ∧
    st.mem.writeSeq - (st.sub true).cursor ≤ 1 := by
  obtain ⟨st₀, st, hrun₀, ⟨hsubs, hslots, hseq, hcached, hidle⟩, hrun, hcalls, hend⟩ :=
    exists_runs_of_exec (step twoPids) Prompt NoConnect (s := init tightBus Nat Bool)
      (l := promptSteps) (m := fillSteps)
      (p := fun st => (∀ s, (st.sub s).pc.calm = true ∧ st.alive (twoPids s) = true ∧
          (st.sub s).cursor = 0 ∧ (st.sub s).totalLagged = 0 ∧
          (st.sub s).slotIndex = some (if s then 1 else 0)) ∧
        (∀ s : Bool, st.slots (if s then 1 else 0) = ⟨twoPids s, .active 0⟩) ∧
        st.mem.writeSeq = 0 ∧ st.cachedSlowest = 0 ∧ st.pub.isIdle = true)
      (q := fun st => (st.sub false).calls = [(0, 1, some (fun _ => 1))] ∧
        ∀ s, (st.sub s).crashed = false ∧ (st.sub s).pc.connected = true) (by decide +kernel)
  have hsteady : Steady twoPids st₀ := by
    refine ⟨seqInv_run (hrun₀.mono (fun _ _ hok => hok.1)), PubPc.eq_idle hidle,
      fun s _ => (hsubs s).1, fun s _ _ => (hsubs s).2.1, fun s _ _ => ?_,
      fun s s' i _ _ _ _ hi hi' => ?_,
      fun s _ _ => ?_⟩
    · refine ⟨_, (hsubs s).2.2.2.2, ?_, Or.inl ?_⟩
      · rw [hslots s, (hsubs s).2.2.1]
      · rw [hslots s]
    · rw [(hsubs s).2.2.2.2] at hi
      rw [(hsubs s').2.2.2.2, ← hi] at hi'
      revert hi'
      cases s <;> cases s' <;> decide
    · rw [(hsubs s).2.2.1, (hsubs s).2.2.2.1, hseq, hcached]
      exact ⟨le_rfl, Nat.zero_le _, le_rfl, rfl⟩
  obtain ⟨_, _, hlag, _, _⟩ := steady_state_lossless rfl hsteady hrun (hend false).1 (hend false).2
  obtain ⟨_, hroom, _, _, _⟩ := steady_state_lossless rfl hsteady hrun (hend true).1 (hend true).2
  exact ⟨st₀, st, hsteady, hrun, hcalls, hlag, hroom⟩

end Crossbar.Bus
