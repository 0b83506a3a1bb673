import Crossbar.Bus.Slots

namespace Crossbar.Bus

open Function Crossbar.Lib

/-!
# Bus — the pid in a subscriber slot

`drop` and both prune branches free the slot first and clear its pid in a second store.  The
pid is what the publisher tells a crashed subscriber by.

* `State.OwesClear` — somebody has freed the slot and not cleared its pid yet;
* `PidInv` — as long as nobody claims such a slot, a holder's pid stands in its slot;
* `Abandoned` — the slot of a crashed subscriber, until the publisher frees it;
* `slot_pid_is_owners` — the pid stands, and a crash is found by the next scan;
* `late_clear_hides_owner` — a late clear hits the next owner of the slot, whose crash then
  blocks the bus.
-/

variable {cfg : BusConfig} {W S : Type}

/-! ### The owed clear -/

/-- The publisher has freed slot `i` and has still to clear its pid. -/
def PubPc.clearing (i : SlotIdx) : PubPc cfg W → Bool
  | .scan _ sc .clearPid => sc.i == i
  | _ => false

/-- A running `drop` has freed slot `i` and has still to clear its pid. -/
def SubPc.clearing (i : SlotIdx) : SubPc cfg W → Bool
  | .clearPid j => j == i
  | _ => false

/-- Somebody has still to clear the pid of slot `i`. -/
def State.OwesClear (st : State cfg W S) (i : SlotIdx) : Prop :=
  (∃ s, (st.sub s).crashed = false ∧ (st.sub s).pc.clearing i = true) ∨ st.pub.clearing i = true

/-- The pid of the holder is in the slot. -/
def Phase.stored : Phase → Bool
  | .claimed _ stored => stored
  | .joined => true

/-- The pids in the slots. -/
structure PidInv (pid : S → Nat) (st : State cfg W S) : Prop where
  exact : ∀ s i ph, st.Holds s i ph → ph.stored = true → (st.slots i).pid = pid s
  owed : ∀ i, st.OwesClear i → ∀ s ph, ¬ st.Holds s i ph

/-- The test is exact. -/
theorem SubPc.clearing_iff {pc : SubPc cfg W} {i : SlotIdx} :
    pc.clearing i = true ↔ pc = .clearPid i := by
  cases pc <;> simp [SubPc.clearing]

/-- Who clears the pid of a slot has given it up. -/
theorem Sub.held_clearing {m : Sub cfg W} {i : SlotIdx} (h : m.pc.clearing i = true) :
    m.held = none := by
  rw [SubPc.clearing_iff] at h
  simp only [Sub.held, h]
  rfl

/-! ### A step of a subscriber -/

section

variable {pid : S → Nat} {st st' : State cfg W S} {s : S} {m : Sub cfg W}
  {slots : SlotIdx → SubSlot}

/-- The slots of the others keep their pids. -/
theorem PidInv.exact_other (h : PidInv pid st) (hown : OwnInv pid st)
    (hs : (st.sub s).crashed = false)
    (hmove : SlotMove (pid s) st.slots (st.sub s) m slots) {s' : S} (hne : s' ≠ s) {i : SlotIdx}
    {ph : Phase} (hold : st.Holds s' i ph) (hph : ph.stored = true) :
    (slots i).pid = pid s' := by
  have hpid := h.exact s' i ph hold hph
  cases hmove with
  | keep _ _ => exact hpid
  | claim | active | release => rw [setWordAt_pid, hpid]
  | @storePid j ts hj _ =>
    have hij : i ≠ j := by
      rintro rfl
      exact hne (hown.one s' s i ph _ hold ⟨hs, hj⟩)
    rw [setPidAt_of_ne _ _ _ hij, hpid]
  | @clearPid j hpc _ =>
    have hij : i ≠ j := by
      rintro rfl
      exact h.owed i (Or.inl ⟨s, hs, SubPc.clearing_iff.mpr hpc⟩) s' ph hold
    rw [setPidAt_of_ne _ _ _ hij, hpid]

/-- The slot of `s` itself. -/
theorem PidInv.exact_self (h : PidInv pid st) (hs : (st.sub s).crashed = false)
    (hmove : SlotMove (pid s) st.slots (st.sub s) m slots) {i : SlotIdx} {ph : Phase}
    (hnew : m.held = some (i, ph)) (hph : ph.stored = true) : (slots i).pid = pid s := by
  cases hmove with
  | keep hkeep _ => exact h.exact s i ph ⟨hs, (hkeep _ hnew).1⟩ hph
  | claim _ _ hm =>
    rw [hm] at hnew
    cases hnew
    cases hph
  | storePid _ hm =>
    rw [hm] at hnew
    cases hnew
    rw [setPidAt_self]
  | @active j ph' hold hstored hm =>
    rw [hm] at hnew
    cases hnew
    rw [setWordAt_pid]
    refine h.exact s _ ph' ⟨hs, hold⟩ ?_
    cases ph' with
    | claimed ts stored =>
      cases stored with
      | false => exact absurd rfl (hstored ts)
      | true => rfl
    | joined => rfl
  | release _ hpc | clearPid _ hpc =>
    simp only [Sub.held, hpc] at hnew
    cases hnew

/-- After the step a clear is owed that was owed before, or the step has freed the slot. -/
theorem State.OwesClear.back [DecidableEq S]
    (hmove : SlotMove (pid s) st.slots (st.sub s) m slots) {i : SlotIdx}
    (h : (st.setSub s (slots, m)).OwesClear i) :
    st.OwesClear i ∨ (m.held = none ∧ (st.sub s).held = some (i, .joined)) := by
  rcases h with ⟨s', hlive, hclear⟩ | hpub
  · by_cases hne : s' = s
    · subst hne
      simp only [State.setSub, update_self] at hclear
      have hnone := Sub.held_clearing hclear
      cases hmove with
      | keep _ hno => exact absurd (SubPc.clearing_iff.mp hclear) (hno i)
      | claim _ _ hm | storePid _ hm | active _ _ hm => rw [hm] at hnone; cases hnone
      | release hold hpc =>
        have hi := SubPc.clearing_iff.mp hclear
        rw [hpc] at hi
        cases hi
        exact Or.inr ⟨hnone, hold⟩
      | clearPid _ hpc =>
        rw [hpc] at hclear
        cases hclear
    · simp only [State.setSub, update_of_ne hne] at hlive hclear
      exact Or.inl (Or.inl ⟨s', hlive, hclear⟩)
  · exact Or.inl (Or.inr hpub)

/-- A step that claims no slot whose pid is still to be cleared. -/
theorem pidInv_sub [DecidableEq S] (h : PidInv pid st) (hown : OwnInv pid st)
    (hs : (st.sub s).crashed = false) (hmove : SlotMove (pid s) st.slots (st.sub s) m slots)
    (hclear : ∀ i ts, (st.sub s).pc = .claim i ts → (st.slots i).word = .free →
      ¬ st.OwesClear i) : PidInv pid (st.setSub s (slots, m)) := by
  refine ⟨fun s' i ph hold hph => ?_, fun i howes s' ph hold => ?_⟩
  · obtain ⟨hlive, hheld⟩ := hold
    by_cases hne : s' = s
    · subst hne
      simp only [State.setSub, update_self] at hheld
      exact h.exact_self hs hmove hheld hph
    · simp only [State.setSub, update_of_ne hne] at hlive hheld
      exact h.exact_other hown hs hmove hne ⟨hlive, hheld⟩ hph
  · rcases howes.back hmove with howes' | ⟨hnone, hfreed⟩
    · -- the slot was not held before, so this step has claimed it
      rcases hold.back hs hmove with ⟨ph', hold', _⟩ | ⟨_, ts, hpc, hfree⟩
      · exact h.owed i howes' s' ph' hold'
      · exact hclear i ts hpc hfree howes'
    · -- the slot was freed by its only holder
      have heq : s' = s := by
        rcases hold.back hs hmove with ⟨ph', hold', _⟩ | ⟨heq, _⟩
        · exact hown.one s' s i ph' _ hold' ⟨hs, hfreed⟩
        · exact heq
      subst heq
      have hheld := hold.2
      simp only [State.setSub, update_self] at hheld
      rw [hnone] at hheld
      cases hheld

/-! ### A step of the publisher -/

/-- A clear that the publisher owes belongs to a slot it has freed. -/
theorem PidInv.of_pub (h : PidInv pid st) {mem : Mem cfg W} {slots : SlotIdx → SubSlot}
    {cached : Nat} {pub : PubPc cfg W}
    (hpid : ∀ s i ph, st.Holds s i ph → (slots i).pid = (st.slots i).pid)
    (hclear : ∀ i, pub.clearing i = true → ∀ s ph, ¬ st.Holds s i ph) :
    PidInv pid { st with mem := mem, slots := slots, cachedSlowest := cached, pub := pub } := by
  refine ⟨fun s i ph hold hph => ?_, fun i howes s ph hold => ?_⟩
  · show (slots i).pid = pid s
    rw [hpid s i ph hold]
    exact h.exact s i ph hold hph
  · rcases howes with hsub | hpub
    · exact h.owed i (Or.inl hsub) s ph hold
    · exact hclear i hpub s ph hold

/-- One operation of the scan. -/
theorem PidInv.visit_step (h : PidInv pid st) (hown : OwnInv pid st) {v : cfg.Value W} {sc : Scan}
    {pc : VisitPc} {next : VisitNext} (hp : st.pub = .scan v sc pc)
    (hvisit : Visit st.slots st.now st.alive sc pc slots next) :
    (∀ s i ph, st.Holds s i ph → (slots i).pid = (st.slots i).pid) ∧
      (next = .stay .clearPid → ∀ s ph, ¬ st.Holds s sc.i ph) := by
  have hok := hown.visit
  rw [hp] at hok
  have hsame : ∀ s i ph, st.Holds s i ph → (st.slots i).pid = (st.slots i).pid :=
    fun _ _ _ _ => rfl
  cases hvisit with
  | prune hw =>
    exact ⟨fun _ _ _ _ => setWordAt_pid _ _ _ _, fun _ => hown.old_claim hw hok⟩
  | pruneActive => exact ⟨fun _ _ _ _ => setWordAt_pid _ _ _ _, fun _ => hok⟩
  | clearPid =>
    refine ⟨fun s i ph hold => ?_, nofun⟩
    have hne : i ≠ sc.i := by
      rintro rfl
      refine h.owed sc.i (Or.inr ?_) s ph hold
      rw [hp]
      simp [PubPc.clearing]
    rw [setPidAt_of_ne _ _ _ hne]
  | _ => exact ⟨hsame, nofun⟩

/-- **Step** of the publisher. -/
theorem pidInv_pub (h : PidInv pid st) (hown : OwnInv pid st) (hst : PubStep st st') :
    PidInv pid st' := by
  cases hst with
  | slow | fast => exact h.of_pub (fun _ _ _ _ => rfl) nofun
  | @stay v sc pc pc' slots hp hvisit =>
    obtain ⟨hpid, hclear⟩ := h.visit_step hown hp hvisit
    refine h.of_pub hpid (fun i hi => ?_)
    cases pc' with
    | clearPid =>
      have hi' : sc.i = i := by simpa [PubPc.clearing] using hi
      subst hi'
      exact hclear rfl
    | _ => cases hi
  | next _ hp hvisit | full _ _ hp hvisit | room _ _ hp hvisit
  | nobody _ hp hvisit => exact h.of_pub (h.visit_step hown hp hvisit).1 nofun
  | @write v pc hp =>
    refine h.of_pub (fun _ _ _ _ => rfl) (fun i hi => ?_)
    cases hnext : (writeStep st.mem v pc).2 <;> rw [hnext] at hi <;> cases hi

end

/-! ### Runs -/

section

variable {pid : S → Nat} {st st' : State cfg W S}

/-- No slot is claimed whose pid is still to be cleared. -/
def SubPc.ClearOk (st : State cfg W S) : SubPc cfg W → Prop
  | .claim i _ => (st.slots i).word = .free → ¬ st.OwesClear i
  | _ => True

/-- The conditions under which the pids stand. -/
def Tidy (st : State cfg W S) (a : Act cfg W S) : Prop :=
  Prompt st a ∧ ∀ s ∈ a.subject, (st.sub s).pc.ClearOk st

instance [Fintype S] (st : State cfg W S) (i : SlotIdx) : Decidable (st.OwesClear i) :=
  inferInstanceAs (Decidable (_ ∨ _))

instance [Fintype S] (st : State cfg W S) : ∀ pc : SubPc cfg W, Decidable (pc.ClearOk st)
  | .claim _ _ => inferInstanceAs (Decidable (_ → _))
  | .absent | .connect | .clock _ | .storePid _ _ | .activate _ _ | .rest | .stamp | .read _ _ _
  | .restamp _ _ | .update _ _ | .release _ | .clearPid _ | .gone | .fault => .isTrue trivial

instance [Fintype S] (st : State cfg W S) (a : Act cfg W S) : Decidable (Tidy st a) :=
  inferInstanceAs (Decidable (_ ∧ _))

/-- The subscribers hold and owe no more than before. -/
theorem PidInv.of_subs (h : PidInv pid st) (hslots : st'.slots = st.slots)
    (hholds : ∀ s i ph, st'.Holds s i ph → st.Holds s i ph)
    (howes : ∀ i, st'.OwesClear i → st.OwesClear i) : PidInv pid st' := by
  refine ⟨fun s i ph hold hph => ?_, fun i hi s ph hold => ?_⟩
  · rw [hslots]
    exact h.exact s i ph (hholds s i ph hold) hph
  · exact h.owed i (howes i hi) s ph (hholds s i ph hold)

/-- A new subscriber owes nothing. -/
theorem State.OwesClear.of_connect [DecidableEq S] {s : S} {i : SlotIdx}
    (h : { st with sub := update st.sub s newSub }.OwesClear i) : st.OwesClear i := by
  rcases h with ⟨s', hlive, hclear⟩ | hpub
  · by_cases hne : s' = s
    · subst hne
      simp only [update_self] at hclear
      cases hclear
    · simp only [update_of_ne hne] at hlive hclear
      exact Or.inl ⟨s', hlive, hclear⟩
  · exact Or.inr hpub

/-- A dead process owes nothing more than before. -/
theorem State.OwesClear.of_exit {p : Nat} {alive : Nat → Bool} {i : SlotIdx}
    (h : { st with
      alive := alive
      sub := fun s =>
        if pid s = p ∧ (st.sub s).pc.present = true then { st.sub s with crashed := true }
        else st.sub s }.OwesClear i) : st.OwesClear i := by
  rcases h with ⟨s, hlive, hclear⟩ | hpub
  · simp only at hlive hclear
    split at hlive
    · cases hlive
    · rename_i hno
      rw [if_neg hno] at hclear
      exact Or.inl ⟨s, hlive, hclear⟩
  · exact Or.inr hpub

/-- The claims of an admissible step. -/
theorem Tidy.claim {a : Act cfg W S} (h : Tidy st a) {s : S} (ha : a.subject = some s) :
    ∀ i ts, (st.sub s).pc = .claim i ts → (st.slots i).word = .free → ¬ st.OwesClear i := by
  intro i ts hpc
  have hclear := h.2 s ha
  rw [hpc] at hclear
  exact hclear

variable [Inhabited W] [DecidableEq S]

/-- **Step.** -/
theorem pidInv_step {a : Act cfg W S} (h : PidInv pid st) (hown : OwnInv pid st)
    (hok : Tidy st a) (hst : Step pid st a st') : PidInv pid st' := by
  cases hst with
  | publish hp =>
    refine h.of_pub (fun _ _ _ _ => rfl) (fun i hi => ?_)
    split at hi <;> cases hi
  | pub hpub => exact pidInv_pub h hown hpub
  | connect _ _ _ =>
    exact h.of_subs rfl (fun _ _ _ hold => hold.of_connect.1) (fun _ hi => hi.of_connect)
  | sub ha hlive hsub => exact pidInv_sub h hown hlive (hown.slotMove hlive hsub).1 (hok.claim ha)
  | tick | spawn => exact h.of_subs rfl (fun _ _ _ hold => hold) (fun _ hi => hi)
  | exit p => exact h.of_subs rfl (fun _ _ _ hold => hold.of_exit.1) (fun _ hi => hi.of_exit)

/-- Owners and pids. -/
theorem pidInv_run {as : List (Act cfg W S)} (hrun : Run (step pid) Tidy (init cfg W S) as st) :
    OwnInv pid st ∧ PidInv pid st := by
  refine hrun.invariant (I := fun st => OwnInv pid st ∧ PidInv pid st) ⟨ownInv_init, ?_, ?_⟩ ?_
  · exact fun _ _ _ h => absurd h.2 nofun
  · exact fun _ _ _ _ h => absurd h.2 nofun
  · intro st a st' h hok hst
    exact ⟨ownInv_step h.1 hok.1 (step_inv hst), pidInv_step h.2 h.1 hok (step_inv hst)⟩

/-! ### A crashed subscriber -/

/-- Slot `i` is `ACTIVE` under pid `p`, and nobody alive has anything to do with it. -/
structure Abandoned (st : State cfg W S) (i : SlotIdx) (p : Nat) : Prop where
  slot : ∃ v, st.slots i = ⟨p, .active v⟩
  nobody : ∀ s ph, ¬ st.Holds s i ph
  settled : ¬ st.OwesClear i

omit [Inhabited W] [DecidableEq S] in
/-- A slot that nobody touches stays abandoned. -/
theorem Abandoned.frame {i : SlotIdx} {p : Nat} (h : Abandoned st i p)
    (hslot : st'.slots i = st.slots i) (hholds : ∀ s ph, st'.Holds s i ph → st.Holds s i ph)
    (howes : st'.OwesClear i → st.OwesClear i) : Abandoned st' i p := by
  refine ⟨?_, fun s ph hold => h.nobody s ph (hholds s ph hold), fun hi => h.settled (howes hi)⟩
  rw [hslot]
  exact h.slot

omit [Inhabited W] in
/-- A step of a subscriber has nothing to do with an abandoned slot. -/
theorem Abandoned.sub {i : SlotIdx} {p : Nat} (h : Abandoned st i p) {s : S} {m : Sub cfg W}
    {slots : SlotIdx → SubSlot} (hs : (st.sub s).crashed = false)
    (hmove : SlotMove (pid s) st.slots (st.sub s) m slots) :
    Abandoned (st.setSub s (slots, m)) i p := by
  obtain ⟨v, hslot⟩ := h.slot
  have hfree : (st.slots i).word ≠ .free := by
    rw [hslot]
    nofun
  have hother : ∀ {j ph}, (st.sub s).held = some (j, ph) → i ≠ j := by
    rintro j ph hj rfl
    exact h.nobody s ph ⟨hs, hj⟩
  refine h.frame ?_ (fun s' ph hold => ?_) (fun howes => ?_)
  · show slots i = st.slots i
    cases hmove with
    | keep _ _ => rfl
    | @claim j ts _ hj _ =>
      have hij : i ≠ j := by
        rintro rfl
        exact hfree hj
      exact setWordAt_of_ne _ _ _ hij
    | storePid hj _ => exact setPidAt_of_ne _ _ _ (hother hj)
    | active hj | release hj => exact setWordAt_of_ne _ _ _ (hother hj)
    | @clearPid j hpc _ =>
      have hij : i ≠ j := by
        rintro rfl
        exact h.settled (Or.inl ⟨s, hs, SubPc.clearing_iff.mpr hpc⟩)
      exact setPidAt_of_ne _ _ _ hij
  · rcases hold.back hs hmove with ⟨ph', hold', _⟩ | ⟨_, _, _, hi⟩
    · exact absurd hold' (h.nobody s' ph')
    · exact absurd hi hfree
  · rcases howes.back hmove with howes' | ⟨_, hheld⟩
    · exact howes'
    · exact absurd rfl (hother hheld)

omit [Inhabited W] [DecidableEq S] in
/-- One operation of the scan leaves an abandoned slot alone or frees it. -/
theorem Abandoned.visit {i : SlotIdx} {p : Nat} (h : Abandoned st i p) {x : cfg.Value W}
    {sc : Scan} {pc : VisitPc} {slots : SlotIdx → SubSlot} {next : VisitNext}
    (hp : st.pub = .scan x sc pc) (hv : Visit st.slots st.now st.alive sc pc slots next) :
    (slots i = st.slots i ∧ (sc.i = i → next ≠ .stay .clearPid)) ∨ (slots i).word = .free := by
  obtain ⟨v, hslot⟩ := h.slot
  by_cases hi : sc.i = i
  · subst hi
    cases hv with
    | prune hw =>
      rw [hslot] at hw
      cases hw
    | pruneActive =>
      right
      rw [setWordAt_self]
    | clearPid =>
      refine absurd (Or.inr ?_) h.settled
      rw [hp]
      simp [PubPc.clearing]
    | _ => exact Or.inl ⟨rfl, nofun⟩
  · refine Or.inl ⟨?_, fun heq => absurd heq hi⟩
    cases hv with
    | prune | pruneActive => exact setWordAt_of_ne _ _ _ (Ne.symm hi)
    | clearPid => exact setPidAt_of_ne _ _ _ (Ne.symm hi)
    | _ => rfl

omit [Inhabited W] [DecidableEq S] in
/-- The publisher moves to a program counter that owes no clear. -/
theorem Abandoned.of_pub {i : SlotIdx} {p : Nat} (h : Abandoned st i p) {mem : Mem cfg W}
    {slots : SlotIdx → SubSlot} {cached : Nat} {pub : PubPc cfg W} (hsame : slots i = st.slots i)
    (hclear : pub.clearing i = false) :
    Abandoned { st with mem := mem, slots := slots, cachedSlowest := cached, pub := pub } i p := by
  refine h.frame hsame (fun _ _ hold => hold) (fun howes => ?_)
  rcases howes with hsub | hpub
  · exact Or.inl hsub
  · have hpub' : pub.clearing i = true := hpub
    rw [hclear] at hpub'
    cases hpub'

omit [Inhabited W] [DecidableEq S] in
/-- The publisher leaves an abandoned slot alone or frees it. -/
theorem Abandoned.pub {i : SlotIdx} {p : Nat} (h : Abandoned st i p) (hst : PubStep st st') :
    Abandoned st' i p ∨ (st'.slots i).word = .free := by
  cases hst with
  | slow | fast => exact Or.inl (h.of_pub rfl rfl)
  | @stay x sc pc pc' slots hp hv =>
    rcases h.visit hp hv with ⟨hsame, hno⟩ | hfreed
    · refine Or.inl (h.of_pub hsame ?_)
      cases pc' with
      | clearPid =>
        have hne : sc.i ≠ i := fun heq => hno heq rfl
        simpa [PubPc.clearing] using hne
      | _ => rfl
    · exact Or.inr hfreed
  | next _ hp hv | full _ _ hp hv | room _ _ hp hv
  | nobody _ hp hv => exact (h.visit hp hv).imp (fun hsame => h.of_pub hsame.1 rfl) id
  | @write x pc hp =>
    refine Or.inl (h.of_pub rfl ?_)
    cases (writeStep st.mem x pc).2 <;> rfl

/-- **Step.** An abandoned slot stays so until it is freed. -/
theorem Abandoned.step {i : SlotIdx} {p : Nat} {a : Act cfg W S} (h : Abandoned st i p)
    (hown : OwnInv pid st) (hst : Step pid st a st') :
    Abandoned st' i p ∨ (st'.slots i).word = .free := by
  cases hst with
  | publish hp =>
    refine Or.inl (h.frame rfl (fun _ _ hold => hold) (fun howes => ?_))
    rcases howes with hsub | hpub
    · exact Or.inl hsub
    · cases hw : cfg.watermark.isSome <;> simp only [hw] at hpub <;> cases hpub
  | pub hpub => exact h.pub hpub
  | connect _ _ _ =>
    exact Or.inl (h.frame rfl (fun _ _ hold => hold.of_connect.1) (fun hi => hi.of_connect))
  | sub ha hlive hsub => exact Or.inl (h.sub hlive (hown.slotMove hlive hsub).1)
  | tick | spawn => exact Or.inl (h.frame rfl (fun _ _ hold => hold) (fun hi => hi))
  | exit q => exact Or.inl (h.frame rfl (fun _ _ hold => hold.of_exit.1) (fun hi => hi.of_exit))

/-- A connected subscriber whose process ends leaves an abandoned slot. -/
theorem abandoned_of_exit (hown : OwnInv pid st) (h : PidInv pid st) {s : S} {i : SlotIdx}
    (hold : st.Holds s i .joined) (hst : Step pid st (.exit (pid s)) st') :
    Abandoned st' i (pid s) := by
  obtain ⟨⟨v, hv, _⟩, _⟩ := hown.owns s i _ hold
  cases hst with
  | sub ha _ _ => cases ha
  | exit _ =>
    refine ⟨⟨v, ?_⟩, fun s' ph hold' => ?_, fun howes => ?_⟩
    · show st.slots i = _
      rw [← h.exact s i _ hold rfl, ← hv]
    · obtain ⟨hbefore, hno⟩ := hold'.of_exit
      have heq : s' = s := hown.one s' s i ph _ hbefore hold
      subst heq
      exact hno ⟨rfl, Sub.held_present hold.2⟩
    · exact h.owed i howes.of_exit s _ hold

/-! ### The publisher alone -/

/-- The publisher takes some steps while nobody else does. -/
def Solo (pid : S → Nat) (st st' : State cfg W S) : Prop :=
  ∃ n, Run (step pid) Fits st (List.replicate n .pub) st'

/-- One step more at the front. -/
theorem Solo.cons {st₁ st₂ : State cfg W S} (hfit : Fits st .pub)
    (hst : step pid st .pub = some st₁) (h : Solo pid st₁ st₂) : Solo pid st st₂ :=
  Repeats.head hfit hst h

/-- One such run after the other. -/
theorem Solo.trans {st₁ st₂ : State cfg W S} (h : Solo pid st st₁) (h' : Solo pid st₁ st₂) :
    Solo pid st st₂ :=
  Repeats.trans h h'

section

variable {v : cfg.Value W} {sc : Scan} {pc : VisitPc} {w : Nat}

omit [Inhabited W] [DecidableEq S] in
/-- A scan is within every bound. -/
theorem fits_scan (hp : st.pub = .scan v sc pc) : Fits st .pub := by
  unfold Fits publishFits
  rw [hp]

/-- One operation at the slot. -/
theorem Solo.stay {st₂ : State cfg W S} (hw : cfg.watermark = some w)
    (hp : st.pub = .scan v sc pc) {slots : SlotIdx → SubSlot} {pc' : VisitPc}
    (hv : visitStep st.slots st.now st.alive sc pc = (slots, .stay pc'))
    (h : Solo pid { st with slots := slots, pub := .scan v sc pc' } st₂) : Solo pid st st₂ := by
  refine .cons (fits_scan hp) ?_ h
  simp only [step, pubStep, hp, hw, hv]

/-- The last operation at the slot. -/
theorem Solo.done (hw : cfg.watermark = some w) (hp : st.pub = .scan v sc pc)
    {slots : SlotIdx → SubSlot} {sc' : Scan} (hi : sc'.i.val + 1 < maxSubscriberSlots)
    (hv : visitStep st.slots st.now st.alive sc pc = (slots, .done sc')) :
    Solo pid st
      { st with slots := slots, pub := .scan v { sc' with i := ⟨sc'.i.val + 1, hi⟩ } .word } := by
  refine .cons (fits_scan hp) ?_ ⟨0, .nil _⟩
  simp only [step, pubStep, hp, hw, hv, scanNext, dif_pos hi]

variable (pid) in
/-- A visit comes to an end, and touches no other slot. -/
theorem visit_passes (hw : cfg.watermark = some w) (hp : st.pub = .scan v sc .word)
    (hi : sc.i.val + 1 < maxSubscriberSlots) : ∃ st₁ sc₁, Solo pid st st₁ ∧
      st₁.pub = .scan v sc₁ .word ∧ sc₁.i.val = sc.i.val + 1 ∧ st₁.alive = st.alive ∧
      ∀ j, j ≠ sc.i → st₁.slots j = st.slots j := by
  have hfreed : ∀ j, j ≠ sc.i →
      setPidAt (setWordAt st.slots sc.i .free) sc.i 0 j = st.slots j := by
    intro j hj
    rw [setPidAt_of_ne _ _ _ hj, setWordAt_of_ne _ _ _ hj]
  cases hword : (st.slots sc.i).word with
  | free =>
    have hskip : visitStep st.slots st.now st.alive sc .word = (st.slots, .done sc) := by
      simp only [visitStep, hword]
    exact ⟨_, _, .done hw hp hi hskip, rfl, rfl, rfl, fun _ _ => rfl⟩
  | claiming ts =>
    have hclock : visitStep st.slots st.now st.alive sc .word = (st.slots, .stay (.clock ts)) := by
      simp only [visitStep, hword]
    by_cases hold : st.now - ts > claimTimeout
    · have hprune : visitStep st.slots st.now st.alive sc (.clock ts) =
          (st.slots, .stay (.pruneClaim ts)) := by
        simp only [visitStep, if_pos hold]
      have hfree : visitStep st.slots st.now st.alive sc (.pruneClaim ts) =
          (setWordAt st.slots sc.i .free, .stay .clearPid) := by
        simp only [visitStep, if_pos hword]
      exact ⟨_, _, .stay hw hp hclock (.stay hw rfl hprune (.stay hw rfl hfree
        (.done hw rfl hi rfl))), rfl, rfl, rfl, hfreed⟩
    · have hskip : visitStep st.slots st.now st.alive sc (.clock ts) = (st.slots, .done sc) := by
        simp only [visitStep, if_neg hold]
      exact ⟨_, _, .stay hw hp hclock (.done hw rfl hi hskip), rfl, rfl, rfl, fun _ _ => rfl⟩
  | active c =>
    have hload : visitStep st.slots st.now st.alive sc .word = (st.slots, .stay (.loadPid c)) := by
      simp only [visitStep, hword]
    by_cases hdead : (st.slots sc.i).pid ≠ 0 ∧ st.alive (st.slots sc.i).pid = false
    · have hprune : visitStep st.slots st.now st.alive sc (.checkPid c (st.slots sc.i).pid) =
          (st.slots, .stay .pruneActive) := by
        simp only [visitStep, if_pos hdead]
      exact ⟨_, _, .stay hw hp hload (.stay hw rfl rfl (.stay hw rfl hprune
        (.stay hw rfl rfl (.done hw rfl hi rfl)))), rfl, rfl, rfl, hfreed⟩
    · have hcount : visitStep st.slots st.now st.alive sc (.checkPid c (st.slots sc.i).pid) =
          (st.slots, .done (sc.count c)) := by
        simp only [visitStep, if_neg hdead]
      exact ⟨_, _, .stay hw hp hload (.stay hw rfl rfl
        (.done hw rfl (show (sc.count c).i.val + 1 < _ from hi) hcount)), rfl, rfl, rfl,
      fun _ _ => rfl⟩

variable (pid) in
/-- The scan reaches every slot that lies ahead, and has not touched it. -/
theorem scan_reaches (hw : cfg.watermark = some w) {i : SlotIdx} {k : Nat}
    (hp : st.pub = .scan v sc .word) (hk : sc.i.val + k = i.val) : ∃ st₁ sc₁, Solo pid st st₁ ∧
      st₁.pub = .scan v sc₁ .word ∧ sc₁.i = i ∧ st₁.alive = st.alive ∧
      st₁.slots i = st.slots i := by
  induction k generalizing st sc with
  | zero => exact ⟨st, sc, ⟨0, .nil _⟩, hp, Fin.ext hk, rfl, rfl⟩
  | succ k ih =>
    have hlt := i.isLt
    obtain ⟨st₁, sc₁, hsolo, hp₁, hi₁, halive, hslots⟩ := visit_passes pid hw hp (by omega)
    obtain ⟨st₂, sc₂, hsolo', hp₂, hi₂, halive', hslots'⟩ := ih hp₁ (by omega)
    refine ⟨st₂, sc₂, hsolo.trans hsolo', hp₂, hi₂, ?_, ?_⟩
    · rw [halive', halive]
    · rw [hslots']
      refine hslots i ?_
      rintro rfl
      omega

/-- **Detection.** A scan that starts after the crash frees the slot. -/
theorem crash_detected (hw : cfg.watermark = some w) {i : SlotIdx} {p c : Nat} (hp0 : p ≠ 0)
    (hslot : st.slots i = ⟨p, .active c⟩) (hdead : st.alive p = false)
    (hp : st.pub = .scan v sc .word) (h0 : sc.i.val = 0) :
    ∃ st', Solo pid st st' ∧ (st'.slots i).word = .free := by
  have hahead : sc.i.val + i.val = i.val := by rw [h0, Nat.zero_add]
  obtain ⟨st₁, sc₁, hsolo, hp₁, rfl, halive, hslots⟩ := scan_reaches pid hw hp hahead
  have hslot₁ : st₁.slots sc₁.i = ⟨p, .active c⟩ := by rw [hslots, hslot]
  have hload : visitStep st₁.slots st₁.now st₁.alive sc₁ .word =
      (st₁.slots, .stay (.loadPid c)) := by
    simp only [visitStep, hslot₁]
  have hpid : visitStep st₁.slots st₁.now st₁.alive sc₁ (.loadPid c) =
      (st₁.slots, .stay (.checkPid c p)) := by
    simp only [visitStep, hslot₁]
  have hprune : visitStep st₁.slots st₁.now st₁.alive sc₁ (.checkPid c p) =
      (st₁.slots, .stay .pruneActive) := by
    rw [← halive] at hdead
    simp only [visitStep, if_pos (And.intro hp0 hdead)]
  refine ⟨_, hsolo.trans (.stay hw hp₁ hload (.stay hw rfl hpid (.stay hw rfl hprune
    (.stay hw rfl rfl ⟨0, .nil _⟩)))), ?_⟩
  show (setWordAt st₁.slots sc₁.i .free sc₁.i).word = .free
  rw [setWordAt_self]

end

/-! ### The pid of the owner -/

/-- The step starts a process with pid `p`. -/
def Act.spawns (p : Nat) : Act cfg W S → Bool
  | .spawn q => q == p
  | _ => false

/-- An admissible step that does not reuse pid `p`. -/
def TidyWithout (p : Nat) (st : State cfg W S) (a : Act cfg W S) : Prop :=
  Tidy st a ∧ a.spawns p = false

instance [Fintype S] (p : Nat) (st : State cfg W S) (a : Act cfg W S) :
    Decidable (TidyWithout p st a) := inferInstanceAs (Decidable (_ ∧ _))

/-- A process that has ended stays so while its pid is not reused. -/
theorem dead_step {p : Nat} {a : Act cfg W S} (h : st.alive p = false) (ha : a.spawns p = false)
    (hst : Step pid st a st') : st'.alive p = false := by
  cases hst with
  | pub hpub => cases hpub <;> exact h
  | exit q =>
    show update st.alive q false p = false
    by_cases hq : p = q
    · rw [hq, update_self]
    · rw [update_of_ne hq]
      exact h
  | spawn q =>
    have hq : p ≠ q := by
      rintro rfl
      simp [Act.spawns] at ha
    show update st.alive q true p = false
    rw [update_of_ne hq]
    exact h
  | _ => exact h

/-- **The pid of an active slot is its owner's pid.** On a bounded bus, in every run in which
    no claim lasts more than five seconds and no slot is claimed that somebody may still free or
    whose pid somebody has still to clear: the slot of a live connected subscriber carries its
    pid.  If its process ends and the pid is not reused, then at any time after that either the
    slot has been freed, or the next scan of the publisher frees it. -/
theorem slot_pid_is_owners (hpid : ∀ s, pid s ≠ 0) {w : Nat} (hw : cfg.watermark = some w)
    {as : List (Act cfg W S)} (hrun : Run (step pid) Tidy (init cfg W S) as st) {s : S}
    {i : SlotIdx} (hlive : (st.sub s).crashed = false) (hconn : (st.sub s).pc.connected = true)
    (hslot : (st.sub s).slotIndex = some i) :
    (st.slots i).pid = pid s ∧
    ∀ bs st₂, Run (step pid) (TidyWithout (pid s)) st (.exit (pid s) :: bs) st₂ →
      (∃ cs ds st₁, bs = cs ++ ds ∧
        Run (step pid) (TidyWithout (pid s)) st (.exit (pid s) :: cs) st₁ ∧
        (st₁.slots i).word = .free) ∨
      ∀ v sc, st₂.pub = .scan v sc .word → sc.i.val = 0 →
        ∃ st₃, Solo pid st₂ st₃ ∧ (st₃.slots i).word = .free := by
  obtain ⟨hown, h⟩ := pidInv_run hrun
  have hold : st.Holds s i .joined := ⟨hlive, Sub.held_connected hconn hslot⟩
  refine ⟨h.exact s i _ hold rfl, fun bs st₂ hafter => ?_⟩
  cases hafter with
  | @cons _ stx _ _ _ hok hst hrest =>
    -- after the exit the slot stays abandoned until a scan frees it
    have habandoned := abandoned_of_exit hown h hold (step_inv hst)
    have hdead : stx.alive (pid s) = false := by
      cases hst
      exact update_self _ _ _
    rcases hrest.stays_or (Q := fun st₁ => (st₁.slots i).word = .free)
      (P := fun st₁ => OwnInv pid st₁ ∧ Abandoned st₁ i (pid s) ∧ st₁.alive (pid s) = false)
      ⟨ownInv_step hown hok.1.1 (step_inv hst), habandoned, hdead⟩ (by
        rintro st₁ a st₁' ⟨hown₁, habandoned₁, hdead₁⟩ hok₁ hst₁
        have hinv := step_inv hst₁
        rcases habandoned₁.step hown₁ hinv with hstill | hfreed
        · exact Or.inl ⟨ownInv_step hown₁ hok₁.1.1 hinv, hstill, dead_step hdead₁ hok₁.2 hinv⟩
        · exact Or.inr hfreed)
      with ⟨_, hend, hdead₂⟩ | ⟨cs, ds, st₁, hsplit, hcs, hfreed⟩
    · refine Or.inr (fun v sc hp h0 => ?_)
      obtain ⟨c, hc⟩ := hend.slot
      exact crash_detected hw (hpid s) hc hdead₂ hp h0
    · exact Or.inl ⟨cs, ds, st₁, hsplit, .cons hok hst hcs, hfreed⟩

end

/-- The scan loads the word of slot `i` next. -/
def PubPc.looksAt (i : Nat) : PubPc cfg W → Bool
  | .scan _ sc .word => sc.i.val == i
  | _ => false

/-- The test is sound. -/
theorem PubPc.of_looksAt {i : Nat} {pc : PubPc cfg W} (h : pc.looksAt i = true) :
    ∃ v sc, pc = .scan v sc .word ∧ sc.i.val = i := by
  unfold PubPc.looksAt at h
  split at h
  · exact ⟨_, _, rfl, beq_iff_eq.mp h⟩
  · cases h

/-- A subscriber joins. -/
def joinSteps : List (Act tightBus Nat Bool) :=
  .spawn 7 :: .connect false :: List.replicate 5 (.join false)

/-- After the crash the ring fills up, and the publisher is about to scan. -/
def crashSteps : List (Act tightBus Nat Bool) :=
  .publish (fun _ => 1) :: List.replicate 6 .pub ++ [.publish (fun _ => 2), .pub]

/-- The scan frees slot 0. -/
theorem slot_pid_is_owners_after_crash : ∃ st st₂ : State tightBus Nat Bool,
    Run (step twoPids) Tidy (init tightBus Nat Bool) joinSteps st ∧ (st.slots 0).pid = 7 ∧
    Run (step twoPids) (TidyWithout 7) st (.exit 7 :: crashSteps) st₂ ∧
    (st₂.slots 0).word = .active 0 ∧
    ((∃ cs ds st₁, crashSteps = cs ++ ds ∧
      Run (step twoPids) (TidyWithout 7) st (.exit 7 :: cs) st₁ ∧ (st₁.slots 0).word = .free) ∨
      ∃ st₃, Solo twoPids st₂ st₃ ∧ (st₃.slots 0).word = .free) := by
  obtain ⟨st, st₂, hrun, ⟨hlive, hconn, hslot⟩, hrun₂, hword, hscan⟩ :=
    exists_runs_of_exec (step twoPids) Tidy (TidyWithout 7) (s := init tightBus Nat Bool)
      (l := joinSteps) (m := .exit 7 :: crashSteps)
      (p := fun st => (st.sub false).crashed = false ∧ (st.sub false).pc.connected = true ∧
        (st.sub false).slotIndex = some 0)
      (q := fun st => (st.slots 0).word = .active 0 ∧ st.pub.looksAt 0 = true) (by decide +kernel)
  obtain ⟨hpid, hdetect⟩ := slot_pid_is_owners (by decide) rfl hrun hlive hconn hslot
  refine ⟨st, st₂, hrun, hpid, hrun₂, hword, (hdetect crashSteps st₂ hrun₂).imp id ?_⟩
  intro hnext
  obtain ⟨v, sc, hp, hi⟩ := PubPc.of_looksAt hscan
  exact hnext v sc hp hi

/-- The first subscriber has freed slot 0 in its `drop` when the second one joins; then the
    first one clears the pid. -/
def lateClearSteps : List (Act tightBus Nat Bool) :=
  Act.spawn 7 :: Act.spawn 8 :: Act.connect false :: List.replicate 5 (Act.join false) ++
    List.replicate 2 (Act.drop false) ++ Act.connect true :: List.replicate 5 (Act.join true) ++
    [Act.drop false]

/-- The second process ends, and `try_publish` is called twice. -/
def blockedSteps : List (Act tightBus Nat Bool) :=
  Act.exit 8 :: Act.publish (fun _ => 1) :: List.replicate 6 Act.pub ++
    Act.publish (fun _ => 2) :: List.replicate 67 Act.pub

/-- **A late clear hides the owner.** The slot of a live connected subscriber has lost its pid.
    When its process ends, a whole scan of the publisher counts the slot, and `try_publish`
    returns `Full`. -/
theorem late_clear_hides_owner : ∃ st st₁ : State tightBus Nat Bool,
    Run (step twoPids) Prompt (init tightBus Nat Bool) lateClearSteps st ∧
    ((st.sub true).crashed = false ∧ (st.sub true).pc.connected = true ∧
      (st.sub true).slotIndex = some 0 ∧ (st.slots 0).pid = 0) ∧
    Run (step twoPids) Prompt st blockedSteps st₁ ∧
    (st₁.sub true).crashed = true ∧ (st₁.slots 0).word = .active 0 ∧ st₁.mem.writeSeq = 1 ∧
    st₁.pub = .idle := by
  obtain ⟨st, st₁, hrun, hjoined, hrun₁, hcrash, hword, hseq, hidle⟩ :=
    exists_runs_of_exec (step twoPids) Prompt Prompt (s := init tightBus Nat Bool)
      (l := lateClearSteps) (m := blockedSteps)
      (p := fun st => (st.sub true).crashed = false ∧ (st.sub true).pc.connected = true ∧
        (st.sub true).slotIndex = some 0 ∧ (st.slots 0).pid = 0)
      (q := fun st => (st.sub true).crashed = true ∧ (st.slots 0).word = .active 0 ∧
        st.mem.writeSeq = 1 ∧ st.pub.isIdle = true) (by decide +kernel)
  exact ⟨st, st₁, hrun, hjoined, hrun₁, hcrash, hword, hseq, PubPc.eq_idle hidle⟩

end Crossbar.Bus
