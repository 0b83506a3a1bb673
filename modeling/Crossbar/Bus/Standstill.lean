import Crossbar.Bus.Alone
import Crossbar.Bus.Backpressure
import Crossbar.Bus.Lag
import Crossbar.Bus.Rescan

namespace Crossbar.Bus

open Function Crossbar.Lib

/-!
# Bus — a bounded bus that stands still

`try_recv` stores the cursor into the subscriber's slot when it returns a value, but not when it
finds the value overwritten and skips it.  A subscriber that skips to the head has nothing to read
any more, while the slot still shows the old cursor: the publisher waits for the subscriber, and the
subscriber for the publisher.

* `Avoids` — a subscriber that has nothing to do with a slot;
* `VisitPc.Counts`, `Scan.Blocked` — the scan counts, or has counted, the cursor of the slot;
* `Standstill` — the state; no step but the drop of the subscriber or the end of its process
  leaves it (`standstill_step`);
* `Waiting` — on the way there: the subscriber has loaded its cursor and is delayed while the
  publisher fills the ring;
* `bounded_bus_stands_still` — every bounded bus can come to it.
-/

variable {cfg : BusConfig} {W S : Type}

/-! ### The other subscribers -/

/-- The slot that the next operation stores to. -/
def SubPc.target : SubPc cfg W → Option SlotIdx
  | .storePid i _ | .activate i _ | .update i _ | .release i | .clearPid i => some i
  | _ => none

/-- The subscriber has nothing to do with slot `i`. -/
structure Avoids (i : SlotIdx) (m : Sub cfg W) : Prop where
  target : m.pc.target ≠ some i
  slot : m.slotIndex ≠ some i

section

variable {i : SlotIdx} {m m' : Sub cfg W}

/-- A step that is not about a slot. -/
theorem Avoids.of_none (h : Avoids i m) (hslot : m'.slotIndex = m.slotIndex)
    (hpc : m'.pc.target = none) : Avoids i m' := by
  refine ⟨?_, hslot ▸ h.slot⟩
  rw [hpc]
  exact Option.some_ne_none i |>.symm

/-- A new subscriber has no slot. -/
theorem newSub_avoids (i : SlotIdx) (pc : SubPc cfg W) (hpc : pc.target = none) :
    Avoids i { newSub with pc := pc } := by
  refine ⟨?_, Option.some_ne_none i |>.symm⟩
  show pc.target ≠ some i
  rw [hpc]
  exact Option.some_ne_none i |>.symm

/-- `try_recv` returns. -/
theorem Avoids.ret (h : Avoids i m) (r : Option (cfg.Value W)) : Avoids i (m.ret r) :=
  h.of_none rfl rfl

/-- `try_recv` goes on. -/
theorem Avoids.readNext (h : Avoids i m) (s k : Nat) (buf : cfg.Value W) :
    Avoids i (m.readNext s k buf) := by
  unfold Sub.readNext
  split <;> exact h.of_none rfl rfl

/-- The first step of `try_recv`. -/
theorem Avoids.recvStart (h : Avoids i m) (mem : Mem cfg W) : Avoids i (recvStart mem m) := by
  unfold Bus.recvStart
  simp only
  split
  · exact h.of_none rfl rfl
  · split
    · exact h.of_none rfl rfl
    · split
      · split
        · exact h.of_none rfl rfl
        · split <;> exact h.of_none rfl rfl
      · exact h.of_none rfl rfl

/-- The last step of `try_recv`. -/
theorem Avoids.recvEnd (h : Avoids i m) (s : Nat) (buf : cfg.Value W) :
    Avoids i (recvEnd m s buf) := by
  unfold Bus.recvEnd
  split
  · split
    · rename_i j hj
      refine ⟨fun hi => ?_, h.slot⟩
      cases hi
      exact h.slot hj
    · exact h.of_none rfl rfl
  · split
    · exact h.of_none rfl rfl
    · split <;> exact h.of_none rfl rfl

/-- A step of such a subscriber leaves a slot that is not free. -/
theorem SubStep.avoids [Inhabited W] {p : Nat} {st : State cfg W S} {slots : SlotIdx → SubSlot}
    (h : SubStep p st m slots m') (hm : Avoids i m) (hword : (st.slots i).word ≠ .free) :
    slots i = st.slots i ∧ Avoids i m' := by
  have hword_ne : ∀ {j : SlotIdx} {x : SlotWord}, m.pc.target = some j →
      setWordAt st.slots j x i = st.slots i := by
    intro j x hj
    refine setWordAt_of_ne _ _ _ ?_
    rintro rfl
    exact hm.target hj
  have hpid_ne : ∀ {j : SlotIdx} {x : Nat}, m.pc.target = some j →
      setPidAt st.slots j x i = st.slots i := by
    intro j x hj
    refine setPidAt_of_ne _ _ _ ?_
    rintro rfl
    exact hm.target hj
  cases h with
  | load hpc => exact ⟨rfl, hm.of_none rfl (by dsimp only; split <;> rfl)⟩
  | clock | leaveOpen => exact ⟨rfl, hm.of_none rfl rfl⟩
  | @claim j ts hpc hfree =>
    have hne : i ≠ j := by
      rintro rfl
      exact hword hfree
    refine ⟨setWordAt_of_ne _ _ _ hne, fun hj => ?_, hm.slot⟩
    exact hne (Option.some.inj hj).symm
  | taken hpc hused =>
    refine ⟨rfl, ?_⟩
    unfold Sub.claimNext
    split <;> exact hm.of_none rfl rfl
  | @storePid j ts hpc =>
    have hj : m.pc.target = some j := by rw [hpc]; rfl
    exact ⟨hpid_ne hj, fun hi => hm.target (hj.trans hi), hm.slot⟩
  | @activate j ts hpc =>
    have hj : m.pc.target = some j := by rw [hpc]; rfl
    exact ⟨hword_ne hj, Option.some_ne_none i |>.symm, fun hi => hm.target (hj.trans hi)⟩
  | recv hpc => exact ⟨rfl, hm.recvStart st.mem⟩
  | busy | torn => exact ⟨rfl, hm.ret none⟩
  | stamp | read => exact ⟨rfl, hm.readNext _ _ _⟩
  | whole hpc hsame => exact ⟨rfl, hm.recvEnd _ _⟩
  | @update j v hpc =>
    have hj : m.pc.target = some j := by rw [hpc]; rfl
    exact ⟨hword_ne hj, hm.ret _⟩
  | @leave j hpc hslot =>
    refine ⟨rfl, fun hi => hm.slot (hslot.trans hi), hm.slot⟩
  | @release j hpc =>
    have hj : m.pc.target = some j := by rw [hpc]; rfl
    exact ⟨hword_ne hj, fun hi => hm.target (hj.trans hi), hm.slot⟩
  | @clearPid j hpc =>
    have hj : m.pc.target = some j := by rw [hpc]; rfl
    exact ⟨hpid_ne hj, hm.of_none rfl rfl⟩

end

/-! ### The publisher -/

/-- The visit of a slot of process `p` that shows the cursor `c` will count it. -/
def VisitPc.Counts (c p : Nat) : VisitPc → Prop
  | .word => True
  | .loadPid v => v = c
  | .checkPid v q => v = c ∧ q = p
  | _ => False

/-- The scan has counted a cursor not beyond `c`. -/
def Scan.Counted (c : Nat) (sc : Scan) : Prop := sc.hasActive = true ∧ sc.minCursor ≤ c

/-- The scan will count the cursor `c` at slot `i`, or has counted it. -/
def Scan.Blocked (i : SlotIdx) (c p : Nat) (sc : Scan) (pc : VisitPc) : Prop :=
  sc.i < i ∨ (sc.i = i ∧ pc.Counts c p) ∨ (i < sc.i ∧ sc.Counted c)

/-- The scan keeps the slowest cursor. -/
theorem Scan.count_counted {sc : Scan} {c c' : Nat} (h : c' ≤ c ∨ sc.Counted c) :
    (sc.count c').Counted c := by
  refine ⟨rfl, ?_⟩
  show (if c' < sc.minCursor then c' else sc.minCursor) ≤ c
  rcases h with hle | ⟨-, hmin⟩
  · split <;> omega
  · split <;> omega

/-- What one operation of the scan leads to. -/
def VisitNext.Blocked (i : SlotIdx) (c p : Nat) (sc : Scan) : VisitNext → Prop
  | .stay pc => sc.Blocked i c p pc
  | .done sc' => sc'.ws = sc.ws ∧ sc'.i = sc.i ∧ (sc.i < i ∨ sc'.Counted c)

/-- One operation of the scan. -/
theorem Visit.blocked {slots slots' : SlotIdx → SubSlot} {now : Nat} {alive : Nat → Bool}
    {sc : Scan} {pc : VisitPc} {next : VisitNext} {i : SlotIdx} {c p : Nat}
    (hvisit : Visit slots now alive sc pc slots' next) (hslot : slots i = ⟨p, .active c⟩)
    (halive : alive p = true) (h : sc.Blocked i c p pc) :
    slots' i = slots i ∧ next.Blocked i c p sc := by
  by_cases hi : sc.i = i
  · -- the visit of the slot itself
    subst hi
    have hcounts : pc.Counts c p := by
      rcases h with hlt | ⟨-, hc⟩ | ⟨hlt, -⟩
      · exact absurd hlt (lt_irrefl _)
      · exact hc
      · exact absurd hlt (lt_irrefl _)
    cases hvisit with
    | free hw | claiming hw =>
      rw [hslot] at hw
      cases hw
    | active hw =>
      rw [hslot] at hw
      cases hw
      exact ⟨rfl, Or.inr (Or.inl ⟨rfl, rfl⟩)⟩
    | pid v => exact ⟨rfl, Or.inr (Or.inl ⟨rfl, hcounts, by rw [hslot]⟩)⟩
    | dead hq hdead =>
      rw [hcounts.2, halive] at hdead
      cases hdead
    | count hq => exact ⟨rfl, rfl, rfl, Or.inr (Scan.count_counted (Or.inl hcounts.1.le))⟩
    | _ => exact hcounts.elim
  · have hne : i ≠ sc.i := Ne.symm hi
    have hrest : sc.i < i ∨ (i < sc.i ∧ sc.Counted c) := by
      rcases h with hlt | ⟨heq, -⟩ | hgt
      · exact Or.inl hlt
      · exact absurd heq hi
      · exact Or.inr hgt
    have hstay : ∀ pc', sc.Blocked i c p pc' := fun pc' => hrest.imp_right Or.inr
    have hdone : sc.i < i ∨ sc.Counted c := hrest.imp_right And.right
    cases hvisit with
    | free | young | moved => exact ⟨rfl, rfl, rfl, hdone⟩
    | claiming | active | old | pid | dead => exact ⟨rfl, hstay _⟩
    | prune | pruneActive => exact ⟨setWordAt_of_ne _ _ _ hne, hstay _⟩
    | count => exact ⟨rfl, rfl, rfl, hdone.imp_right fun h => Scan.count_counted (Or.inr h)⟩
    | clearPid => exact ⟨setPidAt_of_ne _ _ _ hne, rfl, rfl, hdone⟩

/-- After the last slot. -/
theorem Scan.counted_of_last {sc sc' : Scan} {i : SlotIdx} {c : Nat}
    (hlast : ¬sc'.i.val + 1 < maxSubscriberSlots) (hsame : sc'.i = sc.i)
    (h : sc.i < i ∨ sc'.Counted c) : sc'.Counted c := by
  refine h.resolve_left fun hlt => ?_
  have hi := i.isLt
  have hval : sc.i.val < i.val := hlt
  rw [hsame] at hlast
  omega

/-- Before the next slot. -/
theorem Scan.blocked_next {sc sc' : Scan} {i : SlotIdx} {c p : Nat}
    (hi : sc'.i.val + 1 < maxSubscriberSlots) (hsame : sc'.i = sc.i)
    (h : sc.i < i ∨ sc'.Counted c) :
    Scan.Blocked i c p { sc' with i := ⟨sc'.i.val + 1, hi⟩ } .word := by
  by_cases hlt : sc.i < i
  · have hval : sc'.i.val < i.val := hsame ▸ hlt
    rcases Nat.lt_or_eq_of_le (Nat.succ_le_of_lt hval) with hnext | heq
    · exact Or.inl hnext
    · exact Or.inr (Or.inl ⟨Fin.ext heq, trivial⟩)
  · have hval : i.val ≤ sc'.i.val := hsame ▸ not_lt.mp hlt
    exact Or.inr (Or.inr ⟨Nat.lt_succ_of_le hval, h.resolve_left hlt⟩)

/-! ### Standstill -/

/-- The publisher does not write: its next scan counts the cursor of the slot. -/
def PubPc.Blocked (i : SlotIdx) (c p n : Nat) : PubPc cfg W → Prop
  | .idle | .start _ => True
  | .scan _ sc pc => sc.ws = n ∧ sc.Blocked i c p pc
  | .write _ _ => False

/-- Subscriber `s` has read up to the head and waits; its slot `i` shows the cursor `c`, which is
    too far behind for the publisher. -/
structure Standstill (pid : S → Nat) (s : S) (i : SlotIdx) (c : Nat) (st : State cfg W S) :
    Prop where
  rest : (st.sub s).pc = .rest
  running : (st.sub s).crashed = false
  alive : st.alive (pid s) = true
  head : st.mem.writeSeq ≤ (st.sub s).cursor
  slot : st.slots i = ⟨pid s, .active c⟩
  others : ∀ t, t ≠ s → Avoids i (st.sub t)
  behind : c + cfg.effective ≤ st.mem.writeSeq
  cached : st.cachedSlowest + cfg.effective ≤ st.mem.writeSeq
  fits : st.mem.writeSeq < 2 ^ 64
  pub : st.pub.Blocked i c (pid s) st.mem.writeSeq

section

variable [Inhabited W] [DecidableEq S] {pid : S → Nat} {s : S} {i : SlotIdx} {c : Nat}
  {st st' : State cfg W S}

omit [Inhabited W] [DecidableEq S] in
/-- The publisher goes on. -/
theorem Standstill.of_pub (h : Standstill pid s i c st) {slots : SlotIdx → SubSlot} {cached : Nat}
    {pub : PubPc cfg W} (hslot : slots i = st.slots i)
    (hcached : cached = st.cachedSlowest ∨ cached ≤ c)
    (hpub : pub.Blocked i c (pid s) st.mem.writeSeq) :
    Standstill pid s i c { st with slots := slots, cachedSlowest := cached, pub := pub } where
  rest := h.rest
  running := h.running
  alive := h.alive
  head := h.head
  slot := hslot.trans h.slot
  others := h.others
  behind := h.behind
  cached := by
    rcases hcached with rfl | hle
    · exact h.cached
    · exact (Nat.add_le_add_right hle _).trans h.behind
  fits := h.fits
  pub := hpub

omit [Inhabited W] [DecidableEq S] in
/-- The publisher stays where it is. -/
theorem Standstill.pub_step {w : Nat} (hw : cfg.watermark = some w) (h : Standstill pid s i c st)
    (hst : PubStep st st') : Standstill pid s i c st' ∧ st'.mem = st.mem := by
  have heff := BusConfig.effective_eq hw
  have hfits := h.fits
  have hpub := h.pub
  cases hst with
  | slow hp hw' hge =>
    refine ⟨h.of_pub rfl (Or.inl rfl) ⟨rfl, ?_⟩, rfl⟩
    rcases Nat.eq_zero_or_pos i.val with hzero | hpos
    · exact Or.inr (Or.inl ⟨Fin.ext hzero.symm, trivial⟩)
    · exact Or.inl hpos
  | @fast v w' hp hw' hlt =>
    -- the cached cursor is too far behind
    cases hw.symm.trans hw'
    have hcached := h.cached
    rw [← heff, wrap64_of_lt (by omega)] at hlt
    exact absurd hcached hlt
  | stay hp hvisit =>
    rw [hp] at hpub
    obtain ⟨hslot, hnext⟩ := hvisit.blocked h.slot h.alive hpub.2
    exact ⟨h.of_pub hslot (Or.inl rfl) ⟨hpub.1, hnext⟩, rfl⟩
  | @next v sc sc' pc slots hi hp hvisit =>
    rw [hp] at hpub
    obtain ⟨hslot, hws, hsame, hnext⟩ := hvisit.blocked h.slot h.alive hpub.2
    exact ⟨h.of_pub hslot (Or.inl rfl) ⟨hws.trans hpub.1, Scan.blocked_next hi hsame hnext⟩, rfl⟩
  | @full v w' sc sc' pc slots hi hw' hp hvisit hact hge =>
    rw [hp] at hpub
    obtain ⟨hslot, hws, hsame, hnext⟩ := hvisit.blocked h.slot h.alive hpub.2
    have hcounted := Scan.counted_of_last hi hsame hnext
    exact ⟨h.of_pub hslot (Or.inr hcounted.2) trivial, rfl⟩
  | @room v w' sc sc' pc slots hi hw' hp hvisit hact hlt =>
    -- the scan has counted a cursor that is too far behind
    rw [hp] at hpub
    obtain ⟨hslot, hws, hsame, hnext⟩ := hvisit.blocked h.slot h.alive hpub.2
    obtain ⟨-, hmin⟩ := Scan.counted_of_last hi hsame hnext
    cases hw.symm.trans hw'
    have hbehind := h.behind
    rw [← heff, wrap64_of_lt (by omega), hws, hpub.1] at hlt
    omega
  | @nobody v sc sc' pc slots hi hp hvisit hact =>
    rw [hp] at hpub
    obtain ⟨hslot, hws, hsame, hnext⟩ := hvisit.blocked h.slot h.alive hpub.2
    rw [(Scan.counted_of_last hi hsame hnext).1] at hact
    cases hact
  | write hp =>
    rw [hp] at hpub
    exact hpub.elim

omit [Inhabited W] [DecidableEq S] in
/-- Subscribers and processes change. -/
theorem Standstill.of_subs (h : Standstill pid s i c st) {slots : SlotIdx → SubSlot}
    {now : Nat} {alive : Nat → Bool} {sub : S → Sub cfg W} (hslot : slots i = st.slots i)
    (halive : alive (pid s) = true) (hrest : (sub s).pc = .rest)
    (hrunning : (sub s).crashed = false) (hcursor : (sub s).cursor = (st.sub s).cursor)
    (hothers : ∀ t, t ≠ s → Avoids i (sub t)) :
    Standstill pid s i c { st with slots := slots, now := now, alive := alive, sub := sub } where
  rest := hrest
  running := hrunning
  alive := halive
  head := hcursor ▸ h.head
  slot := hslot.trans h.slot
  others := hothers
  behind := h.behind
  cached := h.cached
  fits := h.fits
  pub := h.pub

/-- The subscriber itself can call `try_recv`, which returns `None`. -/
theorem Standstill.own_step (h : Standstill pid s i c st) {a : Act cfg W S}
    (ha : a.subject = some s) (hdrop : a ≠ .drop s) (hst : step pid st a = some st') :
    st' = st.setSub s (st.slots,
      { st.sub s with call := ((st.sub s).cursor, st.mem.writeSeq) }.ret none) := by
  cases a with
  | recv t =>
    cases ha
    rw [step_recv hst, recvStart_empty h.head]
  | join t =>
    cases ha
    obtain ⟨r, hr, -⟩ := subStep_eq_some hst
    simp only [connectStep, h.rest] at hr
    cases hr
  | read t =>
    cases ha
    obtain ⟨r, hr, -⟩ := subStep_eq_some hst
    simp only [recvStep, h.rest] at hr
    cases hr
  | drop t =>
    cases ha
    exact absurd rfl hdrop
  | _ => cases ha

/-- **Step.** Only the drop of the subscriber or the end of its process gets the bus going. -/
theorem standstill_step {w : Nat} (hw : cfg.watermark = some w) (h : Standstill pid s i c st)
    {a : Act cfg W S} (hdrop : a ≠ .drop s) (hexit : a ≠ .exit (pid s))
    (hst : step pid st a = some st') :
    Standstill pid s i c st' ∧ st'.mem = st.mem ∧
      (st'.sub s).received = (st.sub s).received := by
  have hword : (st.slots i).word ≠ .free := by
    rw [h.slot]
    exact fun hfree => by cases hfree
  by_cases ha : a.subject = some s
  · -- its own `try_recv` finds nothing new, and stores no cursor
    rw [h.own_step ha hdrop hst]
    refine ⟨?_, rfl, by rw [setSub_self]; rfl⟩
    refine h.of_subs rfl h.alive ?_ ?_ ?_ fun t ht => ?_
    · rw [update_self]
      rfl
    · rw [update_self]
      exact h.running
    · rw [update_self]
      rfl
    · rw [update_of_ne ht]
      exact h.others t ht
  · -- the slot is taken, so no step of another one touches it
    cases step_inv hst with
    | publish hidle =>
      rw [hw]
      exact ⟨h.of_pub rfl (Or.inl rfl) trivial, rfl, rfl⟩
    | pub hpub =>
      obtain ⟨h', hmem⟩ := h.pub_step hw hpub
      exact ⟨h', hmem, by rw [hpub.sub_eq]⟩
    | @connect t habsent hup halive =>
      have hne : s ≠ t := by
        rintro rfl
        rw [h.rest] at habsent
        cases habsent
      have hsame : update st.sub t newSub s = st.sub s := update_of_ne hne _ _
      refine ⟨h.of_subs rfl h.alive (hsame ▸ h.rest) (hsame ▸ h.running) (by rw [hsame])
        fun u hu => ?_, rfl, congrArg Sub.received hsame⟩
      by_cases hut : u = t
      · rw [hut, update_self]
        exact newSub_avoids i _ rfl
      · rw [update_of_ne hut]
        exact h.others u hu
    | @sub a t slots m hsubject hup hsub =>
      have hne : s ≠ t := by
        rintro rfl
        exact ha hsubject
      have hsame : update st.sub t m s = st.sub s := update_of_ne hne _ _
      obtain ⟨hslot, havoid⟩ := hsub.avoids (h.others t hne.symm) hword
      refine ⟨h.of_subs hslot h.alive (hsame ▸ h.rest) (hsame ▸ h.running) (by rw [hsame])
        fun u hu => ?_, rfl, congrArg Sub.received hsame⟩
      by_cases hut : u = t
      · rw [hut, update_self]
        exact havoid
      · rw [update_of_ne hut]
        exact h.others u hu
    | tick n => exact ⟨h.of_subs rfl h.alive h.rest h.running rfl h.others, rfl, rfl⟩
    | exit p =>
      have hne : pid s ≠ p := by
        rintro rfl
        exact hexit rfl
      have hsame : (if pid s = p ∧ (st.sub s).pc.present = true then
          { st.sub s with crashed := true } else st.sub s) = st.sub s :=
        if_neg fun hp => hne hp.1
      refine ⟨h.of_subs rfl ?_ ?_ ?_ ?_ fun u hu => ?_, rfl, congrArg Sub.received hsame⟩
      · rw [update_of_ne hne]
        exact h.alive
      · rw [hsame]
        exact h.rest
      · rw [hsame]
        exact h.running
      · rw [hsame]
      · have hu := h.others u hu
        dsimp only
        split
        · exact ⟨hu.target, hu.slot⟩
        · exact hu
    | spawn p =>
      refine ⟨h.of_subs rfl ?_ h.rest h.running rfl h.others, rfl, rfl⟩
      by_cases hp : pid s = p
      · rw [hp, update_self]
      · rw [update_of_ne hp]
        exact h.alive

/-- **Run.** -/
theorem standstill_run {w : Nat} (hw : cfg.watermark = some w) (h : Standstill pid s i c st)
    {as : List (Act cfg W S)}
    (hrun : Run (step pid) (fun _ a => a ≠ .drop s ∧ a ≠ .exit (pid s)) st as st') :
    st'.mem = st.mem ∧ (st'.sub s).received = (st.sub s).received := by
  have hall : Standstill pid s i c st' ∧ st'.mem = st.mem ∧
      (st'.sub s).received = (st.sub s).received :=
    hrun.invariant (I := fun st' => Standstill pid s i c st' ∧ st'.mem = st.mem ∧
      (st'.sub s).received = (st.sub s).received) ⟨h, rfl, rfl⟩ fun _ _ _ hI hok hst => by
        obtain ⟨h', hmem, hrec⟩ := standstill_step hw hI.1 hok.1 hok.2 hst
        exact ⟨h', hmem.trans hI.2.1, hrec.trans hI.2.2⟩
  exact hall.2

/-! ### How it comes about -/

/-- There is a first slot. -/
theorem maxSubscriberSlots_pos : 0 < maxSubscriberSlots := by decide

/-- The slot that the first subscriber gets. -/
def firstSlot : SlotIdx := ⟨0, maxSubscriberSlots_pos⟩

/-- Subscriber `s` has loaded the cursor 0 and is delayed before it claims a slot; nobody else has
    connected, and `k` values are published. -/
structure Waiting (pid : S → Nat) (s : S) (k : Nat) (st : State cfg W S) : Prop where
  seq : st.mem.writeSeq = k
  slots : ∀ j, (st.slots j).word = .free
  cached : st.cachedSlowest = 0
  alive : st.alive (pid s) = true
  sub : st.sub s = { newSub with pc := .clock firstSlot }
  others : ∀ t, t ≠ s → ∀ j, Avoids j (st.sub t)

/-- A scan that finds every slot free. -/
theorem scan_of_free (now : Nat) (alive : Nat → Bool) {slots : SlotIdx → SubSlot}
    (hfree : ∀ j, (slots j).word = .free) :
    Whole.slowestSubscriberCursor now alive slots = (slots, none) := by
  have hcounted : ∀ j, Whole.counted alive (slots j) = none := by
    intro j
    unfold Whole.counted
    rw [hfree]
  have hfit : ∀ j c, Whole.counted alive (slots j) = some c → c ≤ maxU64 := by
    intro j c hc
    rw [hcounted] at hc
    cases hc
  obtain ⟨hslots, -, hsome⟩ := Whole.slowestSubscriberCursor_spec now hfit
  refine Prod.ext (hslots.trans (funext fun j => ?_)) ?_
  · unfold Whole.pruned
    rw [hfree]
  · cases hscan : (Whole.slowestSubscriberCursor now alive slots).2 with
    | none => rfl
    | some m =>
      obtain ⟨⟨j, hj⟩, -⟩ := hsome m hscan
      rw [hcounted] at hj
      cases hj

/-- The same scan, one slot after the other. -/
theorem scanFrom_of_free (now : Nat) (alive : Nat → Bool) {slots : SlotIdx → SubSlot}
    (hfree : ∀ j, (slots j).word = .free) :
    (scanFrom now alive 0 ⟨slots, maxU64, false⟩).slots = slots ∧
      (scanFrom now alive 0 ⟨slots, maxU64, false⟩).hasActive = false := by
  have hscan : Whole.slowestSubscriberCursor now alive slots =
      ((scanFrom now alive 0 ⟨slots, maxU64, false⟩).slots,
        if (scanFrom now alive 0 ⟨slots, maxU64, false⟩).hasActive then
          some (scanFrom now alive 0 ⟨slots, maxU64, false⟩).minCursor else none) := rfl
  rw [scan_of_free now alive hfree, Prod.mk.injEq] at hscan
  refine ⟨hscan.1.symm, ?_⟩
  by_contra hact
  rw [if_pos (Bool.eq_true_of_not_eq_false hact)] at hscan
  cases hscan.2

/-- One more value is published. -/
theorem Waiting.publish {w k : Nat} (hw : cfg.watermark = some w) (h : Waiting pid s k st)
    (hidle : st.pub = .idle) (hk : k + 1 < 2 ^ 64) (v : cfg.Value W) :
    ∃ as st', Run (step pid) (fun _ _ => True) st as st' ∧ Waiting pid s (k + 1) st' ∧
      st'.pub = .idle := by
  have htry : st.bus.tryPublish st.now st.alive v = (st.bus.publishUnchecked v, .ok ()) := by
    by_cases hslow : st.bus.writeSeq ≥ wrap64 (st.bus.cachedSlowest + (cfg.ringSize - w))
    · exact Whole.Bus.tryPublish_of_nobody (b := st.bus) hw hslow (scan_of_free _ _ h.slots)
    · exact Whole.Bus.tryPublish_of_room (b := st.bus) hw hslow
  have hcall : ∃ n, Run (step pid) (fun _ _ => True) st (.publish v :: List.replicate n .pub)
      (st.returned v (st.bus.tryPublish st.now st.alive v)) := tryPublish_alone hidle v
  rw [htry] at hcall
  obtain ⟨n, hrun⟩ := hcall
  refine ⟨_, _, hrun, ⟨?_, h.slots, h.cached, h.alive, h.sub, h.others⟩, rfl⟩
  show wrap64 (st.mem.writeSeq + 1) = k + 1
  rw [h.seq, wrap64_of_lt hk]

/-- The publisher fills the ring. -/
theorem Waiting.fill {w : Nat} (hw : cfg.watermark = some w) (h : Waiting pid s 0 st)
    (hidle : st.pub = .idle) {k : Nat} (hk : k < 2 ^ 64) :
    ∃ as st', Run (step pid) (fun _ _ => True) st as st' ∧ Waiting pid s k st' ∧
      st'.pub = .idle := by
  induction k with
  | zero => exact ⟨[], st, .nil st, h, hidle⟩
  | succ k ih =>
    obtain ⟨as, st₁, hrun, h₁, hidle₁⟩ := ih (by omega)
    obtain ⟨bs, st₂, hrun', h₂, hidle₂⟩ := h₁.publish hw hidle₁ hk default
    exact ⟨as ++ bs, st₂, hrun.append hrun', h₂, hidle₂⟩

/-- The publisher has looked at the slots and found nobody. -/
theorem Waiting.decide {w : Nat} (hw : cfg.watermark = some w)
    (h : Waiting pid s cfg.ringSize st) (hidle : st.pub = .idle) (v : cfg.Value W) :
    ∃ as, Run (step pid) (fun _ _ => True) st as { st with pub := .write v .load } := by
  have hsize := cfg.ringSize_lt
  have hslow : st.mem.writeSeq ≥ wrap64 (st.cachedSlowest + (cfg.ringSize - w)) := by
    rw [h.seq, h.cached, wrap64_of_lt (by omega)]
    omega
  have hcall : step pid st (.publish v) = some { st with pub := .start v } := by
    simp only [step, hidle, hw, Option.isSome_some, if_true]
  have hstart : step pid { st with pub := .start v } .pub = some { st with
      pub := .scan v ⟨st.mem.writeSeq, firstSlot, maxU64, false⟩ .word } := by
    simp only [step, pubStep, hw, if_pos hslow]
    rfl
  obtain ⟨hslots, hnone⟩ := scanFrom_of_free st.now st.alive h.slots
  have hscanned : Alone pid .pub { st with
      pub := .scan v ⟨st.mem.writeSeq, firstSlot, maxU64, false⟩ .word }
      { st with pub := .write v .load } := by
    refine Alone.scan hw st.mem.writeSeq (Nat.zero_le _) maxSubscriberSlots_pos
      ⟨st.slots, maxU64, false⟩ ?_
    unfold Bus.scanEnd Scan.with
    rw [hslots, hnone]
    exact Repeats.refl _
  obtain ⟨n, hrun⟩ := hscanned
  exact ⟨_, .cons trivial hcall (.cons trivial hstart hrun)⟩

variable (cfg W) in
/-- The subscriber once `connect` has returned. -/
def joinedSub : Sub cfg W := { newSub with pc := .rest, slotIndex := some firstSlot }

variable (cfg W) in
/-- The subscriber after the head load of its first `try_recv`. -/
def loadedSub : Sub cfg W :=
  { joinedSub cfg W with pc := .stamp, call := (0, cfg.ringSize) }

/-- Subscriber `s` has taken its slot with the cursor 0 and has loaded the head, one ring further;
    the publisher is about to overwrite value number 0. -/
structure Overtaken (pid : S → Nat) (s : S) (v : cfg.Value W) (st : State cfg W S) : Prop where
  pub : st.pub = .write v .load
  seq : st.mem.writeSeq = cfg.ringSize
  slot : st.slots firstSlot = ⟨pid s, .active 0⟩
  cached : st.cachedSlowest = 0
  alive : st.alive (pid s) = true
  sub : st.sub s = loadedSub cfg W
  others : ∀ t, t ≠ s → ∀ j, Avoids j (st.sub t)

variable (cfg W) in
/-- The subscriber has skipped to the head. -/
def skippedSub : Sub cfg W :=
  { loadedSub cfg W with totalLagged := cfg.ringSize + 1, cursor := cfg.ringSize + 1 }.ret none

omit [Inhabited W] in
/-- The slot of value number 0 holds number `ring_size`. -/
theorem recvEnd_loaded (v : cfg.Value W) :
    recvEnd { loadedSub cfg W with pc := .restamp (cfg.ringSize * 2 + 2) v }
      (cfg.ringSize * 2 + 2) v = skippedSub cfg W := by
  have hpos := cfg.ringSize_pos
  have hsize := cfg.ringSize_lt
  have hne : ¬cfg.ringSize * 2 + 2 = wrap64 (0 * 2 + 2) := by
    rw [wrap64_of_lt (by omega)]
    omega
  have hwritten : checkedSub ((cfg.ringSize * 2 + 2) / 2) 1 = some cfg.ringSize := by
    rw [checkedSub_of_le (by omega)]
    congr 1
    omega
  have hskipped : checkedSub (cfg.ringSize + 1) 0 = some (cfg.ringSize + 1) :=
    checkedSub_of_le (Nat.zero_le _)
  have hnext : wrap64 (cfg.ringSize + 1) = cfg.ringSize + 1 := wrap64_of_lt (by omega)
  simp only [recvEnd, loadedSub, joinedSub, newSub, if_neg hne, hwritten, hnext, hskipped,
    Nat.zero_add]
  rfl

omit [Inhabited W] in
/-- With the ring full, the subscriber goes on to read the first value. -/
theorem recvStart_joined {mem : Mem cfg W} (hseq : mem.writeSeq = cfg.ringSize) :
    recvStart mem (joinedSub cfg W) = loadedSub cfg W := by
  have hpos := cfg.ringSize_pos
  have hkept : (joinedSub cfg W).cursor < mem.writeSeq := hseq ▸ hpos
  unfold recvStart
  rw [if_neg (not_le.mpr hkept)]
  simp only [checkedSub_of_le (le_of_lt hkept)]
  rw [if_neg (by rw [hseq]; exact not_lt.mpr (Nat.sub_le _ _)), hseq]
  rfl

/-- `try_recv` is called. -/
theorem recv_step (hrest : (st.sub s).pc = .rest) (hrunning : (st.sub s).crashed = false) :
    step pid st (.recv s) = some (st.setSub s (st.slots, recvStart st.mem (st.sub s))) := by
  simp only [step, State.subStep, hrunning, hrest, Bool.false_eq_true, if_false, Option.map_some]

/-- The delayed subscriber goes on. -/
theorem Waiting.join {v : cfg.Value W} (h : Waiting pid s cfg.ringSize st)
    (hpub : st.pub = .write v .load) :
    ∃ as st', Run (step pid) (fun _ _ => True) st as st' ∧ Overtaken pid s v st' := by
  obtain ⟨slots, hslots⟩ : ∃ slots : SlotIdx → SubSlot,
    slots = update st.slots firstSlot ⟨pid s, .active 0⟩ := ⟨_, rfl⟩
  have hclaim : Alone pid (.join s)
      (st.setSub s (st.slots, { newSub with pc := .clock firstSlot }))
      (st.setSub s (slots, joinedSub cfg W)) := by
    rw [hslots]
    exact Alone.claim rfl (h.slots firstSlot)
  rw [← h.sub, setSub_eq_self] at hclaim
  obtain ⟨n, hjoin⟩ := hclaim
  have hrecv : step pid (st.setSub s (slots, joinedSub cfg W)) (.recv s) =
      some (st.setSub s (slots, loadedSub cfg W)) := by
    have hjoined : (st.setSub s (slots, joinedSub cfg W)).sub s = joinedSub cfg W :=
      setSub_self _
    rw [recv_step (by rw [hjoined]; rfl) (by rw [hjoined]; rfl), hjoined, setSub_setSub]
    exact congrArg (fun m => some (st.setSub s (_, m))) (recvStart_joined h.seq)
  refine ⟨_, _, hjoin.append (.single trivial hrecv), hpub, h.seq, ?_, h.cached, h.alive, ?_,
    fun t ht => ?_⟩
  · rw [hslots]
    exact update_self firstSlot (⟨pid s, .active 0⟩ : SubSlot) st.slots
  · exact setSub_self _
  · show ∀ j, Avoids j (update st.sub s _ t)
    rw [update_of_ne ht]
    exact h.others t ht

/-- The publisher overwrites the value, and the subscriber skips it. -/
theorem Overtaken.standstill {v : cfg.Value W} (h : Overtaken pid s v st) :
    ∃ as st', Run (step pid) (fun _ _ => True) st as st' ∧ st'.pub = .idle ∧
      Standstill pid s firstSlot 0 st' ∧ (st'.sub s).received = [] := by
  have hpos := cfg.ringSize_pos
  have hsize := cfg.ringSize_lt
  have hstamp : wrap64 (st.mem.writeSeq * 2 + 2) = cfg.ringSize * 2 + 2 := by
    rw [h.seq, wrap64_of_lt (by omega)]
  have hself : { st with pub := .write v .load } = st := by
    rw [← h.pub]
  obtain ⟨st₁, hst₁⟩ : ∃ st₁, st₁ = st.returned v (st.bus.publishUnchecked v, .ok ()) := ⟨_, rfl⟩
  have hwrite : Alone pid .pub _ _ := publishUnchecked_alone st v
  rw [hself, ← hst₁] at hwrite
  -- value number `ring_size` goes to the slot of number 0
  have hplace : cfg.slotOf st.mem.writeSeq = cfg.slotOf 0 := by
    rw [h.seq]
    refine (maskIdx_eq_iff cfg.ringSize_isPow _ _).mpr ?_
    rw [Nat.mod_self, Nat.zero_mod]
  have hslot : st₁.mem.ring (cfg.slotOf (loadedSub cfg W).cursor) =
      ⟨cfg.ringSize * 2 + 2, v⟩ := by
    rw [hst₁]
    have hring := congrFun (ring_update st (cfg.slotOf st.mem.writeSeq)
      (wrap64 (st.mem.writeSeq * 2 + 2)) v) (cfg.slotOf 0)
    refine hring.trans ?_
    rw [hplace, update_self, hstamp]
  have heven : ¬(cfg.ringSize * 2 + 2) &&& 1 ≠ 0 := by
    rw [Nat.and_one_is_mod]
    omega
  have hread : Alone pid (.read s) (st₁.setSub s (st.slots, loadedSub cfg W))
      (st₁.setSub s (st.slots, skippedSub cfg W)) := by
    refine Alone.readSlot hslot rfl rfl heven (Nat.succ_ne_zero _) ?_
    rw [recvEnd_loaded]
    exact Repeats.refl _
  have hback : st₁.setSub s (st.slots, loadedSub cfg W) = st₁ := by
    rw [← h.sub, hst₁]
    exact setSub_eq_self
  rw [hback] at hread
  obtain ⟨n, hwrite⟩ := hwrite
  obtain ⟨k, hread⟩ := hread
  subst hst₁
  have hseq : wrap64 (st.mem.writeSeq + 1) = cfg.ringSize + 1 := by
    rw [h.seq, wrap64_of_lt (by omega)]
  have heff := cfg.effective_le
  have hsub : update st.sub s (skippedSub cfg W) s = skippedSub cfg W :=
    update_self ..
  refine ⟨_, _, hwrite.append hread, rfl, ?_, congrArg Sub.received hsub⟩
  exact {
    rest := congrArg Sub.pc hsub
    running := congrArg Sub.crashed hsub
    alive := h.alive
    head := (hseq.trans (congrArg Sub.cursor hsub).symm).le
    slot := h.slot
    others := fun t ht => by
      show Avoids firstSlot (update st.sub s (skippedSub cfg W) t)
      rw [update_of_ne ht]
      exact h.others t ht firstSlot
    behind := by
      show 0 + cfg.effective ≤ wrap64 (st.mem.writeSeq + 1)
      omega
    cached := by
      show st.cachedSlowest + cfg.effective ≤ wrap64 (st.mem.writeSeq + 1)
      rw [h.cached]
      omega
    fits := by
      show wrap64 (st.mem.writeSeq + 1) < 2 ^ 64
      omega
    pub := trivial }

/-- The first steps: the process starts, and the subscriber loads its cursor. -/
theorem waiting_start {w : Nat} (hw : cfg.watermark = some w) (pid : S → Nat) (s : S) :
    ∃ as st, Run (step pid) (fun _ _ => True) (init cfg W S) as st ∧ Waiting pid s 0 st ∧
      st.pub = .idle := by
  obtain ⟨st₁, hst₁⟩ : ∃ st₁ : State cfg W S, st₁ = { init cfg W S with
    alive := update (fun _ => false) (pid s) true } := ⟨_, rfl⟩
  have halive : st₁.alive (pid s) = true := by
    rw [hst₁]
    show update (fun _ => false) (pid s) true (pid s) = true
    rw [update_self]
  have hsub : st₁.sub = fun _ => { newSub with pc := .absent } := by rw [hst₁]; rfl
  have hspawn : step pid (init cfg W S) (.spawn (pid s)) = some st₁ := by rw [hst₁]; rfl
  have hconnect : step pid st₁ (.connect s) = some (st₁.setSub s (st₁.slots, newSub)) :=
    if_pos ⟨by rw [hsub]; rfl, by rw [hsub]; rfl, halive⟩
  have hload : step pid (st₁.setSub s (st₁.slots, newSub)) (.join s) = some
      (st₁.setSub s (st₁.slots, { newSub with pc := .clock firstSlot })) := by
    refine subStep_setSub rfl ?_
    simp only [connectStep, newSub, hw, Option.isSome_some, if_true]
    rw [hst₁]
    rfl
  refine ⟨_, _, .cons trivial hspawn (.cons trivial hconnect (.single trivial hload)),
    ⟨?_, ?_, ?_, halive, setSub_self _, fun t ht j => ?_⟩, ?_⟩
  · rw [hst₁]
    rfl
  · rw [hst₁]
    exact fun _ => rfl
  · rw [hst₁]
    rfl
  · show Avoids j (update st₁.sub s _ t)
    rw [update_of_ne ht, hsub]
    exact newSub_avoids j _ rfl
  · rw [hst₁]
    rfl

end

end Crossbar.Bus
