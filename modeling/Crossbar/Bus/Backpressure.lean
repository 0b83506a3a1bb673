import Crossbar.Bus.Slots

namespace Crossbar.Bus

open Function Crossbar.Lib

/-!
# Bus — bounded mode loses nothing

`try_publish` decides from `cached_slowest`, and when that says "full" from a scan of the slots
that move while it reads them.  What makes the stale numbers safe is that cursors only grow.

* `Sub.Kept` — a subscriber whose next value is still in the ring; its `try_recv` takes no
  branch that skips a value (`SubStep.track`);
* `Covered` — a running scan will count the subscriber, has counted it, or need not;
* `FlowInv` — no subscriber falls behind by more than `ring_size - watermark`;
* `joining_lossless` / `joiner_misses_rescan` — a subscriber that is still joining is invisible
  to the scan, and may be lapped before its slot is `ACTIVE`.
-/

variable {cfg : BusConfig} {W S : Type}

/-! ### Values in the ring -/

/-- `ring_size - watermark`. -/
def BusConfig.effective (cfg : BusConfig) : Nat := cfg.ringSize - cfg.watermark.getD 0

/-- The room of a bounded bus. -/
theorem BusConfig.effective_eq {w : Nat} (hw : cfg.watermark = some w) :
    cfg.effective = cfg.ringSize - w := by
  rw [BusConfig.effective, hw]
  rfl

/-- There is room for one value at least. -/
theorem BusConfig.effective_pos (cfg : BusConfig) : 0 < cfg.effective := by
  unfold BusConfig.effective
  cases hw : cfg.watermark with
  | none => exact cfg.ringSize_pos
  | some w =>
    have hlt := cfg.watermark_lt w hw
    show 0 < cfg.ringSize - w
    omega

/-- There is no more room than slots. -/
theorem BusConfig.effective_le (cfg : BusConfig) : cfg.effective ≤ cfg.ringSize := Nat.sub_le _ _

/-- Value number `q` is in its slot. -/
def Mem.Intact (m : Mem cfg W) (q : Nat) : Prop :=
  (m.ring (cfg.slotOf q)).stamp = 2 * q + 2 ∧ m.log[q]? = some (m.ring (cfg.slotOf q)).data

/-- A published value stays in the ring until the publisher has come round. -/
theorem MemInv.intact {m : Mem cfg W} {pub : PubPc cfg W} (h : MemInv m pub) {q : Nat}
    (hq : q < m.writeSeq) (hroom : m.writeSeq ≤ q + cfg.ringSize)
    (hin : pub.inSlot = true → m.writeSeq < q + cfg.ringSize) : m.Intact q := by
  have hlow := h.low q hq
  rcases h.cells (cfg.slotOf q) with hcom | ⟨hpub, hj, _⟩
  · rcases hcom with h0 | ⟨q', hstamp, hslot, hlog⟩
    · omega
    · have hlt := (List.getElem?_eq_some_iff.mp hlog).1
      rw [h.len] at hlt
      have heq : q = q' := cfg.eq_of_slotOf_eq hslot.symm (by omega) (by omega)
      subst heq
      exact ⟨hstamp, hlog⟩
  · -- the publisher is inside this slot only when it has come round
    have heq := cfg.eq_of_slotOf_eq hj (le_of_lt hq) (hin hpub)
    omega

/-- The next value of a subscriber, if there is one, is in the ring. -/
structure Sub.Kept (mem : Mem cfg W) (m : Sub cfg W) : Prop where
  le : m.cursor ≤ mem.writeSeq
  room : mem.writeSeq ≤ m.cursor + cfg.ringSize
  next : m.cursor < mem.writeSeq → mem.Intact m.cursor

/-- A subscriber whose values are all kept goes on to read the next one. -/
theorem recvStart_behind {mem : Mem cfg W} {m : Sub cfg W} (hk : m.Kept mem)
    (hlt : m.cursor < mem.writeSeq) :
    recvStart mem m = { m with call := (m.cursor, mem.writeSeq), pc := .stamp } := by
  have hroom := hk.room
  unfold recvStart
  rw [if_neg (not_le.mpr hlt)]
  simp only [checkedSub_of_le (le_of_lt hlt)]
  rw [if_neg (by omega)]

/-- Without a new value `try_recv` returns `None`. -/
theorem recvStart_empty {mem : Mem cfg W} {m : Sub cfg W} (hge : mem.writeSeq ≤ m.cursor) :
    recvStart mem m = { m with call := (m.cursor, mem.writeSeq) }.ret none := if_pos hge

/-- The stamp is the one of the cursor. -/
theorem recvEnd_mine {m : Sub cfg W} {s : Nat} {buf : cfg.Value W} {i : SlotIdx}
    (hs : s = 2 * m.cursor + 2) (hlt : m.cursor < 2 ^ 62) (hi : m.slotIndex = some i) :
    recvEnd m s buf = { m with
      cursor := m.cursor + 1
      received := m.received ++ [(m.cursor, buf)]
      pc := .update i buf } := by
  have hexp : wrap64 (m.cursor * 2 + 2) = 2 * m.cursor + 2 := by
    rw [wrap64_of_lt (by omega)]
    omega
  have hnext : wrap64 (m.cursor + 1) = m.cursor + 1 := wrap64_of_lt (by omega)
  unfold recvEnd
  rw [hexp, if_pos hs, hnext]
  simp only [hi]

/-! ### What a subscriber does to its cursor -/

/-- `connect` has loaded the cursor and not stored `ACTIVE` yet. -/
def SubPc.joining : SubPc cfg W → Bool
  | .clock _ | .claim _ _ | .storePid _ _ | .activate _ _ => true
  | _ => false

/-- The subscriber has a cursor that the publisher must respect. -/
def SubPc.tracked (pc : SubPc cfg W) : Bool := pc.joining || pc.connected

/-- A joining subscriber is waited for. -/
theorem SubPc.tracked_of_joining {pc : SubPc cfg W} (h : pc.joining = true) :
    pc.tracked = true := by
  rw [SubPc.tracked, h, Bool.true_or]

/-- A connected subscriber is waited for. -/
theorem SubPc.tracked_of_connected {pc : SubPc cfg W} (h : pc.connected = true) :
    pc.tracked = true := by
  rw [SubPc.tracked, h, Bool.or_true]

/-- Who is joining is not connected yet. -/
theorem SubPc.not_connected_of_joining {pc : SubPc cfg W} (h : pc.joining = true) :
    pc.connected = false := by
  cases pc <;> first | rfl | cases h

/-- A step of a subscriber that loses nothing, by what it does to the cursor. -/
inductive TrackMove (ws : Nat) (m m' : Sub cfg W) : Prop
  | load : m.pc = .connect → m'.pc.connected = false → m'.cursor = ws →
      m'.totalLagged = m.totalLagged → TrackMove ws m m'
  | join : m.pc.joining = true → m'.pc.connected = false → m'.cursor = m.cursor →
      m'.totalLagged = m.totalLagged → TrackMove ws m m'
  | joined {i : SlotIdx} : m.pc.joining = true → m'.slotIndex = some i →
      m'.cursor = m.cursor → m'.totalLagged = m.totalLagged → TrackMove ws m m'
  | recv : m.pc.connected = true → m'.pc.connected = true → m'.slotIndex = m.slotIndex →
      m.cursor ≤ m'.cursor → m'.cursor ≤ ws → m'.totalLagged = m.totalLagged →
      TrackMove ws m m'

/-- **Subscribers.** While the next value is in the ring, no step skips one. -/
theorem SubStep.track [Inhabited W] {pid : Nat} {st : State cfg W S} {m m' : Sub cfg W}
    {slots : SlotIdx → SubSlot} (h : SubStep pid st m slots m') {w : Nat}
    (hw : cfg.watermark = some w) {pub : PubPc cfg W} (hm : MemInv st.mem pub)
    (hread : ReadInv st.mem m)
    (hkept : m.pc.connected = true → m.Kept st.mem ∧ ∃ i, m.slotIndex = some i)
    (ht : m'.pc.tracked = true) : TrackMove st.mem.writeSeq m m' := by
  -- a step of `try_recv` that leaves the cursor alone
  have hstill : m.pc.connected = true → m'.pc.connected = true → m'.slotIndex = m.slotIndex →
      m'.cursor = m.cursor → m'.totalLagged = m.totalLagged → TrackMove st.mem.writeSeq m m' := by
    intro hc hc' hslot hcur hlag
    refine .recv hc hc' hslot (le_of_eq hcur.symm) ?_ hlag
    rw [hcur]
    exact (hkept hc).1.le
  have hnext : ∀ s k buf, (m.readNext s k buf).pc.connected = true ∧
      (m.readNext s k buf).slotIndex = m.slotIndex ∧ (m.readNext s k buf).cursor = m.cursor ∧
      (m.readNext s k buf).totalLagged = m.totalLagged := by
    intro s k buf
    unfold Sub.readNext
    split <;> exact ⟨rfl, rfl, rfl, rfl⟩
  cases h with
  | load hpc =>
    refine .load hpc ?_ rfl rfl
    rw [hw]
    rfl
  | clock hpc | claim hpc | storePid hpc => exact .join (by rw [hpc]; rfl) rfl rfl rfl
  | taken hpc _ =>
    unfold Sub.claimNext
    split <;> exact .join (by rw [hpc]; rfl) rfl rfl rfl
  | activate hpc => exact .joined (by rw [hpc]; rfl) rfl rfl rfl
  | recv hpc =>
    have hc : m.pc.connected = true := by rw [hpc]; rfl
    by_cases hlt : m.cursor < st.mem.writeSeq
    · rw [recvStart_behind (hkept hc).1 hlt] at hstill ⊢
      exact hstill hc rfl rfl rfl rfl
    · rw [recvStart_empty (not_lt.mp hlt)] at hstill ⊢
      exact hstill hc rfl rfl rfl rfl
  | busy hpc | torn hpc | update hpc | leave hpc => exact hstill (by rw [hpc]; rfl) rfl rfl rfl rfl
  | stamp hpc _ _ =>
    obtain ⟨hc', hslot, hcur, hlag⟩ := hnext (st.mem.ring (cfg.slotOf m.cursor)).stamp 0 default
    exact hstill (by rw [hpc]; rfl) hc' hslot hcur hlag
  | @read s k buf hpc =>
    obtain ⟨hc', hslot, hcur, hlag⟩ := hnext s (k + 1)
      (Function.update buf k ((st.mem.ring (cfg.slotOf m.cursor)).data k))
    exact hstill (by rw [hpc]; rfl) hc' hslot hcur hlag
  | @whole s buf hpc hstamp =>
    have hc : m.pc.connected = true := by rw [hpc]; rfl
    obtain ⟨hk, i, hi⟩ := hkept hc
    have hseen := hread.here
    rw [hpc] at hseen
    have hlt := hseen.1.lt
    have hs : s = 2 * m.cursor + 2 := by rw [← hstamp, (hk.next hlt).1]
    rw [recvEnd_mine hs (lt_trans hlt hm.lt) hi]
    exact .recv hc rfl rfl (Nat.le_succ _) hlt rfl
  | leaveOpen | release | clearPid => cases ht

/-! ### What the publisher knows of a subscriber -/

/-- The live subscriber `s` has a cursor that the publisher must respect. -/
def State.Tracks (st : State cfg W S) (s : S) : Prop :=
  (st.sub s).crashed = false ∧ (st.sub s).pc.tracked = true

/-- The visit of a slot will count, for its subscriber, a number not beyond `c`. -/
def VisitPc.Sees (c : Nat) : VisitPc → Prop
  | .word => True
  | .loadPid v | .checkPid v _ => v ≤ c
  | _ => False

/-- The cursor that a visit has loaded is at most `n`. -/
def VisitPc.Low (n : Nat) : VisitPc → Prop
  | .loadPid v | .checkPid v _ => v ≤ n
  | _ => True

/-- The running scan does not let subscriber `s` be lapped: `s` is up to date, its slot lies
    ahead, or a number not beyond its cursor has been counted.  The first case is needed only
    where subscribers may join (`J`). -/
def Covered (J : Prop) (st : State cfg W S) (sc : Scan) (pc : VisitPc) (s : S) : Prop :=
  (J ∧ (st.sub s).cursor = st.mem.writeSeq) ∨
  (∃ i, st.Holds s i .joined ∧ (sc.i < i ∨ sc.i = i ∧ pc.Sees (st.sub s).cursor)) ∨
  (sc.hasActive = true ∧ sc.minCursor ≤ (st.sub s).cursor)

/-- What the publisher's program counter says about the subscribers. -/
def PubPc.Flow (J : Prop) (st : State cfg W S) : PubPc cfg W → Prop
  | .scan _ sc pc => sc.ws = st.mem.writeSeq ∧
      (J → (sc.hasActive = true → sc.minCursor ≤ st.mem.writeSeq) ∧ pc.Low st.mem.writeSeq) ∧
      ∀ s, st.Tracks s → Covered J st sc pc s
  | .write _ _ => ∀ s, st.Tracks s → st.mem.writeSeq + 1 ≤ (st.sub s).cursor + cfg.effective
  | _ => True

/-- A tracked subscriber against `write_seq` and `cached_slowest`. -/
structure Paced (st : State cfg W S) (s : S) : Prop where
  cached : st.cachedSlowest ≤ (st.sub s).cursor
  le : (st.sub s).cursor ≤ st.mem.writeSeq
  room : st.mem.writeSeq ≤ (st.sub s).cursor + cfg.effective
  lagged : (st.sub s).totalLagged = 0

/-- No subscriber falls behind by more than `ring_size - watermark`.  `fresh` is what a new
    subscriber relies on. -/
structure FlowInv (J : Prop) (st : State cfg W S) : Prop where
  fresh : J → st.cachedSlowest ≤ st.mem.writeSeq ∧
    ∀ i c, (st.slots i).word = .active c → c ≤ st.mem.writeSeq
  slot : ∀ s, (st.sub s).crashed = false → (st.sub s).pc.connected = true →
    ∃ i, (st.sub s).slotIndex = some i
  paced : ∀ s, st.Tracks s → Paced st s
  pub : st.pub.Flow J st

section

variable {J : Prop} {pid : S → Nat} {st st' : State cfg W S}

/-- Everything a tracked subscriber has not read yet is in the ring. -/
theorem FlowInv.intact (h : FlowInv J st) (hmem : MemInv st.mem st.pub) {s : S}
    (hs : st.Tracks s) {q : Nat} (hq : (st.sub s).cursor ≤ q) (hlt : q < st.mem.writeSeq) :
    st.mem.Intact q := by
  have hroom := (h.paced s hs).room
  have hle := cfg.effective_le
  refine hmem.intact hlt (by omega) (fun hin => ?_)
  have hpub := h.pub
  cases hp : st.pub with
  | write v pc =>
    rw [hp] at hpub
    have hnext := hpub s hs
    omega
  | _ =>
    rw [hp] at hin
    cases hin

/-- What a tracked subscriber has not read is still in the ring. -/
theorem FlowInv.kept (h : FlowInv J st) (hmem : MemInv st.mem st.pub) {s : S}
    (hs : st.Tracks s) : (st.sub s).Kept st.mem where
  le := (h.paced s hs).le
  room := le_trans (h.paced s hs).room (Nat.add_le_add_left cfg.effective_le _)
  next := h.intact hmem hs le_rfl

/-! ### A step of the publisher -/

/-- Where a step of the scan leads; a finished visit is one that will see nothing more. -/
def VisitNext.target (sc : Scan) : VisitNext → Scan × VisitPc
  | .stay pc => (sc, pc)
  | .done sc' => (sc', .clearPid)

/-- One operation of the scan loses no subscriber. -/
theorem covered_visit (hown : OwnInv pid st) {v : cfg.Value W} {sc : Scan} {pc : VisitPc}
    {slots : SlotIdx → SubSlot} {next : VisitNext} (hp : st.pub = .scan v sc pc)
    (hvisit : Visit st.slots st.now st.alive sc pc slots next) {s : S}
    (h : Covered J st sc pc s) :
    Covered J st (next.target sc).1 (next.target sc).2 s := by
  have hok := (hown.visit_step hp hvisit).2
  rcases h with hfresh | ⟨i, hold, hslot⟩ | ⟨hact, hmin⟩
  · exact Or.inl hfresh
  · obtain ⟨⟨c, hword, hc⟩, _⟩ := hown.owns s i _ hold
    rcases hslot with hlt | ⟨rfl, hsees⟩
    · refine Or.inr (Or.inl ⟨i, hold, Or.inl ?_⟩)
      cases hvisit <;> exact hlt
    · -- the visit of the subscriber's own slot, which is `ACTIVE`
      cases hvisit with
      | free hw | claiming hw => rw [hword] at hw; cases hw
      | active hw =>
        rw [hword] at hw
        cases hw
        exact Or.inr (Or.inl ⟨sc.i, hold, Or.inr ⟨rfl, hc⟩⟩)
      | pid c' => exact Or.inr (Or.inl ⟨sc.i, hold, Or.inr ⟨rfl, hsees⟩⟩)
      | dead _ _ => exact absurd hold (hok _ rfl s _)
      | @count c' p _ =>
        have hle : c' ≤ (st.sub s).cursor := hsees
        refine Or.inr (Or.inr ⟨rfl, ?_⟩)
        show (if c' < sc.minCursor then c' else sc.minCursor) ≤ _
        split <;> omega
      | _ => exact hsees.elim
  · refine Or.inr (Or.inr ?_)
    cases hvisit with
    | @count c' p _ =>
      refine ⟨rfl, ?_⟩
      show (if c' < sc.minCursor then c' else sc.minCursor) ≤ _
      split <;> omega
    | _ => exact ⟨hact, hmin⟩

/-- A word that is read was stored just now, or was there before. -/
theorem word_of_setWordAt {slots : SlotIdx → SubSlot} {i j : SlotIdx} {x y : SlotWord}
    (h : (setWordAt slots j x i).word = y) : (i = j ∧ x = y) ∨ (slots i).word = y := by
  by_cases hij : i = j
  · subst hij
    rw [setWordAt_self] at h
    exact Or.inl ⟨rfl, h⟩
  · rw [setWordAt_of_ne _ _ _ hij] at h
    exact Or.inr h

/-- One operation of the scan counts and leaves no cursor beyond `n`. -/
theorem Visit.low {slots slots' : SlotIdx → SubSlot} {now : Nat} {alive : Nat → Bool} {sc : Scan}
    {pc : VisitPc} {next : VisitNext} (hvisit : Visit slots now alive sc pc slots' next) {n : Nat}
    (hwords : ∀ i c, (slots i).word = .active c → c ≤ n)
    (hmin : sc.hasActive = true → sc.minCursor ≤ n) (hlow : pc.Low n) :
    (((next.target sc).1.hasActive = true → (next.target sc).1.minCursor ≤ n) ∧
      (next.target sc).2.Low n) ∧ ∀ i c, (slots' i).word = .active c → c ≤ n := by
  have hfree : ∀ i c, (setWordAt slots sc.i .free i).word = .active c → c ≤ n := by
    intro i c hi
    rcases word_of_setWordAt hi with ⟨_, hw⟩ | hold
    · cases hw
    · exact hwords i c hold
  cases hvisit with
  | active hw => exact ⟨⟨hmin, hwords _ _ hw⟩, hwords⟩
  | prune | pruneActive => exact ⟨⟨hmin, trivial⟩, hfree⟩
  | pid c => exact ⟨⟨hmin, hlow⟩, hwords⟩
  | @count c p _ =>
    have hc : c ≤ n := hlow
    refine ⟨⟨fun _ => ?_, trivial⟩, hwords⟩
    show (if c < sc.minCursor then c else sc.minCursor) ≤ n
    split <;> omega
  | clearPid =>
    refine ⟨⟨hmin, trivial⟩, fun i c hi => ?_⟩
    rw [setPidAt_word] at hi
    exact hwords i c hi
  | _ => exact ⟨⟨hmin, trivial⟩, hwords⟩

/-- One operation of the scan: what it leads to, and the slots it leaves. -/
theorem FlowInv.visit (h : FlowInv J st) (hown : OwnInv pid st) {v : cfg.Value W} {sc : Scan}
    {pc : VisitPc} {slots : SlotIdx → SubSlot} {next : VisitNext} (hp : st.pub = .scan v sc pc)
    (hvisit : Visit st.slots st.now st.alive sc pc slots next) :
    (PubPc.scan v (next.target sc).1 (next.target sc).2).Flow J st ∧
      (J → ∀ i c, (slots i).word = .active c → c ≤ st.mem.writeSeq) := by
  have hflow := h.pub
  rw [hp] at hflow
  obtain ⟨hws, hlow, hcovered⟩ := hflow
  refine ⟨⟨?_, fun hJ => ?_, fun s hs => covered_visit hown hp hvisit (hcovered s hs)⟩,
    fun hJ => ?_⟩
  · cases hvisit <;> exact hws
  · exact (hvisit.low (h.fresh hJ).2 (hlow hJ).1 (hlow hJ).2).1
  · exact (hvisit.low (h.fresh hJ).2 (hlow hJ).1 (hlow hJ).2).2

/-- The publisher moves on; neither `write_seq` nor a subscriber does. -/
theorem FlowInv.of_pub (h : FlowInv J st) {slots : SlotIdx → SubSlot} {cached : Nat}
    {pub : PubPc cfg W}
    (hfresh : J → cached ≤ st.mem.writeSeq ∧
      ∀ i c, (slots i).word = .active c → c ≤ st.mem.writeSeq)
    (hcached : ∀ s, st.Tracks s → cached ≤ (st.sub s).cursor) (hpub : pub.Flow J st) :
    FlowInv J { st with slots := slots, cachedSlowest := cached, pub := pub } where
  fresh := hfresh
  slot := h.slot
  paced := fun s hs =>
    ⟨hcached s hs, (h.paced s hs).le, (h.paced s hs).room, (h.paced s hs).lagged⟩
  pub := by
    cases pub with
    | scan | write => exact hpub
    | _ => trivial

/-- The end of the scan: everybody is up to date or counted. -/
theorem covered_end {sc : Scan} (hi : ¬ sc.i.val + 1 < maxSubscriberSlots) {s : S}
    (h : Covered J st sc .clearPid s) :
    (J ∧ (st.sub s).cursor = st.mem.writeSeq) ∨
      (sc.hasActive = true ∧ sc.minCursor ≤ (st.sub s).cursor) := by
  rcases h with hfresh | ⟨i, _, hlt | ⟨_, hsees⟩⟩ | hcounted
  · exact Or.inl hfresh
  · have hlast := i.isLt
    rw [Fin.lt_def] at hlt
    omega
  · exact hsees.elim
  · exact Or.inr hcounted

/-- The only store of `publish_unchecked` to `write_seq` is its last one. -/
theorem writeStep_seq {m : Mem cfg W} {v : cfg.Value W} {pc : WritePc cfg}
    (h : MemInv m (.write v pc)) :
    ((writeStep m v pc).1.writeSeq = m.writeSeq ∧ ∃ pc', (writeStep m v pc).2 = some pc') ∨
      ((writeStep m v pc).1.writeSeq = m.writeSeq + 1 ∧ (writeStep m v pc).2 = none) := by
  cases pc with
  | advance ws =>
    have hws : ws = m.writeSeq := h.here.1
    have hlt := h.lt
    refine Or.inr ⟨?_, rfl⟩
    show wrap64 (ws + 1) = m.writeSeq + 1
    rw [hws, wrap64_of_lt (by omega)]
  | _ => exact Or.inl ⟨rfl, _, rfl⟩

/-- A tracked subscriber is joining or connected. -/
theorem State.Tracks.cases {s : S} (h : st.Tracks s) :
    (st.sub s).pc.joining = true ∨ (st.sub s).pc.connected = true := by
  have ht := h.2
  rwa [SubPc.tracked, Bool.or_eq_true] at ht

/-- The publisher is about to find the ring full by `cached_slowest`, and to rescan. -/
def State.rescans (st : State cfg W S) : Bool :=
  match st.pub with
  | .start _ => decide (st.mem.writeSeq ≥ wrap64 (st.cachedSlowest + cfg.effective))
  | _ => false

/-- The scan begins: connected subscribers have their slots ahead. -/
theorem FlowInv.scan_start (h : FlowInv J st) (v : cfg.Value W)
    (hjoin : ∀ s, (st.sub s).crashed = false → (st.sub s).pc.joining = true →
      J ∧ (st.sub s).cursor = st.mem.writeSeq) :
    (PubPc.scan v ⟨st.mem.writeSeq, ⟨0, by decide⟩, maxU64, false⟩ .word).Flow J st := by
  refine ⟨rfl, fun _ => ⟨nofun, trivial⟩, fun s hs => ?_⟩
  rcases hs.cases with hjoining | hconn
  · exact Or.inl (hjoin s hs.1 hjoining)
  · obtain ⟨i, hi⟩ := h.slot s hs.1 hconn
    refine Or.inr (Or.inl ⟨i, ⟨hs.1, Sub.held_connected hconn hi⟩, ?_⟩)
    rcases Nat.eq_zero_or_pos i.val with h0 | hpos
    · exact Or.inr ⟨Fin.ext h0.symm, trivial⟩
    · exact Or.inl hpos

/-- A bound that holds for a number not beyond the cursor leaves room for one more value. -/
theorem Paced.room_of_bound {s : S} (h : Paced st s) (hmem : MemInv st.mem st.pub) {c : Nat}
    (hc : c ≤ (st.sub s).cursor) (hlt : ¬ st.mem.writeSeq ≥ wrap64 (c + cfg.effective)) :
    st.mem.writeSeq + 1 ≤ (st.sub s).cursor + cfg.effective := by
  have hle := h.le
  have hws := hmem.lt
  have hR := cfg.ringSize_lt
  have hE := cfg.effective_le
  rw [wrap64_of_lt (by omega)] at hlt
  omega

/-- **Publisher.** A rescan while nobody who is still joining lags behind. -/
theorem flowInv_pub (h : FlowInv J st) (hown : OwnInv pid st)
    (hjoin : st.rescans = true → ∀ s, (st.sub s).crashed = false →
      (st.sub s).pc.joining = true → J ∧ (st.sub s).cursor = st.mem.writeSeq)
    (hst : PubStep st st') : FlowInv J st' := by
  have hpos := cfg.effective_pos
  have hcached : ∀ s, st.Tracks s → st.cachedSlowest ≤ (st.sub s).cursor :=
    fun s hs => (h.paced s hs).cached
  -- at the end of the scan, the minimum is not beyond any cursor
  have hmin : ∀ {v sc pc slots sc'}, st.pub = .scan v sc pc →
      Visit st.slots st.now st.alive sc pc slots (.done sc') →
      ¬ sc'.i.val + 1 < maxSubscriberSlots → sc'.hasActive = true →
      ∀ s, st.Tracks s → sc'.minCursor ≤ (st.sub s).cursor := by
    intro v sc pc slots sc' hp hvisit hi hact s hs
    obtain ⟨⟨_, hlow, hcovered⟩, _⟩ := h.visit hown hp hvisit
    rcases covered_end hi (hcovered s hs) with ⟨hJ, hcur⟩ | ⟨_, hle⟩
    · rw [hcur]
      exact (hlow hJ).1 hact
    · exact hle
  cases hst with
  | @slow v w' hp hw' hge =>
    refine h.of_pub h.fresh hcached (h.scan_start v (hjoin ?_))
    rw [State.rescans, hp, BusConfig.effective_eq hw']
    exact decide_eq_true hge
  | fast hp hw' hlt =>
    refine h.of_pub h.fresh hcached (fun s hs => ?_)
    rw [← BusConfig.effective_eq hw'] at hlt
    exact (h.paced s hs).room_of_bound hown.seq.mem (hcached s hs) hlt
  | stay hp hvisit =>
    obtain ⟨hflow, hwords⟩ := h.visit hown hp hvisit
    exact h.of_pub (fun hJ => ⟨(h.fresh hJ).1, hwords hJ⟩) hcached hflow
  | @next v sc sc' pc slots hi hp hvisit =>
    obtain ⟨⟨hws, hlow, hcovered⟩, hwords⟩ := h.visit hown hp hvisit
    refine h.of_pub (fun hJ => ⟨(h.fresh hJ).1, hwords hJ⟩) hcached
      ⟨hws, fun hJ => ⟨(hlow hJ).1, trivial⟩, fun s hs => ?_⟩
    rcases hcovered s hs with hfresh | ⟨i, hold, hlt | ⟨_, hsees⟩⟩ | hcounted
    · exact Or.inl hfresh
    · refine Or.inr (Or.inl ⟨i, hold, ?_⟩)
      have hlt' : sc'.i.val < i.val := hlt
      rcases Nat.eq_or_lt_of_le (Nat.succ_le_of_lt hlt') with heq | hlt''
      · exact Or.inr ⟨Fin.ext heq, trivial⟩
      · exact Or.inl hlt''
    · exact hsees.elim
    · exact Or.inr (Or.inr hcounted)
  | full hi hw' hp hvisit hact hge =>
    obtain ⟨⟨_, hlow, _⟩, hwords⟩ := h.visit hown hp hvisit
    exact h.of_pub (fun hJ => ⟨(hlow hJ).1 hact, hwords hJ⟩) (hmin hp hvisit hi hact) trivial
  | @room v w' sc sc' pc slots hi hw' hp hvisit hact hlt =>
    obtain ⟨⟨hws, hlow, _⟩, hwords⟩ := h.visit hown hp hvisit
    have hws' : sc'.ws = st.mem.writeSeq := hws
    refine h.of_pub (fun hJ => ⟨(hlow hJ).1 hact, hwords hJ⟩) (hmin hp hvisit hi hact)
      (fun s hs => ?_)
    rw [← BusConfig.effective_eq hw', hws'] at hlt
    exact (h.paced s hs).room_of_bound hown.seq.mem (hmin hp hvisit hi hact s hs) hlt
  | @nobody v sc sc' pc slots hi hp hvisit hact =>
    obtain ⟨⟨_, _, hcovered⟩, hwords⟩ := h.visit hown hp hvisit
    refine h.of_pub (fun hJ => ⟨(h.fresh hJ).1, hwords hJ⟩) hcached (fun s hs => ?_)
    rcases covered_end hi (hcovered s hs) with ⟨_, hcur⟩ | ⟨hact', _⟩
    · rw [hcur]
      omega
    · have hcounted : sc'.hasActive = true := hact'
      rw [hact] at hcounted
      cases hcounted
  | @write v pc hp =>
    have hmem := hown.seq.mem
    have hflow := h.pub
    rw [hp] at hmem hflow
    rcases writeStep_seq hmem with ⟨hseq, pc', hpc⟩ | ⟨hseq, hpc⟩
    · rw [hpc]
      refine ⟨fun hJ => ?_, h.slot, fun s hs => ⟨hcached s hs, ?_, ?_, (h.paced s hs).lagged⟩,
        fun s hs => ?_⟩
      · simp only [hseq]
        exact h.fresh hJ
      · simp only [hseq]
        exact (h.paced s hs).le
      · simp only [hseq]
        exact (h.paced s hs).room
      · simp only [hseq]
        exact hflow s hs
    · -- one more value: the publisher had room for it
      rw [hpc]
      refine ⟨fun hJ => ?_, h.slot, fun s hs => ⟨hcached s hs, ?_, ?_, (h.paced s hs).lagged⟩,
        trivial⟩
      · simp only [hseq]
        exact ⟨Nat.le_succ_of_le (h.fresh hJ).1,
          fun i c hi => Nat.le_succ_of_le ((h.fresh hJ).2 i c hi)⟩
      · simp only [hseq]
        exact Nat.le_succ_of_le (h.paced s hs).le
      · simp only [hseq]
        exact hflow s hs

/-! ### A step of a subscriber -/

/-- The cursors in the slots stay below `n` if the subscriber's own does. -/
theorem SlotMove.words {p n : Nat} {slots slots' : SlotIdx → SubSlot} {m m' : Sub cfg W}
    (hmove : SlotMove p slots m m' slots') (hwords : ∀ i c, (slots i).word = .active c → c ≤ n)
    (hown : m'.pc.connected = true → m'.cursor ≤ n) (i : SlotIdx) (c : Nat)
    (hi : (slots' i).word = .active c) : c ≤ n := by
  cases hmove with
  | keep _ _ => exact hwords i c hi
  | claim | release =>
    rcases word_of_setWordAt hi with ⟨_, hw⟩ | hold
    · cases hw
    · exact hwords i c hold
  | storePid | clearPid =>
    rw [setPidAt_word] at hi
    exact hwords i c hi
  | active _ _ hnew =>
    rcases word_of_setWordAt hi with ⟨_, hw⟩ | hold
    · cases hw
      exact le_trans (Nat.mod_le _ _) (hown (Sub.held_joined hnew).1)
    · exact hwords i c hold

section

variable {s : S} {m : Sub cfg W} {slots : SlotIdx → SubSlot} {w : Nat}

/-- The cursor of a subscriber that stays tracked. -/
theorem FlowInv.track [Inhabited W] (h : FlowInv J st) (hown : OwnInv pid st)
    (hw : cfg.watermark = some w)
    (hs : (st.sub s).crashed = false) (hsub : SubStep (pid s) st (st.sub s) slots m)
    (ht : m.pc.tracked = true) : TrackMove st.mem.writeSeq (st.sub s) m := by
  refine hsub.track hw hown.seq.mem (hown.seq.subs s) (fun hc => ⟨?_, h.slot s hs hc⟩) ht
  exact h.kept hown.seq.mem ⟨hs, SubPc.tracked_of_connected hc⟩

/-- The subscriber keeps pace: its cursor is the present `write_seq`, or has not gone back. -/
theorem FlowInv.track_cursor (h : FlowInv J st) (hown : OwnInv pid st)
    (hs : (st.sub s).crashed = false) (hload : (st.sub s).pc = .connect → J)
    (hmove : TrackMove st.mem.writeSeq (st.sub s) m) :
    (J ∧ m.cursor = st.mem.writeSeq ∧ m.totalLagged = 0) ∨
      (st.Tracks s ∧ (st.sub s).cursor ≤ m.cursor ∧ m.cursor ≤ st.mem.writeSeq ∧
        m.totalLagged = 0) := by
  -- a step that leaves the cursor alone
  have hstill : (st.sub s).pc.joining = true → m.cursor = (st.sub s).cursor →
      m.totalLagged = (st.sub s).totalLagged →
      st.Tracks s ∧ (st.sub s).cursor ≤ m.cursor ∧ m.cursor ≤ st.mem.writeSeq ∧
        m.totalLagged = 0 := by
    intro hjoining hcur hlag
    have hs' : st.Tracks s := ⟨hs, SubPc.tracked_of_joining hjoining⟩
    rw [hcur, hlag]
    exact ⟨hs', le_rfl, (h.paced s hs').le, (h.paced s hs').lagged⟩
  cases hmove with
  | load hpc _ hcur hlag =>
    have hloc := (hown.seq.subs s).here
    rw [hpc] at hloc
    exact Or.inl ⟨hload hpc, hcur, by rw [hlag, hloc.2]⟩
  | join hjoining _ hcur hlag
  | joined hjoining _ hcur hlag => exact Or.inr (hstill hjoining hcur hlag)
  | recv hconn _ _ hge hle hlag =>
    have hs' : st.Tracks s := ⟨hs, SubPc.tracked_of_connected hconn⟩
    exact Or.inr ⟨hs', hge, hle, by rw [hlag, (h.paced s hs').lagged]⟩

/-- A running scan still covers the subscriber. -/
theorem TrackMove.covered [DecidableEq S] (hmove : TrackMove st.mem.writeSeq (st.sub s) m)
    (hs : (st.sub s).crashed = false) (hload : (st.sub s).pc = .connect → J) {sc : Scan}
    {pc : VisitPc} (hlive : m.crashed = false) (hold : st.Tracks s → Covered J st sc pc s) :
    Covered J (st.setSub s (slots, m)) sc pc s := by
  unfold Covered State.Holds
  simp only [State.setSub, update_self]
  -- a joining subscriber holds no `ACTIVE` slot
  have hjoin : (st.sub s).pc.joining = true → m.cursor = (st.sub s).cursor →
      (J ∧ m.cursor = st.mem.writeSeq) ∨ (sc.hasActive = true ∧ sc.minCursor ≤ m.cursor) := by
    intro hjoining hcur
    rw [hcur]
    rcases hold ⟨hs, SubPc.tracked_of_joining hjoining⟩ with hfresh | ⟨i, hheld, _⟩ | hcounted
    · exact Or.inl hfresh
    · have hconn := (Sub.held_joined hheld.2).1
      rw [SubPc.not_connected_of_joining hjoining] at hconn
      cases hconn
    · exact Or.inr hcounted
  cases hmove with
  | load hpc _ hcur _ => exact Or.inl ⟨hload hpc, hcur⟩
  | join hjoining _ hcur | joined hjoining _ hcur => exact (hjoin hjoining hcur).imp id Or.inr
  | recv hconn hconn' hslot hge hle _ =>
    rcases hold ⟨hs, SubPc.tracked_of_connected hconn⟩ with
      ⟨hJ, hcur⟩ | ⟨i, hheld, hahead⟩ | ⟨hact, hmin⟩
    · exact Or.inl ⟨hJ, by omega⟩
    · refine Or.inr (Or.inl ⟨i, ⟨hlive, Sub.held_connected hconn' ?_⟩, ?_⟩)
      · rw [hslot]
        exact (Sub.held_joined hheld.2).2
      · rcases hahead with hlt | ⟨hi, hsees⟩
        · exact Or.inl hlt
        · refine Or.inr ⟨hi, ?_⟩
          cases pc with
          | word => trivial
          | loadPid v => exact le_trans hsees hge
          | checkPid v p => exact le_trans hsees hge
          | _ => exact hsees
    · exact Or.inr (Or.inr ⟨hact, le_trans hmin hge⟩)

/-- **Subscriber.** -/
theorem flowInv_sub [Inhabited W] [DecidableEq S] (h : FlowInv J st) (hown : OwnInv pid st)
    (hw : cfg.watermark = some w) (hs : (st.sub s).crashed = false)
    (hsub : SubStep (pid s) st (st.sub s) slots m) (hload : (st.sub s).pc = .connect → J) :
    FlowInv J (st.setSub s (slots, m)) := by
  have hpos := cfg.effective_pos
  have htrack : m.pc.tracked = true → TrackMove st.mem.writeSeq (st.sub s) m :=
    h.track hown hw hs hsub
  -- the others do not move
  have hother : ∀ {s'}, s' ≠ s → (st.setSub s (slots, m)).Tracks s' → st.Tracks s' := by
    intro s' hne ht
    unfold State.Tracks at ht
    simp only [State.setSub, update_of_ne hne] at ht
    exact ht
  have hself : (st.setSub s (slots, m)).Tracks s → m.pc.tracked = true ∧ m.crashed = false := by
    intro ht
    unfold State.Tracks at ht
    simp only [State.setSub, update_self] at ht
    exact ⟨ht.2, ht.1⟩
  refine ⟨fun hJ => ⟨(h.fresh hJ).1, fun i c hi => ?_⟩, fun s' hlive hconn => ?_,
    fun s' ht => ?_, ?_⟩
  · -- the only cursor that is stored is the subscriber's own
    refine (hown.slotMove hs hsub).1.words (h.fresh hJ).2 (fun hconn => ?_) i c hi
    rcases h.track_cursor hown hs hload (htrack (SubPc.tracked_of_connected hconn)) with
      ⟨_, hcur, _⟩ | ⟨_, _, hle, _⟩
    · exact le_of_eq hcur
    · exact hle
  · by_cases hne : s' = s
    · subst hne
      simp only [State.setSub, update_self] at hlive hconn ⊢
      cases htrack (SubPc.tracked_of_connected hconn) with
      | load _ hno | join _ hno => rw [hno] at hconn; cases hconn
      | joined _ hi _ _ => exact ⟨_, hi⟩
      | recv hconn₀ _ hslot _ _ _ =>
        rw [hslot]
        exact h.slot s' hs hconn₀
    · simp only [State.setSub, update_of_ne hne] at hlive hconn ⊢
      exact h.slot s' hlive hconn
  · by_cases hne : s' = s
    · subst hne
      have hfresh := h.fresh
      rcases h.track_cursor hown hs hload (htrack (hself ht).1) with
        ⟨hJ, hcur, hlag⟩ | ⟨ht₀, hge, hle, hlag⟩
      · have hcached := (hfresh hJ).1
        refine ⟨?_, ?_, ?_, ?_⟩ <;> simp only [State.setSub, update_self]
        · omega
        · omega
        · omega
        · exact hlag
      · obtain ⟨hcached, _, hroom, _⟩ := h.paced s' ht₀
        refine ⟨?_, ?_, ?_, ?_⟩ <;> simp only [State.setSub, update_self]
        · omega
        · omega
        · omega
        · exact hlag
    · obtain ⟨hcached, hle, hroom, hlag⟩ := h.paced s' (hother hne ht)
      refine ⟨?_, ?_, ?_, ?_⟩ <;> simp only [State.setSub, update_of_ne hne]
      · exact hcached
      · exact hle
      · exact hroom
      · exact hlag
  · have hflow := h.pub
    show st.pub.Flow J (st.setSub s (slots, m))
    cases hp : st.pub with
    | scan v sc pc =>
      rw [hp] at hflow
      obtain ⟨hws, hlow, hcovered⟩ := hflow
      refine ⟨hws, hlow, fun s' ht => ?_⟩
      by_cases hne : s' = s
      · subst hne
        exact (htrack (hself ht).1).covered hs hload (hself ht).2 (hcovered s')
      · have hold := hcovered s' (hother hne ht)
        unfold Covered State.Holds at hold ⊢
        simp only [State.setSub, update_of_ne hne]
        exact hold
    | write v pc =>
      rw [hp] at hflow
      intro s' ht
      by_cases hne : s' = s
      · subst hne
        simp only [State.setSub, update_self]
        rcases h.track_cursor hown hs hload (htrack (hself ht).1) with
          ⟨_, hcur, _⟩ | ⟨ht₀, hge, _, _⟩
        · omega
        · have hroom := hflow s' ht₀
          omega
      · have hroom := hflow s' (hother hne ht)
        simp only [State.setSub, update_of_ne hne]
        exact hroom
    | _ => trivial

end

/-! ### Runs -/

/-- The tracked subscribers have not changed. -/
theorem FlowInv.of_subs (h : FlowInv J st) (hmem : st'.mem = st.mem) (hslots : st'.slots = st.slots)
    (hcached : st'.cachedSlowest = st.cachedSlowest) (hpub : st'.pub = st.pub)
    (hsame : ∀ s, st'.Tracks s → st'.sub s = st.sub s) : FlowInv J st' := by
  have hback : ∀ {s}, st'.Tracks s → st.Tracks s := by
    intro s hs
    have ht := hs
    unfold State.Tracks at ht
    rw [hsame s hs] at ht
    exact ht
  refine ⟨fun hJ => ?_, fun s hlive hconn => ?_, fun s hs => ?_, ?_⟩
  · rw [hmem, hslots, hcached]
    exact h.fresh hJ
  · have hs : st'.Tracks s := ⟨hlive, SubPc.tracked_of_connected hconn⟩
    rw [hsame s hs] at hlive hconn ⊢
    exact h.slot s hlive hconn
  · obtain ⟨hc, hle, hroom, hlag⟩ := h.paced s (hback hs)
    refine ⟨?_, ?_, ?_, ?_⟩
    · rw [hcached, hsame s hs]
      exact hc
    · rw [hmem, hsame s hs]
      exact hle
    · rw [hmem, hsame s hs]
      exact hroom
    · rw [hsame s hs]
      exact hlag
  · have hflow := h.pub
    rw [hpub]
    cases hp : st.pub with
    | scan v sc pc =>
      rw [hp] at hflow
      obtain ⟨hws, hlow, hcovered⟩ := hflow
      refine ⟨?_, ?_, fun s hs => ?_⟩
      · rw [hmem]
        exact hws
      · rw [hmem]
        exact hlow
      · have hold := hcovered s (hback hs)
        unfold Covered State.Holds at hold ⊢
        rw [hmem, hsame s hs]
        exact hold
    | write v pc =>
      rw [hp] at hflow
      intro s hs
      rw [hmem, hsame s hs]
      exact hflow s (hback hs)
    | _ => trivial

section

variable [Inhabited W] [DecidableEq S] {w : Nat}

/-- **Step.** -/
theorem flowInv_step (hw : cfg.watermark = some w) {a : Act cfg W S} (h : FlowInv J st)
    (hown : OwnInv pid st)
    (hjoin : st.rescans = true → ∀ s, (st.sub s).crashed = false →
      (st.sub s).pc.joining = true → J ∧ (st.sub s).cursor = st.mem.writeSeq)
    (hload : ∀ s, (st.sub s).crashed = false → (st.sub s).pc = .connect → J)
    (hst : Step pid st a st') : FlowInv J st' := by
  cases hst with
  | publish hp =>
    refine h.of_pub h.fresh (fun s hs => (h.paced s hs).cached) ?_
    rw [hw]
    trivial
  | pub hpub => exact flowInv_pub h hown hjoin hpub
  | @connect s _ _ _ =>
    refine h.of_subs rfl rfl rfl rfl (fun s' hs => ?_)
    by_cases hne : s' = s
    · -- a subscriber that has not loaded its cursor is not tracked
      subst hne
      have ht := hs.2
      simp only [update_self] at ht
      cases ht
    · simp only [update_of_ne hne]
  | sub ha hlive hsub => exact flowInv_sub h hown hw hlive hsub (hload _ hlive)
  | tick | spawn => exact h.of_subs rfl rfl rfl rfl (fun _ _ => rfl)
  | exit p =>
    refine h.of_subs rfl rfl rfl rfl (fun s hs => ?_)
    have hlive := hs.1
    simp only at hlive ⊢
    split at hlive
    · cases hlive
    · rename_i hno
      rw [if_neg hno]

/-- Whenever `try_publish` is about to rescan, every live subscriber between its load of the
    cursor and its `ACTIVE` store is up to date.  (With the conditions under which connected
    subscribers keep their slots.) -/
def NoLateJoiner (st : State cfg W S) (a : Act cfg W S) : Prop :=
  Prompt st a ∧ (st.rescans = true → ∀ s, (st.sub s).crashed = false →
    (st.sub s).pc.joining = true → (st.sub s).cursor = st.mem.writeSeq)

instance [Fintype S] (st : State cfg W S) (a : Act cfg W S) : Decidable (NoLateJoiner st a) :=
  inferInstanceAs (Decidable (_ ∧ _))

omit [DecidableEq S] in
/-- A fresh bus. -/
theorem flowInv_init : FlowInv True (init cfg W S) :=
  ⟨fun _ => ⟨le_rfl, nofun⟩, nofun, fun _ h => absurd h.2 nofun, trivial⟩

/-- **Run.** -/
theorem flowInv_run (hw : cfg.watermark = some w) {as : List (Act cfg W S)}
    (hrun : Run (step pid) NoLateJoiner (init cfg W S) as st) :
    OwnInv pid st ∧ FlowInv True st := by
  refine hrun.invariant (I := fun st => OwnInv pid st ∧ FlowInv True st)
    ⟨ownInv_init, flowInv_init⟩ ?_
  rintro st a st' ⟨hown, h⟩ hok hst
  refine ⟨ownInv_step hown hok.1 (step_inv hst), ?_⟩
  exact flowInv_step hw h hown (fun hr s hlive hj => ⟨trivial, hok.2 hr s hlive hj⟩)
    (fun _ _ _ => trivial) (step_inv hst)

/-- **Joining a bounded bus is lossless** in every run in which no rescan meets a subscriber
    that is still joining and not up to date.  For every live connected subscriber, from the
    return of `connect` on: `write_seq` is at most `ring_size - watermark` ahead of its cursor,
    `cached_slowest` is not beyond it, every value from its cursor on is in the ring, and it has
    received every value from its initial cursor on. -/
theorem joining_lossless (hw : cfg.watermark = some w) {as : List (Act cfg W S)}
    (hrun : Run (step pid) NoLateJoiner (init cfg W S) as st) {s : S}
    (hlive : (st.sub s).crashed = false) (hconn : (st.sub s).pc.connected = true) :
    (st.sub s).cursor ≤ st.mem.writeSeq ∧
    st.mem.writeSeq - (st.sub s).cursor ≤ cfg.ringSize - w ∧
    st.cachedSlowest ≤ (st.sub s).cursor ∧ (st.sub s).totalLagged = 0 ∧
    (∀ q, (st.sub s).cursor ≤ q → q < st.mem.writeSeq → st.mem.Intact q) ∧
    (st.sub s).cursor = (st.sub s).init + (st.sub s).received.length := by
  obtain ⟨hown, h⟩ := flowInv_run hw hrun
  have hs : st.Tracks s := ⟨hlive, SubPc.tracked_of_connected hconn⟩
  obtain ⟨hcached, hle, hroom, hlag⟩ := h.paced s hs
  have hcount := (hown.seq.subs s).count
  rw [BusConfig.effective_eq hw] at hroom
  rw [hlag, Nat.add_zero] at hcount
  exact ⟨hle, by omega, hcached, hlag, fun q hq hlt => h.intact hown.seq.mem hs hq hlt, hcount⟩

end

end

/-- A subscriber joins between two publishes and reads. -/
def joinInTimeSteps : List (Act tightBus Nat Bool) :=
  Act.spawn 7 :: Act.connect false :: Act.join false ::
    Act.publish (fun _ => 1) :: List.replicate 6 Act.pub ++
    List.replicate 4 (Act.join false) ++ Act.recv false :: List.replicate 4 (Act.read false)

/-- It receives the value published while it was joining. -/
theorem joining_lossless_in_time : ∃ st : State tightBus Nat Bool,
    Run (step twoPids) NoLateJoiner (init tightBus Nat Bool) joinInTimeSteps st ∧
    (st.sub false).received = [(0, fun _ => 1)] ∧ (st.sub false).totalLagged = 0 ∧
    st.cachedSlowest ≤ (st.sub false).cursor := by
  obtain ⟨st, hrun, hrec, hlive, hconn⟩ := exists_run_of_exec (step twoPids) NoLateJoiner
    (s := init tightBus Nat Bool) (l := joinInTimeSteps)
    (p := fun st => (st.sub false).received = [(0, fun _ => 1)] ∧ (st.sub false).crashed = false ∧
      (st.sub false).pc.connected = true) (by decide +kernel)
  obtain ⟨_, _, hcached, hlag, _, _⟩ := joining_lossless rfl hrun hlive hconn
  exact ⟨st, hrun, hrec, hlag, hcached⟩

/-- A subscriber loads its cursor; the publisher, finding no `ACTIVE` slot, laps it before the
    subscriber goes on. -/
def lateJoinSteps : List (Act tightBus Nat Bool) :=
  Act.spawn 7 :: Act.connect false :: Act.join false ::
    Act.publish (fun _ => 1) :: List.replicate 6 Act.pub ++
    Act.publish (fun _ => 2) :: List.replicate 70 Act.pub ++ List.replicate 4 (Act.join false)

/-- **The rescan misses a joiner.** When `connect` returns, two values are unread in a ring of
    one slot; value number 0 has been overwritten, and the first `try_recv` counts it as
    lagged. -/
theorem joiner_misses_rescan : ∃ st st₁ : State tightBus Nat Bool,
    Run (step twoPids) Prompt (init tightBus Nat Bool) lateJoinSteps st ∧
    ((st.sub false).crashed = false ∧ (st.sub false).pc.connected = true ∧
      (st.sub false).cursor = 0 ∧ st.mem.writeSeq = 2) ∧
    step twoPids st (.recv false) = some st₁ ∧ (st₁.sub false).totalLagged = 1 := by
  obtain ⟨st, hrun, hjoined, st₁, hst, hlag⟩ := exists_run_of_exec (step twoPids) Prompt
    (s := init tightBus Nat Bool) (l := lateJoinSteps)
    (p := fun st => ((st.sub false).crashed = false ∧ (st.sub false).pc.connected = true ∧
        (st.sub false).cursor = 0 ∧ st.mem.writeSeq = 2) ∧
      ∃ st₁ ∈ step twoPids st (.recv false), (st₁.sub false).totalLagged = 1) (by decide +kernel)
  exact ⟨st, st₁, hrun, hjoined, hst, hlag⟩

end Crossbar.Bus
