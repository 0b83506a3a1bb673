import Crossbar.Ring.Order

namespace Crossbar.Ring

open Function Crossbar.Lib

/-!
# Ring — what a stream gets to see

`Stream::try_recv` scans the window of claimed numbers and returns the first one that is
committed, moving `last_seq` past every number before it.  A number whose publisher has
claimed it but not closed its entry yet looks like an empty slot to the scan, so returning a
later message skips it for good.

* `Attentive` — runs in which the stream does not return a message after its scan has passed
  over an open number;
* `Delivery` — what holds then: every claimed number up to `last_seq` was returned, or its
  entry does not hold it any more, or it has left the window;
* `no_message_skipped` — once no publisher is at work, calling `try_recv` until it yields
  `None` returns every message of the window, and that loop ends;
* `open_message_skipped` — a run of two publishers on different entries in which the message
  committed last is never returned.
-/

variable {cfg : ValidConfig} {P S : Type}

/-! ### Runs of an attentive stream -/

section

variable [DecidableEq S] (single : P → Bool) (s : S)

/-- The step does not make stream `s` return a message after its scan has passed over an open
    number. -/
def heeds (st : State cfg P S) : Act cfg P S → Bool
  | .recv r _ =>
    if r = s then
      match st.str r with
      | some m =>
        match m.pc with
        | .recheck sc _ _ =>
          !(sc.passedOpen && decide ((st.shm.entry (m.topic, cfg.slotOf sc.pos)).seq = sc.pos))
        | _ => true
      | none => true
    else true
  | _ => true

/-- An admissible step at which stream `s` heeds the open numbers. -/
structure Attentive (st : State cfg P S) (a : Act cfg P S) : Prop extends Ok single st a where
  heeds : heeds s st a = true

instance (st : State cfg P S) (a : Act cfg P S) : Decidable (Attentive single s st a) :=
  decidable_of_iff (Ok single st a ∧ heeds s st a = true)
    ⟨fun h => ⟨h.1, h.2⟩, fun h => ⟨h.1, h.2⟩⟩

variable {single s}

/-- An attentive stream that is about to return a message has passed over no open number. -/
theorem Attentive.not_passedOpen {st : State cfg P S} {spurious : Bool}
    (h : Attentive single s st (.recv s spurious)) {m : Stream cfg} (hm : st.str s = some m)
    {sc : Scan} {b len : Nat} (hpc : m.pc = .recheck sc b len)
    (hseq : (st.shm.entry (m.topic, cfg.slotOf sc.pos)).seq = sc.pos) :
    sc.passedOpen = false := by
  have hh := h.heeds
  simpa [Ring.heeds, hm, hpc, hseq] using hh

end

/-- The step belongs to a publish call. -/
def Act.publishes : Act cfg P S → Bool
  | .commit _ _ | .pinned _ => true
  | _ => false

/-! ### Numbers that are out of reach -/

/-- Number `q` cannot be read from the ring any more: it was committed and its entry holds
    another number now, or it has left the window. -/
def Gone (sh : Shm cfg) (t : cfg.Topic) (q : Nat) : Prop :=
  (sh.closed t q = true ∧ (sh.entry (t, cfg.slotOf q)).seq ≠ q) ∨
    q + cfg.ringDepth ≤ sh.writeSeq t

/-- A number that is out of reach stays so: it is never closed a second time. -/
theorem Gone.forward {sh sh' : Shm cfg} {t : cfg.Topic} {q : Nat} (h : Gone sh t q)
    (hF : Forward sh sh') (hlt : ∀ t, sh.writeSeq t < seqWriting)
    (hcl : ∀ t q, sh.closed t q = true → q ≤ sh.writeSeq t) : Gone sh' t q := by
  rcases h with ⟨hclosed, hne⟩ | hout
  · refine Or.inl ⟨hF.closed t q hclosed, fun heq => ?_⟩
    rcases hF.entry (t, cfg.slotOf q) with hsame | hw | hnew
    · rw [hsame] at heq
      exact hne heq
    · have hle := hcl t q hclosed
      have hws := hlt t
      omega
    · rw [heq, hclosed] at hnew
      cases hnew
  · have hle := hF.seq_le t
    exact Or.inr (by omega)

section

variable [Fintype P] [Fintype S] {st : State cfg P S}

/-! ### What a step of `try_recv` does -/

/-- The stream is past a slot whose number changed under it. -/
def StreamPc.failed : StreamPc → Option Nat
  | .undo sc _ | .freeing sc _ => some sc.pos
  | _ => none

/-- A step of `try_recv`: the call ends at once, starts a scan, goes on inside a slot, leaves
    a slot empty-handed (the number is out of reach, was not claimed for the ring, or is
    open), or returns a message. -/
inductive RecvMove (sh : Shm cfg) (m : Stream cfg) : Stream cfg → Prop
  | empty : m.pc = .idle → sh.writeSeq m.topic ≤ m.lastSeq →
      RecvMove sh m { m with emptied := true }
  | start : m.pc = .idle → m.lastSeq < sh.writeSeq m.topic →
      RecvMove sh m { m with
        pc := .check ⟨sh.writeSeq m.topic,
          scanStart cfg.ringDepth m.lastSeq (sh.writeSeq m.topic), false⟩
        emptied := false }
  | go {sc : Scan} {pc' : StreamPc} : m.pc.scan = some sc → pc'.scan = some sc →
      (∀ pos, pc'.failed = some pos → Gone sh m.topic pos) → RecvMove sh m { m with pc := pc' }
  | skip {sc : Scan} {opened : Bool} : m.pc.scan = some sc →
      (opened = false → (sh.claims m.topic sc.pos).isSome = true → Gone sh m.topic sc.pos) →
      (opened = true → sh.isOpen m.topic sc.pos = true) → RecvMove sh m (m.skip sc opened)
  | ret {sc : Scan} {b len : Nat} : m.pc = .recheck sc b len →
      (sh.entry (m.topic, cfg.slotOf sc.pos)).seq = sc.pos →
      RecvMove sh m
        { m with pc := .idle, lastSeq := sc.pos, returned := m.returned ++ [sc.pos] }

/-- A stream that has passed the check on a slot and finds it changed has lost the number. -/
theorem gone_of_passed (hI : Inv st) {s : S} {m : Stream cfg} (hm : st.str s = some m) {pos : Nat}
    (hpassed : m.pc.passed = some pos)
    (hne : (st.shm.entry (m.topic, cfg.slotOf pos)).seq ≠ pos) : Gone st.shm m.topic pos :=
  Or.inl ⟨(hI.streams s m hm).passed pos hpassed, hne⟩

/-- Every step of `try_recv` is such a move. -/
theorem streamStep_move (hI : Inv st) {s : S} {m : Stream cfg} (hm : st.str s = some m)
    (hfailed : ∀ pos, m.pc.failed = some pos → Gone st.shm m.topic pos) (spurious : Bool) :
    RecvMove st.shm m (streamStep spurious st.shm m).2.1 := by
  have hS := hI.streams s m hm
  have hws := hI.seq_lt m.topic
  unfold streamStep
  cases hpc : m.pc with
  | idle =>
    simp only
    split
    · rename_i hle
      have hmove := RecvMove.empty hpc hle
      simpa only [hpc] using hmove
    · rename_i hnew
      exact .start hpc (by omega)
  | check sc =>
    have hsc : m.pc.scan = some sc := by rw [hpc]; rfl
    simp only
    split
    · exact .go hsc rfl (by rintro _ ⟨⟩)
    · rename_i hne
      refine .skip hsc (fun hopen hclaim => Or.inl ⟨?_, hne⟩) (fun hopen => hopen)
      simpa [Shm.isOpen, hclaim] using hopen
  | loadBlock sc => exact .go (by rw [hpc]; rfl) rfl (by rintro _ ⟨⟩)
  | loadLen sc b =>
    have hsc : m.pc.scan = some sc := by rw [hpc]; rfl
    simp only
    split
    · rename_i hbad
      -- a committed entry has a valid block and length, so the number has changed
      refine .skip hsc (fun _ _ => gone_of_passed hI hm (by rw [hpc]; rfl) ?_) (by rintro ⟨⟩)
      intro hseq
      obtain ⟨hpos, hle, hcur⟩ := hS.scan sc hsc
      have hblk := hS.locals sc hsc
      rw [hpc] at hblk
      have hentry := hI.entries (m.topic, cfg.slotOf sc.pos)
      rw [EntryInv, hseq] at hentry
      obtain ⟨_, _, hclaim⟩ := hentry (by omega) (by omega)
      have hvalid := hI.valid _ _ _ hclaim
      have hb := hvalid.block_lt
      have hlen := hvalid.len_le
      have hb' : (st.shm.entry (m.topic, cfg.slotOf sc.pos)).blockIdx = b := hblk hseq
      simp only [hb'] at hb hlen
      have hnb := ne_noBlock hb
      omega
    · exact .go hsc rfl (by rintro _ ⟨⟩)
  | loadRc sc b len =>
    have hsc : m.pc.scan = some sc := by rw [hpc]; rfl
    simp only
    split
    · rename_i hzero
      -- the entry's block is referenced, so the number has changed
      refine .skip hsc (fun _ _ => gone_of_passed hI hm (by rw [hpc]; rfl) ?_) (by rintro ⟨⟩)
      intro hseq
      have hloc := hS.locals sc hsc
      have hrange := hI.strRange s m hm
      rw [hpc] at hloc hrange
      have hpos := refs_pos_of_entry st (m.topic, cfg.slotOf sc.pos)
      rw [(hloc hseq).1, ← (hI.blocks b hrange).count] at hpos
      omega
    · exact .go hsc rfl (by rintro _ ⟨⟩)
  | casRc sc b len rc =>
    simp only
    split
    · exact .go (by rw [hpc]; rfl) rfl (by rintro _ ⟨⟩)
    · exact .go (by rw [hpc]; rfl) rfl (by rintro _ ⟨⟩)
  | recheck sc b len =>
    simp only
    split
    · rename_i hseq
      exact .ret hpc hseq
    · rename_i hne
      refine .go (by rw [hpc]; rfl) rfl (fun pos hpos => ?_)
      cases hpos
      exact gone_of_passed hI hm (by rw [hpc]; rfl) hne
  | undo sc b =>
    have hgone := hfailed sc.pos (by rw [hpc]; rfl)
    simp only
    split
    · refine .go (by rw [hpc]; rfl) rfl (fun pos hpos => ?_)
      cases hpos
      exact hgone
    · exact .skip (by rw [hpc]; rfl) (fun _ _ => hgone) (by rintro ⟨⟩)
  | freeing sc b =>
    exact .skip (by rw [hpc]; rfl) (fun _ _ => hfailed sc.pos (by rw [hpc]; rfl)) (by rintro ⟨⟩)

/-! ### The delivery invariant -/

/-- What the stream has left behind: everything claimed up to `last_seq` since it subscribed
    was returned or is out of reach, and so is everything its scan has passed over, unless
    the scan has passed over an open number. -/
structure Delivery (sh : Shm cfg) (m : Stream cfg) : Prop where
  behind : ∀ q, m.since < q → q ≤ m.lastSeq → (sh.claims m.topic q).isSome = true →
    q ∈ m.returned ∨ Gone sh m.topic q
  ahead : ∀ sc, m.pc.scan = some sc → m.lastSeq < sc.pos
  passed : ∀ sc, m.pc.scan = some sc → sc.passedOpen = false →
    ∀ q, m.lastSeq < q → q < sc.pos → (sh.claims m.topic q).isSome = true → Gone sh m.topic q
  failed : ∀ pos, m.pc.failed = some pos → Gone sh m.topic pos

omit [Fintype P] [Fintype S] in
/-- The stream keeps what it left behind while the log moves forward. -/
theorem Delivery.forward {sh sh' : Shm cfg} {m : Stream cfg} (h : Delivery sh m)
    (hS : StreamInv sh m) (hF : Forward sh sh') (hlt : ∀ t, sh.writeSeq t < seqWriting)
    (hcl : ∀ t q, sh.closed t q = true → q ≤ sh.writeSeq t) : Delivery sh' m where
  behind := by
    intro q hsince hlast hclaim
    have hle := hS.last_le
    rw [hF.claims m.topic q (by omega)] at hclaim
    rcases h.behind q hsince hlast hclaim with hret | hgone
    · exact Or.inl hret
    · exact Or.inr (hgone.forward hF hlt hcl)
  ahead := h.ahead
  passed := by
    intro sc hsc hopen q hq hpos hclaim
    obtain ⟨_, hle, hcur⟩ := hS.scan sc hsc
    rw [hF.claims m.topic q (by omega)] at hclaim
    exact (h.passed sc hsc hopen q hq hpos hclaim).forward hF hlt hcl
  failed := fun pos hpos => (h.failed pos hpos).forward hF hlt hcl

omit [Fintype P] [Fintype S] in
/-- What the start of the scan jumps over has left the window. -/
theorem window_of_lt_scanStart {depth lastSeq current q : Nat} (hq : lastSeq < q)
    (hq' : q < scanStart depth lastSeq current) : q + depth ≤ current := by
  unfold scanStart at hq'
  split at hq' <;> omega

omit [Fintype P] [Fintype S] in
/-- One step of an attentive `try_recv` leaves nothing behind. -/
theorem delivery_move {sh : Shm cfg} {m m' : Stream cfg} (h : Delivery sh m)
    (hmove : RecvMove sh m m')
    (hheed : ∀ sc b len, m.pc = .recheck sc b len →
      (sh.entry (m.topic, cfg.slotOf sc.pos)).seq = sc.pos → sc.passedOpen = false) :
    Delivery sh m' := by
  cases hmove with
  | empty hpc hle => exact ⟨h.behind, h.ahead, h.passed, h.failed⟩
  | start hpc hlt =>
    obtain ⟨hstart, _⟩ := scanStart_bounds cfg.ringDepth_pos hlt
    refine ⟨h.behind, ?_, ?_, nofun⟩
    · intro sc hsc
      cases hsc
      exact hstart
    · intro sc hsc _ q hq hq' _
      cases hsc
      exact Or.inr (window_of_lt_scanStart hq hq')
  | go hsc hsc' hfailed =>
    refine ⟨h.behind, ?_, ?_, hfailed⟩
    · intro sc hsc₁
      rw [hsc'] at hsc₁
      cases hsc₁
      exact h.ahead _ hsc
    · intro sc hsc₁
      rw [hsc'] at hsc₁
      cases hsc₁
      exact h.passed _ hsc
  | @skip sc opened hsc hpos _ =>
    have hahead := h.ahead sc hsc
    unfold Stream.skip Scan.next
    by_cases hlt : sc.pos < sc.cur
    · simp only [if_pos hlt]
      refine ⟨h.behind, ?_, ?_, nofun⟩
      · intro sc' hsc'
        cases hsc'
        exact Nat.lt_succ_of_lt hahead
      · intro sc' hsc' hopen q hq hq' hclaim
        cases hsc'
        simp only [Bool.or_eq_false_iff] at hopen
        rcases Nat.lt_succ_iff_lt_or_eq.mp hq' with hbefore | rfl
        · exact h.passed sc hsc hopen.1 q hq hbefore hclaim
        · exact hpos hopen.2 hclaim
    · simp only [if_neg hlt]
      exact ⟨h.behind, nofun, nofun, nofun⟩
  | @ret sc b len hpc hseq =>
    have hsc : m.pc.scan = some sc := by rw [hpc]; rfl
    -- everything between the old and the new `last_seq` was passed over for good
    refine ⟨?_, nofun, nofun, nofun⟩
    intro q hsince hq hclaim
    rcases Nat.lt_or_ge m.lastSeq q with hnew | hold
    · rcases Nat.lt_or_eq_of_le hq with hlt | rfl
      · exact Or.inr (h.passed sc hsc (hheed sc b len hpc hseq) q hnew hlt hclaim)
      · exact Or.inl (by simp)
    · rcases h.behind q hsince hold hclaim with hret | hgone
      · exact Or.inl (List.mem_append_left _ hret)
      · exact Or.inr hgone

/-! ### Runs -/

variable [DecidableEq P] [DecidableEq S]

/-- The invariant together with what stream `s` has left behind. -/
structure Delivered (s : S) (st : State cfg P S) : Prop extends Inv st where
  delivery : ∀ m, st.str s = some m → Delivery st.shm m

omit st in
/-- Only its own steps and its subscription change a stream. -/
theorem str_of_step {single : P → Bool}
    {st st' : State cfg P S} {a : Act cfg P S} (hst : Step single st a st') (s : S) :
    (st'.str s = st.str s ∧ ∀ spurious, a ≠ .recv s spurious) ∨
    (∃ t, a = .subscribe s t ∧
      st'.str s = some ⟨t, st.shm.writeSeq t, .idle, st.shm.writeSeq t, [], false⟩) ∨
    (∃ spurious m, a = .recv s spurious ∧ st.str s = some m ∧
      st'.str s = some (streamStep spurious st.shm m).2.1) := by
  cases hst with
  | @subscribe r t hr =>
    by_cases hrs : r = s
    · subst hrs
      exact Or.inr (Or.inl ⟨t, rfl, update_self ..⟩)
    · exact Or.inl ⟨update_of_ne (Ne.symm hrs) .., nofun⟩
  | @recv r m spurious hm =>
    by_cases hrs : r = s
    · subst hrs
      exact Or.inr (Or.inr ⟨spurious, m, rfl, hm, update_self ..⟩)
    · refine Or.inl ⟨update_of_ne (Ne.symm hrs) .., fun spurious' heq => ?_⟩
      cases heq
      exact hrs rfl
  | _ => exact Or.inl ⟨rfl, nofun⟩

/-- **Step.** An attentive step leaves nothing behind. -/
theorem delivered_step {single : P → Bool} {s : S} {st' : State cfg P S} {a : Act cfg P S}
    (h : Delivered s st) (hok : Attentive single s st a) (hst : Step single st a st') :
    Delivered s st' := by
  have hF := forward_step h.toInv hok.toOk hst
  refine ⟨inv_step h.toInv hok.toOk hst, fun m' hm' => ?_⟩
  rcases str_of_step hst s with ⟨hsame, _⟩ | ⟨t, rfl, hnew⟩ | ⟨spurious, m, rfl, hm, hnew⟩
  · rw [hsame] at hm'
    exact (h.delivery m' hm').forward (h.streams s m' hm') hF h.seq_lt h.closed_le
  · rw [hnew, Option.some.injEq] at hm'
    subst hm'
    refine ⟨fun q hsince hlast _ => ?_, nofun, nofun, nofun⟩
    exact absurd hlast (Nat.not_le.mpr hsince)
  · rw [hnew, Option.some.injEq] at hm'
    subst hm'
    have hD := h.delivery m hm
    have hmove := streamStep_move h.toInv hm hD.failed spurious
    exact (delivery_move hD hmove (fun sc b len hpc => hok.not_passedOpen hm hpc)).forward
      (streamInv_step h.toInv hm spurious) hF h.seq_lt h.closed_le

/-- **Run.** A stream that is attentive all along has left nothing behind. -/
theorem delivered_run {single : P → Bool} {s : S} {as : List (Act cfg P S)}
    (hrun : Run (step single) (Attentive single s) (init cfg P S) as st) : Delivered s st :=
  hrun.invariant ⟨inv_init cfg P S, nofun⟩
    (fun _ _ _ h hok hst => delivered_step h hok (step_inv hst))

/-! ### Emptying the ring -/

/-- No publisher is at work, and what stream `s` is scanning is all there is: its scan
    started from the present `write_seq` and passed over no open number. -/
structure Calm (s : S) (st : State cfg P S) : Prop extends Delivered s st where
  quiet : ∀ p, (st.pub p).quiet = true
  scan : ∀ m sc, st.str s = some m → m.pc.scan = some sc →
    sc.cur = st.shm.writeSeq m.topic ∧ sc.passedOpen = false ∧ m.emptied = false

/-- The last call of stream `s` yielded `None` because nothing is left. -/
def Emptied (s : S) (st : State cfg P S) : Prop :=
  ∀ m, st.str s = some m → m.pc = .idle → m.emptied = true →
    ∀ q, m.lastSeq < q → (st.shm.claims m.topic q).isSome = true → Gone st.shm m.topic q

omit [DecidableEq P] [DecidableEq S] in
/-- With no publisher at work no number is open. -/
theorem Inv.not_isOpen (hI : Inv st) (hquiet : ∀ p, (st.pub p).quiet = true) (t : cfg.Topic)
    (q : Nat) : st.shm.isOpen t q = false := by
  unfold Shm.isOpen
  cases hclaim : st.shm.claims t q with
  | none => rfl
  | some rec =>
    rcases hI.accounted t q rec hclaim with hcl | ⟨p, c, pc, hp, _⟩
    · simp [hcl]
    · have hq := hquiet p
      rw [hp] at hq
      cases hq

/-- A step outside publish calls leaves log and entries as they are, and the publishers out
    of `commit_to_ring`. -/
theorem calm_frame {single : P → Bool} {st' : State cfg P S} {a : Act cfg P S}
    (hst : Step single st a st') (hq : ∀ p, (st.pub p).quiet = true)
    (ha : a.publishes = false) :
    (∀ p, (st'.pub p).quiet = true) ∧ st'.shm.writeSeq = st.shm.writeSeq ∧
      st'.shm.claims = st.shm.claims ∧ st'.shm.closed = st.shm.closed ∧
      st'.shm.entry = st.shm.entry := by
  have hupd : ∀ (p : P) (x : PubPc cfg), x.quiet = true →
      ∀ q, (update st.pub p x q).quiet = true := by
    intro p x hx q
    by_cases hqp : q = p
    · subst hqp
      rw [update_self]
      exact hx
    · rw [update_of_ne hqp]
      exact hq q
  cases hst with
  | loan | write | dropLoan | freed => exact ⟨hupd _ _ rfl, rfl, rfl, rfl, rfl⟩
  | claim | commit | pinned => cases ha
  | subscribe | dropSample | freedSample => exact ⟨hq, rfl, rfl, rfl, rfl⟩
  | @recv r m spurious hm =>
    obtain ⟨rc, hrc⟩ := streamStep_shm spurious st.shm m
    exact ⟨hq, by rw [hrc], by rw [hrc], by rw [hrc], by rw [hrc]⟩

omit [Fintype P] [Fintype S] [DecidableEq P] [DecidableEq S] in
/-- Out of reach depends on the log and the entries only. -/
theorem Gone.of_same {sh sh' : Shm cfg} {t : cfg.Topic} {q : Nat} (h : Gone sh t q)
    (hseq : sh'.writeSeq = sh.writeSeq) (hclosed : sh'.closed = sh.closed)
    (hentry : sh'.entry = sh.entry) : Gone sh' t q := by
  unfold Gone at h ⊢
  rw [hseq, hclosed, hentry]
  exact h

omit [DecidableEq P] [DecidableEq S] in
/-- A step of `try_recv` in the calm: the scan stays current, and a call that yields `None`
    has found every number above `last_seq` out of reach. -/
theorem calm_recv {s : S} (h : Calm s st) {m : Stream cfg} (hm : st.str s = some m)
    (spurious : Bool) :
    (∀ sc, (streamStep spurious st.shm m).2.1.pc.scan = some sc →
      sc.cur = st.shm.writeSeq (streamStep spurious st.shm m).2.1.topic ∧
      sc.passedOpen = false ∧ (streamStep spurious st.shm m).2.1.emptied = false) ∧
    ((streamStep spurious st.shm m).2.1.pc = .idle →
      (streamStep spurious st.shm m).2.1.emptied = true →
      ∀ q, (streamStep spurious st.shm m).2.1.lastSeq < q →
        (st.shm.claims (streamStep spurious st.shm m).2.1.topic q).isSome = true →
        Gone st.shm (streamStep spurious st.shm m).2.1.topic q) := by
  have hD := h.delivery m hm
  have hle : ∀ q, (st.shm.claims m.topic q).isSome = true → q ≤ st.shm.writeSeq m.topic := by
    intro q hclaim
    obtain ⟨rec, hrec⟩ := Option.isSome_iff_exists.mp hclaim
    exact (h.valid _ _ _ hrec).seq_le
  generalize hm' : (streamStep spurious st.shm m).2.1 = m'
  have hmove : RecvMove st.shm m m' := hm' ▸ streamStep_move h.toInv hm hD.failed spurious
  cases hmove with
  -- `write_seq` has not moved, so there is nothing above `last_seq`
  | empty hpc hws =>
    refine ⟨fun sc hsc => ?_, fun _ _ q hq hclaim => ?_⟩
    · simp only [hpc] at hsc
      cases hsc
    · have hq' := hle q hclaim
      simp only at hq
      omega
  | start hpc hlt =>
    refine ⟨fun sc hsc => ?_, nofun⟩
    cases hsc
    exact ⟨rfl, rfl, rfl⟩
  | @go sc pc' hsc hsc' hfailed =>
    refine ⟨fun sc₁ hsc₁ => ?_, fun hidle => ?_⟩
    · simp only [hsc', Option.some.injEq] at hsc₁
      subst hsc₁
      exact h.scan m sc hm hsc
    · simp only at hidle
      rw [hidle] at hsc'
      cases hsc'
  -- with no publish under way a number is passed only when it is out of reach
  | @skip sc opened hsc hpos hopen =>
    obtain ⟨hcur, hpassed, _⟩ := h.scan m sc hm hsc
    have hclosed : opened = false := by
      by_contra hne
      have hop := hopen (by simpa using hne)
      rw [h.not_isOpen h.quiet] at hop
      cases hop
    unfold Stream.skip Scan.next
    by_cases hlt : sc.pos < sc.cur
    · simp only [if_pos hlt]
      refine ⟨fun sc' hsc' => ?_, nofun⟩
      cases hsc'
      exact ⟨hcur, by simp [hpassed, hclosed], by simp [hlt]⟩
    · simp only [if_neg hlt]
      refine ⟨nofun, fun _ _ q hq hclaim => ?_⟩
      have hq' := hle q hclaim
      rcases Nat.lt_or_ge q sc.pos with hbefore | hafter
      · exact hD.passed sc hsc hpassed q hq hbefore hclaim
      · have heq : q = sc.pos := by omega
        subst heq
        exact hpos hclosed hclaim
  | @ret sc b len hpc hseq =>
    have hem := (h.scan m sc hm (by rw [hpc]; rfl)).2.2
    refine ⟨nofun, fun _ hem' => ?_⟩
    simp only [hem] at hem'
    cases hem'

/-- **Step.** Outside publish calls the calm lasts; a step of stream `s` moreover ends its
    call with `None` only if nothing is left. -/
theorem calm_step {single : P → Bool} {s : S} {st' : State cfg P S} {a : Act cfg P S}
    (h : Calm s st) (hok : Attentive single s st a) (ha : a.publishes = false)
    (hst : Step single st a st') :
    Calm s st' ∧ ((Emptied s st ∨ ∃ spurious, a = .recv s spurious) → Emptied s st') := by
  have hD := delivered_step h.toDelivered hok hst
  obtain ⟨hquiet, hseq, hclaims, hclosed, hentry⟩ := calm_frame hst h.quiet ha
  rcases str_of_step hst s with ⟨hsame, hother⟩ | ⟨t, rfl, hnew⟩ | ⟨spurious, m, rfl, hm, hnew⟩
  · refine ⟨⟨hD, hquiet, fun m sc hm hsc => ?_⟩, ?_⟩
    · rw [hsame] at hm
      rw [hseq]
      exact h.scan m sc hm hsc
    · rintro (hE | ⟨spurious, ha'⟩)
      · intro m hm hpc hem q hq hclaim
        rw [hsame] at hm
        rw [hclaims] at hclaim
        exact (hE m hm hpc hem q hq hclaim).of_same hseq hclosed hentry
      · exact absurd ha' (hother spurious)
  · refine ⟨⟨hD, hquiet, fun m sc hm hsc => ?_⟩, fun _ m hm _ hem => ?_⟩
    · rw [hnew, Option.some.injEq] at hm
      subst hm
      cases hsc
    · rw [hnew, Option.some.injEq] at hm
      subst hm
      cases hem
  · obtain ⟨hscan, hempty⟩ := calm_recv h hm spurious
    refine ⟨⟨hD, hquiet, fun m' sc hm' hsc => ?_⟩, fun _ m' hm' hpc hem q hq hclaim => ?_⟩
    · rw [hnew, Option.some.injEq] at hm'
      subst hm'
      rw [hseq]
      exact hscan sc hsc
    · rw [hnew, Option.some.injEq] at hm'
      subst hm'
      rw [hclaims] at hclaim
      exact (hempty hpc hem q hq hclaim).of_same hseq hclosed hentry

/-- The steps while no publish call is running. -/
def Idle (single : P → Bool) (s : S) (st : State cfg P S) (a : Act cfg P S) : Prop :=
  Attentive single s st a ∧ a.publishes = false

instance (single : P → Bool) (s : S) (st : State cfg P S) (a : Act cfg P S) :
    Decidable (Idle single s st a) := inferInstanceAs (Decidable (_ ∧ _))

/-- **Run.** The calm lasts, log and entries stay as they are, and after a step of stream `s`
    a call yields `None` only if nothing is left. -/
theorem calm_run {single : P → Bool} {s : S} {st' : State cfg P S} {bs : List (Act cfg P S)}
    (hrun : Run (step single) (Idle single s) st bs st') (h : Calm s st) :
    Calm s st' ∧ ((Emptied s st ∨ ∃ spurious, .recv s spurious ∈ bs) → Emptied s st') ∧
      st'.shm.writeSeq = st.shm.writeSeq ∧ st'.shm.claims = st.shm.claims ∧
      st'.shm.entry = st.shm.entry := by
  induction hrun with
  | nil st => exact ⟨h, by simp, rfl, rfl, rfl⟩
  | @cons st st₁ st₂ a as hok hst _ ih =>
    obtain ⟨hcalm, hempty⟩ := calm_step h hok.1 hok.2 (step_inv hst)
    obtain ⟨_, hseq, hclaims, _, hentry⟩ := calm_frame (step_inv hst) h.quiet hok.2
    obtain ⟨hcalm', hempty', hseq', hclaims', hentry'⟩ := ih hcalm
    refine ⟨hcalm', ?_, hseq'.trans hseq, hclaims'.trans hclaims, hentry'.trans hentry⟩
    rintro (hE | ⟨spurious, hmem⟩)
    · exact hempty' (Or.inl (hempty (Or.inl hE)))
    · rcases List.mem_cons.mp hmem with rfl | hlater
      · exact hempty' (Or.inl (hempty (Or.inr ⟨spurious, rfl⟩)))
      · exact hempty' (Or.inr ⟨spurious, hlater⟩)

/-! ### The loop ends -/

omit [Fintype P] [Fintype S] [DecidableEq P] in
/-- The state with stream `s` replaced. -/
def State.setStr (st : State cfg P S) (s : S) (m : Stream cfg) : State cfg P S :=
  { st with str := update st.str s (some m) }

omit [Fintype P] [Fintype S] [DecidableEq P] in
theorem setStr_str (st : State cfg P S) (s : S) (m : Stream cfg) :
    (st.setStr s m).str s = some m := update_self ..

omit [Fintype P] [Fintype S] [DecidableEq P] in
theorem setStr_self {s : S} {m : Stream cfg} (hm : st.str s = some m) : st.setStr s m = st := by
  unfold State.setStr
  rw [← hm, update_eq_self]

/-- No count is at its limit. -/
def Room (sh : Shm cfg) : Prop := ∀ b, b < cfg.blockCount → sh.refcount b + 1 < 2 ^ 32

omit [DecidableEq P] in
/-- In the calm, with room in the counts, a stream may always take its next step. -/
theorem idle_recv (single : P → Bool) {s : S} {m : Stream cfg} (h : Calm s st)
    (hm : st.str s = some m)
    (hfit : ∀ sc b len rc, m.pc = .casRc sc b len rc → rc + 1 < 2 ^ 32) :
    Idle single s st (.recv s false) := by
  refine ⟨⟨⟨⟨rfl, ?_⟩, rfl⟩, ?_⟩, rfl⟩
  · simp only [bumpFits, hm]
    cases hpc : m.pc with
    | casRc sc b len rc => simpa using hfit sc b len rc hpc
    | _ => rfl
  · simp only [Ring.heeds, if_true, hm]
    cases hpc : m.pc with
    | recheck sc b len =>
      have hopen := (h.scan m sc hm (by rw [hpc]; rfl)).2.1
      simp [hopen]
    | _ => rfl

/-- A step of the stream that stores nothing. -/
theorem recv_setStr (single : P → Bool) {s : S} {m : Stream cfg} (m' : Stream cfg)
    (h : Calm s (st.setStr s m))
    (hfit : ∀ sc b len rc, m.pc = .casRc sc b len rc → rc + 1 < 2 ^ 32)
    (hstep : streamStep false st.shm m = (st.shm, m', none)) :
    Run (step single) (Idle single s) (st.setStr s m) [.recv s false] (st.setStr s m') ∧
      Calm s (st.setStr s m') := by
  have hidle := idle_recv single h (setStr_str st s m) hfit
  have hst : step single (st.setStr s m) (.recv s false) = some (st.setStr s m') := by
    simp only [step, setStr_str]
    have hshm : (st.setStr s m).shm = st.shm := rfl
    rw [hshm, hstep]
    simp [State.setStr]
  exact ⟨.single hidle hst, (calm_step h hidle.1 hidle.2 (step_inv hst)).1⟩

/-- Taking a reference, confirming the number and dropping the sample again: the message is
    returned and the shared words are what they were. -/
theorem take_and_drop (single : P → Bool) {s : S} {m : Stream cfg} {sc : Scan} {b len : Nat}
    (h : Calm s (st.setStr s { m with pc := .casRc sc b len (st.shm.refcount b) }))
    (hb : b < cfg.blockCount) (hpos : 0 < st.shm.refcount b) (hroom : Room st.shm)
    (hseq : (st.shm.entry (m.topic, cfg.slotOf sc.pos)).seq = sc.pos) :
    ∃ bs st', Run (step single) (Idle single s)
        (st.setStr s { m with pc := .casRc sc b len (st.shm.refcount b) }) bs st' ∧
      Calm s st' ∧ st'.shm = st.shm ∧ st'.str s = some
        { m with pc := .idle, lastSeq := sc.pos, returned := m.returned ++ [sc.pos] } := by
  have hfit := hroom b hb
  have hwrap : wrap32 (st.shm.refcount b + 1) = st.shm.refcount b + 1 := wrap32_of_lt hfit
  have hdec : dec32 (st.shm.refcount b + 1) = st.shm.refcount b :=
    dec32_of_pos (Nat.succ_pos _) hfit
  -- the CAS on the count
  have hidle₁ := idle_recv single h (setStr_str st s _)
    (fun sc' b' len' rc' heq => by cases heq; exact hfit)
  have hst₁ : step single (st.setStr s { m with pc := .casRc sc b len (st.shm.refcount b) })
      (.recv s false) = some { st.setStr s { m with pc := .recheck sc b len } with
        shm := st.shm.setRc b (st.shm.refcount b + 1) } := by
    simp [step, State.setStr, streamStep, hwrap]
  have hcalm₁ := (calm_step h hidle₁.1 hidle₁.2 (step_inv hst₁)).1
  -- the second look at the number
  have hidle₂ := idle_recv single hcalm₁ (setStr_str st s _)
    (fun sc' b' len' rc' heq => by cases heq)
  have hst₂ : step single { st.setStr s { m with pc := .recheck sc b len } with
        shm := st.shm.setRc b (st.shm.refcount b + 1) } (.recv s false) =
      some { st.setStr s { m with
          pc := .idle, lastSeq := sc.pos, returned := m.returned ++ [sc.pos] } with
        shm := st.shm.setRc b (st.shm.refcount b + 1)
        samples := st.samples ++ [.live m.topic sc.pos b len] } := by
    simp [step, State.setStr, streamStep, Shm.setRc, hseq]
  have hcalm₂ := (calm_step hcalm₁ hidle₂.1 hidle₂.2 (step_inv hst₂)).1
  -- the drop
  have hst₃ : step single { st.setStr s { m with
          pc := .idle, lastSeq := sc.pos, returned := m.returned ++ [sc.pos] } with
        shm := st.shm.setRc b (st.shm.refcount b + 1)
        samples := st.samples ++ [.live m.topic sc.pos b len] } (.dropSample st.samples.length) =
      some { st.setStr s { m with
          pc := .idle, lastSeq := sc.pos, returned := m.returned ++ [sc.pos] } with
        samples :=
          (st.samples ++ [Sample.live m.topic sc.pos b len]).set st.samples.length .gone } := by
    have hne : st.shm.refcount b ≠ 0 := by omega
    simp [step, State.setStr, Shm.setRc, hdec, hne]
  have hidle₃ : Idle single s { st.setStr s { m with
          pc := .idle, lastSeq := sc.pos, returned := m.returned ++ [sc.pos] } with
        shm := st.shm.setRc b (st.shm.refcount b + 1)
        samples := st.samples ++ [.live m.topic sc.pos b len] }
      (.dropSample st.samples.length) := ⟨⟨⟨⟨rfl, rfl⟩, rfl⟩, rfl⟩, rfl⟩
  have hcalm₃ := (calm_step hcalm₂ hidle₃.1 hidle₃.2 (step_inv hst₃)).1
  exact ⟨_, _, .cons hidle₁ hst₁ (.cons hidle₂ hst₂ (.single hidle₃ hst₃)), hcalm₃, rfl,
    setStr_str st s _⟩

/-- One slot of the scan: it is left empty-handed, or its message is returned. -/
theorem slot_ends (single : P → Bool) {s : S} {m : Stream cfg} {sc : Scan}
    (h : Calm s (st.setStr s m)) (hpc : m.pc = .check sc) (hroom : Room st.shm) :
    ∃ bs st' m', Run (step single) (Idle single s) (st.setStr s m) (.recv s false :: bs) st' ∧
      Calm s st' ∧ st'.shm = st.shm ∧ st'.str s = some m' ∧
      ((∃ opened, m' = m.skip sc opened) ∨
        m' = { m with pc := .idle, lastSeq := sc.pos, returned := m.returned ++ [sc.pos] }) := by
  by_cases hseq : (st.shm.entry (m.topic, cfg.slotOf sc.pos)).seq = sc.pos
  · -- the entry has the number: its block and length are loaded
    obtain ⟨hr₁, hc₁⟩ := recv_setStr single ({ m with pc := .loadBlock sc }) h
      (by rw [hpc]; nofun) (by simp [streamStep, hpc, hseq])
    obtain ⟨hr₂, hc₂⟩ := recv_setStr single ({ m with
      pc := .loadLen sc (st.shm.entry (m.topic, cfg.slotOf sc.pos)).blockIdx }) hc₁ nofun
      (by simp [streamStep])
    by_cases hbad : (st.shm.entry (m.topic, cfg.slotOf sc.pos)).blockIdx = noBlock ∨
        cfg.blockCount ≤ (st.shm.entry (m.topic, cfg.slotOf sc.pos)).blockIdx ∨
        cfg.dataCapacity < (st.shm.entry (m.topic, cfg.slotOf sc.pos)).dataLen
    · obtain ⟨hr₃, hc₃⟩ := recv_setStr single (m.skip sc false) hc₂ nofun
        (by simp only [streamStep, if_pos hbad]; rfl)
      exact ⟨_, _, _, (hr₁.append hr₂).append hr₃, hc₃, rfl, setStr_str st s _,
        Or.inl ⟨false, rfl⟩⟩
    · obtain ⟨hr₃, hc₃⟩ := recv_setStr single ({ m with
        pc := .loadRc sc (st.shm.entry (m.topic, cfg.slotOf sc.pos)).blockIdx
          (st.shm.entry (m.topic, cfg.slotOf sc.pos)).dataLen }) hc₂ nofun
        (by simp only [streamStep, if_neg hbad])
      by_cases hzero : st.shm.refcount (st.shm.entry (m.topic, cfg.slotOf sc.pos)).blockIdx = 0
      · obtain ⟨hr₄, hc₄⟩ := recv_setStr single (m.skip sc false) hc₃ nofun
          (by simp only [streamStep, if_pos hzero]; rfl)
        exact ⟨_, _, _, ((hr₁.append hr₂).append hr₃).append hr₄, hc₄, rfl, setStr_str st s _,
          Or.inl ⟨false, rfl⟩⟩
      · obtain ⟨hr₄, hc₄⟩ := recv_setStr single ({ m with
          pc := .casRc sc (st.shm.entry (m.topic, cfg.slotOf sc.pos)).blockIdx
            (st.shm.entry (m.topic, cfg.slotOf sc.pos)).dataLen
            (st.shm.refcount (st.shm.entry (m.topic, cfg.slotOf sc.pos)).blockIdx) }) hc₃ nofun
          (by simp only [streamStep, if_neg hzero])
        obtain ⟨bs, st', hr₅, hc₅, hshm, hstr⟩ := take_and_drop single hc₄
          (by omega) (by omega) hroom hseq
        exact ⟨_, _, _, (((hr₁.append hr₂).append hr₃).append hr₄).append hr₅, hc₅, hshm, hstr,
          Or.inr rfl⟩
  · obtain ⟨hr₁, hc₁⟩ := recv_setStr single
      (m.skip sc (st.shm.isOpen m.topic sc.pos)) h (by rw [hpc]; nofun)
      (by simp [streamStep, hpc, hseq])
    exact ⟨_, _, _, hr₁, hc₁, rfl, setStr_str st s _, Or.inl ⟨_, rfl⟩⟩

/-- A scan ends the call: with `None`, or with a message above `last_seq`. -/
theorem scan_ends (single : P → Bool) {s : S} (n : Nat) {m : Stream cfg} {sc : Scan}
    {st : State cfg P S} (hn : sc.cur - sc.pos = n) (h : Calm s st) (hm : st.str s = some m)
    (hpc : m.pc = .check sc) (hroom : Room st.shm) :
    ∃ bs st' m', Run (step single) (Idle single s) st bs st' ∧ Calm s st' ∧
      st'.shm = st.shm ∧ st'.str s = some m' ∧ m'.pc = .idle ∧ m'.topic = m.topic ∧
      (m'.emptied = true ∨ m.lastSeq < m'.lastSeq) := by
  induction n generalizing m sc st with
  | zero =>
    have hstart : Calm s (st.setStr s m) := by rw [setStr_self hm]; exact h
    obtain ⟨bs, st', m', hrun, hcalm, hshm, hstr, hcase⟩ :=
      slot_ends single hstart hpc hroom
    rw [setStr_self hm] at hrun
    refine ⟨_, st', m', hrun, hcalm, hshm, hstr, ?_⟩
    rcases hcase with ⟨opened, rfl⟩ | rfl
    · have hlt : ¬ sc.pos < sc.cur := by omega
      simp [Stream.skip, Scan.next, hlt]
    · exact ⟨rfl, rfl, Or.inr ((h.delivery m hm).ahead sc (by rw [hpc]; rfl))⟩
  | succ n ih =>
    have hstart : Calm s (st.setStr s m) := by rw [setStr_self hm]; exact h
    obtain ⟨bs, st', m', hrun, hcalm, hshm, hstr, hcase⟩ :=
      slot_ends single hstart hpc hroom
    rw [setStr_self hm] at hrun
    rcases hcase with ⟨opened, rfl⟩ | rfl
    · -- the scan goes on with the next slot
      have hlt : sc.pos < sc.cur := by omega
      have hnext :
          (m.skip sc opened).pc = .check ⟨sc.cur, sc.pos + 1, sc.passedOpen || opened⟩ := by
        simp [Stream.skip, Scan.next, hlt]
      obtain ⟨bs', st'', m'', hrun', hcalm', hshm', hstr', hidle, htop, hend⟩ :=
        ih (by simp only; omega) hcalm hstr hnext (by rw [hshm]; exact hroom)
      exact ⟨_, st'', m'', hrun.append hrun', hcalm', hshm'.trans hshm, hstr', hidle, htop, hend⟩
    · exact ⟨_, st', _, hrun, hcalm, hshm, hstr, rfl, rfl,
        Or.inr ((h.delivery m hm).ahead sc (by rw [hpc]; rfl))⟩

/-- Calling `try_recv` and dropping what it returns, until it yields `None`, ends. -/
theorem drain_ends (single : P → Bool) {s : S} (n : Nat) {m : Stream cfg} {st : State cfg P S}
    (hn : st.shm.writeSeq m.topic - m.lastSeq = n) (h : Calm s st) (hm : st.str s = some m)
    (hidle : m.pc = .idle) (hroom : Room st.shm) :
    ∃ bs st' m', Run (step single) (Idle single s) st bs st' ∧
      (∃ spurious, .recv s spurious ∈ bs) ∧ st'.str s = some m' ∧ m'.pc = .idle ∧
      m'.emptied = true := by
  induction n using Nat.strong_induction_on generalizing m st with
  | _ n ih =>
    have hstart : Calm s (st.setStr s m) := by rw [setStr_self hm]; exact h
    by_cases hws : st.shm.writeSeq m.topic ≤ m.lastSeq
    · -- nothing new: the call yields `None` at once
      obtain ⟨hrun, hcalm⟩ := recv_setStr single ({ m with emptied := true })
        hstart (by rw [hidle]; nofun) (by simp [streamStep, hidle, hws])
      rw [setStr_self hm] at hrun
      exact ⟨_, _, _, hrun, ⟨false, List.mem_singleton.mpr rfl⟩, setStr_str st s _, hidle, rfl⟩
    · obtain ⟨hrun, hcalm⟩ := recv_setStr single ({ m with
        pc := .check ⟨st.shm.writeSeq m.topic,
          scanStart cfg.ringDepth m.lastSeq (st.shm.writeSeq m.topic), false⟩
        emptied := false }) hstart (by rw [hidle]; nofun) (by simp [streamStep, hidle, hws])
      rw [setStr_self hm] at hrun
      obtain ⟨bs, st₁, m₁, hrun₁, hcalm₁, hshm₁, hstr₁, hidle₁, htop₁, hend⟩ :=
        scan_ends single _ rfl hcalm (setStr_str st s _) rfl hroom
      have hmem : ∃ spurious, .recv s spurious ∈ ([.recv s false] ++ bs : List (Act cfg P S)) :=
        ⟨false, List.mem_append_left _ (List.mem_singleton.mpr rfl)⟩
      rcases hend with hempty | hmore
      · exact ⟨_, st₁, m₁, hrun.append hrun₁, hmem, hstr₁, hidle₁, hempty⟩
      · -- a message was returned: fewer numbers are left
        have hsame : st₁.shm = st.shm := hshm₁
        have hle := (hcalm₁.streams s m₁ hstr₁).last_le
        simp only at htop₁ hmore
        obtain ⟨bs', st', m', hrun', _, hstr', hidle', hempty'⟩ :=
          ih (st.shm.writeSeq m.topic - m₁.lastSeq) (by rw [hsame, htop₁] at hle; omega)
            (by rw [hsame, htop₁]) hcalm₁ hstr₁ hidle₁ (by rw [hsame]; exact hroom)
        obtain ⟨spurious, hin⟩ := hmem
        exact ⟨_, st', m', (hrun.append hrun₁).append hrun', ⟨spurious, List.mem_append_left _ hin⟩,
          hstr', hidle', hempty'⟩

/-! ### No message is skipped -/

/-- From `st` on no publish call runs, and stream `s` calls `try_recv` until it yields `None`. -/
structure Drains (single : P → Bool) (s : S) (st : State cfg P S) (bs : List (Act cfg P S))
    (st' : State cfg P S) (m' : Stream cfg) : Prop where
  run : Run (step single) (Idle single s) st bs st'
  called : ∃ spurious, .recv s spurious ∈ bs
  stream : st'.str s = some m'
  idle : m'.pc = .idle
  emptied : m'.emptied = true

omit [Fintype P] [Fintype S] [DecidableEq P] [DecidableEq S] in
/-- A number of the last `ring_depth` that was claimed for the ring after the stream
    subscribed. -/
def InWindow (st : State cfg P S) (m : Stream cfg) (q : Nat) : Prop :=
  (st.shm.claims m.topic q).isSome = true ∧ m.since < q ∧
    st.shm.writeSeq m.topic < q + cfg.ringDepth

/-- **No message is skipped** by a stream that never returns a message after its scan has
    passed over an open number.  Once all publish calls have finished and the stream is
    between two calls: calling `try_recv` until it yields `None` has returned every number of
    the window that its entry holds, and if the entries were acquired in order that is every
    number of the window; and the loop ends. -/
theorem no_message_skipped (single : P → Bool) (s : S) {as : List (Act cfg P S)} {m : Stream cfg}
    (hrun : Run (step single) (Attentive single s) (init cfg P S) as st)
    (hquiet : ∀ p, (st.pub p).quiet = true) (hm : st.str s = some m) (hidle : m.pc = .idle) :
    (∀ bs st' m', Drains single s st bs st' m' → ∀ q, InWindow st' m' q →
      (st'.shm.entry (m'.topic, cfg.slotOf q)).seq = q → q ∈ m'.returned) ∧
    (Run (step single) (InOrder single) (init cfg P S) as st →
      ∀ bs st' m', Drains single s st bs st' m' → ∀ q, InWindow st' m' q → q ∈ m'.returned) ∧
    (Room st.shm → ∃ bs st' m', Drains single s st bs st' m') := by
  have hcalm : Calm s st := by
    refine ⟨delivered_run hrun, hquiet, fun m₁ sc hm₁ hsc => ?_⟩
    rw [hm, Option.some.injEq] at hm₁
    subst hm₁
    rw [hidle] at hsc
    cases hsc
  have hreturned : ∀ bs st' m', Drains single s st bs st' m' → ∀ q, InWindow st' m' q →
      (st'.shm.entry (m'.topic, cfg.slotOf q)).seq = q → q ∈ m'.returned := by
    rintro bs st' m' ⟨hdrain, hcalled, hstr, hidle', hempty⟩ q ⟨hclaim, hsince, hwin⟩ hheld
    obtain ⟨hcalm', hemptied, _⟩ := calm_run hdrain hcalm
    -- the number is in its entry and in the window, so it is not out of reach
    have hin : ¬ Gone st'.shm m'.topic q := by
      rintro (⟨_, hne⟩ | hout)
      · exact hne hheld
      · omega
    rcases Nat.lt_or_ge m'.lastSeq q with hnew | hold
    · exact absurd (hemptied (Or.inr hcalled) m' hstr hidle' hempty q hnew hclaim) hin
    · rcases (hcalm'.delivery m' hstr).behind q hsince hold hclaim with hret | hgone
      · exact hret
      · exact absurd hgone hin
  refine ⟨hreturned, ?_, ?_⟩
  · intro horder bs st' m' hdrain q hq
    obtain ⟨hI, hO⟩ := order_run horder
    obtain ⟨_, _, hseq, hclaims, hentry⟩ := calm_run hdrain.run hcalm
    refine hreturned bs st' m' hdrain q hq ?_
    obtain ⟨hclaim, _, hwin⟩ := hq
    obtain ⟨rec, hrec⟩ := Option.isSome_iff_exists.mp hclaim
    rw [hclaims] at hrec
    rw [hseq] at hwin
    rw [hentry, (window_entry hI hO hquiet hrec hwin).2]
  · intro hroom
    obtain ⟨bs, st', m', hdrain, hcalled, hstr, hidle', hempty⟩ :=
      drain_ends single _ rfl hcalm hm hidle hroom
    exact ⟨bs, st', m', hdrain, hcalled, hstr, hidle', hempty⟩

end

/-- Publisher `true` claims number 1, `false` claims and commits number 2, then `true` commits. -/
def crossedSteps : List (Act twoSlots Bool Unit) :=
  .subscribe () twoSlots.topic0 :: publishSteps true 0 1 ++ publishSteps false 1 9 ++
    List.replicate 8 (.commit true false)

/-- Two messages that were committed in the other order are returned before the `None`. -/
theorem no_message_skipped_crossed :
    ∃ st st' m', Run (step fun _ => false) (Attentive (fun _ => false) ())
        (init twoSlots Bool Unit) crossedSteps st ∧
      Drains (fun _ => false) () st (List.replicate 15 (.recv () false)) st' m' ∧
      ∀ q, q = 1 ∨ q = 2 → InWindow st' m' q ∧ q ∈ m'.returned := by
  obtain ⟨st, st', hrun, ⟨hquiet, m, hm, hidle⟩, hrun', m', hm', hidle', hempty, hsince, hws,
      hall⟩ := exists_runs_of_exec (step fun _ => false) (Attentive (fun _ => false) ())
    (Idle (fun _ => false) ()) (s := init twoSlots Bool Unit) (l := crossedSteps)
    (m := List.replicate 15 (.recv () false))
    (p := fun st => (∀ p, (st.pub p).quiet = true) ∧ ∃ m ∈ st.str (), m.pc = .idle)
    (q := fun st => ∃ m ∈ st.str (), m.pc = .idle ∧ m.emptied = true ∧ m.since = 0 ∧
      st.shm.writeSeq m.topic = 2 ∧ [1, 2].all fun q => (st.shm.claims m.topic q).isSome &&
        (st.shm.entry (m.topic, twoSlots.slotOf q)).seq == q) (by decide +kernel)
  simp only [List.all_eq_true, Bool.and_eq_true, beq_iff_eq] at hall
  have hdrain : Drains (fun _ => false) () st (List.replicate 15 (.recv () false)) st' m' :=
    ⟨hrun', ⟨false, by simp⟩, hm', hidle', hempty⟩
  refine ⟨st, st', m', hrun, hdrain, fun q hq => ?_⟩
  obtain ⟨hclaim, hentry⟩ := hall q (by simpa using hq)
  have hwin : InWindow st' m' q := ⟨hclaim, by omega, by rw [hws]; show 2 < q + 2; omega⟩
  exact ⟨hwin, (no_message_skipped (fun _ => false) () hrun hquiet hm hidle).1 _ st' m' hdrain q
    hwin hentry⟩

/-! ### A message committed out of order -/

/-- Publisher `true` claims number 1, `false` claims and commits number 2, the stream returns
    number 2, and only then `true` commits number 1. -/
def skipSteps : List (Act twoSlots Bool Unit) :=
  .subscribe () twoSlots.topic0 :: publishSteps true 0 1 ++ publishSteps false 1 9 ++
    List.replicate 8 (.recv () false) ++ List.replicate 8 (.commit true false)

/-- **An open message is skipped for good.** The two publishers write different entries and
    every step is admissible.  With both done and `write_seq = 2`, number 1 was claimed after
    the stream subscribed and is in its entry; the stream has returned number 2 only, and its
    next `try_recv` yields `None`. -/
theorem open_message_skipped :
    ∃ st st' m', Run (step fun _ => false) (Ok fun _ => false) (init twoSlots Bool Unit)
        skipSteps st ∧ (∀ p, (st.pub p).quiet = true) ∧
      Run (step fun _ => false) (Ok fun _ => false) st [.recv () false] st' ∧
      st'.str () = some m' ∧ m'.pc = .idle ∧ m'.emptied = true ∧ InWindow st' m' 1 ∧
      (st'.shm.entry (m'.topic, twoSlots.slotOf 1)).seq = 1 ∧ m'.returned = [2] := by
  obtain ⟨st, st', hrun, hquiet, hrun', m', hm', hidle, hempty, hsince, hclaim, hws, hentry,
      hret⟩ := exists_runs_of_exec (step fun _ => false) (Ok fun _ => false) (Ok fun _ => false)
    (s := init twoSlots Bool Unit) (l := skipSteps) (m := [.recv () false])
    (p := fun st => ∀ p, (st.pub p).quiet = true)
    (q := fun st => ∃ m ∈ st.str (), m.pc = .idle ∧ m.emptied = true ∧ m.since = 0 ∧
      (st.shm.claims m.topic 1).isSome = true ∧ st.shm.writeSeq m.topic = 2 ∧
      (st.shm.entry (m.topic, twoSlots.slotOf 1)).seq = 1 ∧ m.returned = [2]) (by decide +kernel)
  exact ⟨st, st', m', hrun, hquiet, hrun', hm', hidle, hempty,
    ⟨hclaim, by omega, by rw [hws]; decide⟩, hentry, hret⟩

end Crossbar.Ring
