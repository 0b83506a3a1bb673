import Crossbar.Ring.Log

namespace Crossbar.Ring

open Function Crossbar.Lib

/-!
# Ring — the order of commits in one entry

The acquisition of `commit_to_ring` never compares the entry's number with the claimed one:
the CAS only requires that the number it loaded is still there.  A publisher delayed between
its claim and its acquisition can therefore overwrite a later message.

* `InOrder` — steps that acquire an entry only for a number above the one it holds;
* `Order` — what holds then: the numbers committed in an entry count up;
* `entry_never_goes_back` — in a run of such steps an entry's committed number never
  decreases, and once all publishers are idle the entries of the window hold exactly the
  messages that claimed them;
* `late_publisher_overwrites` — a run on the CAS path, without a single spin, that ends with
  the older message in the entry.
-/

variable {cfg : ValidConfig} {P S : Type}

/-! ### Acquisitions in order -/

section

variable (single : P → Bool)

/-- A step that stores `SEQ_WRITING` for number `q` finds a number below `q` in the entry. -/
def marksFresh (st : State cfg P S) (a : Act cfg P S) : Bool :=
  match marks single st a with
  | some (e, q) => decide ((st.shm.entry e).seq < q)
  | none => true

/-- A step that acquires in order; numbers and refcounts do not overflow. -/
structure InOrder (st : State cfg P S) (a : Act cfg P S) : Prop where
  marksFresh : marksFresh single st a = true
  claimFits : claimFits st a = true
  bumpFits : bumpFits st a = true

instance (st : State cfg P S) (a : Act cfg P S) : Decidable (InOrder single st a) :=
  decidable_of_iff
    (marksFresh single st a = true ∧ claimFits st a = true ∧ bumpFits st a = true)
    ⟨fun h => ⟨h.1, h.2.1, h.2.2⟩, fun h => ⟨h.1, h.2, h.3⟩⟩

end

/-- What the acquired entry holds. -/
theorem InOrder.fresh {single : P → Bool} {st : State cfg P S} {a : Act cfg P S}
    (h : InOrder single st a) {e : cfg.EntryIdx} {q : Nat}
    (hm : marks single st a = some (e, q)) : (st.shm.entry e).seq < q := by
  have hfresh := h.marksFresh
  simpa [Ring.marksFresh, hm] using hfresh

section

variable [Fintype P] [Fintype S] {st : State cfg P S}

/-- An acquisition in order meets no marked entry: claimed numbers are below `SEQ_WRITING`. -/
theorem InOrder.ok {single : P → Bool} {a : Act cfg P S} (h : InOrder single st a)
    (hI : Inv st) : Ok single st a := by
  refine ⟨⟨?_, h.bumpFits⟩, h.claimFits⟩
  unfold Ring.marksClear
  cases hm : marks single st a with
  | none => rfl
  | some eq =>
    obtain ⟨e, q⟩ := eq
    have hfresh := h.fresh hm
    obtain ⟨p, c, pc, hp, _, _, rfl⟩ := marks_commit hm
    have hle := (hI.commitInv hp).seq_le
    have hlt := hI.seq_lt c.topic
    simp only [bne_iff_ne, ne_eq]
    omega

/-! ### The invariant -/

/-- Entries count up: an entry carries the last number closed in it, a publisher inside is about
    to raise that number, and it is at least every number closed for the entry. -/
structure Order (st : State cfg P S) : Prop where
  stored : ∀ e, (st.shm.entry e).seq = seqWriting ∨ (st.shm.entry e).seq = st.shm.committed e
  ahead : ∀ p c pc, st.pub p = .commit c pc → pc.inCrit = true →
    st.shm.committed c.idx < c.seq
  reached : ∀ t q, st.shm.closed t q = true → q ≤ st.shm.committed (t, cfg.slotOf q)
  origin : ∀ e, st.shm.committed e ≠ 0 →
    cfg.slotOf (st.shm.committed e) = e.2 ∧ st.shm.closed e.1 (st.shm.committed e) = true

omit [Fintype P] [Fintype S] in
/-- A publisher's step that closes nothing. -/
theorem Order.of_pub [DecidableEq P] (h : Order st) (p : P) (x : PubPc cfg) (sh' : Shm cfg)
    (hcommitted : sh'.committed = st.shm.committed) (hclosed : sh'.closed = st.shm.closed)
    (hstored : ∀ e, (sh'.entry e).seq = seqWriting ∨ (sh'.entry e).seq = st.shm.committed e)
    (hahead : ∀ c pc, x = .commit c pc → pc.inCrit = true → st.shm.committed c.idx < c.seq) :
    Order { st with shm := sh', pub := update st.pub p x } where
  stored := by
    intro e
    simp only [hcommitted]
    exact hstored e
  ahead := by
    intro q c pc hq hin
    simp only [hcommitted]
    by_cases hqp : q = p
    · subst hqp
      simp only [update_self] at hq
      exact hahead c pc hq hin
    · simp only [update_of_ne hqp] at hq
      exact h.ahead q c pc hq hin
  reached := by
    intro t q hq
    simp only [hclosed] at hq
    simp only [hcommitted]
    exact h.reached t q hq
  origin := by
    intro e he
    simp only [hcommitted, hclosed] at he ⊢
    exact h.origin e he

omit [Fintype P] [Fintype S] in
/-- A step that leaves the publishers, the entries and the closed numbers alone. -/
theorem Order.of_reader (h : Order st) (sh' : Shm cfg) (str' : S → Option (Stream cfg))
    (samples' : List (Sample cfg)) (hentry : sh'.entry = st.shm.entry)
    (hcommitted : sh'.committed = st.shm.committed) (hclosed : sh'.closed = st.shm.closed) :
    Order { st with shm := sh', str := str', samples := samples' } := by
  refine ⟨?_, ?_, ?_, ?_⟩ <;> simp only [hentry, hcommitted, hclosed]
  · exact h.stored
  · exact h.ahead
  · exact h.reached
  · exact h.origin

/-! ### Steps -/

variable [DecidableEq P]

/-- The closing store raises the entry's committed number: the entry was acquired in order,
    and nobody else closed it since. -/
theorem order_close (hI : Inv st) (h : Order st) {p : P} {c : Commit cfg} {old : Nat}
    (hp : st.pub p = .commit c (.close old)) :
    Order { st with
      shm := st.shm.close c.idx c.seq
      pub := update st.pub p (.commit c (.release old)) } := by
  have hlt : st.shm.committed c.idx < c.seq := h.ahead p c _ hp rfl
  have hclosed := (evolves_move hI hp (CommitMove.close (R := True) old)).closed
  have hmine : (st.shm.close c.idx c.seq).closed c.topic c.seq = true := by
    simp [Shm.close, Commit.idx]
  have hcommitted : (st.shm.close c.idx c.seq).committed c.idx = c.seq := by
    simp [Shm.close]
  refine ⟨?_, ?_, ?_, ?_⟩
  · intro e
    by_cases he : e = c.idx
    · subst he
      exact Or.inr (by simp [Shm.close])
    · simpa [Shm.close, update_of_ne he] using h.stored e
  · intro q d pd hq hin
    by_cases hqp : q = p
    · subst hqp
      simp only [update_self, PubPc.commit.injEq] at hq
      obtain ⟨rfl, rfl⟩ := hq
      cases hin
    · simp only [update_of_ne hqp] at hq
      have hidx : d.idx ≠ c.idx := fun heq =>
        hqp (hI.excl q p d c pd _ hq hp hin rfl heq)
      simpa [Shm.close, update_of_ne hidx] using h.ahead q d pd hq hin
  · intro t q hq
    rcases Shm.close_closed hq with hold | ⟨rfl, rfl⟩
    · have hle := h.reached t q hold
      by_cases hidx : (t, cfg.slotOf q) = c.idx
      · -- the entry's number only grows
        simp only [hidx] at hle ⊢
        omega
      · simpa [Shm.close, update_of_ne hidx] using hle
    · exact hcommitted.ge
  · intro e he
    by_cases hidx : e = c.idx
    · subst hidx
      show cfg.slotOf ((st.shm.close c.idx c.seq).committed c.idx) = c.idx.2 ∧
        (st.shm.close c.idx c.seq).closed c.topic
          ((st.shm.close c.idx c.seq).committed c.idx) = true
      rw [hcommitted]
      exact ⟨rfl, hmine⟩
    · have hkept : (st.shm.close c.idx c.seq).committed e = st.shm.committed e := by
        simp [Shm.close, update_of_ne hidx]
      simp only [hkept] at he ⊢
      obtain ⟨hslot, hcl⟩ := h.origin e he
      exact ⟨hslot, hclosed _ _ hcl⟩

/-- A move of `commit_to_ring` that acquires in order. -/
theorem order_move (hI : Inv st) (h : Order st) {p : P} {c : Commit cfg} {pc : CommitPc}
    (hp : st.pub p = .commit c pc) {sh' : Shm cfg} {x : PubPc cfg}
    (hmove : CommitMove ((st.shm.entry c.idx).seq < c.seq) st.shm c pc sh' x) :
    Order { st with shm := sh', pub := update st.pub p x } := by
  have hk := hI.commitCore hp
  -- inside the entry, the commit keeps its number and what it knows about the entry
  have hin : ∀ {pc' : CommitPc}, pc.inCrit = true →
      ∀ c' pc'', PubPc.commit c pc' = .commit c' pc'' →
      pc''.inCrit = true → st.shm.committed c'.idx < c'.seq := by
    intro pc' hcrit c' pc'' heq _
    cases heq
    exact h.ahead p c pc hp hcrit
  cases hmove with
  | wait hw hw' _ =>
    obtain ⟨_, _, hcrit', _⟩ := CommitPc.waiting_spec hw' c 0
    refine h.of_pub p _ st.shm rfl rfl h.stored (fun c' pc'' heq hin' => ?_)
    cases heq
    rw [hcrit'] at hin'
    cases hin'
  | mark hw hfresh =>
    refine h.of_pub p _ _ rfl rfl (fun e => ?_) (fun c' pc'' heq _ => ?_)
    · by_cases he : e = c.idx
      · subst he
        exact Or.inl (by simp [Shm.mark])
      · simpa [Shm.mark, update_of_ne he] using h.stored e
    · cases heq
      have hle := (hI.commitInv hp).seq_le
      have hlt := hI.seq_lt c.topic
      rcases h.stored c.idx with hw' | hst
      · omega
      · omega
  | loadOld => exact h.of_pub p _ st.shm rfl rfl h.stored (hin rfl)
  | setRc old => exact h.of_pub p _ _ rfl rfl h.stored (hin rfl)
  | storeBlock old =>
    refine h.of_pub p _ _ rfl rfl (fun e => ?_) (hin rfl)
    by_cases he : e = c.idx
    · subst he
      exact Or.inl (by simpa [Shm.storeBlock] using hk.crit rfl)
    · simpa [Shm.storeBlock, update_of_ne he] using h.stored e
  | storeLen old =>
    refine h.of_pub p _ _ rfl rfl (fun e => ?_) (hin rfl)
    by_cases he : e = c.idx
    · subst he
      exact Or.inl (by simpa [Shm.storeLen] using hk.crit rfl)
    · simpa [Shm.storeLen, update_of_ne he] using h.stored e
  | close old => exact order_close hI h hp
  | release hold =>
    refine h.of_pub p _ _ rfl rfl h.stored (fun c' pc'' heq hin' => ?_)
    split at heq
    · cases heq
      cases hin'
    · cases heq
  | noOld | recycle =>
    refine h.of_pub p _ st.shm rfl rfl h.stored (fun c' pc'' heq _ => ?_)
    cases heq

omit [Fintype P] [Fintype S] [DecidableEq P] in
/-- No move lowers an entry's committed number. -/
theorem committed_mono_move (h : Order st) {p : P} {c : Commit cfg} {pc : CommitPc}
    (hp : st.pub p = .commit c pc) {sh' : Shm cfg} {x : PubPc cfg} {R : Prop}
    (hmove : CommitMove R st.shm c pc sh' x) (e : cfg.EntryIdx) :
    st.shm.committed e ≤ sh'.committed e := by
  cases hmove with
  | close old =>
    have hlt := h.ahead p c _ hp rfl
    by_cases he : e = c.idx
    · subst he
      simp only [Shm.close, update_self]
      omega
    · simp [Shm.close, update_of_ne he]
  | _ => exact le_rfl

variable [DecidableEq S]

/-- **Step.** A step in order keeps the order, and no entry's committed number decreases. -/
theorem order_step {single : P → Bool} {st' : State cfg P S} {a : Act cfg P S} (hI : Inv st)
    (h : Order st) (hok : InOrder single st a) (hst : Step single st a st') :
    Order st' ∧ ∀ e, st.shm.committed e ≤ st'.shm.committed e := by
  cases hst with
  | @loan p t b hp _ _ | @dropLoan p l hp | @freed p b hp =>
    exact ⟨h.of_pub p _ st.shm rfl rfl h.stored nofun, fun _ => le_rfl⟩
  | @write p l bytes len hp _ =>
    exact ⟨h.of_pub p _ _ rfl rfl h.stored nofun, fun _ => le_rfl⟩
  | @claim p l spurious hp =>
    refine ⟨h.of_pub p _ _ rfl rfl h.stored (fun c pc heq hin => ?_), fun _ => le_rfl⟩
    cases heq
    cases hin
  | commit spurious hp =>
    have hmove := commitStep_move single spurious hp (fun hm => hok.fresh hm)
    exact ⟨order_move hI h hp hmove, committed_mono_move h hp hmove⟩
  | pinned t => exact ⟨h.of_reader _ st.str st.samples rfl rfl rfl, fun _ => le_rfl⟩
  | subscribe t hs => exact ⟨h.of_reader st.shm _ st.samples rfl rfl rfl, fun _ => le_rfl⟩
  | @recv s m spurious hm =>
    obtain ⟨rc, hrc⟩ := streamStep_shm spurious st.shm m
    rw [hrc]
    exact ⟨h.of_reader _ _ _ rfl rfl rfl, fun _ => le_rfl⟩
  | dropSample hk => exact ⟨h.of_reader _ st.str _ rfl rfl rfl, fun _ => le_rfl⟩
  | freedSample hk => exact ⟨h.of_reader st.shm st.str _ rfl rfl rfl, fun _ => le_rfl⟩

omit [Fintype P] [Fintype S] [DecidableEq P] [DecidableEq S] in
variable (cfg P S) in
/-- A fresh region. -/
theorem order_init : Order (init cfg P S) where
  stored := fun _ => Or.inr rfl
  ahead := by
    intro p c pc hp
    cases hp
  reached := by
    intro t q hq
    cases hq
  origin := by
    intro e he
    exact absurd rfl he

/-- **Run.** Invariant and order hold in every state of a run in order. -/
theorem order_run {single : P → Bool} {as : List (Act cfg P S)}
    (hrun : Run (step single) (InOrder single) (init cfg P S) as st) : Inv st ∧ Order st := by
  refine hrun.invariant (I := fun st => Inv st ∧ Order st)
    ⟨inv_init cfg P S, order_init cfg P S⟩ ?_
  rintro st a st' ⟨hI, hO⟩ hok hst
  have hst' := step_inv hst
  exact ⟨inv_step hI (hok.ok hI) hst', (order_step hI hO hok hst').1⟩

omit [DecidableEq P] [DecidableEq S] in
/-- With no publisher at work, the entry of a claimed number of the window holds its message:
    later numbers of the same entry are a whole ring away. -/
theorem window_entry (hI : Inv st) (hO : Order st) (hquiet : ∀ p, (st.pub p).quiet = true)
    {t : cfg.Topic} {q : Nat} {rec : Claim} (hclaim : st.shm.claims t q = some rec)
    (hwin : st.shm.writeSeq t < q + cfg.ringDepth) :
    st.shm.closed t q = true ∧
      st.shm.entry (t, cfg.slotOf q) = ⟨q, rec.blockIdx, rec.dataLen⟩ := by
  have hnobody : ∀ p c pc, st.pub p ≠ .commit c pc := by
    intro p c pc hp
    have hq := hquiet p
    rw [hp] at hq
    cases hq
  have hcl : st.shm.closed t q = true := by
    rcases hI.accounted t q rec hclaim with hcl | ⟨p, c, pc, hp, _⟩
    · exact hcl
    · exact absurd hp (hnobody p c pc)
  refine ⟨hcl, ?_⟩
  have hpos := (hI.valid t q rec hclaim).seq_pos
  have hreach := hO.reached t q hcl
  obtain ⟨hslot, hcl'⟩ := hO.origin (t, cfg.slotOf q) (by omega)
  have hle := hI.closed_le t _ hcl'
  -- the committed number shares the slot and is less than a ring above `q`
  have hsame : q = st.shm.committed (t, cfg.slotOf q) :=
    cfg.eq_of_slotOf_eq hslot.symm hreach (by omega)
  have hseq : (st.shm.entry (t, cfg.slotOf q)).seq = q := by
    rcases hO.stored (t, cfg.slotOf q) with hw | hst
    · obtain ⟨p, c, pc, hp, _⟩ := hI.writing _ hw
      exact absurd hp (hnobody p c pc)
    · rw [hst, ← hsame]
  have hlt := hI.seq_lt t
  have hqle := hI.closed_le t q hcl
  have hentry := hI.entries (t, cfg.slotOf q)
  rw [EntryInv, hseq] at hentry
  obtain ⟨_, _, hrec⟩ := hentry (by omega) (by omega)
  rw [hclaim, Option.some.injEq] at hrec
  rw [hrec]
  exact Entry.ext hseq rfl rfl

/-- **A ring entry never goes back in time** as long as entries are acquired in order: along
    the run the committed number of an entry never decreases, an entry that is not marked
    carries it, and when no publisher is at work the entry of every claimed number of the
    window holds exactly that number, its block and its length. -/
theorem entry_never_goes_back (single : P → Bool) {as : List (Act cfg P S)}
    (hrun : Run (step single) (InOrder single) (init cfg P S) as st) :
    (∀ bs st', Run (step single) (InOrder single) st bs st' →
      ∀ e, st.shm.committed e ≤ st'.shm.committed e) ∧
    (∀ e, (st.shm.entry e).seq = seqWriting ∨ (st.shm.entry e).seq = st.shm.committed e) ∧
    ((∀ p, (st.pub p).quiet = true) → ∀ t q rec, st.shm.claims t q = some rec →
      st.shm.writeSeq t < q + cfg.ringDepth →
      st.shm.entry (t, cfg.slotOf q) = ⟨q, rec.blockIdx, rec.dataLen⟩) := by
  obtain ⟨hI, hO⟩ := order_run hrun
  refine ⟨?_, hO.stored, ?_⟩
  · intro bs st' hrun'
    refine hrun'.relation (I := fun st => Inv st ∧ Order st)
      (R := fun st st' => ∀ e, st.shm.committed e ≤ st'.shm.committed e) ⟨hI, hO⟩ ?_
      (fun _ _ => le_rfl) (fun _ _ _ h h' e => le_trans (h e) (h' e))
    rintro st a st' ⟨hI, hO⟩ hok hst
    have hst' := step_inv hst
    obtain ⟨hO', hle⟩ := order_step hI hO hok hst'
    exact ⟨⟨inv_step hI (hok.ok hI) hst', hO'⟩, hle⟩
  · intro hquiet t q rec hclaim hwin
    exact (window_entry hI hO hquiet hclaim hwin).2

end

/-- Two publishers on the CAS path take turns. -/
theorem entry_never_goes_back_in_turn :
    ∃ st, Run (step fun _ => false) (InOrder fun _ => false) (init oneSlot Bool Unit)
        (publishSteps true 0 9 ++ publishSteps false 1 10) st ∧
      st.shm.claims oneSlot.topic0 2 ≠ none ∧
      (st.shm.entry (oneSlot.topic0, oneSlot.slotOf 2)).seq = 2 := by
  obtain ⟨st, hrun, hquiet, hws, rec, hrec, -⟩ := exists_run_of_exec (step fun _ => false)
    (InOrder fun _ => false) (s := init oneSlot Bool Unit)
    (l := publishSteps true 0 9 ++ publishSteps false 1 10)
    (p := fun st => (∀ p, (st.pub p).quiet = true) ∧ st.shm.writeSeq oneSlot.topic0 = 2 ∧
      ∃ rec ∈ st.shm.claims oneSlot.topic0 2, True) (by decide +kernel)
  refine ⟨st, hrun, Option.ne_none_iff_exists'.mpr ⟨rec, hrec⟩, ?_⟩
  have hentry := (entry_never_goes_back (fun _ => false) hrun).2.2 hquiet oneSlot.topic0 2 rec hrec
    (by rw [hws]; decide)
  rw [hentry]

/-! ### A delayed acquisition -/

/-- The step is a forced store: its publisher has exceeded the spin limit. -/
def forces (st : State cfg P S) : Act cfg P S → Bool
  | .commit p _ =>
    match st.pub p with
    | .commit _ .force => true
    | _ => false
  | _ => false

/-- Publisher `true` claims number 1 and is delayed; `false` claims and commits number 2. -/
def lateSteps : List (Act oneSlot Bool Unit) := publishSteps true 0 1 ++ publishSteps false 1 9

/-- **A late publisher overwrites a later message.** Two publishers on the CAS path, no spin
    limit reached: the entry's committed number falls from 2 to 1, and with both publishers
    idle and `write_seq = 2` the entry of number 2 holds number 1 and its block. -/
theorem late_publisher_overwrites :
    ∃ st st', Run (step fun _ => false) (fun st a => forces st a = false)
        (init oneSlot Bool Unit) lateSteps st ∧
      st.shm.committed (oneSlot.topic0, oneSlot.slotOf 2) = 2 ∧
      Run (step fun _ => false) (fun st a => forces st a = false) st
        (List.replicate 9 (.commit true false)) st' ∧
      (∀ p, (st'.pub p).quiet = true) ∧ st'.shm.writeSeq oneSlot.topic0 = 2 ∧
      (st'.shm.claims oneSlot.topic0 2).map Claim.blockIdx = some 1 ∧
      st'.shm.committed (oneSlot.topic0, oneSlot.slotOf 2) = 1 ∧
      st'.shm.entry (oneSlot.topic0, oneSlot.slotOf 2) = ⟨1, 0, 0⟩ :=
  exists_runs_of_exec _ _ _ (by decide +kernel)

end Crossbar.Ring
