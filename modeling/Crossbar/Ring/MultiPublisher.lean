import Crossbar.Ring.Exclusion

namespace Crossbar.Ring

open Function Crossbar.Lib

/-!
# Ring — several publishers on one entry

Which publishers may be inside a ring entry at the same time, and what becomes of the block
they replace.  `Publisher::loan` hands `single_publisher: self.is_owner` to `commit_to_ring`,
so the creating publisher stores `SEQ_WRITING` without looking; publishers from `open` go
through the CAS loop and, after 1024 spins, store without looking as well.

* `ledger_run` — in a run of clear steps every replaced block is released once;
* `slot_exclusion` — in such a run an entry has at most one publisher inside;
* `creator_enters_marked_entry` — a run of two live publishers in which the creator enters
  the entry the other one is in, with the double release that follows.
-/

variable {cfg : ValidConfig} {P S : Type}

/-- Publisher `p` is between marking entry `e` and its closing store. -/
def State.inEntry (st : State cfg P S) (p : P) (e : cfg.EntryIdx) : Bool :=
  match st.pub p with
  | .commit c pc => pc.inCrit && decide (c.idx = e)
  | _ => false

theorem State.inEntry_iff {st : State cfg P S} {p : P} {e : cfg.EntryIdx} :
    st.inEntry p e = true ↔ ∃ c pc, st.pub p = .commit c pc ∧ pc.inCrit = true ∧ c.idx = e := by
  unfold State.inEntry
  cases hp : st.pub p with
  | idle | loaned | dropping => simp
  | commit c pc =>
    simp only [Bool.and_eq_true, decide_eq_true_eq, PubPc.commit.injEq]
    constructor
    · rintro ⟨hin, hidx⟩
      exact ⟨c, pc, ⟨rfl, rfl⟩, hin, hidx⟩
    · rintro ⟨c', pc', ⟨rfl, rfl⟩, hin, hidx⟩
      exact ⟨hin, hidx⟩

/-- The release of block `b` that a publisher still owes: it has taken `b` out of the ring. -/
def PubPc.owes (b : Nat) : PubPc cfg → Nat
  | .commit _ (.storeLen old) | .commit _ (.close old) | .commit _ (.release old) =>
    if old = b then 1 else 0
  | _ => 0

/-! ### The release ledger -/

section

variable [Fintype P] [Fintype S] [DecidableEq P] {st : State cfg P S}

/-- Every block taken out of the ring has been released since, or is about to be. -/
def Ledger (st : State cfg P S) (b : Nat) : Prop :=
  st.shm.replaced b = st.shm.released b + tally (PubPc.owes b) st.pub

omit [Fintype S] in
/-- A publisher's step that replaces and releases nothing. -/
theorem Ledger.of_pub {b : Nat} (h : Ledger st b) (p : P) (x : PubPc cfg) (sh' : Shm cfg)
    (hrep : sh'.replaced b + (st.pub p).owes b + st.shm.released b =
      sh'.released b + x.owes b + st.shm.replaced b) :
    Ledger { st with shm := sh', pub := update st.pub p x } b := by
  have ht := tally_update (PubPc.owes b) st.pub p x
  unfold Ledger at h ⊢
  simp only
  omega

/-- A move of `commit_to_ring` keeps the ledger: the store into the entry replaces the block
    the publisher loaded, and that is the block it releases. -/
theorem ledger_move (hI : Core st) {p : P} {c : Commit cfg} {pc : CommitPc}
    (hp : st.pub p = .commit c pc) {sh' : Shm cfg} {x : PubPc cfg} {R : Prop}
    (hmove : CommitMove R st.shm c pc sh' x) {b : Nat} (hb : b < cfg.blockCount)
    (h : Ledger st b) : Ledger { st with shm := sh', pub := update st.pub p x } b := by
  have hk := hI.commitCore hp
  have howes : ∀ {pc : CommitPc}, pc.waiting = true → (PubPc.commit c pc).owes b = 0 := by
    intro pc hw
    cases pc with
    | acquire | cas | force => rfl
    | _ => cases hw
  refine h.of_pub p x sh' ?_
  rw [hp]
  cases hmove with
  | wait hw hw' _ =>
    rw [howes hw, howes hw']
    omega
  | mark hw _ =>
    rw [howes hw]
    simp only [Shm.mark, PubPc.owes]
    omega
  | loadOld | recycle =>
    simp only [PubPc.owes]
    omega
  | setRc old =>
    simp only [Shm.setRc, PubPc.owes]
    omega
  | storeBlock old =>
    have hold : (st.shm.entry c.idx).blockIdx = old := hk.locals
    by_cases hbo : old = b
    · subst hbo
      simp only [Shm.storeBlock, hold, update_self, PubPc.owes, if_true]
      omega
    · have hne : b ≠ old := fun heq => hbo heq.symm
      simp only [Shm.storeBlock, hold, update_of_ne hne, PubPc.owes, if_neg hbo]
      omega
  | storeLen old =>
    simp only [Shm.storeLen, PubPc.owes]
    omega
  | close old =>
    simp only [Shm.close, PubPc.owes]
    omega
  | @release old hold =>
    have hx : PubPc.owes b
        (if st.shm.refcount old = 1 then PubPc.commit c (.recycle old) else .idle) = 0 := by
      split <;> rfl
    rw [hx]
    by_cases hbo : old = b
    · subst hbo
      simp only [Shm.release, update_self, PubPc.owes, if_true]
      omega
    · have hne : b ≠ old := fun heq => hbo heq.symm
      simp only [Shm.release, update_of_ne hne, PubPc.owes, if_neg hbo]
      omega
  | @noOld old hold =>
    have hne : old ≠ b := by
      rintro rfl
      exact hold hb
    simp only [PubPc.owes, if_neg hne]
    omega

variable [DecidableEq S]

/-- **Step.** A clear step keeps the ledger. -/
theorem ledger_step {single : P → Bool} {st' : State cfg P S} {a : Act cfg P S} (hI : Core st)
    (hst : Step single st a st') {b : Nat} (hb : b < cfg.blockCount) (h : Ledger st b) :
    Ledger st' b := by
  cases hst with
  | @loan p t b' hp _ _ | @dropLoan p l hp | @freed p b' hp =>
    refine h.of_pub p _ st.shm ?_
    rw [hp]
    simp only [PubPc.owes]
    omega
  | @write p l bytes len hp _ =>
    refine h.of_pub p _ _ ?_
    rw [hp]
    simp only [PubPc.owes]
    omega
  | @claim p l spurious hp =>
    refine h.of_pub p _ _ ?_
    rw [hp]
    simp only [Shm.claim, PubPc.owes]
    omega
  | commit spurious hp =>
    exact ledger_move hI hp (commitStep_move single spurious hp (R := True) (fun _ => trivial)) hb h
  | pinned | subscribe | dropSample | freedSample => exact h
  | @recv s m spurious hm =>
    obtain ⟨rc, hrc⟩ := streamStep_shm spurious st.shm m
    rw [hrc]
    exact h

/-- **Run.** Exclusion, books and ledger in every state of a run of clear steps. -/
theorem ledger_run {single : P → Bool} {as : List (Act cfg P S)}
    (hrun : Run (step single) (Clear single) (init cfg P S) as st) :
    Core st ∧ ∀ b, b < cfg.blockCount → Ledger st b := by
  refine hrun.invariant (I := fun st => Core st ∧ ∀ b, b < cfg.blockCount → Ledger st b) ?_ ?_
  · refine ⟨core_init cfg P S, fun b _ => ?_⟩
    unfold Ledger
    simp [init, tally, PubPc.owes]
  · rintro st a st' ⟨hI, hL⟩ hok hst
    have hst' := step_inv hst
    exact ⟨core_step hI hok hst', fun b hb => ledger_step hI hst' hb (hL b hb)⟩

/-! ### Exclusion -/

omit [DecidableEq P] [DecidableEq S] [Fintype P] [Fintype S] in
/-- Some agent's next operation on block `b` is a `fetch_sub(1)`: a publisher releases it, a
    stream undoes its reference, or a live sample can be dropped. -/
def State.mayDrop (st : State cfg P S) (b : Nat) : Prop :=
  (∃ p c, st.pub p = .commit c (.release b)) ∨
  (∃ s m sc, st.str s = some m ∧ m.pc = .undo sc b) ∨
  (∃ t q len, Sample.live t q b len ∈ st.samples)

omit [DecidableEq P] [DecidableEq S] in
/-- A reference that can be dropped is counted. -/
theorem Core.mayDrop_pos (h : Core st) {b : Nat} (hb : b < cfg.blockCount)
    (hdrop : st.mayDrop b) : 0 < st.shm.refcount b := by
  rcases hdrop with ⟨p, c, hp⟩ | ⟨s, m, sc, hm, hpc⟩ | ⟨t, q, len, hx⟩
  · exact h.refcount_pos (p := p) hb (by simp [hp, PubPc.refs])
  · have hle := le_refs_of_stream (b := b) st s
    rw [hm] at hle
    simp only [streamRefs, hpc, StreamPc.refs, if_true] at hle
    rw [(h.blocks b hb).count]
    omega
  · obtain ⟨k, hk⟩ := List.getElem?_of_mem hx
    have hle := le_refs_of_sample (b := b) st hk
    simp only [Sample.refs, if_true] at hle
    rw [(h.blocks b hb).count]
    omega

omit [DecidableEq P] [DecidableEq S] [Fintype S] in
/-- Publishers that are not publishing refer to nothing and owe nothing. -/
theorem quiet_tally (hq : ∀ p, (st.pub p).quiet = true) (b : Nat) :
    tally (PubPc.refs b) st.pub = 0 ∧ tally (PubPc.owes b) st.pub = 0 := by
  refine ⟨tally_eq_zero _ _ (fun p => ?_), tally_eq_zero _ _ (fun p => ?_)⟩
  · have hp := hq p
    cases hpc : st.pub p with
    | commit c pc => rw [hpc] at hp; cases hp
    | _ => rfl
  · have hp := hq p
    cases hpc : st.pub p with
    | commit c pc => rw [hpc] at hp; cases hp
    | _ => rfl

/-- **Slot exclusion.** In a run whose steps store `SEQ_WRITING` only into entries that are not
    marked, whatever the publishers' flags: an entry has at most one publisher inside; a
    block taken out of the ring is released exactly once; no count is decremented below
    zero; and once no publisher is in the middle of a publish, a block's count is the
    number of ring entries and readers that refer to it. -/
theorem slot_exclusion (single : P → Bool) {as : List (Act cfg P S)}
    (hrun : Run (step single) (Clear single) (init cfg P S) as st) :
    (∀ e p q, st.inEntry p e = true → st.inEntry q e = true → p = q) ∧
    (∀ b, b < cfg.blockCount →
      st.shm.replaced b = st.shm.released b + tally (PubPc.owes b) st.pub) ∧
    (∀ b, b < cfg.blockCount → st.mayDrop b → 0 < st.shm.refcount b) ∧
    ((∀ p, (st.pub p).quiet = true) → ∀ b, b < cfg.blockCount →
      st.shm.replaced b = st.shm.released b ∧
      st.shm.refcount b = tally (Entry.refs b) st.shm.entry + tally (streamRefs b) st.str +
        listTally (Sample.refs b) st.samples) := by
  obtain ⟨hI, hL⟩ := ledger_run hrun
  refine ⟨?_, hL, fun b hb => hI.mayDrop_pos hb, ?_⟩
  · intro e p q hp hq
    obtain ⟨c, pc, hc, hpc, hce⟩ := State.inEntry_iff.mp hp
    obtain ⟨d, pd, hd, hpd, hde⟩ := State.inEntry_iff.mp hq
    exact hI.excl p q c d pc pd hc hd hpc hpd (by rw [hce, hde])
  · intro hquiet b hb
    obtain ⟨hrefs, howes⟩ := quiet_tally hquiet b
    have hledger := hL b hb
    have hcount := (hI.blocks b hb).count
    unfold Ledger at hledger
    unfold State.refs at hcount
    omega

end

/-- Creator and opener publish into the same entry one after the other. -/
theorem slot_exclusion_in_turn :
    ∃ st, Run (step id) (Clear id) (init oneSlot Bool Unit)
        (publishSteps true 0 8 ++ publishSteps false 1 10) st ∧
      st.shm.replaced 0 = 1 ∧ st.shm.released 0 = 1 ∧
      ∀ e p q, st.inEntry p e = true → st.inEntry q e = true → p = q := by
  obtain ⟨st, hrun, hreplaced, hreleased⟩ := exists_run_of_exec (step id) (Clear id)
    (s := init oneSlot Bool Unit) (l := publishSteps true 0 8 ++ publishSteps false 1 10)
    (p := fun st => st.shm.replaced 0 = 1 ∧ st.shm.released 0 = 1) (by decide +kernel)
  exact ⟨st, hrun, hreplaced, hreleased, (slot_exclusion id hrun).1⟩

/-! ### The creator's unconditional store -/

/-- The only entry of the one-slot region. -/
def slot0 : oneSlot.EntryIdx := (oneSlot.topic0, oneSlot.slotOf 0)

/-- The opener (`false`) publishes block 0, then marks the entry for block 1 and loads the old
    block; the creator (`true`) claims the next number and marks the same entry. -/
def raceSteps : List (Act oneSlot Bool Unit) :=
  publishSteps false 0 9 ++ publishSteps false 1 4 ++ publishSteps true 2 3

/-- Both publishers finish, the opener first. -/
def raceEnd : List (Act oneSlot Bool Unit) :=
  raceSteps ++ List.replicate 6 (.commit false false) ++ List.replicate 5 (.commit true false)

/-- **Two publishers in one entry.** With the creator and one opener, both alive: first both
    are between mark and close of the same entry; at the end block 0, replaced once, has
    been released twice and its count has gone below zero, and block 1, replaced as well,
    was never released. -/
theorem creator_enters_marked_entry :
    (∃ st, Run (step id) (fun _ _ => True) (init oneSlot Bool Unit) raceSteps st ∧
      st.inEntry true slot0 = true ∧ st.inEntry false slot0 = true) ∧
    (∃ st, Run (step id) (fun _ _ => True) (init oneSlot Bool Unit) raceEnd st ∧
      (st.pub true).quiet = true ∧ (st.pub false).quiet = true ∧
      st.shm.replaced 0 = 1 ∧ st.shm.released 0 = 2 ∧ st.shm.refcount 0 = 2 ^ 32 - 1 ∧
      st.shm.replaced 1 = 1 ∧ st.shm.released 1 = 0 ∧ st.shm.refcount 1 = 1) :=
  ⟨exists_run_of_exec _ _ (by decide +kernel), exists_run_of_exec _ _ (by decide +kernel)⟩

/-! ### The forced store after 1024 spins -/

/-- While its entry stays marked, a publisher on the CAS path only counts. -/
theorem spin_run [Fintype P] [Fintype S] [DecidableEq P] [DecidableEq S] (single : P → Bool)
    {st : State cfg P S} {p : P} {c : Commit cfg} (hs : single p = false)
    (hmarked : (st.shm.entry c.idx).seq = seqWriting) {k : Nat}
    (hp : st.pub p = .commit c (.acquire k)) (n : Nat) (hn : k + n ≤ spinLimit) :
    Run (step single) (fun _ _ => True) st (List.replicate n (.commit p false))
      { st with pub := update st.pub p (.commit c (.acquire (k + n))) } := by
  induction n generalizing st k with
  | zero =>
    rw [Nat.add_zero, ← hp, update_eq_self]
    exact .nil st
  | succ n ih =>
    have hlim : ¬ (k + 1 > spinLimit) := by omega
    have hstep : step single st (.commit p false) =
        some { st with pub := update st.pub p (.commit c (.acquire (k + 1))) } := by
      simp only [step, hp, commitStep, hs, hmarked, if_true, if_neg hlim, Bool.false_eq_true,
        if_false]
    have hrest := @ih { st with pub := update st.pub p (.commit c (.acquire (k + 1))) }
      hmarked (k + 1) (by simp) (by omega)
    rw [update_idem, show k + 1 + n = k + (n + 1) by omega] at hrest
    exact .cons trivial hstep hrest

/-- The publisher is about to look at `e` for the first time. -/
def PubPc.arrivesAt (e : cfg.EntryIdx) : PubPc cfg → Bool
  | .commit c (.acquire 0) => decide (c.idx = e)
  | _ => false

theorem PubPc.of_arrivesAt {e : cfg.EntryIdx} {pc : PubPc cfg} (h : pc.arrivesAt e = true) :
    ∃ c : Commit cfg, pc = .commit c (.acquire 0) ∧ c.idx = e := by
  unfold PubPc.arrivesAt at h
  split at h
  · exact ⟨_, rfl, of_decide_eq_true h⟩
  · cases h

/-- Two openers: `false` publishes block 0 and marks the entry again for block 1; `true` has
    claimed the next number. -/
def spinSteps : List (Act oneSlot Bool Unit) :=
  publishSteps false 0 9 ++ publishSteps false 1 3 ++ publishSteps true 2 1

/-- **The spin limit breaks the entry open.** No creator takes part: a publisher that waits
    for a live but slow one gives up after 1024 spins and enters the same entry. -/
theorem forced_claim_enters_marked_entry :
    ∃ as st, Run (step fun _ => false) (fun _ _ => True) (init oneSlot Bool Unit) as st ∧
      st.inEntry true slot0 = true ∧ st.inEntry false slot0 = true := by
  obtain ⟨st, hrun, hfirst, hmarked, hin⟩ := exists_run_of_exec (step fun _ => false)
    (fun _ _ => True) (s := init oneSlot Bool Unit) (l := spinSteps)
    (p := fun st => (st.pub true).arrivesAt slot0 = true ∧
      (st.shm.entry slot0).seq = seqWriting ∧ st.inEntry false slot0 = true) (by decide +kernel)
  obtain ⟨c, hp, hwait⟩ := PubPc.of_arrivesAt hfirst
  rw [← hwait] at hmarked
  have hspin := spin_run (fun _ => false) rfl hmarked hp spinLimit (by omega)
  -- the last look decides to force; then comes the store
  have hforce : step (fun _ => false)
      { st with pub := update st.pub true (.commit c (.acquire (0 + spinLimit))) }
      (.commit true false) =
      some { st with pub := update st.pub true (.commit c .force) } := by
    simp [step, commitStep, hmarked]
  have hstore : step (fun _ => false)
      { st with pub := update st.pub true (.commit c .force) } (.commit true false) =
      some { st with
        shm := st.shm.mark c.idx, pub := update st.pub true (.commit c .loadOld) } := by
    simp [step, commitStep]
  refine ⟨_, _, (hrun.append hspin).append (.cons trivial hforce (.single trivial hstore)),
    ?_, ?_⟩
  · simp [State.inEntry, hwait, CommitPc.inCrit]
  · simpa [State.inEntry] using hin

end Crossbar.Ring
