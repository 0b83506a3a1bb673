import Crossbar.Ring.Frame

namespace Crossbar.Ring

open Function Crossbar.Lib

/-!
# Ring — exclusion and books along a run

`Core` is kept by every `Clear` step.  A publisher's move inside `commit_to_ring` only has to
show that it enters an entry nobody is in (`Core.of_commit`) and that it balances the books;
readers only balance the books.  `core_step` is the result about all of them.
-/

variable {cfg : ValidConfig} {P S : Type} [Fintype P] [Fintype S]
variable {st : State cfg P S}

/-! ### What the invariant says about one agent -/

/-- What a running commit knows about its entry. -/
theorem Core.commitCore (h : Core st) {p : P} {c : Commit cfg} {pc : CommitPc}
    (hp : st.pub p = .commit c pc) : CommitCore st.shm c pc := by
  have hpub := h.pubCore p
  rw [hp] at hpub
  exact hpub

/-- A publisher that refers to a block finds its count positive. -/
theorem Core.refcount_pos (h : Core st) {p : P} {b : Nat} (hb : b < cfg.blockCount)
    (hrefs : 0 < (st.pub p).refs b) : 0 < st.shm.refcount b := by
  have hle := le_refs_of_pub (b := b) st p
  rw [(h.blocks b hb).count]
  omega

/-- Nobody but its holder knows a held block: no entry, no open commit of another publisher,
    no sample. -/
theorem Core.unshared [DecidableEq P] (h : Core st) {p : P} {b : Nat} (hb : b < cfg.blockCount)
    (hheld : 0 < (st.pub p).holds b) :
    (∀ e, (st.shm.entry e).blockIdx ≠ b) ∧
    (∀ q d pd, q ≠ p → st.pub q = .commit d pd → pd.isOpen = true → d.blockIdx ≠ b) ∧
    (∀ t q len, Sample.live t q b len ∉ st.samples) := by
  have hR := h.blocks b hb
  have hle := le_holders_of_pub (b := b) st p
  obtain ⟨_, hzero⟩ := hR.refs_eq_zero (by omega)
  have hentry : ∀ e, (st.shm.entry e).blockIdx ≠ b := by
    rintro e rfl
    have hpos := refs_pos_of_entry st e
    omega
  refine ⟨hentry, ?_, ?_⟩
  · rintro q d pd hq hd hopen rfl
    have hrefs := le_refs_of_pub (b := d.blockIdx) st q
    have hloc := (h.commitCore hd).locals
    have hholds : (st.pub q).holds d.blockIdx = 0 := by
      have hadd := add_le_holders (b := d.blockIdx) st hq
      have howner := hR.owner
      omega
    rw [hd] at hrefs hholds
    -- an open commit holds its block, refers to it, or has put it into its entry
    cases pd with
    | release | recycle => cases hopen
    | storeLen old => exact hentry _ hloc
    | close old => exact hentry _ hloc.1
    | storeBlock old =>
      simp only [PubPc.refs, if_true] at hrefs
      omega
    | acquire | cas | force | loadOld | setRc => simp [PubPc.holds] at hholds
  · intro t q len hmem
    obtain ⟨k, hk⟩ := List.getElem?_of_mem hmem
    have hrefs := le_refs_of_sample (b := b) st hk
    simp only [Sample.refs, if_true] at hrefs
    omega

/-! ### Publishers -/

section

variable [DecidableEq P]

/-- A step of publisher `p` from its own obligations. -/
theorem Core.of_pub (h : Core st) (p : P) (x : PubPc cfg) (sh' : Shm cfg) (hx : PubCore sh' x)
    (hothers : ∀ q, q ≠ p → ∀ d pd, st.pub q = .commit d pd → pd.inCrit = true →
      sh'.entry d.idx = st.shm.entry d.idx)
    (hexcl : ∀ c pc, x = .commit c pc → pc.inCrit = true → ∀ q, q ≠ p → ∀ d pd,
      st.pub q = .commit d pd → pd.inCrit = true → c.idx ≠ d.idx)
    (hblocks : ∀ b, b < cfg.blockCount →
      RefInv { st with shm := sh', pub := update st.pub p x } b) :
    Core { st with shm := sh', pub := update st.pub p x } where
  pubCore := by
    intro q
    by_cases hq : q = p
    · subst hq
      simpa using hx
    · have hold := h.pubCore q
      simp only [update_of_ne hq]
      cases hpq : st.pub q with
      | idle => trivial
      | loaned | dropping => rw [hpq] at hold; exact hold
      | commit d pd =>
        rw [hpq] at hold
        exact CommitCore.evolve hold (hothers q hq d pd hpq)
  excl := by
    intro q r c d pc pd hq hr hpc hpd hidx
    by_cases hqp : q = p <;> by_cases hrp : r = p
    · rw [hqp, hrp]
    · subst hqp
      simp only [update_self, update_of_ne hrp] at hq hr
      exact absurd hidx (hexcl c pc hq hpc r hrp d pd hr hpd)
    · subst hrp
      simp only [update_self, update_of_ne hqp] at hq hr
      exact absurd hidx.symm (hexcl d pd hr hpd q hqp c pc hq hpc)
    · simp only [update_of_ne hqp, update_of_ne hrp] at hq hr
      exact h.excl q r c d pc pd hq hr hpc hpd hidx
  strRange := h.strRange
  samRange := h.samRange
  blocks := hblocks

/-- A move inside `commit_to_ring` that stores at most into the entry of the commit, and
    only when that entry is its own or nobody's. -/
theorem Core.of_commit (h : Core st) {p : P} {c : Commit cfg} {pc : CommitPc}
    (hp : st.pub p = .commit c pc) (pc' : CommitPc) (sh' : Shm cfg)
    (hsame : ∀ e, e ≠ c.idx → sh'.entry e = st.shm.entry e)
    (hmine : pc.inCrit = true ∨ (st.shm.entry c.idx).seq ≠ seqWriting)
    (hx : CommitCore sh' c pc')
    (hblocks : ∀ b, b < cfg.blockCount →
      RefInv { st with shm := sh', pub := update st.pub p (.commit c pc') } b) :
    Core { st with shm := sh', pub := update st.pub p (.commit c pc') } := by
  have hout : ∀ q, q ≠ p → ∀ d pd, st.pub q = .commit d pd → pd.inCrit = true →
      c.idx ≠ d.idx := by
    intro q hq d pd hd hpd hidx
    rcases hmine with hin | hfree
    · exact hq (h.excl p q c d pc pd hp hd hin hpd hidx).symm
    · rw [hidx] at hfree
      exact hfree ((h.commitCore hd).crit hpd)
  refine h.of_pub p _ sh' hx ?_ ?_ hblocks
  · intro q hq d pd hd hpd
    exact hsame _ (fun heq => hout q hq d pd hd hpd heq.symm)
  · intro c' pc'' heq _ q hq d pd hd hpd
    cases heq
    exact hout q hq d pd hd hpd

/-- A publisher that is in no entry afterwards and stores into no entry. -/
theorem Core.of_outside (h : Core st) (p : P) (x : PubPc cfg) (sh' : Shm cfg)
    (hafter : ∀ c pc, x = .commit c pc → pc.inCrit = false) (hx : PubCore sh' x)
    (hentry : sh'.entry = st.shm.entry)
    (hblocks : ∀ b, b < cfg.blockCount →
      RefInv { st with shm := sh', pub := update st.pub p x } b) :
    Core { st with shm := sh', pub := update st.pub p x } := by
  refine h.of_pub p x sh' hx (fun q _ d pd _ _ => by rw [hentry]) ?_ hblocks
  intro c pc hc hin
  rw [hafter c pc hc] at hin
  cases hin

/-- A publisher's step that changes no count and gives the publisher nothing new. -/
theorem Core.of_locals (h : Core st) (p : P) (x : PubPc cfg) (sh' : Shm cfg)
    (hafter : ∀ c pc, x = .commit c pc → pc.inCrit = false) (hx : PubCore sh' x)
    (hentry : sh'.entry = st.shm.entry) (hrc : sh'.refcount = st.shm.refcount)
    (hrefs : ∀ b, b < cfg.blockCount → x.refs b = (st.pub p).refs b)
    (hholds : ∀ b, x.holds b ≤ (st.pub p).holds b) :
    Core { st with shm := sh', pub := update st.pub p x } := by
  refine h.of_outside p x sh' hafter hx hentry ?_
  intro b hb
  have hR := h.blocks b hb
  have hh := hholds b
  refine refInv_pub hR p x sh' ?_ ?_ ?_
  · rw [hrefs b hb, hentry, hrc]
  · rw [hrc]
    omega
  · rw [hrc]
    exact hR.lt

/-- Marking an entry nobody is in. -/
theorem core_mark (h : Core st) {p : P} {c : Commit cfg} {pc : CommitPc}
    (hp : st.pub p = .commit c pc) (hw : pc.waiting = true)
    (hclear : (st.shm.entry c.idx).seq ≠ seqWriting) :
    Core { st with
      shm := st.shm.mark c.idx, pub := update st.pub p (.commit c .loadOld) } := by
  refine h.of_commit hp .loadOld (st.shm.mark c.idx) ?_ (Or.inr hclear) ?_ ?_
  · intro e he
    simp [Shm.mark, update_of_ne he]
  · exact ⟨(h.commitCore hp).block_lt, fun _ => by simp [Shm.mark], trivial⟩
  · intro b hb
    obtain ⟨hrefs, hholds, _⟩ := CommitPc.waiting_spec hw c b
    have ht := tally_update (Entry.refs b) st.shm.entry c.idx
      { st.shm.entry c.idx with seq := seqWriting }
    refine refInv_pub (h.blocks b hb) p _ _ ?_ ?_ (h.blocks b hb).lt
    · rw [hp, hrefs]
      simp only [Shm.mark, PubPc.refs, Entry.refs] at ht ⊢
      omega
    · rw [hp, hholds]
      exact le_rfl

/-- Step 3: the old block is read from the marked entry. -/
theorem core_loadOld (h : Core st) {p : P} {c : Commit cfg} (hp : st.pub p = .commit c .loadOld) :
    Core { st with
      pub := update st.pub p (.commit c (.setRc (st.shm.entry c.idx).blockIdx)) } := by
  have hc := h.commitCore hp
  refine h.of_commit hp _ st.shm (fun _ _ => rfl) (Or.inl rfl)
    ⟨hc.block_lt, fun _ => hc.crit rfl, rfl⟩ ?_
  intro b hb
  refine refInv_pub (h.blocks b hb) p _ st.shm ?_ ?_ (h.blocks b hb).lt
  · rw [hp]
    rfl
  · rw [hp]
    exact le_rfl

/-- Step 4: the refcount store `1` is the first reference on a block nobody refers to. -/
theorem core_setRc (h : Core st) {p : P} {c : Commit cfg} {old : Nat}
    (hp : st.pub p = .commit c (.setRc old)) :
    Core { st with
      shm := st.shm.setRc c.blockIdx 1
      pub := update st.pub p (.commit c (.storeBlock old)) } := by
  have hc := h.commitCore hp
  refine h.of_commit hp _ (st.shm.setRc c.blockIdx 1) (fun _ _ => rfl) (Or.inl rfl)
    ⟨hc.block_lt, fun _ => hc.crit rfl, hc.locals⟩ ?_
  intro b hb
  by_cases hbc : c.blockIdx = b
  · subst hbc
    have hheld := le_holders_of_pub (b := c.blockIdx) st p
    rw [hp] at hheld
    simp only [PubPc.holds, if_true] at hheld
    have hzero := ((h.blocks _ hb).refs_eq_zero hheld).1
    refine refInv_pub (h.blocks _ hb) p _ _ ?_ ?_ ?_
    · rw [hp]
      simp only [Shm.setRc, update_self, PubPc.refs, if_true, hzero]
      omega
    · rw [hp]
      simp [Shm.setRc, PubPc.holds, hzero, live]
    · simp [Shm.setRc]
  · have hne : b ≠ c.blockIdx := fun heq => hbc heq.symm
    have hlt := (h.blocks b hb).lt
    refine refInv_pub (h.blocks b hb) p _ _ ?_ ?_ ?_
    · rw [hp]
      simp only [Shm.setRc, update_of_ne hne, PubPc.refs, if_neg hbc]
    · rw [hp]
      simp only [Shm.setRc, update_of_ne hne, PubPc.holds, if_neg hbc, le_refl]
    · simpa only [Shm.setRc, update_of_ne hne] using hlt

/-- Step 5, first store: the new block's reference moves into the ring, the old block's
    reference moves out to the publisher. -/
theorem core_storeBlock (h : Core st) {p : P} {c : Commit cfg} {old : Nat}
    (hp : st.pub p = .commit c (.storeBlock old)) :
    Core { st with
      shm := st.shm.storeBlock c.idx c.blockIdx
      pub := update st.pub p (.commit c (.storeLen old)) } := by
  have hc := h.commitCore hp
  have hold : (st.shm.entry c.idx).blockIdx = old := hc.locals
  refine h.of_commit hp _ (st.shm.storeBlock c.idx c.blockIdx) ?_ (Or.inl rfl) ?_ ?_
  · intro e he
    simp [Shm.storeBlock, update_of_ne he]
  · refine ⟨hc.block_lt, fun _ => ?_, ?_⟩
    · simpa [Shm.storeBlock] using hc.crit rfl
    · simp [CommitPc.locals, Shm.storeBlock]
  · intro b hb
    have ht := tally_update (Entry.refs b) st.shm.entry c.idx
      { st.shm.entry c.idx with blockIdx := c.blockIdx }
    refine refInv_pub (h.blocks b hb) p _ _ ?_ ?_ (h.blocks b hb).lt
    · rw [hp]
      simp only [Shm.storeBlock, PubPc.refs, Entry.refs, hold] at ht ⊢
      omega
    · rw [hp]
      exact le_rfl

/-- Step 5, second store: the length. -/
theorem core_storeLen (h : Core st) {p : P} {c : Commit cfg} {old : Nat}
    (hp : st.pub p = .commit c (.storeLen old)) :
    Core { st with
      shm := st.shm.storeLen c.idx c.len
      pub := update st.pub p (.commit c (.close old)) } := by
  have hc := h.commitCore hp
  have hblk : (st.shm.entry c.idx).blockIdx = c.blockIdx := hc.locals
  refine h.of_commit hp _ (st.shm.storeLen c.idx c.len) ?_ (Or.inl rfl) ?_ ?_
  · intro e he
    simp [Shm.storeLen, update_of_ne he]
  · refine ⟨hc.block_lt, fun _ => ?_, ?_⟩
    · simpa [Shm.storeLen] using hc.crit rfl
    · simpa [CommitPc.locals, Shm.storeLen] using hblk
  · intro b hb
    have ht := tally_update (Entry.refs b) st.shm.entry c.idx
      { st.shm.entry c.idx with dataLen := c.len }
    refine refInv_pub (h.blocks b hb) p _ _ ?_ ?_ (h.blocks b hb).lt
    · rw [hp]
      simp only [Shm.storeLen, PubPc.refs, Entry.refs] at ht ⊢
      omega
    · rw [hp]
      exact le_rfl

/-- Step 6: the closing store leaves the entry. -/
theorem core_close (h : Core st) {p : P} {c : Commit cfg} {old : Nat}
    (hp : st.pub p = .commit c (.close old)) :
    Core { st with
      shm := st.shm.close c.idx c.seq
      pub := update st.pub p (.commit c (.release old)) } := by
  have hc := h.commitCore hp
  refine h.of_commit hp _ (st.shm.close c.idx c.seq) ?_ (Or.inl rfl)
    ⟨hc.block_lt, nofun, trivial⟩ ?_
  · intro e he
    simp [Shm.close, update_of_ne he]
  · intro b hb
    have ht := tally_update (Entry.refs b) st.shm.entry c.idx
      { st.shm.entry c.idx with seq := c.seq }
    refine refInv_pub (h.blocks b hb) p _ _ ?_ ?_ (h.blocks b hb).lt
    · rw [hp]
      simp only [Shm.close, PubPc.refs, Entry.refs] at ht ⊢
      omega
    · rw [hp]
      exact le_rfl

/-- Step 7: the publisher's reference on the replaced block is there to be dropped, and the
    publisher that drops the last one holds the block. -/
theorem core_release (h : Core st) {p : P} {c : Commit cfg} {old : Nat}
    (hp : st.pub p = .commit c (.release old)) (hold : old < cfg.blockCount) :
    Core { st with
      shm := st.shm.release old
      pub := update st.pub p
        (if st.shm.refcount old = 1 then .commit c (.recycle old) else .idle) } := by
  have hc := h.commitCore hp
  have hR := h.blocks old hold
  have hpos : 0 < st.shm.refcount old := h.refcount_pos (p := p) hold (by simp [hp, PubPc.refs])
  have hdec : dec32 (st.shm.refcount old) = st.shm.refcount old - 1 := dec32_of_pos hpos hR.lt
  -- afterwards the publisher refers to nothing, and holds `old` if it dropped the last one
  have hrefs : ∀ b, PubPc.refs b
      (if st.shm.refcount old = 1 then PubPc.commit c (.recycle old) else .idle) = 0 := by
    intro b
    split <;> rfl
  have hholds : ∀ b, PubPc.holds b
      (if st.shm.refcount old = 1 then PubPc.commit c (.recycle old) else .idle) =
      if st.shm.refcount old = 1 ∧ old = b then 1 else 0 := by
    intro b
    by_cases hone : st.shm.refcount old = 1 <;> simp [hone, PubPc.holds]
  refine h.of_outside p _ _ ?_ ?_ rfl ?_
  · intro c' pc' heq
    split at heq
    · cases heq
      rfl
    · cases heq
  · split
    · exact ⟨hc.block_lt, nofun, hold⟩
    · trivial
  · intro b hb
    have hlt := (h.blocks b hb).lt
    by_cases hbo : old = b
    · subst hbo
      have hlive := live_drop hpos
      refine refInv_pub hR p _ _ ?_ ?_ ?_
      · rw [hp, hrefs]
        simp only [Shm.release, update_self, PubPc.refs, if_true, hdec]
        omega
      · rw [hp, hholds]
        simp only [Shm.release, update_self, PubPc.holds, hdec, and_true]
        omega
      · simp only [Shm.release, update_self, hdec]
        omega
    · have hne : b ≠ old := fun heq => hbo heq.symm
      refine refInv_pub (h.blocks b hb) p _ _ ?_ ?_ ?_
      · rw [hp, hrefs]
        simp only [Shm.release, update_of_ne hne, PubPc.refs, if_neg hbo]
      · rw [hp, hholds]
        simp only [Shm.release, update_of_ne hne, hbo, and_false, if_false, PubPc.holds,
          le_refl]
      · simpa only [Shm.release, update_of_ne hne] using hlt

/-- Every step of a running `commit_to_ring` that does not mark a marked entry. -/
theorem core_move (h : Core st) {p : P} {c : Commit cfg} {pc : CommitPc}
    (hp : st.pub p = .commit c pc) {sh' : Shm cfg} {x : PubPc cfg}
    (hmove : CommitMove ((st.shm.entry c.idx).seq ≠ seqWriting) st.shm c pc sh' x) :
    Core { st with shm := sh', pub := update st.pub p x } := by
  cases hmove with
  | @wait _ pc' hw hw' hloc =>
    have hspec := CommitPc.waiting_spec hw c
    have hspec' := CommitPc.waiting_spec hw' c
    have hcrit' := (hspec' 0).2.2.1
    refine h.of_locals p _ st.shm (fun c' pc'' heq => ?_)
      ⟨(h.commitCore hp).block_lt, ?_, hloc⟩ rfl rfl (fun b _ => ?_) (fun b => ?_)
    · cases heq
      exact hcrit'
    · intro hin
      rw [hcrit'] at hin
      cases hin
    · rw [hp, (hspec b).1, (hspec' b).1]
    · rw [hp, (hspec b).2.1, (hspec' b).2.1]
  | mark hw hclear => exact core_mark h hp hw hclear
  | loadOld => exact core_loadOld h hp
  | setRc old => exact core_setRc h hp
  | storeBlock old => exact core_storeBlock h hp
  | storeLen old => exact core_storeLen h hp
  | close old => exact core_close h hp
  | release hold => exact core_release h hp hold
  | @noOld old hold =>
    -- an empty entry: nothing to release
    refine h.of_locals p .idle st.shm nofun trivial rfl rfl (fun b hb => ?_)
      (fun b => Nat.zero_le _)
    have hne : old ≠ b := by
      rintro rfl
      exact hold hb
    rw [hp]
    simp [PubPc.refs, hne]
  | recycle old =>
    refine h.of_locals p .idle st.shm nofun trivial rfl rfl (fun b _ => ?_)
      (fun b => Nat.zero_le _)
    rw [hp]
    rfl

/-- `Publisher::loan`: the allocator hands out a block nobody refers to or holds. -/
theorem core_loan (h : Core st) {p : P} (hp : st.pub p = .idle) (t : cfg.Topic) {b : Nat}
    (hb : b < cfg.blockCount) (hfree : st.isFree b) :
    Core { st with pub := update st.pub p (.loaned ⟨t, b, 0⟩) } := by
  refine h.of_outside p _ st.shm nofun hb rfl ?_
  intro b' hb'
  have hR := h.blocks b' hb'
  have hr := tally_update (PubPc.refs b') st.pub p (.loaned ⟨t, b, 0⟩)
  have hh := tally_update (PubPc.holds b') st.pub p (.loaned ⟨t, b, 0⟩)
  have hcount := hR.count
  have howner := hR.owner
  rw [hp] at hr hh
  simp only [PubPc.refs, PubPc.holds, State.refs, State.holders] at hr hh hcount howner
  refine ⟨?_, hR.lt, ?_⟩
  · simp only [State.refs]
    omega
  · by_cases hbb : b = b'
    · subst hbb
      obtain ⟨hrc, hno⟩ := hfree
      simp only [State.holders, hrc, live, if_true] at hno howner hh ⊢
      simp only [Nat.lt_irrefl, if_false]
      omega
    · simp only [if_neg hbb] at hh
      simp only [State.holders]
      omega

end

/-! ### Readers -/

/-- A step that leaves publishers and entries alone. -/
theorem Core.of_reader (h : Core st) (sh' : Shm cfg) (str' : S → Option (Stream cfg))
    (samples' : List (Sample cfg)) (hentry : sh'.entry = st.shm.entry)
    (hstr : ∀ s m, str' s = some m → m.pc.inRange cfg) (hsamples : ∀ x ∈ samples', x.inRange)
    (hblocks : ∀ b, b < cfg.blockCount →
      RefInv { st with shm := sh', str := str', samples := samples' } b) :
    Core { st with shm := sh', str := str', samples := samples' } where
  pubCore := by
    intro p
    have hold := h.pubCore p
    show PubCore sh' (st.pub p)
    cases hp : st.pub p with
    | idle => trivial
    | loaned | dropping => rw [hp] at hold; exact hold
    | commit c pc =>
      rw [hp] at hold
      exact CommitCore.evolve hold (fun _ => by rw [hentry])
  excl := h.excl
  strRange := hstr
  samRange := hsamples
  blocks := hblocks

omit [Fintype P] [Fintype S] in
/-- Leaving a slot empty-handed the stream has no block at hand. -/
theorem skip_pc (m : Stream cfg) (sc : Scan) (opened : Bool) :
    (∀ b, (m.skip sc opened).pc.refs b = 0) ∧ (∀ b, (m.skip sc opened).pc.holds b = 0) ∧
      (m.skip sc opened).pc.inRange cfg := by
  unfold Stream.skip Scan.next
  by_cases hlt : sc.pos < sc.cur
  · simp only [if_pos hlt]
    exact ⟨fun _ => rfl, fun _ => rfl, trivial⟩
  · simp only [if_neg hlt]
    exact ⟨fun _ => rfl, fun _ => rfl, trivial⟩

omit [Fintype P] [Fintype S] in
/-- A step of `try_recv` stores into refcounts only. -/
theorem streamStep_shm (spurious : Bool) (sh : Shm cfg) (m : Stream cfg) :
    ∃ rc, (streamStep spurious sh m).1 = { sh with refcount := rc } := by
  unfold streamStep
  cases m.pc with
  | idle | check | loadLen | loadRc | casRc | recheck => simp only; split <;> exact ⟨_, rfl⟩
  | loadBlock | undo | freeing => exact ⟨_, rfl⟩

omit [Fintype P] [Fintype S] in
/-- A stream checks a block index before it touches the refcount, and the sample it returns
    is of the block it has taken. -/
theorem streamStep_inRange (spurious : Bool) (sh : Shm cfg) (m : Stream cfg)
    (h : m.pc.inRange cfg) : (streamStep spurious sh m).2.1.pc.inRange cfg ∧
      ∀ x ∈ (streamStep spurious sh m).2.2, Sample.inRange x := by
  unfold streamStep
  cases hpc : m.pc with
  | idle =>
    simp only
    split
    · exact ⟨trivial, nofun⟩
    · exact ⟨trivial, nofun⟩
  | check sc =>
    simp only
    split
    · exact ⟨trivial, nofun⟩
    · exact ⟨(skip_pc m sc _).2.2, nofun⟩
  | loadBlock sc => exact ⟨trivial, nofun⟩
  | loadLen sc b =>
    simp only
    split
    · exact ⟨(skip_pc m sc _).2.2, nofun⟩
    · rename_i hok
      exact ⟨show b < cfg.blockCount by omega, nofun⟩
  | loadRc sc b len =>
    rw [hpc] at h
    simp only
    split
    · exact ⟨(skip_pc m sc _).2.2, nofun⟩
    · rename_i hrc
      exact ⟨⟨Nat.pos_of_ne_zero hrc, h⟩, nofun⟩
  | casRc sc b len rc =>
    rw [hpc] at h
    simp only
    split
    · exact ⟨h.2, nofun⟩
    · exact ⟨h.2, nofun⟩
  | recheck sc b len =>
    rw [hpc] at h
    simp only
    split
    · refine ⟨trivial, ?_⟩
      intro x hx
      cases hx
      exact h
    · exact ⟨h, nofun⟩
  | undo sc b =>
    rw [hpc] at h
    simp only
    split
    · exact ⟨h, nofun⟩
    · exact ⟨(skip_pc m sc _).2.2, nofun⟩
  | freeing sc b => exact ⟨(skip_pc m sc _).2.2, nofun⟩

/-- The books of a step of `try_recv`, for one block: the stream's reference is taken, handed
    to the sample, or dropped, and whoever drops the last one holds the block. -/
theorem recv_books (h : Core st) {s : S} {m : Stream cfg} (hm : st.str s = some m)
    (spurious : Bool) (hfit : bumpFits (P := P) st (.recv s spurious) = true) {b : Nat}
    (hb : b < cfg.blockCount) :
    (streamStep spurious st.shm m).1.refcount b + m.pc.refs b =
      st.shm.refcount b + (streamStep spurious st.shm m).2.1.pc.refs b +
        listTally (Sample.refs b) (streamStep spurious st.shm m).2.2.toList ∧
    (streamStep spurious st.shm m).2.1.pc.holds b +
        listTally (Sample.holds b) (streamStep spurious st.shm m).2.2.toList +
        live ((streamStep spurious st.shm m).1.refcount b) ≤
      m.pc.holds b + live (st.shm.refcount b) ∧
    (streamStep spurious st.shm m).1.refcount b < 2 ^ 32 := by
  have hR := h.blocks b hb
  have hrange := h.strRange s m hm
  -- the literal that `simp` turns `2 ^ 32` into
  have hlt : st.shm.refcount b < 4294967296 := hR.lt
  simp only [bumpFits, hm] at hfit
  have hrefs := le_refs_of_stream (b := b) st s
  rw [hm, ← hR.count] at hrefs
  unfold streamStep
  cases hpc : m.pc with
  | idle => simp only; split <;> simp [StreamPc.refs, StreamPc.holds, hlt]
  | check sc =>
    simp only
    split
    · simp [StreamPc.refs, StreamPc.holds, hlt]
    · simp only [(skip_pc m sc _).1, (skip_pc m sc _).2.1]
      simp [StreamPc.refs, StreamPc.holds, hlt]
  | loadBlock sc => simp [StreamPc.refs, StreamPc.holds, hlt]
  | loadLen sc | loadRc sc =>
    simp only
    split
    · simp only [(skip_pc m sc _).1, (skip_pc m sc _).2.1]
      simp [StreamPc.refs, StreamPc.holds, hlt]
    · simp [StreamPc.refs, StreamPc.holds, hlt]
  | casRc sc b' len rc =>
    by_cases hcas : spurious = false ∧ st.shm.refcount b' = rc
    · -- the count was positive, so taking a reference gives the block no second owner
      rw [hpc] at hrange hfit
      simp only [StreamPc.inRange, decide_eq_true_eq] at hrange hfit
      have hfit' : rc + 1 < 4294967296 := hfit
      simp only [if_pos hcas, wrap32_of_lt hfit]
      by_cases hbb : b' = b
      · subst hbb
        simp [Shm.setRc, StreamPc.refs, StreamPc.holds, live, hcas.2, hrange.1, hfit']
      · have hne : b ≠ b' := fun heq => hbb heq.symm
        simp [Shm.setRc, StreamPc.refs, StreamPc.holds, hbb, update_of_ne hne, hlt]
    · simp [if_neg hcas, StreamPc.refs, StreamPc.holds, hlt]
  | recheck sc b' len =>
    simp only
    split <;> simp [StreamPc.refs, StreamPc.holds, Sample.refs, Sample.holds, hlt]
  | undo sc b' =>
    by_cases hbb : b' = b
    · subst hbb
      have hpos : 0 < st.shm.refcount b' := by
        simp only [streamRefs, hpc, StreamPc.refs, if_true] at hrefs
        omega
      have hlive := live_drop hpos
      simp only [Shm.setRc, update_self, dec32_of_pos hpos hlt]
      by_cases hone : st.shm.refcount b' = 1
      · simp [hone, StreamPc.refs, StreamPc.holds, live]
      · simp only [if_neg hone] at hlive ⊢
        simp only [(skip_pc m sc _).1, (skip_pc m sc _).2.1]
        simp only [StreamPc.refs, StreamPc.holds, if_true, Option.toList_none, listTally_nil]
        omega
    · have hne : b ≠ b' := fun heq => hbb heq.symm
      simp only [Shm.setRc, update_of_ne hne]
      split
      · simp [StreamPc.refs, StreamPc.holds, hbb, hlt]
      · simp only [(skip_pc m sc _).1, (skip_pc m sc _).2.1]
        simp [StreamPc.refs, StreamPc.holds, hbb, hlt]
  | freeing sc b' =>
    simp only [(skip_pc m sc _).1, (skip_pc m sc _).2.1]
    simp [StreamPc.refs, StreamPc.holds, hlt]

/-- A step of `try_recv`. -/
theorem core_recv [DecidableEq S] (h : Core st) {s : S} {m : Stream cfg} (hm : st.str s = some m)
    (spurious : Bool) (hfit : bumpFits (P := P) st (.recv s spurious) = true) :
    Core { st with
      shm := (streamStep spurious st.shm m).1
      str := update st.str s (some (streamStep spurious st.shm m).2.1)
      samples := st.samples ++ (streamStep spurious st.shm m).2.2.toList } := by
  obtain ⟨rc, hrc⟩ := streamStep_shm spurious st.shm m
  obtain ⟨hpc, hnew⟩ := streamStep_inRange spurious st.shm m (h.strRange s m hm)
  refine h.of_reader _ _ _ (by rw [hrc]) ?_ ?_ ?_
  · intro s' m' hm'
    by_cases hs : s' = s
    · subst hs
      rw [update_self, Option.some.injEq] at hm'
      subst hm'
      exact hpc
    · rw [update_of_ne hs] at hm'
      exact h.strRange s' m' hm'
  · intro x hx
    rcases List.mem_append.mp hx with hold | hx
    · exact h.samRange x hold
    · exact hnew x (Option.mem_toList.mp hx)
  · intro b hb
    obtain ⟨hcount, hown, hlt⟩ := recv_books h hm spurious hfit hb
    refine refInv_stream (h.blocks b hb) s _ _ _ (by rw [hrc]) ?_ ?_ hlt
    · rw [hm]
      exact hcount
    · rw [hm]
      exact hown

/-- `Subscriber::subscribe`. -/
theorem core_subscribe [DecidableEq S] (h : Core st) {s : S} (hs : st.str s = none)
    (t : cfg.Topic) :
    Core { st with
      str := update st.str s
        (some ⟨t, st.shm.writeSeq t, .idle, st.shm.writeSeq t, [], false⟩) } := by
  refine h.of_reader st.shm _ st.samples rfl ?_ h.samRange ?_
  · intro s' m' hm'
    by_cases hss : s' = s
    · subst hss
      rw [update_self, Option.some.injEq] at hm'
      subst hm'
      trivial
    · rw [update_of_ne hss] at hm'
      exact h.strRange s' m' hm'
  · intro b hb
    have hR := h.blocks b hb
    have hnew := refInv_stream hR s ⟨t, st.shm.writeSeq t, .idle, st.shm.writeSeq t, [], false⟩
      st.shm [] rfl (by rw [hs]; rfl) (by rw [hs]; exact le_rfl) hR.lt
    rw [List.append_nil] at hnew
    exact hnew

/-- Replacing one sample, with the books of its block. -/
theorem Core.of_sample (h : Core st) {k : Nat} {x : Sample cfg} (hk : st.samples[k]? = some x)
    (y : Sample cfg) (rc : Nat → Nat) (hy : y.inRange)
    (hbooks : ∀ b, b < cfg.blockCount →
      rc b + x.refs b = st.shm.refcount b + y.refs b ∧
      y.holds b + live (rc b) ≤ x.holds b + live (st.shm.refcount b) ∧ rc b < 2 ^ 32) :
    Core { st with shm := { st.shm with refcount := rc }, samples := st.samples.set k y } := by
  refine h.of_reader { st.shm with refcount := rc } st.str _ rfl h.strRange ?_ ?_
  · intro z hz
    rcases List.mem_or_eq_of_mem_set hz with hold | rfl
    · exact h.samRange z hold
    · exact hy
  · intro b hb
    obtain ⟨h1, h2, h3⟩ := hbooks b hb
    exact refInv_sample (h.blocks b hb) hk y _ rfl h1 h2 h3

/-- `Drop for Sample`: the sample's reference is there to be dropped. -/
theorem core_dropSample (h : Core st) {k : Nat} {t : cfg.Topic} {q b len : Nat}
    (hk : st.samples[k]? = some (.live t q b len)) :
    Core { st with
      shm := st.shm.setRc b (dec32 (st.shm.refcount b))
      samples := st.samples.set k (if st.shm.refcount b = 1 then .freeing b else .gone) } := by
  have hb : b < cfg.blockCount := h.samRange _ (List.mem_of_getElem? hk)
  have hR := h.blocks b hb
  have hpos : 0 < st.shm.refcount b := by
    have hle := le_refs_of_sample (b := b) st hk
    simp only [Sample.refs, if_true] at hle
    rw [hR.count]
    omega
  have hdec := dec32_of_pos hpos hR.lt
  refine h.of_sample hk _ _ ?_ ?_
  · split
    · exact hb
    · trivial
  · intro b' hb'
    have hlt := (h.blocks b' hb').lt
    by_cases hbb : b = b'
    · subst hbb
      have hlive := live_drop hpos
      rw [update_self, hdec]
      by_cases hone : st.shm.refcount b = 1
      · simp [hone, Sample.refs, Sample.holds, live]
      · simp only [if_neg hone] at hlive ⊢
        simp only [Sample.refs, Sample.holds, if_true]
        omega
    · have hne : b' ≠ b := fun heq => hbb heq.symm
      rw [update_of_ne hne]
      refine ⟨?_, ?_, hlt⟩
      · split <;> simp [Sample.refs, hbb]
      · split <;> simp [Sample.holds, hbb]

/-- The allocator takes the dropped sample's block. -/
theorem core_freedSample (h : Core st) {k b : Nat} (hk : st.samples[k]? = some (.freeing b)) :
    Core { st with samples := st.samples.set k .gone } := by
  refine h.of_sample hk .gone st.shm.refcount trivial
    (fun b' hb' => ⟨rfl, ?_, (h.blocks b' hb').lt⟩)
  simp only [Sample.holds]
  omega

/-! ### Runs -/

variable (cfg P S) in
/-- A fresh region. -/
theorem core_init : Core (init cfg P S) where
  pubCore := fun _ => trivial
  excl := by
    intro p q c d pc pd hp
    cases hp
  strRange := by
    intro s m hm
    cases hm
  samRange := by
    intro x hx
    cases hx
  blocks := by
    intro b hb
    have hne : noBlock ≠ b := (ne_noBlock hb).symm
    refine ⟨?_, by simp [init], ?_⟩
    · simp [init, State.refs, tally, Entry.refs, PubPc.refs, streamRefs, hne]
    · simp [init, State.holders, tally, PubPc.holds, streamHolds, live]

variable [DecidableEq P] [DecidableEq S]

omit [Fintype P] [Fintype S] [DecidableEq P] [DecidableEq S] in
/-- What `Clear` says when the step marks an entry. -/
theorem Clear.unmarked {single : P → Bool} {a : Act cfg P S} (h : Clear single st a)
    {e : cfg.EntryIdx} {q : Nat} (hm : marks single st a = some (e, q)) :
    (st.shm.entry e).seq ≠ seqWriting := by
  have hclear := h.marksClear
  simpa [Ring.marksClear, hm] using hclear

/-- **Step.** Every clear step keeps exclusion and books. -/
theorem core_step {single : P → Bool} {st' : State cfg P S} {a : Act cfg P S} (h : Core st)
    (hok : Clear single st a) (hst : Step single st a st') : Core st' := by
  cases hst with
  | loan t hp hb hfree => exact core_loan h hp t hb hfree
  | @write p l bytes len hp hlen =>
    have hl := h.pubCore p
    rw [hp] at hl
    exact h.of_locals p _ _ nofun hl rfl rfl (fun b _ => by rw [hp]; rfl)
      (fun b => by rw [hp]; exact le_rfl)
  | @dropLoan p l hp =>
    have hl := h.pubCore p
    rw [hp] at hl
    exact h.of_locals p _ st.shm nofun hl rfl rfl (fun b _ => by rw [hp]; rfl)
      (fun b => by rw [hp]; exact le_rfl)
  | @freed p b hp =>
    exact h.of_locals p _ st.shm nofun trivial rfl rfl (fun b _ => by rw [hp]; rfl)
      (fun b => Nat.zero_le _)
  | @claim p l spurious hp =>
    have hl := h.pubCore p
    rw [hp] at hl
    refine h.of_locals p _ _ (fun c pc heq => ?_) ⟨hl, nofun, trivial⟩ rfl rfl
      (fun b _ => by rw [hp]; rfl) (fun b => by rw [hp]; exact le_rfl)
    cases heq
    rfl
  | commit spurious hp =>
    exact core_move h hp (commitStep_move single spurious hp (fun hm => hok.unmarked hm))
  | pinned t =>
    exact h.of_reader _ st.str st.samples rfl h.strRange h.samRange
      (fun b hb => ⟨(h.blocks b hb).count, (h.blocks b hb).lt, (h.blocks b hb).owner⟩)
  | subscribe t hs => exact core_subscribe h hs t
  | recv spurious hm => exact core_recv h hm spurious hok.bumpFits
  | dropSample hk => exact core_dropSample h hk
  | freedSample hk => exact core_freedSample h hk

end Crossbar.Ring
