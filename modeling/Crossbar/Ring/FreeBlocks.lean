import Crossbar.Ring.Exclusion

namespace Crossbar.Ring

open Function Crossbar.Lib

/-!
# Ring — free blocks stay free

The ring protocol takes a block from the allocator in `loan` only.  A block that nobody
refers to and nobody holds is never touched by any other step, so whatever the allocator
keeps stays free until it is handed out (`isFree_step`).  The other way round, a block comes
back to the allocator from the one agent that holds it, and is free once that agent lets go
(`isFree_freed`, `isFree_recycle`, `isFree_recv`, `isFree_freedSample`).
-/

variable {cfg : ValidConfig} {P S : Type} [Fintype P] [Fintype S]
variable {st : State cfg P S} {b : Nat}

/-- No agent holds a free block. -/
theorem State.isFree.parts (h : st.isFree b) : tally (PubPc.holds b) st.pub = 0 ∧
    tally (streamHolds b) st.str = 0 ∧ listTally (Sample.holds b) st.samples = 0 := by
  have hh := h.2
  simp only [State.holders] at hh
  omega

/-- A publisher's step that takes no part in `b`. -/
theorem isFree_pub [DecidableEq P] (h : st.isFree b) (p : P) (x : PubPc cfg) (sh' : Shm cfg)
    (hrc : sh'.refcount b = 0) (hx : x.holds b = 0) :
    State.isFree { st with shm := sh', pub := update st.pub p x } b := by
  refine ⟨hrc, ?_⟩
  obtain ⟨h1, h2, h3⟩ := h.parts
  have hupd := tally_update (PubPc.holds b) st.pub p x
  simp only [State.holders]
  omega

/-- A move of `commit_to_ring` neither counts nor holds a block that was free. -/
theorem CommitMove.free {R : Prop} {p : P} {c : Commit cfg} {pc : CommitPc} {sh' : Shm cfg}
    {x : PubPc cfg} (h : Core st) (hb : b < cfg.blockCount) (hfree : st.isFree b)
    (hp : st.pub p = .commit c pc) (hmove : CommitMove R st.shm c pc sh' x) :
    sh'.refcount b = 0 ∧ x.holds b = 0 := by
  have hrc := hfree.1
  have hholds : (PubPc.commit c pc).holds b = 0 := by
    have hle := le_holders_of_pub (b := b) st p
    rw [hp, hfree.2] at hle
    omega
  have hrefs : (PubPc.commit c pc).refs b = 0 := by
    have hle := le_refs_of_pub (b := b) st p
    rw [hp, ← (h.blocks b hb).count, hrc] at hle
    omega
  cases hmove with
  | wait hw hw' _ =>
    rw [(CommitPc.waiting_spec hw c b).2.1] at hholds
    exact ⟨hrc, (CommitPc.waiting_spec hw' c b).2.1.trans hholds⟩
  | mark hw _ =>
    rw [(CommitPc.waiting_spec hw c b).2.1] at hholds
    exact ⟨hrc, hholds⟩
  | loadOld => exact ⟨hrc, hholds⟩
  | setRc old =>
    have hne : b ≠ c.blockIdx := by
      rintro rfl
      simp [PubPc.holds] at hholds
    refine ⟨?_, rfl⟩
    show update st.shm.refcount c.blockIdx 1 b = 0
    rw [update_of_ne hne]
    exact hrc
  | storeBlock | storeLen | close | noOld | recycle => exact ⟨hrc, rfl⟩
  | @release old hold =>
    have hne : old ≠ b := by
      rintro rfl
      simp [PubPc.refs] at hrefs
    constructor
    · show update st.shm.refcount old _ b = 0
      rw [update_of_ne (Ne.symm hne)]
      exact hrc
    · split
      · exact if_neg hne
      · rfl

/-- **Step.** A free block stays free unless the step loans it. -/
theorem isFree_step [DecidableEq P] [DecidableEq S] {single : P → Bool} {st' : State cfg P S}
    {a : Act cfg P S} (h : Core st) (hok : Clear single st a) (hst : Step single st a st')
    (hb : b < cfg.blockCount) (hfree : st.isFree b) (hloan : ∀ p t, a ≠ .loan p t b) :
    st'.isFree b := by
  -- what a publisher holds outside a commit is not free
  have hpub : ∀ p, (st.pub p).holds b = 0 := by
    intro p
    have hle := le_holders_of_pub (b := b) st p
    rw [hfree.2] at hle
    omega
  cases hst with
  | @loan p t b' hp hb' hfree' =>
    have hne : b' ≠ b := by
      rintro rfl
      exact hloan p t rfl
    exact isFree_pub hfree p _ st.shm hfree.1 (if_neg hne)
  | @write p l bytes len hp hlen | @claim p l spurious hp =>
    have hl := hpub p
    rw [hp] at hl
    exact isFree_pub hfree p _ _ hfree.1 hl
  | @dropLoan p l hp =>
    have hl := hpub p
    rw [hp] at hl
    exact isFree_pub hfree p _ st.shm hfree.1 hl
  | @freed p b' hp => exact isFree_pub hfree p _ st.shm hfree.1 rfl
  | @commit p c pc spurious hp =>
    have hmove := commitStep_move single spurious hp (fun hm => hok.unmarked hm)
    obtain ⟨hrc, hx⟩ := CommitMove.free h hb hfree hp hmove
    exact isFree_pub hfree p _ _ hrc hx
  | pinned t => exact hfree
  | @subscribe s t hs =>
    refine ⟨hfree.1, ?_⟩
    obtain ⟨h1, h2, h3⟩ := hfree.parts
    have hupd := tally_update (streamHolds b) st.str s
      (some ⟨t, st.shm.writeSeq t, .idle, st.shm.writeSeq t, [], false⟩)
    simp only [State.holders, streamHolds, StreamPc.holds] at hupd ⊢
    omega
  | @recv s m spurious hm =>
    obtain ⟨_, hown, _⟩ := recv_books h hm spurious hok.bumpFits hb
    obtain ⟨h1, h2, h3⟩ := hfree.parts
    have hmine := le_tally (streamHolds b) st.str s
    have hupd := tally_update (streamHolds b) st.str s (some (streamStep spurious st.shm m).2.1)
    rw [hm] at hmine hupd
    simp only [streamHolds] at hmine hupd
    rw [hfree.1] at hown
    -- the stream had no part in the block, so it has none now
    have hlive : live ((streamStep spurious st.shm m).1.refcount b) = 0 := by
      have hzero : live 0 = 0 := rfl
      omega
    refine ⟨?_, ?_⟩
    · show (streamStep spurious st.shm m).1.refcount b = 0
      unfold live at hlive
      split at hlive <;> omega
    · have hzero : live 0 = 0 := rfl
      simp only [State.holders, listTally_append]
      omega
  | @dropSample k t q b' len hk =>
    have hne : b' ≠ b := by
      rintro rfl
      have hle := le_refs_of_sample (b := b') st hk
      rw [← (h.blocks b' hb).count, hfree.1] at hle
      simp [Sample.refs] at hle
    obtain ⟨h1, h2, h3⟩ := hfree.parts
    constructor
    · show update st.shm.refcount b' _ b = 0
      rw [update_of_ne (Ne.symm hne)]
      exact hfree.1
    · have hset := listTally_set (Sample.holds b)
        (if st.shm.refcount b' = 1 then .freeing b' else .gone) hk
      have hy : Sample.holds b
          (if st.shm.refcount b' = 1 then (.freeing b' : Sample cfg) else .gone) = 0 := by
        split
        · exact if_neg hne
        · rfl
      simp only [State.holders]
      omega
  | @freedSample k b' hk =>
    refine ⟨hfree.1, ?_⟩
    obtain ⟨h1, h2, h3⟩ := hfree.parts
    have hset := listTally_set (Sample.holds b) .gone hk
    simp only [State.holders, Sample.holds] at hset ⊢
    omega

/-! ### Letting go of a block -/

omit [Fintype P] [Fintype S] in
/-- What `try_recv` returns is a live sample. -/
theorem streamStep_live (spurious : Bool) (sh : Shm cfg) (m : Stream cfg) {x : Sample cfg}
    (hx : (streamStep spurious sh m).2.2 = some x) : ∃ t q b len, x = .live t q b len := by
  unfold streamStep at hx
  cases hpc : m.pc <;> rw [hpc] at hx <;> simp only at hx
  case recheck sc b len =>
    split at hx
    · cases hx
      exact ⟨_, _, _, _, rfl⟩
    · cases hx
  all_goals
    first
    | cases hx
    | (split at hx <;> cases hx)

/-- A held block is not free. -/
theorem not_isFree_of_holders (h : 0 < st.holders b) : ¬ st.isFree b := by
  intro hfree
  rw [hfree.2] at h
  exact Nat.lt_irrefl 0 h

/-- The only holder of a block lets go of it. -/
theorem isFree_of_release {st' : State cfg P S} (h : Core st) (hb : b < cfg.blockCount)
    (hrc : st'.shm.refcount b = st.shm.refcount b) (hh : st'.holders b + 1 = st.holders b) :
    st'.isFree b := by
  have howner := (h.blocks b hb).owner
  obtain ⟨hzero, _⟩ := (h.blocks b hb).refs_eq_zero (by omega)
  exact ⟨hrc.trans hzero, by omega⟩

variable [DecidableEq P] [DecidableEq S] {single : P → Bool} {st' : State cfg P S}

omit [DecidableEq S] in
/-- A publisher that held the block goes idle. -/
theorem isFree_idle (h : Core st) {p : P} (hb : b < cfg.blockCount)
    (hp : (st.pub p).holds b = 1) :
    State.isFree { st with pub := update st.pub p .idle } b := by
  refine isFree_of_release h hb rfl ?_
  have hupd := tally_update (PubPc.holds b) st.pub p .idle
  rw [hp, show (PubPc.idle : PubPc cfg).holds b = 0 from rfl] at hupd
  simp only [State.holders]
  omega

/-- The block of a dropped loan. -/
theorem isFree_freed (h : Core st) {p : P} (hp : st.pub p = .dropping b)
    (hst : Step single st (.freed p) st') : b < cfg.blockCount ∧ st'.isFree b := by
  have hb := h.pubCore p
  rw [hp] at hb
  cases hst with
  | freed _ => exact ⟨hb, isFree_idle h hb (by rw [hp]; exact if_pos rfl)⟩

/-- The replaced block whose last reference the publisher has dropped. -/
theorem isFree_recycle (h : Core st) {p : P} {c : Commit cfg} {spurious : Bool}
    (hp : st.pub p = .commit c (.recycle b)) (hst : Step single st (.commit p spurious) st') :
    b < cfg.blockCount ∧ st'.isFree b := by
  have hb : b < cfg.blockCount := (h.commitCore hp).locals
  refine ⟨hb, ?_⟩
  cases hst with
  | claim _ hp' => rw [hp] at hp'; cases hp'
  | commit _ hp' =>
    rw [hp] at hp'
    cases hp'
    exact isFree_idle h hb (by rw [hp]; exact if_pos rfl)

/-- The block a stream has been freeing. -/
theorem isFree_recv (h : Core st) {s : S} {m : Stream cfg} {sc : Scan} {spurious : Bool}
    (hm : st.str s = some m) (hpc : m.pc = .freeing sc b)
    (hst : Step single st (.recv s spurious) st') : st'.isFree b := by
  have hb : b < cfg.blockCount := by
    have hrange := h.strRange s m hm
    rw [hpc] at hrange
    exact hrange
  cases hst with
  | @recv _ m' _ hm' =>
    rw [hm, Option.some.injEq] at hm'
    subst hm'
    have hstep : streamStep spurious st.shm m = (st.shm, m.skip sc false, none) := by
      simp only [streamStep, hpc]
    refine isFree_of_release h hb (by rw [hstep]) ?_
    have hupd := tally_update (streamHolds b) st.str s (some (m.skip sc false))
    have hnew : streamHolds b (some (m.skip sc false)) = 0 := (skip_pc m sc false).2.1 b
    rw [hnew] at hupd
    simp only [hm, streamHolds, hpc, StreamPc.holds, if_true] at hupd
    simp only [hstep, State.holders, Option.toList_none, List.append_nil]
    omega

/-- The block of a dropped sample. -/
theorem isFree_freedSample (h : Core st) {k : Nat} (hk : st.samples[k]? = some (.freeing b))
    (hst : Step single st (.freedSample k) st') : st'.isFree b := by
  have hb : b < cfg.blockCount := h.samRange _ (List.mem_of_getElem? hk)
  cases hst with
  | freedSample _ =>
    refine isFree_of_release h hb rfl ?_
    have hset := listTally_set (Sample.holds b) .gone hk
    simp only [State.holders, Sample.holds, if_true] at hset ⊢
    omega

end Crossbar.Ring
