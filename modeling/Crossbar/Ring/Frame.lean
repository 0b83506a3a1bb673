import Crossbar.Ring.Step

namespace Crossbar.Ring

open Crossbar.Lib

/-!
# Ring — what one step can do to the others

Every step changes one agent and a few shared words.  `Forward sh sh'` says once what any
step can do to the log and the entries, `Evolves` adds that it writes no payload; from it
follows that the facts about the other agents survive (`*.evolve`).  `refInv_pub`,
`refInv_stream` and `refInv_sample` do the same for the refcounts: an agent's step has to
balance the books of its own block only.
-/

variable {cfg : ValidConfig} {P S : Type}

/-! ### The shared words -/

/-- The log moves forward: sequence numbers grow, claims and closed numbers stay, and an
    entry that changes is being written or carries a number never closed before. -/
structure Forward (sh sh' : Shm cfg) : Prop where
  seq_le : ∀ t, sh.writeSeq t ≤ sh'.writeSeq t
  claims : ∀ t q, q ≤ sh.writeSeq t → sh'.claims t q = sh.claims t q
  closed : ∀ t q, sh.closed t q = true → sh'.closed t q = true
  entry : ∀ e, sh'.entry e = sh.entry e ∨ (sh'.entry e).seq = seqWriting ∨
    sh.closed e.1 (sh'.entry e).seq = false

/-- The log moves forward and no payload is written. -/
structure Evolves (sh sh' : Shm cfg) : Prop extends Forward sh sh' where
  data : sh'.data = sh.data

/-- Stores that touch neither the log nor the entries. -/
theorem Forward.of_same {sh sh' : Shm cfg} (hseq : sh'.writeSeq = sh.writeSeq)
    (hclaims : sh'.claims = sh.claims) (hclosed : sh'.closed = sh.closed)
    (hentry : sh'.entry = sh.entry) : Forward sh sh' where
  seq_le := fun t => by rw [hseq]
  claims := fun t q _ => by rw [hclaims]
  closed := fun t q hq => by rw [hclosed]; exact hq
  entry := fun e => Or.inl (by rw [hentry])

/-- Moving forward twice is moving forward. -/
theorem Forward.trans {sh sh' sh'' : Shm cfg} (h : Forward sh sh') (h' : Forward sh' sh'') :
    Forward sh sh'' where
  seq_le := fun t => le_trans (h.seq_le t) (h'.seq_le t)
  claims := fun t q hq => (h'.claims t q (le_trans hq (h.seq_le t))).trans (h.claims t q hq)
  closed := fun t q hq => h'.closed t q (h.closed t q hq)
  entry := by
    intro e
    rcases h'.entry e with hsame | hwriting | hfresh
    · rw [hsame]
      exact h.entry e
    · exact Or.inr (Or.inl hwriting)
    · refine Or.inr (Or.inr ?_)
      by_contra hclosed
      rw [Bool.not_eq_false] at hclosed
      rw [h.closed _ _ hclosed] at hfresh
      cases hfresh

section

variable {sh sh' : Shm cfg}

/-- A stream keeps what it knows: the entry it has passed the check on either still stands
    or carries another number. -/
theorem StreamInv.evolve {m : Stream cfg} (h : StreamInv sh m) (hE : Evolves sh sh')
    (hlt : ∀ t, sh.writeSeq t < seqWriting) : StreamInv sh' m := by
  refine ⟨le_trans h.last_le (hE.seq_le _), ?_, fun pos hp => hE.closed _ _ (h.passed pos hp), ?_⟩
  · intro sc hsc
    obtain ⟨h1, h2, h3⟩ := h.scan sc hsc
    exact ⟨h1, h2, le_trans h3 (hE.seq_le _)⟩
  · intro sc hsc
    have hloc := h.locals sc hsc
    obtain ⟨_, hpos, hcur⟩ := h.scan sc hsc
    have hwr := hlt m.topic
    -- the entry is the old one as soon as it carries a closed number below `SEQ_WRITING`
    have hsame : sh.closed m.topic sc.pos = true →
        (sh'.entry (m.topic, cfg.slotOf sc.pos)).seq = sc.pos →
        sh'.entry (m.topic, cfg.slotOf sc.pos) = sh.entry (m.topic, cfg.slotOf sc.pos) := by
      intro hcl heq
      rcases hE.entry (m.topic, cfg.slotOf sc.pos) with he | he | he
      · exact he
      · omega
      · rw [heq] at he
        rw [he] at hcl
        cases hcl
    have hpassed := h.passed
    cases hpc : m.pc <;> rw [hpc] at hsc hloc hpassed <;>
      simp only [StreamPc.scan, Option.some.injEq, reduceCtorEq] at hsc <;> subst hsc <;>
      simp only [StreamPc.locals, StreamPc.passed, Option.some.injEq, forall_eq'] at hloc hpassed ⊢
    case loadLen sc b =>
      intro heq
      have he := hsame hpassed heq
      rw [he] at heq ⊢
      exact hloc heq
    case loadRc sc b len =>
      intro heq
      have he := hsame hpassed heq
      rw [he] at heq ⊢
      exact hloc heq
    case casRc sc b len rc =>
      intro heq
      have he := hsame hpassed heq
      rw [he] at heq ⊢
      exact hloc heq
    case recheck sc b len =>
      intro heq
      have he := hsame hpassed heq
      rw [he] at heq ⊢
      exact hloc heq

/-- A sample keeps its claim and its bytes. -/
theorem SampleInv.evolve {x : Sample cfg} (h : SampleInv sh x) (hE : Evolves sh sh')
    (hcl : ∀ t q, sh.closed t q = true → q ≤ sh.writeSeq t) : SampleInv sh' x := by
  cases x with
  | live t q b len =>
    obtain ⟨hclaim, hclosed⟩ := h
    refine ⟨?_, hE.closed _ _ hclosed⟩
    rw [hE.claims t q (hcl t q hclosed), hE.data]
    exact hclaim
  | freeing | gone => trivial

/-- An entry that the step does not touch keeps what it holds. -/
theorem EntryInv.evolve {e : cfg.EntryIdx} (h : EntryInv sh e) (hE : Evolves sh sh')
    (hcl : ∀ t q, sh.closed t q = true → q ≤ sh.writeSeq t)
    (he : sh'.entry e = sh.entry e) : EntryInv sh' e := by
  intro hw h0
  rw [he] at hw h0 ⊢
  obtain ⟨h1, h2, h3⟩ := h hw h0
  refine ⟨h1, hE.closed _ _ h2, ?_⟩
  rw [hE.claims _ _ (hcl _ _ h2), hE.data]
  exact h3

/-- A commit keeps what it knows while nobody closes its number. -/
theorem CommitInv.evolve {c : Commit cfg} {pc : CommitPc} (h : CommitInv sh c pc)
    (hE : Evolves sh sh') (hopen : pc.isOpen = true → sh'.closed c.topic c.seq = false) :
    CommitInv sh' c pc where
  len_le := h.len_le
  seq_pos := h.seq_pos
  seq_le := le_trans h.seq_le (hE.seq_le _)
  claimed := by
    intro ho
    rw [hE.claims _ _ h.seq_le, hE.data]
    exact h.claimed ho
  not_closed := hopen

/-- A commit keeps what it knows about its entry while nobody touches it. -/
theorem CommitCore.evolve {c : Commit cfg} {pc : CommitPc} (h : CommitCore sh c pc)
    (hcrit : pc.inCrit = true → sh'.entry c.idx = sh.entry c.idx) : CommitCore sh' c pc where
  block_lt := h.block_lt
  crit := by
    intro hc
    rw [hcrit hc]
    exact h.crit hc
  locals := by
    have hloc := h.locals
    cases pc with
    | setRc | storeBlock | storeLen | close => rw [hcrit rfl]; exact hloc
    | cas | recycle => exact hloc
    | acquire | force | loadOld | release => trivial

end

/-! ### The refcounts -/

/-- Dropping one of the references leaves the block referenced, or in the hands of the agent
    that dropped the last one. -/
theorem live_drop {n : Nat} (h : 0 < n) : (if n = 1 then 1 else 0) + live (n - 1) = live n := by
  unfold live
  by_cases h1 : n = 1
  · simp [h1]
  · rw [if_neg h1, if_pos (by omega), if_pos h]

section

variable [Fintype P] [Fintype S] {st : State cfg P S} {b : Nat}

/-- Books of a publisher's step: what the count gains or loses is what the ring entries and
    this publisher refer to more or less, and it holds no more than before. -/
theorem refInv_pub [DecidableEq P] (h : RefInv st b) (p : P) (x : PubPc cfg) (sh' : Shm cfg)
    (hcount : sh'.refcount b + tally (Entry.refs b) st.shm.entry + (st.pub p).refs b =
      st.shm.refcount b + tally (Entry.refs b) sh'.entry + x.refs b)
    (hown : x.holds b + live (sh'.refcount b) ≤ (st.pub p).holds b + live (st.shm.refcount b))
    (hlt : sh'.refcount b < 2 ^ 32) :
    RefInv { st with shm := sh', pub := Function.update st.pub p x } b := by
  have hc := h.count
  have ho := h.owner
  have hr := tally_update (PubPc.refs b) st.pub p x
  have hh := tally_update (PubPc.holds b) st.pub p x
  refine ⟨?_, hlt, ?_⟩
  · simp only [State.refs] at hc ⊢
    omega
  · simp only [State.holders] at ho ⊢
    omega

/-- Books of a stream's step; `new` is the sample it returns. -/
theorem refInv_stream [DecidableEq S] (h : RefInv st b) (s : S) (m' : Stream cfg) (sh' : Shm cfg)
    (new : List (Sample cfg)) (hentry : sh'.entry = st.shm.entry)
    (hcount : sh'.refcount b + streamRefs b (st.str s) =
      st.shm.refcount b + m'.pc.refs b + listTally (Sample.refs b) new)
    (hown : m'.pc.holds b + listTally (Sample.holds b) new + live (sh'.refcount b) ≤
      streamHolds b (st.str s) + live (st.shm.refcount b))
    (hlt : sh'.refcount b < 2 ^ 32) :
    RefInv { st with shm := sh', str := Function.update st.str s (some m'),
                     samples := st.samples ++ new } b := by
  have hc := h.count
  have ho := h.owner
  have hr := tally_update (streamRefs b) st.str s (some m')
  have hh := tally_update (streamHolds b) st.str s (some m')
  refine ⟨?_, hlt, ?_⟩
  · simp only [State.refs, hentry, listTally_append, streamRefs] at hc hr hcount ⊢
    omega
  · simp only [State.holders, listTally_append, streamHolds] at ho hh hown ⊢
    omega

/-- Books of a sample's drop. -/
theorem refInv_sample (h : RefInv st b) {k : Nat} {x : Sample cfg} (hk : st.samples[k]? = some x)
    (y : Sample cfg) (sh' : Shm cfg) (hentry : sh'.entry = st.shm.entry)
    (hcount : sh'.refcount b + x.refs b = st.shm.refcount b + y.refs b)
    (hown : y.holds b + live (sh'.refcount b) ≤ x.holds b + live (st.shm.refcount b))
    (hlt : sh'.refcount b < 2 ^ 32) :
    RefInv { st with shm := sh', samples := st.samples.set k y } b := by
  have hc := h.count
  have ho := h.owner
  have hr := listTally_set (Sample.refs b) y hk
  have hh := listTally_set (Sample.holds b) y hk
  refine ⟨?_, hlt, ?_⟩
  · simp only [State.refs, hentry] at hc ⊢
    omega
  · simp only [State.holders] at ho ⊢
    omega

/-- A ring entry on a block is a reference on it. -/
theorem refs_pos_of_entry (st : State cfg P S) (e : cfg.EntryIdx) :
    0 < st.refs (st.shm.entry e).blockIdx := by
  have h := le_tally (Entry.refs (st.shm.entry e).blockIdx) st.shm.entry e
  simp only [Entry.refs, if_true] at h
  simp only [State.refs]
  omega

/-- What a publisher refers to is referenced. -/
theorem le_refs_of_pub (st : State cfg P S) (p : P) : (st.pub p).refs b ≤ st.refs b := by
  have h := le_tally (PubPc.refs b) st.pub p
  simp only [State.refs]
  omega

/-- What a stream refers to is referenced. -/
theorem le_refs_of_stream (st : State cfg P S) (s : S) : streamRefs b (st.str s) ≤ st.refs b := by
  have h := le_tally (streamRefs b) st.str s
  simp only [State.refs]
  omega

/-- What a sample refers to is referenced. -/
theorem le_refs_of_sample (st : State cfg P S) {k : Nat} {x : Sample cfg}
    (hk : st.samples[k]? = some x) : x.refs b ≤ st.refs b := by
  have h := le_listTally (Sample.refs b) hk
  simp only [State.refs]
  omega

/-- What a publisher holds is held. -/
theorem le_holders_of_pub (st : State cfg P S) (p : P) : (st.pub p).holds b ≤ st.holders b := by
  have h := le_tally (PubPc.holds b) st.pub p
  simp only [State.holders]
  omega

/-- Two publishers that hold the same block are two holders. -/
theorem add_le_holders [DecidableEq P] (st : State cfg P S) {p q : P} (h : p ≠ q) :
    (st.pub p).holds b + (st.pub q).holds b ≤ st.holders b := by
  have h := add_le_tally (PubPc.holds b) st.pub h
  simp only [State.holders]
  omega

/-- A held block has no references. -/
theorem RefInv.refs_eq_zero (h : RefInv st b) (hheld : 0 < st.holders b) :
    st.shm.refcount b = 0 ∧ st.refs b = 0 := by
  have hc := h.count
  have ho := h.owner
  simp only [live] at ho
  split at ho <;> omega

end

end Crossbar.Ring
