import Crossbar.Ring.Exclusion

namespace Crossbar.Ring

open Function Crossbar.Lib

/-!
# Ring — the log along a run

On top of exclusion and books (`Core`): every committed entry holds what the publish that
claimed its number was called with, and so does every sample.  The publishers' moves are
checked one by one through `Inv.of_pub`; on the readers' side `streamInv_step` follows
`try_recv` through its program counters.  The entry a stream has passed the check on stays
the one it reads until the number changes, so the re-check of `try_read_slot_raw` hands out
exactly what was committed under that number.
-/

variable {cfg : ValidConfig} {P S : Type} [Fintype P] [Fintype S]
variable {st : State cfg P S}

/-- What a running commit knows about the log. -/
theorem Inv.commitInv (h : Inv st) {p : P} {c : Commit cfg} {pc : CommitPc}
    (hp : st.pub p = .commit c pc) : CommitInv st.shm c pc := by
  have hpub := h.pubs p
  rw [hp] at hpub
  exact hpub

omit [Fintype P] [Fintype S] in
/-- A claim stays valid while the topic's numbers grow. -/
theorem ClaimInv.mono {sh sh' : Shm cfg} {t : cfg.Topic} {q : Nat} {rec : Claim}
    (h : ClaimInv sh t q rec) (hle : sh.writeSeq t ≤ sh'.writeSeq t) : ClaimInv sh' t q rec :=
  ⟨h.seq_pos, le_trans h.seq_le hle, h.block_lt, h.len_le⟩

/-! ### Publishers -/

section

variable [DecidableEq P]

omit [DecidableEq P] in
/-- An entry that is marked, and not by publisher `p`, was marked by another one. -/
theorem Inv.marked_by_other (h : Inv st) {p : P} {e : cfg.EntryIdx}
    (he : (st.shm.entry e).seq = seqWriting)
    (hnot : ∀ c pc, st.pub p = .commit c pc → pc.inCrit = true → c.idx ≠ e) :
    ∃ q, q ≠ p ∧ ∃ d pd, st.pub q = .commit d pd ∧ pd.inCrit = true ∧ d.idx = e := by
  obtain ⟨q, d, pd, hd, hpd, hde⟩ := h.writing e he
  refine ⟨q, ?_, d, pd, hd, hpd, hde⟩
  rintro rfl
  exact hnot d pd hd hpd hde

/-- A step of publisher `p` from its own obligations. -/
theorem Inv.of_pub (h : Inv st) (p : P) (x : PubPc cfg) (sh' : Shm cfg)
    (hcore : Core { st with shm := sh', pub := update st.pub p x })
    (hE : Evolves st.shm sh') (hlt : ∀ t, sh'.writeSeq t < seqWriting)
    (hle : ∀ t q, sh'.closed t q = true → q ≤ sh'.writeSeq t) (hx : PubInv sh' x)
    (hothers : ∀ q, q ≠ p → ∀ d pd, st.pub q = .commit d pd → pd.isOpen = true →
      sh'.closed d.topic d.seq = false)
    (hopen : ∀ c pc, x = .commit c pc → pc.isOpen = true → ∀ q, q ≠ p → ∀ d pd,
      st.pub q = .commit d pd → pd.isOpen = true → c.topic = d.topic → c.seq ≠ d.seq)
    (hwriting : ∀ e, (sh'.entry e).seq = seqWriting →
      (∃ c pc, x = .commit c pc ∧ pc.inCrit = true ∧ c.idx = e) ∨
      (∃ q, q ≠ p ∧ ∃ d pd, st.pub q = .commit d pd ∧ pd.inCrit = true ∧ d.idx = e))
    (hnew : ∀ t q rec, sh'.claims t q = some rec → st.shm.claims t q = some rec ∨
      ClaimInv sh' t q rec ∧ ∃ c pc, x = .commit c pc ∧ pc.isOpen = true ∧ c.topic = t ∧ c.seq = q)
    (hkeep : ∀ c pc, st.pub p = .commit c pc → pc.isOpen = true →
      sh'.closed c.topic c.seq = true ∨ ∃ pc', x = .commit c pc' ∧ pc'.isOpen = true)
    (hentries : ∀ e, EntryInv sh' e) :
    Inv { st with shm := sh', pub := update st.pub p x } where
  toCore := hcore
  seq_lt := hlt
  closed_le := hle
  pubs := by
    intro q
    by_cases hq : q = p
    · subst hq
      simpa using hx
    · have hold := h.pubs q
      simp only [update_of_ne hq]
      cases hpq : st.pub q with
      | idle | dropping => trivial
      | loaned l => rw [hpq] at hold; exact hold
      | commit d pd =>
        rw [hpq] at hold
        exact CommitInv.evolve hold hE (hothers q hq d pd hpq)
  open_inj := by
    intro q r c d pc pd hq hr hpc hpd htop hseq
    by_cases hqp : q = p <;> by_cases hrp : r = p
    · rw [hqp, hrp]
    · subst hqp
      simp only [update_self, update_of_ne hrp] at hq hr
      exact absurd hseq (hopen c pc hq hpc r hrp d pd hr hpd htop)
    · subst hrp
      simp only [update_self, update_of_ne hqp] at hq hr
      exact absurd hseq.symm (hopen d pd hr hpd q hqp c pc hq hpc htop.symm)
    · simp only [update_of_ne hqp, update_of_ne hrp] at hq hr
      exact h.open_inj q r c d pc pd hq hr hpc hpd htop hseq
  writing := by
    intro e he
    rcases hwriting e he with ⟨c, pc, hc, hpc, hidx⟩ | ⟨q, hq, d, pd, hd, hpd, hidx⟩
    · exact ⟨p, c, pc, by simpa using hc, hpc, hidx⟩
    · exact ⟨q, d, pd, by simpa [update_of_ne hq] using hd, hpd, hidx⟩
  accounted := by
    intro t q rec hq
    rcases hnew t q rec hq with hold | ⟨_, c, pc, hc, ho, htop, hseq⟩
    · rcases h.accounted t q rec hold with hcl | ⟨r, c, pc, hr, ho, htop, hseq⟩
      · exact Or.inl (hE.closed t q hcl)
      · by_cases hrp : r = p
        · subst hrp
          rcases hkeep c pc hr ho with hcl | ⟨pc', hx', ho'⟩
          · rw [htop, hseq] at hcl
            exact Or.inl hcl
          · exact Or.inr ⟨r, c, pc', by simpa using hx', ho', htop, hseq⟩
        · exact Or.inr ⟨r, c, pc, by simpa [update_of_ne hrp] using hr, ho, htop, hseq⟩
    · exact Or.inr ⟨p, c, pc, by simpa using hc, ho, htop, hseq⟩
  valid := by
    intro t q rec hq
    rcases hnew t q rec hq with hold | ⟨hv, _⟩
    · exact (h.valid t q rec hold).mono (hE.seq_le t)
    · exact hv
  entries := hentries
  streams := fun s m hm => (h.streams s m hm).evolve hE h.seq_lt
  samples := fun y hy => (h.samples y hy).evolve hE h.closed_le

omit [DecidableEq P] in
/-- A move of `commit_to_ring` only moves the log forward. -/
theorem evolves_move (h : Inv st) {p : P} {c : Commit cfg} {pc : CommitPc}
    (hp : st.pub p = .commit c pc) {R : Prop} {sh' : Shm cfg} {x : PubPc cfg}
    (hmove : CommitMove R st.shm c pc sh' x) : Evolves st.shm sh' := by
  have hk := h.commitCore hp
  cases hmove with
  | mark hw _ =>
    refine ⟨⟨fun _ => le_rfl, fun _ _ _ => rfl, fun _ _ hq => hq, fun e => ?_⟩, rfl⟩
    by_cases he : e = c.idx
    · subst he
      exact Or.inr (Or.inl (by simp [Shm.mark]))
    · exact Or.inl (by simp [Shm.mark, update_of_ne he])
  | storeBlock old =>
    refine ⟨⟨fun _ => le_rfl, fun _ _ _ => rfl, fun _ _ hq => hq, fun e => ?_⟩, rfl⟩
    by_cases he : e = c.idx
    · subst he
      exact Or.inr (Or.inl (by simpa [Shm.storeBlock] using hk.crit rfl))
    · exact Or.inl (by simp [Shm.storeBlock, update_of_ne he])
  | storeLen old =>
    refine ⟨⟨fun _ => le_rfl, fun _ _ _ => rfl, fun _ _ hq => hq, fun e => ?_⟩, rfl⟩
    by_cases he : e = c.idx
    · subst he
      exact Or.inr (Or.inl (by simpa [Shm.storeLen] using hk.crit rfl))
    · exact Or.inl (by simp [Shm.storeLen, update_of_ne he])
  | close old =>
    -- the number that appears was open until now
    have hopen := (h.commitInv hp).not_closed rfl
    refine ⟨⟨fun _ => le_rfl, fun _ _ _ => rfl, fun t q hq => ?_, fun e => ?_⟩, rfl⟩
    · by_cases ht : t = c.topic
      · subst ht
        by_cases hqs : q = c.seq <;> simp [Shm.close, Commit.idx, hqs, hq]
      · simpa [Shm.close, Commit.idx, update_of_ne ht] using hq
    · by_cases he : e = c.idx
      · subst he
        exact Or.inr (Or.inr (by simpa [Shm.close, Commit.idx] using hopen))
      · exact Or.inl (by simp [Shm.close, update_of_ne he])
  | wait | loadOld | setRc | release | noOld | recycle => exact ⟨.of_same rfl rfl rfl rfl, rfl⟩

/-- A move that closes nothing and stores at most into the entry the commit marks or has
    marked. -/
theorem Inv.of_commit (h : Inv st) {p : P} {c : Commit cfg} {pc pc' : CommitPc}
    (hp : st.pub p = .commit c pc) (sh' : Shm cfg)
    (hcore : Core { st with shm := sh', pub := update st.pub p (.commit c pc') })
    (hE : Evolves st.shm sh') (hopen : pc.isOpen = true) (hopen' : pc'.isOpen = true)
    (hcrit : pc.inCrit = true → pc'.inCrit = true)
    (hsame : ∀ e, e ≠ c.idx → sh'.entry e = st.shm.entry e)
    (hown : sh'.entry c.idx = st.shm.entry c.idx ∨
      (sh'.entry c.idx).seq = seqWriting ∧ pc'.inCrit = true)
    (hseq : sh'.writeSeq = st.shm.writeSeq) (hclaims : sh'.claims = st.shm.claims)
    (hclosed : sh'.closed = st.shm.closed) :
    Inv { st with shm := sh', pub := update st.pub p (.commit c pc') } := by
  have hc := h.commitInv hp
  refine h.of_pub p _ sh' hcore hE (fun t => by rw [hseq]; exact h.seq_lt t) ?_ ?_ ?_ ?_ ?_
    (fun t q rec hq => Or.inl (by rw [hclaims] at hq; exact hq)) ?_ ?_
  · intro t q hq
    rw [hclosed] at hq
    rw [hseq]
    exact h.closed_le t q hq
  · refine ⟨hc.len_le, hc.seq_pos, by rw [hseq]; exact hc.seq_le, fun _ => ?_, fun _ => ?_⟩
    · rw [hE.claims _ _ hc.seq_le, hE.data]
      exact hc.claimed hopen
    · rw [hclosed]
      exact hc.not_closed hopen
  · intro q _ d pd hd ho
    rw [hclosed]
    exact (h.commitInv hd).not_closed ho
  · intro c' pc'' heq _ q hq d pd hd hpd htop hs
    cases heq
    exact hq (h.open_inj p q c d pc pd hp hd hopen hpd htop hs).symm
  · intro e he
    by_cases hidx : e = c.idx
    · subst hidx
      by_cases hpc' : pc'.inCrit = true
      · exact Or.inl ⟨c, pc', rfl, hpc', rfl⟩
      · -- the entry is unchanged, so somebody else marked it
        rcases hown with heq | ⟨_, hin⟩
        · rw [heq] at he
          refine Or.inr (h.marked_by_other he fun d pd hd hpd _ => ?_)
          rw [hp] at hd
          cases hd
          exact hpc' (hcrit hpd)
        · exact absurd hin hpc'
    · rw [hsame e hidx] at he
      refine Or.inr (h.marked_by_other he fun d pd hd _ hde => ?_)
      rw [hp] at hd
      cases hd
      exact hidx hde.symm
  · intro c' pc'' heq _
    rw [hp] at heq
    cases heq
    exact Or.inr ⟨pc', rfl, hopen'⟩
  · intro e
    by_cases hidx : e = c.idx
    · subst hidx
      rcases hown with heq | ⟨hw, _⟩
      · exact (h.entries _).evolve hE h.closed_le heq
      · intro hne
        exact absurd hw hne
    · exact (h.entries e).evolve hE h.closed_le (hsame e hidx)

/-- The closing store adds one number to the closed ones. -/
theorem Shm.close_closed {sh : Shm cfg} {c : Commit cfg} {t : cfg.Topic} {q : Nat}
    (hq : (sh.close c.idx c.seq).closed t q = true) :
    sh.closed t q = true ∨ t = c.topic ∧ q = c.seq := by
  by_cases ht : t = c.topic
  · subst ht
    by_cases hqs : q = c.seq
    · exact Or.inr ⟨rfl, hqs⟩
    · exact Or.inl (by simpa [Shm.close, Commit.idx, update_of_ne hqs] using hq)
  · exact Or.inl (by simpa [Shm.close, Commit.idx, update_of_ne ht] using hq)

/-- The closing store commits exactly what the claim promised. -/
theorem inv_close (h : Inv st) {p : P} {c : Commit cfg} {old : Nat}
    (hp : st.pub p = .commit c (.close old)) :
    Inv { st with
      shm := st.shm.close c.idx c.seq
      pub := update st.pub p (.commit c (.release old)) } := by
  have hc := h.commitInv hp
  obtain ⟨hblk, hlen⟩ := (h.commitCore hp).locals
  have hE := evolves_move h hp (CommitMove.close (R := True) old)
  have hsame : ∀ e, e ≠ c.idx → (st.shm.close c.idx c.seq).entry e = st.shm.entry e := by
    intro e he
    simp [Shm.close, update_of_ne he]
  refine h.of_pub p _ _ (core_close h.toCore hp) hE h.seq_lt ?_ ?_ ?_ ?_ ?_
    (fun t q rec hq => Or.inl hq) ?_ ?_
  · intro t q hq
    rcases Shm.close_closed hq with hold | ⟨rfl, rfl⟩
    · exact h.closed_le t q hold
    · exact hc.seq_le
  · exact ⟨hc.len_le, hc.seq_pos, hc.seq_le, by rintro ⟨⟩, by rintro ⟨⟩⟩
  · intro q hq d pd hd ho
    by_contra hcl
    rw [Bool.not_eq_false] at hcl
    rcases Shm.close_closed hcl with hold | ⟨htop, hseq⟩
    · rw [(h.commitInv hd).not_closed ho] at hold
      cases hold
    · exact hq (h.open_inj q p d c pd _ hd hp ho rfl htop hseq)
  · intro c' pc' heq ho
    cases heq
    cases ho
  · intro e he
    by_cases hidx : e = c.idx
    · -- the closed entry carries a claimed number, which is below `SEQ_WRITING`
      subst hidx
      have hlt := h.seq_lt c.topic
      have hle := hc.seq_le
      simp only [Shm.close, update_self] at he
      omega
    · rw [hsame e hidx] at he
      refine Or.inr (h.marked_by_other he fun d pd hd _ hde => ?_)
      rw [hp] at hd
      cases hd
      exact hidx hde.symm
  · intro c' pc' heq _
    rw [hp] at heq
    cases heq
    exact Or.inl (by simp [Shm.close, Commit.idx])
  · intro e
    by_cases hidx : e = c.idx
    · subst hidx
      intro _ _
      refine ⟨?_, ?_, ?_⟩
      · simp [Shm.close, Commit.idx]
      · simp [Shm.close, Commit.idx]
      · have hclaim := hc.claimed rfl
        simp only [Shm.close, update_self, hblk, hlen]
        exact hclaim
    · exact (h.entries e).evolve hE h.closed_le (hsame e hidx)

/-- A step of a publisher that has no entry marked and no number open, before and afterwards,
    and leaves the log and the entries alone. -/
theorem Inv.of_outside (h : Inv st) (p : P) (x : PubPc cfg) (sh' : Shm cfg)
    (hcore : Core { st with shm := sh', pub := update st.pub p x })
    (hbefore : ∀ c pc, st.pub p = .commit c pc → pc.inCrit = false ∧ pc.isOpen = false)
    (hafter : ∀ c pc, x = .commit c pc → pc.isOpen = false)
    (hx : PubInv sh' x) (hdata : sh'.data = st.shm.data) (hentry : sh'.entry = st.shm.entry)
    (hseq : sh'.writeSeq = st.shm.writeSeq) (hclaims : sh'.claims = st.shm.claims)
    (hclosed : sh'.closed = st.shm.closed) :
    Inv { st with shm := sh', pub := update st.pub p x } := by
  have hE : Evolves st.shm sh' := ⟨.of_same hseq hclaims hclosed hentry, hdata⟩
  refine h.of_pub p x sh' hcore hE (fun t => by rw [hseq]; exact h.seq_lt t) ?_ hx ?_ ?_ ?_
    (fun t q rec hq => Or.inl (by rw [hclaims] at hq; exact hq)) ?_ ?_
  · intro t q hq
    rw [hclosed] at hq
    rw [hseq]
    exact h.closed_le t q hq
  · intro q _ d pd hd ho
    rw [hclosed]
    exact (h.commitInv hd).not_closed ho
  · intro c pc hc ho
    rw [hafter c pc hc] at ho
    cases ho
  · intro e he
    rw [hentry] at he
    refine Or.inr (h.marked_by_other he fun d pd hd hpd _ => ?_)
    rw [(hbefore d pd hd).1] at hpd
    cases hpd
  · intro c pc hc ho
    rw [(hbefore c pc hc).2] at ho
    cases ho
  · intro e
    exact (h.entries e).evolve hE h.closed_le (by rw [hentry])

/-- Every step of a running `commit_to_ring` that does not mark a marked entry. -/
theorem inv_move (h : Inv st) {p : P} {c : Commit cfg} {pc : CommitPc}
    (hp : st.pub p = .commit c pc) {sh' : Shm cfg} {x : PubPc cfg}
    (hmove : CommitMove ((st.shm.entry c.idx).seq ≠ seqWriting) st.shm c pc sh' x) :
    Inv { st with shm := sh', pub := update st.pub p x } := by
  have hcore := core_move h.toCore hp hmove
  have hE := evolves_move h hp hmove
  have hc := h.commitInv hp
  have hk := h.commitCore hp
  cases hmove with
  | wait hw hw' hloc =>
    obtain ⟨_, _, hin, ho⟩ := CommitPc.waiting_spec hw c 0
    obtain ⟨_, _, _, ho'⟩ := CommitPc.waiting_spec hw' c 0
    exact h.of_commit hp st.shm hcore hE ho ho' (by simp [hin]) (fun _ _ => rfl) (Or.inl rfl)
      rfl rfl rfl
  | mark hw hclear =>
    obtain ⟨_, _, hin, ho⟩ := CommitPc.waiting_spec hw c 0
    refine h.of_commit hp _ hcore hE ho rfl (by simp [hin]) (fun e he => ?_) (Or.inr ⟨?_, rfl⟩)
      rfl rfl rfl
    · simp [Shm.mark, update_of_ne he]
    · simp [Shm.mark]
  | loadOld =>
    exact h.of_commit hp st.shm hcore hE rfl rfl (fun _ => rfl) (fun _ _ => rfl) (Or.inl rfl)
      rfl rfl rfl
  | setRc old =>
    exact h.of_commit hp _ hcore hE rfl rfl (fun _ => rfl) (fun _ _ => rfl) (Or.inl rfl)
      rfl rfl rfl
  | storeBlock old =>
    refine h.of_commit hp _ hcore hE rfl rfl (fun _ => rfl) (fun e he => ?_) (Or.inr ⟨?_, rfl⟩)
      rfl rfl rfl
    · simp [Shm.storeBlock, update_of_ne he]
    · simpa [Shm.storeBlock] using hk.crit rfl
  | storeLen old =>
    refine h.of_commit hp _ hcore hE rfl rfl (fun _ => rfl) (fun e he => ?_) (Or.inr ⟨?_, rfl⟩)
      rfl rfl rfl
    · simp [Shm.storeLen, update_of_ne he]
    · simpa [Shm.storeLen] using hk.crit rfl
  | close old => exact inv_close h hp
  | release hold =>
    refine h.of_outside p _ _ hcore (fun c' pc' heq => ?_) (fun c' pc' heq => ?_) ?_
      rfl rfl rfl rfl rfl
    · rw [hp] at heq
      cases heq
      exact ⟨rfl, rfl⟩
    · split at heq
      · cases heq
        rfl
      · cases heq
    · split
      · exact ⟨hc.len_le, hc.seq_pos, hc.seq_le, by rintro ⟨⟩, by rintro ⟨⟩⟩
      · trivial
  | noOld | recycle =>
    refine h.of_outside p _ _ hcore (fun c' pc' heq => ?_) (by rintro _ _ ⟨⟩) trivial rfl rfl rfl
      rfl rfl
    rw [hp] at heq
    cases heq
    exact ⟨rfl, rfl⟩

/-- A claim that fits takes the next number. -/
theorem wrap64_succ {n : Nat} (h : n + 1 < seqWriting) : wrap64 (n + 1) = n + 1 := by
  unfold seqWriting at h
  exact wrap64_of_lt (by omega)

omit [Fintype P] [Fintype S] [DecidableEq P] in
/-- A claim only adds a number above all the others. -/
theorem evolves_claim (l : Loan cfg) (hfit : st.shm.writeSeq l.topic + 1 < seqWriting) :
    Evolves st.shm (st.shm.claim l) := by
  have hseq := wrap64_succ hfit
  refine ⟨⟨fun t => ?_, fun t q hq => ?_, fun _ _ hq => hq, fun _ => Or.inl rfl⟩, rfl⟩
  · by_cases ht : t = l.topic
    · subst ht
      simp only [Shm.claim, update_self, hseq]
      omega
    · simp [Shm.claim, update_of_ne ht]
  · by_cases ht : t = l.topic
    · subst ht
      have hne : q ≠ st.shm.writeSeq l.topic + 1 := by omega
      simp [Shm.claim, hseq, update_of_ne hne]
    · simp [Shm.claim, update_of_ne ht]

/-- The claim of `commit_to_ring`. -/
theorem inv_claim (h : Inv st) {p : P} {l : Loan cfg} (hp : st.pub p = .loaned l)
    (hfit : st.shm.writeSeq l.topic + 1 < seqWriting)
    (hcore : Core { st with
      shm := st.shm.claim l
      pub := update st.pub p
        (.commit ⟨l, wrap64 (st.shm.writeSeq l.topic + 1)⟩ (.acquire 0)) }) :
    Inv { st with
      shm := st.shm.claim l
      pub := update st.pub p
        (.commit ⟨l, wrap64 (st.shm.writeSeq l.topic + 1)⟩ (.acquire 0)) } := by
  have hE := evolves_claim l hfit
  have hseq := wrap64_succ hfit
  have hl := h.pubs p
  rw [hp] at hl
  rw [hseq] at hcore ⊢
  have hws : (st.shm.claim l).writeSeq l.topic = st.shm.writeSeq l.topic + 1 := by
    simp [Shm.claim, hseq]
  -- nobody has closed a number that was not claimed
  have hfresh : st.shm.closed l.topic (st.shm.writeSeq l.topic + 1) = false := by
    by_contra hcl
    have hle := h.closed_le l.topic _ (by simpa using hcl)
    omega
  refine h.of_pub p _ _ hcore hE ?_ ?_ ?_ ?_ ?_ ?_ ?_ ?_ ?_
  · intro t
    by_cases ht : t = l.topic
    · subst ht
      rw [hws]
      exact hfit
    · simpa [Shm.claim, update_of_ne ht] using h.seq_lt t
  · intro t q hq
    exact le_trans (h.closed_le t q hq) (hE.seq_le t)
  · refine ⟨hl, Nat.succ_pos _, hws.ge, fun _ => ?_, fun _ => hfresh⟩
    simp [Shm.claim, hseq]
  · intro q _ d pd hd ho
    exact (h.commitInv hd).not_closed ho
  · -- numbers are claimed once: an earlier claim is at most `write_seq`
    intro c pc heq _ q _ d pd hd _ htop hsq
    cases heq
    have hle := (h.commitInv hd).seq_le
    simp only at htop hsq
    rw [← htop] at hle
    omega
  · intro e he
    refine Or.inr (h.marked_by_other he fun d pd hd _ _ => ?_)
    rw [hp] at hd
    cases hd
  · -- the claim is logged with the bytes of its block
    intro t q rec hq
    by_cases hfirst : t = l.topic ∧ q = st.shm.writeSeq l.topic + 1
    · obtain ⟨rfl, rfl⟩ := hfirst
      have hrec : (⟨l.blockIdx, l.len, st.shm.data l.blockIdx⟩ : Claim) = rec := by
        simpa [Shm.claim, hseq] using hq
      subst hrec
      have hb := h.pubCore p
      rw [hp] at hb
      exact Or.inr ⟨⟨Nat.succ_pos _, hws.ge, hb, hl⟩, _, _, rfl, rfl, rfl, rfl⟩
    · refine Or.inl ?_
      by_cases ht : t = l.topic
      · subst ht
        have hqs : q ≠ st.shm.writeSeq l.topic + 1 := fun heq => hfirst ⟨rfl, heq⟩
        simpa [Shm.claim, hseq, update_of_ne hqs] using hq
      · simpa [Shm.claim, update_of_ne ht] using hq
  · intro c pc hc
    rw [hp] at hc
    cases hc
  · exact fun e => (h.entries e).evolve hE h.closed_le rfl

/-- A write through a loan: nobody else can see the block. -/
theorem inv_write (h : Inv st) {p : P} {l : Loan cfg} (hp : st.pub p = .loaned l)
    (bytes : Payload) {len : Nat} (hlen : len ≤ cfg.dataCapacity)
    (hcore : Core { st with
      shm := { st.shm with data := update st.shm.data l.blockIdx bytes }
      pub := update st.pub p (.loaned { l with len := len }) }) :
    Inv { st with
      shm := { st.shm with data := update st.shm.data l.blockIdx bytes }
      pub := update st.pub p (.loaned { l with len := len }) } := by
  have hl := h.pubCore p
  rw [hp] at hl
  obtain ⟨hentry, hopen, hsample⟩ :=
    h.unshared (p := p) (b := l.blockIdx) hl (by simp [hp, PubPc.holds])
  -- a publisher that is in a commit is not the writer
  have hne : ∀ q c pc, update st.pub p (.loaned { l with len := len }) q = .commit c pc →
      q ≠ p ∧ st.pub q = .commit c pc := by
    intro q c pc heq
    by_cases hq : q = p
    · subst hq
      rw [update_self] at heq
      cases heq
    · rw [update_of_ne hq] at heq
      exact ⟨hq, heq⟩
  refine ⟨hcore, h.seq_lt, h.closed_le, ?_, ?_, ?_, ?_, ?_, ?_, ?_, ?_⟩
  · intro q
    by_cases hq : q = p
    · subst hq
      simp only [update_self]
      exact hlen
    · have hold := h.pubs q
      simp only [update_of_ne hq]
      cases hpq : st.pub q with
      | idle | dropping => trivial
      | loaned l' => rw [hpq] at hold; exact hold
      | commit d pd =>
        rw [hpq] at hold
        refine ⟨hold.len_le, hold.seq_pos, hold.seq_le, fun ho => ?_, hold.not_closed⟩
        simp only [update_of_ne (hopen q d pd hq hpq ho)]
        exact hold.claimed ho
  · intro q r c d pc pd hq hr
    exact h.open_inj q r c d pc pd (hne q c pc hq).2 (hne r d pd hr).2
  · intro e he
    obtain ⟨q, hq, d, pd, hd, hpd, hde⟩ := h.marked_by_other (p := p) he fun d pd hd _ _ => by
      rw [hp] at hd
      cases hd
    exact ⟨q, d, pd, by simpa [update_of_ne hq] using hd, hpd, hde⟩
  · intro t q rec hq
    rcases h.accounted t q rec hq with hcl | ⟨r, c, pc, hr, ho, htop, hseq⟩
    · exact Or.inl hcl
    · have hrp : r ≠ p := by
        rintro rfl
        rw [hp] at hr
        cases hr
      exact Or.inr ⟨r, c, pc, by simpa [update_of_ne hrp] using hr, ho, htop, hseq⟩
  · exact fun t q rec hq => (h.valid t q rec hq).mono le_rfl
  · intro e hw h0
    simp only [update_of_ne (hentry e)]
    exact h.entries e hw h0
  · exact fun s m hm => ⟨(h.streams s m hm).last_le, (h.streams s m hm).scan,
      (h.streams s m hm).passed, (h.streams s m hm).locals⟩
  · intro x hx
    have hold := h.samples x hx
    cases x with
    | live t q b len' =>
      have hb : b ≠ l.blockIdx := by
        rintro rfl
        exact hsample t q len' hx
      simp only [SampleInv, update_of_ne hb]
      exact hold
    | freeing | gone => trivial

end

/-! ### Readers -/

/-- A step that leaves publishers, entries and closed numbers alone. -/
theorem Inv.of_reader (h : Inv st) (sh' : Shm cfg) (str' : S → Option (Stream cfg))
    (samples' : List (Sample cfg))
    (hcore : Core { st with shm := sh', str := str', samples := samples' })
    (hE : Evolves st.shm sh') (hentry : sh'.entry = st.shm.entry)
    (hclaims : sh'.claims = st.shm.claims) (hclosed : sh'.closed = st.shm.closed)
    (hlt : ∀ t, sh'.writeSeq t < seqWriting)
    (hstr : ∀ s m, str' s = some m → StreamInv sh' m)
    (hsamples : ∀ x ∈ samples', SampleInv sh' x) :
    Inv { st with shm := sh', str := str', samples := samples' } where
  toCore := hcore
  seq_lt := hlt
  closed_le := by
    intro t q hq
    rw [hclosed] at hq
    exact le_trans (h.closed_le t q hq) (hE.seq_le t)
  pubs := by
    intro p
    have hold := h.pubs p
    show PubInv sh' (st.pub p)
    cases hp : st.pub p with
    | idle | dropping => trivial
    | loaned l => rw [hp] at hold; exact hold
    | commit c pc =>
      rw [hp] at hold
      refine CommitInv.evolve hold hE (fun ho => ?_)
      rw [hclosed]
      exact hold.not_closed ho
  open_inj := h.open_inj
  writing := by
    intro e he
    rw [hentry] at he
    exact h.writing e he
  accounted := by
    intro t q rec hq
    simp only [hclaims] at hq
    simp only [hclosed]
    exact h.accounted t q rec hq
  valid := by
    intro t q rec hq
    simp only [hclaims] at hq
    exact (h.valid t q rec hq).mono (hE.seq_le t)
  entries := fun e => (h.entries e).evolve hE h.closed_le (by rw [hentry])
  streams := hstr
  samples := hsamples

omit [Fintype P] [Fintype S] in
/-- Storing refcounts is no change for anybody's locals. -/
theorem evolves_refcount (sh : Shm cfg) (rc : Nat → Nat) :
    Evolves sh { sh with refcount := rc } := ⟨.of_same rfl rfl rfl rfl, rfl⟩

omit [Fintype P] [Fintype S] in
/-- The scan starts inside the window. -/
theorem scanStart_bounds {depth lastSeq current : Nat} (hd : 0 < depth)
    (hlt : lastSeq < current) :
    lastSeq < scanStart depth lastSeq current ∧ scanStart depth lastSeq current ≤ current := by
  unfold scanStart
  split <;> omega

omit [Fintype P] [Fintype S] in
/-- Leaving a slot empty-handed keeps what the stream knows. -/
theorem StreamInv.skip {sh : Shm cfg} {m : Stream cfg} (h : StreamInv sh m) {sc : Scan}
    (hsc : m.pc.scan = some sc) (opened : Bool) : StreamInv sh (m.skip sc opened) := by
  obtain ⟨hpos, hle, hcur⟩ := h.scan sc hsc
  unfold Stream.skip Scan.next
  by_cases hlt : sc.pos < sc.cur
  · simp only [if_pos hlt]
    refine ⟨h.last_le, ?_, nofun, ?_⟩
    · intro sc' hsc'
      cases hsc'
      exact ⟨Nat.succ_pos _, hlt, hcur⟩
    · intro sc' _
      trivial
  · simp only [if_neg hlt]
    exact ⟨h.last_le, nofun, nofun, nofun⟩

/-- One step of `try_recv` keeps what the stream knows. -/
theorem streamInv_step (h : Inv st) {s : S} {m : Stream cfg} (hm : st.str s = some m)
    (spurious : Bool) : StreamInv st.shm (streamStep spurious st.shm m).2.1 := by
  have hI := h.streams s m hm
  have hscan := hI.scan
  have hpassed := hI.passed
  have hlocals := hI.locals
  have hlt := h.seq_lt m.topic
  unfold streamStep
  cases hpc : m.pc with
  | idle =>
    by_cases hnew : st.shm.writeSeq m.topic ≤ m.lastSeq
    · simp only [if_pos hnew]
      exact ⟨hI.last_le, nofun, nofun, nofun⟩
    · simp only [if_neg hnew]
      refine ⟨hI.last_le, ?_, nofun, fun _ _ => trivial⟩
      intro sc hsc
      cases hsc
      obtain ⟨h1, h2⟩ := scanStart_bounds cfg.ringDepth_pos
        (show m.lastSeq < st.shm.writeSeq m.topic by omega)
      exact ⟨Nat.zero_lt_of_lt h1, h2, le_rfl⟩
  | check sc =>
    obtain ⟨hpos, hle, hcur⟩ := hscan sc (by rw [hpc]; rfl)
    by_cases hseq : (st.shm.entry (m.topic, cfg.slotOf sc.pos)).seq = sc.pos
    · simp only [if_pos hseq]
      -- a number below `SEQ_WRITING` in an entry has been closed there
      have hentry := h.entries (m.topic, cfg.slotOf sc.pos)
      rw [EntryInv, hseq] at hentry
      obtain ⟨_, hcl, _⟩ := hentry (by omega) (by omega)
      refine ⟨hI.last_le, ?_, ?_, fun _ _ => trivial⟩
      · intro sc' hsc'
        cases hsc'
        exact ⟨hpos, hle, hcur⟩
      · intro pos hp
        cases hp
        exact hcl
    · simp only [if_neg hseq]
      exact hI.skip (by rw [hpc]; rfl) _
  | loadBlock sc =>
    rw [hpc] at hscan hpassed
    refine ⟨hI.last_le, hscan, hpassed, ?_⟩
    intro sc' hsc' _
    cases hsc'
    rfl
  | loadLen sc b =>
    simp only
    split
    · exact hI.skip (by rw [hpc]; rfl) _
    · have hloc := hlocals sc (by rw [hpc]; rfl)
      rw [hpc] at hscan hpassed hloc
      refine ⟨hI.last_le, hscan, hpassed, ?_⟩
      intro sc' hsc' heq
      cases hsc'
      exact ⟨hloc heq, rfl⟩
  | loadRc sc b len =>
    by_cases hrc : st.shm.refcount b = 0
    · simp only [if_pos hrc]
      exact hI.skip (by rw [hpc]; rfl) _
    · simp only [if_neg hrc]
      have hloc := hlocals sc (by rw [hpc]; rfl)
      rw [hpc] at hscan hpassed hloc
      refine ⟨hI.last_le, hscan, hpassed, ?_⟩
      intro sc' hsc'
      cases hsc'
      exact hloc
  | casRc sc b len rc =>
    have hloc := hlocals sc (by rw [hpc]; rfl)
    rw [hpc] at hscan hpassed hloc
    simp only
    split
    · refine ⟨hI.last_le, hscan, hpassed, ?_⟩
      intro sc' hsc'
      cases hsc'
      exact hloc
    · refine ⟨hI.last_le, hscan, hpassed, ?_⟩
      intro sc' hsc'
      cases hsc'
      exact hloc
  | recheck sc b len =>
    obtain ⟨hpos, hle, hcur⟩ := hscan sc (by rw [hpc]; rfl)
    rw [hpc] at hscan
    simp only
    split
    · exact ⟨le_trans hle hcur, nofun, nofun, nofun⟩
    · exact ⟨hI.last_le, hscan, nofun, fun _ _ => trivial⟩
  | undo sc b =>
    simp only
    split
    · rw [hpc] at hscan
      exact ⟨hI.last_le, hscan, nofun, fun _ _ => trivial⟩
    · exact hI.skip (by rw [hpc]; rfl) _
  | freeing sc b => exact hI.skip (by rw [hpc]; rfl) _

/-- The sample a step returns is what was committed under its number. -/
theorem sampleInv_step (h : Inv st) {s : S} {m : Stream cfg} (hm : st.str s = some m)
    (spurious : Bool) : ∀ x ∈ (streamStep spurious st.shm m).2.2, SampleInv st.shm x := by
  have hI := h.streams s m hm
  intro x hx
  unfold streamStep at hx
  cases hpc : m.pc with
  | recheck sc b len =>
    have hloc := hI.locals sc (by rw [hpc]; rfl)
    obtain ⟨hpos, hle, hcur⟩ := hI.scan sc (by rw [hpc]; rfl)
    have hlt := h.seq_lt m.topic
    rw [hpc] at hx hloc
    by_cases hseq : (st.shm.entry (m.topic, cfg.slotOf sc.pos)).seq = sc.pos
    · simp only [if_pos hseq, Option.mem_some_iff] at hx
      subst hx
      -- both seqlock checks saw the same number, so the locals are the entry's fields
      have hentry := h.entries (m.topic, cfg.slotOf sc.pos)
      obtain ⟨hblk, hlen⟩ := hloc hseq
      rw [EntryInv, hseq, hblk, hlen] at hentry
      obtain ⟨_, hcl, hclaim⟩ := hentry (by omega) (by omega)
      exact ⟨hclaim, hcl⟩
    · simp [if_neg hseq] at hx
  | idle | check | loadLen | loadRc | casRc =>
    rw [hpc] at hx
    simp only at hx
    split at hx <;> cases hx
  | loadBlock | undo | freeing => rw [hpc] at hx; cases hx

/-- A step of `try_recv`. -/
theorem inv_recv [DecidableEq S] (h : Inv st) {s : S} {m : Stream cfg} (hm : st.str s = some m)
    (spurious : Bool) (hfit : bumpFits (P := P) st (.recv s spurious) = true) :
    Inv { st with
      shm := (streamStep spurious st.shm m).1
      str := update st.str s (some (streamStep spurious st.shm m).2.1)
      samples := st.samples ++ (streamStep spurious st.shm m).2.2.toList } := by
  obtain ⟨rc, hrc⟩ := streamStep_shm spurious st.shm m
  have hE : Evolves st.shm (streamStep spurious st.shm m).1 := by
    rw [hrc]
    exact evolves_refcount st.shm rc
  refine h.of_reader _ _ _ (core_recv h.toCore hm spurious hfit) hE (by rw [hrc]) (by rw [hrc])
    (by rw [hrc]) (by rw [hrc]; exact h.seq_lt) ?_ ?_
  · intro s' m' hm'
    by_cases hs : s' = s
    · subst hs
      rw [update_self, Option.some.injEq] at hm'
      subst hm'
      exact (streamInv_step h hm spurious).evolve hE h.seq_lt
    · rw [update_of_ne hs] at hm'
      exact (h.streams s' m' hm').evolve hE h.seq_lt
  · intro x hx
    rcases List.mem_append.mp hx with hold | hnew
    · exact (h.samples x hold).evolve hE h.closed_le
    · exact (sampleInv_step h hm spurious x (Option.mem_toList.mp hnew)).evolve hE h.closed_le

/-- A sample that is dropped or freed. -/
theorem inv_sample (h : Inv st) (k : Nat) (y : Sample cfg) (rc : Nat → Nat)
    (hy : SampleInv st.shm y)
    (hcore : Core
      { st with shm := { st.shm with refcount := rc }, samples := st.samples.set k y }) :
    Inv { st with shm := { st.shm with refcount := rc }, samples := st.samples.set k y } := by
  have hE := evolves_refcount st.shm rc
  refine h.of_reader _ st.str _ hcore hE rfl rfl rfl h.seq_lt
    (fun s m hm => (h.streams s m hm).evolve hE h.seq_lt) ?_
  intro z hz
  rcases List.mem_or_eq_of_mem_set hz with hold | rfl
  · exact (h.samples z hold).evolve hE h.closed_le
  · exact hy.evolve hE h.closed_le

/-! ### Runs -/

variable (cfg P S) in
/-- A fresh region. -/
theorem inv_init : Inv (init cfg P S) where
  toCore := core_init cfg P S
  seq_lt := fun _ => by simp [init, seqWriting]
  closed_le := by
    intro t q hq
    cases hq
  pubs := fun _ => trivial
  open_inj := by
    intro p q c d pc pd hp
    cases hp
  writing := by
    intro e he
    simp [init, seqWriting] at he
  accounted := by
    intro t q rec hq
    cases hq
  valid := by
    intro t q rec hq
    cases hq
  entries := by
    intro e _ h0
    exact absurd rfl h0
  streams := by
    intro s m hm
    cases hm
  samples := by
    intro x hx
    cases hx

variable [DecidableEq P] [DecidableEq S]

/-- **Step.** Every admissible step keeps the invariant. -/
theorem inv_step {single : P → Bool} {st' : State cfg P S} {a : Act cfg P S} (h : Inv st)
    (hok : Ok single st a) (hst : Step single st a st') : Inv st' := by
  have hcore := core_step h.toCore hok.toClear hst
  have hclaim := hok.claimFits
  cases hst with
  | @loan p t b hp hb hfree =>
    refine h.of_outside p _ st.shm hcore (fun c pc heq => ?_) nofun (Nat.zero_le _)
      rfl rfl rfl rfl rfl
    rw [hp] at heq
    cases heq
  | write bytes hp hlen => exact inv_write h hp bytes hlen hcore
  | @dropLoan p l hp | @freed p b hp =>
    refine h.of_outside p _ st.shm hcore (fun c pc heq => ?_) nofun trivial rfl rfl rfl rfl rfl
    rw [hp] at heq
    cases heq
  | claim spurious hp =>
    simp only [claimFits, hp, decide_eq_true_eq] at hclaim
    exact inv_claim h hp hclaim hcore
  | commit spurious hp =>
    exact inv_move h hp (commitStep_move single spurious hp (fun hm => hok.unmarked hm))
  | pinned t =>
    simp only [claimFits, decide_eq_true_eq] at hclaim
    -- a number is taken and nothing else
    have hws : ∀ t', st.shm.writeSeq t' ≤ (st.shm.claimPinned t).writeSeq t' ∧
        (st.shm.claimPinned t).writeSeq t' < seqWriting := by
      intro t'
      have hlt := h.seq_lt t'
      by_cases ht : t' = t
      · subst ht
        simp only [Shm.claimPinned, update_self, wrap64_succ hclaim]
        omega
      · simp only [Shm.claimPinned, update_of_ne ht]
        omega
    have hE : Evolves st.shm (st.shm.claimPinned t) :=
      ⟨⟨fun t' => (hws t').1, fun _ _ _ => rfl, fun _ _ hq => hq, fun _ => Or.inl rfl⟩, rfl⟩
    exact h.of_reader _ st.str st.samples hcore hE rfl rfl rfl (fun t' => (hws t').2)
      (fun s m hm => (h.streams s m hm).evolve hE h.seq_lt)
      (fun x hx => (h.samples x hx).evolve hE h.closed_le)
  | @subscribe s t hs =>
    refine h.of_reader st.shm _ st.samples hcore ⟨.of_same rfl rfl rfl rfl, rfl⟩ rfl rfl rfl
      h.seq_lt ?_ h.samples
    intro s' m' hm'
    by_cases hss : s' = s
    · subst hss
      rw [update_self, Option.some.injEq] at hm'
      subst hm'
      exact ⟨le_rfl, nofun, nofun, nofun⟩
    · rw [update_of_ne hss] at hm'
      exact h.streams s' m' hm'
  | recv spurious hm => exact inv_recv h hm spurious hok.bumpFits
  | @dropSample k t q b len hk =>
    refine inv_sample h k _ _ ?_ hcore
    split <;> trivial
  | @freedSample k b hk => exact inv_sample h k .gone st.shm.refcount trivial hcore

/-- Every admissible step moves the log forward. -/
theorem forward_step {single : P → Bool} {st' : State cfg P S}
    {a : Act cfg P S} (h : Inv st) (hok : Ok single st a) (hst : Step single st a st') :
    Forward st.shm st'.shm := by
  have hclaim := hok.claimFits
  cases hst with
  | loan | write | dropLoan | freed | subscribe | dropSample
  | freedSample => exact .of_same rfl rfl rfl rfl
  | @claim p l spurious hp =>
    simp only [claimFits, hp, decide_eq_true_eq] at hclaim
    exact (evolves_claim l hclaim).toForward
  | commit spurious hp =>
    exact (evolves_move h hp
      (commitStep_move single spurious hp (R := True) (fun _ => trivial))).toForward
  | pinned t =>
    simp only [claimFits, decide_eq_true_eq] at hclaim
    refine ⟨fun t' => ?_, fun _ _ _ => rfl, fun _ _ hq => hq, fun _ => Or.inl rfl⟩
    by_cases ht : t' = t
    · subst ht
      simp only [Shm.claimPinned, update_self, wrap64_succ hclaim]
      omega
    · simp [Shm.claimPinned, update_of_ne ht]
  | @recv s m spurious hm =>
    obtain ⟨rc, hrc⟩ := streamStep_shm spurious st.shm m
    exact .of_same (by rw [hrc]) (by rw [hrc]) (by rw [hrc]) (by rw [hrc])

/-- Every admissible run moves the log forward. -/
theorem forward_run {single : P → Bool} {as : List (Act cfg P S)} {st' : State cfg P S}
    (h : Inv st) (hrun : Run (step single) (Ok single) st as st') : Forward st.shm st'.shm :=
  hrun.relation (R := fun s s' => Forward s.shm s'.shm) h
    (fun _ _ _ hI hok hst =>
      ⟨inv_step hI hok (step_inv hst), forward_step hI hok (step_inv hst)⟩)
    (fun _ => .of_same rfl rfl rfl rfl) (fun _ _ _ => Forward.trans)

end Crossbar.Ring
