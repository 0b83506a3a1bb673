import Crossbar.Region.Move

namespace Crossbar.Region

open Function Crossbar.Lib Crossbar.Pool

/-!
# Region — no block is lost and none is in two places

Every call keeps the balance `World.Counts` of `Crossbar.Region.Ledger` with at most `2 ^ 32`
references to a block (`counts_step`), so it holds along every run (`counts_run`).  A refcount is
the number of references, `World.Inv`, as long as none overflows (`inv_run`): `try_recv` increments
a `u32` without a check.

* `blocks_conserved` — every block is in exactly one place, and a refcount counts the ring
  entries and samples of its block;
* `refcount_overflows` — with `2 ^ 32 - 1` samples of one message the refcount of its block
  is 0.
-/

variable {cfg : ValidConfig}

variable {w w' : World cfg} {k limit : Nat}

/-- **A call on a publisher** keeps the balance if it keeps it with the other publishers'
    account set aside. -/
theorem counts_onPublisher {f : Publisher cfg → Shm cfg × Option (Publisher cfg)}
    (hI : w.Counts limit) (hstep : w.onPublisher k f = some w')
    (hf : ∀ (p : Publisher cfg) (rest : Nat → Nat), p.borrow = none →
      w.shm.Counted limit (fun b => rest b + p.holds b) w.sampled →
      (f p).1.Counted limit (fun b => rest b + heldBy (f p).2 b) w.sampled) : w'.Counts limit := by
  obtain ⟨p, hp, hborrow, rfl⟩ := onPublisher_inv hstep
  obtain ⟨rest, hold, hnew⟩ := held_split hp
  have hbal := hf p rest hborrow (Shm.Counted.of_eq hI (fun b => (hold b).symm) (fun _ => rfl))
  exact hbal.of_eq (hnew _ _) (fun _ => rfl)

/-- **A call on a loan** likewise, with the loan's block in the caller's hand. -/
theorem counts_onLoan {f : Publisher cfg → Loan cfg → Option (Shm cfg × Publisher cfg)}
    (hI : w.Counts limit) (hstep : w.onLoan k f = some w')
    (hf : ∀ (p : Publisher cfg) (l : Loan cfg) (rest : Nat → Nat) shm p', p.borrow = none →
      w.shm.Counted limit (fun b => rest b + (p.holds b + l.owns b)) w.sampled →
      f p l = some (shm, p') →
      shm.Counted limit (fun b => rest b + p'.holds b) w.sampled) : w'.Counts limit := by
  obtain ⟨p, l, shm, p', hp, hborrow, hfp, rfl⟩ := onLoan_inv hstep
  obtain ⟨rest, hold, hnew⟩ := held_split hp
  refine Shm.Counted.of_eq (hf { p with borrow := none } l rest shm p' rfl ?_ hfp) (hnew _ _)
    (fun _ => rfl)
  refine Shm.Counted.of_eq hI (fun b => ?_) (fun _ => rfl)
  rw [hold b]
  simp only [heldBy, Publisher.holds, Publisher.recycled, Publisher.cached, Publisher.loaned,
    Publisher.pinned, hborrow, Loan.owns]
  omega

/-! ### The calls of a publisher -/

section

variable {shm : Shm cfg} {p : Publisher cfg} {rest refs : Nat → Nat}

/-- `loan` and `loan_typed`. -/
theorem loanWith_counted {kind : LoanKind} (hkind : kind ≠ .pinned) (len : Nat) (h : Handle cfg)
    (hborrow : p.borrow = none) (hbal : shm.Counted limit (fun b => rest b + p.holds b) refs) :
    (keepLoan (p.loanWith kind len shm h)).1.Counted limit
      (fun b => rest b + heldBy (keepLoan (p.loanWith kind len shm h)).2 b) refs := by
  unfold Publisher.loanWith
  split
  · exact hbal
  · obtain ⟨pool, lastFreed, cache, r, hobtain, ⟨rfl, hb⟩ | ⟨b, rfl, hb⟩⟩ :=
      Publisher.obtainBlock_spec hbal
    · simp only [hobtain, keepLoan]
      exact hb
    · simp only [hobtain, keepLoan]
      refine hb.of_eq (fun x => ?_) (fun _ => rfl)
      simp only [heldBy, addOne_apply, Publisher.holds, Publisher.recycled, Publisher.cached,
        Publisher.loaned, Publisher.pinned, hborrow, hkind, ne_eq, not_false_eq_true, true_and,
        eq_comm (a := x)]
      omega

/-- Getting the pinned block of a topic pins a new one at most. -/
theorem pinnedBlock_counted (t : cfg.Topic) (hborrow : p.borrow = none)
    (hbal : shm.Counted limit (fun b => rest b + p.holds b) refs) :
    ∃ shm' p' r, p.pinnedBlock shm t = (shm', p', r) ∧ p'.borrow = none ∧
      shm'.Counted limit (fun b => rest b + p'.holds b) refs := by
  unfold Publisher.pinnedBlock
  split
  · exact ⟨_, _, _, rfl, hborrow, hbal⟩
  · rename_i hnone
    have hnone := not_not.mp hnone
    obtain ⟨pool, lastFreed, cache, r, hobtain, ⟨rfl, hb⟩ | ⟨b, rfl, hb⟩⟩ :=
      Publisher.obtainBlock_spec hbal
    · simp only [hobtain]
      exact ⟨_, _, _, rfl, hborrow, hb⟩
    · simp only [hobtain]
      refine ⟨_, _, _, rfl, hborrow, (hb.of_eq (fun x => ?_) (fun _ => rfl)).frame rfl rfl rfl⟩
      have hpin := tally_update (fun y => (cell y).count x) p.pinnedBlocks t b
      have hne : b ≠ noBlock := ne_noBlock (hb.lt_of_held (by simp))
      simp only [hnone, count_cell_noBlock, count_cell hne] at hpin
      simp only [addOne_apply, Publisher.holds, Publisher.recycled, Publisher.cached,
        Publisher.loaned, Publisher.pinned, hborrow]
      omega

/-- `loan_pinned`. -/
theorem loanPinned_counted (h : Handle cfg) (hborrow : p.borrow = none)
    (hbal : shm.Counted limit (fun b => rest b + p.holds b) refs) :
    (keepLoan (p.loanPinned shm h)).1.Counted limit
      (fun b => rest b + heldBy (keepLoan (p.loanPinned shm h)).2 b) refs := by
  unfold Publisher.loanPinned
  split
  · exact hbal
  · obtain ⟨shm', p', r, hpin, hborrow', hbal'⟩ := pinnedBlock_counted h.topicIdx hborrow hbal
    cases r with
    | error e =>
      simp only [hpin, keepLoan]
      exact hbal'
    | ok b =>
      simp only [hpin]
      split
      · refine (hbal'.of_eq (fun x => ?_) (fun _ => rfl)).frame rfl rfl rfl
        -- the `PinnedLoan` owns nothing
        simp only [keepLoan, heldBy, Publisher.holds, Publisher.recycled, Publisher.cached,
          Publisher.loaned, Publisher.pinned, hborrow', ne_eq, not_true_eq_false, false_and,
          if_false]
      · exact hbal'

/-- `register` and `register_typed` write a topic entry. -/
theorem register_counted (id : Nat) (uri : List UInt8) (typeSize : Nat)
    (hbal : shm.Counted limit rest refs) :
    (shm.registerInner id uri typeSize).1.Counted limit rest refs := by
  unfold Shm.registerInner
  split
  · exact hbal
  · split
    · exact hbal
    · split
      · exact hbal.frame rfl rfl rfl
      · exact hbal

/-- The loop over the pinned blocks. -/
theorem freePinned_counted (ts : List cfg.Topic) (hbal : shm.Counted limit
    (fun b => rest b + listTally (fun t => (cell (p.pinnedBlocks t)).count b) ts) refs) :
    (p.freePinned shm ts).Counted limit rest refs := by
  induction ts generalizing shm with
  | nil => exact hbal
  | cons t ts ih =>
    simp only [listTally_cons] at hbal
    unfold Publisher.freePinned
    split
    · rename_i hne
      apply ih
      refine Shm.Counted.free (hbal.of_eq (fun x => ?_) (fun _ => rfl))
      rw [addOne_apply, count_cell hne]
      omega
    · rename_i hnone
      apply ih
      refine hbal.of_eq (fun x => ?_) (fun _ => rfl)
      rw [not_not.mp hnone, count_cell_noBlock, Nat.zero_add]

/-- The loop over the cached blocks. -/
theorem freeCache_counted (cache : List Nat)
    (hbal : shm.Counted limit (fun b => rest b + cache.count b) refs) :
    (cache.foldl Shm.free shm).Counted limit rest refs := by
  induction cache generalizing shm with
  | nil => exact hbal
  | cons c cache ih =>
    apply ih
    refine Shm.Counted.free (hbal.of_eq (fun x => ?_) (fun _ => rfl))
    simp only [addOne_apply, List.count_cons, beq_iff_eq, eq_comm (a := x)]
    omega

/-- `Drop for Publisher` puts everything on the free list. -/
theorem drop_counted (hborrow : p.borrow = none)
    (hbal : shm.Counted limit (fun b => rest b + p.holds b) refs) :
    (p.drop shm).Counted limit rest refs := by
  have hpinned : Shm.Counted (p.freePinned shm (List.finRange cfg.maxTopics)) limit
      (fun b => rest b + p.cache.count b + p.recycled b) refs := by
    refine freePinned_counted _ (hbal.of_eq (fun b => ?_) (fun _ => rfl))
    have htally : p.pinned b = listTally (fun t : cfg.Topic => (cell (p.pinnedBlocks t)).count b)
        (List.finRange cfg.maxTopics) := tally_eq_listTally _ _
    simp only [Publisher.holds, Publisher.cached, Publisher.loaned, hborrow, htally]
    omega
  unfold Publisher.drop
  apply freeCache_counted
  by_cases hlast : p.lastFreed = noBlock
  · simp only [Publisher.allocRecycled, hlast, ne_eq, not_true_eq_false, if_false]
    refine hpinned.of_eq (fun b => ?_) (fun _ => rfl)
    rw [Publisher.recycled, hlast, count_cell_noBlock]
    rfl
  · simp only [Publisher.allocRecycled, hlast, ne_eq, not_false_eq_true, if_true]
    refine Shm.Counted.free (hpinned.of_eq (fun b => ?_) (fun _ => rfl))
    rw [addOne_apply, Publisher.recycled, count_cell hlast]

end

/-! ### Steps and runs -/

/-- No refcount is about to overflow: `try_recv` finds no block with `2 ^ 32 - 1` references. -/
def Unsaturated (w : World cfg) (a : Act cfg) : Prop :=
  match a with
  | .tryRecv _ => ∀ b < cfg.blockCount, w.shm.refcount b + 1 < 2 ^ 32
  | .tryRecvTyped .. => ∀ b < cfg.blockCount, w.shm.refcount b + 1 < 2 ^ 32
  | _ => True

instance (w : World cfg) (a : Act cfg) : Decidable (Unsaturated w a) :=
  match a with
  | .tryRecv _ => inferInstanceAs (Decidable (∀ b < cfg.blockCount, _))
  | .tryRecvTyped .. => inferInstanceAs (Decidable (∀ b < cfg.blockCount, _))
  | .open .. | .register .. | .registerTyped .. => .isTrue trivial
  | .loan .. | .loanTyped .. | .loanPinned .. => .isTrue trivial
  | .edit .. | .publishLoan .. | .dropLoan .. | .publish .. | .publishTyped .. => .isTrue trivial
  | .dropPublisher .. | .subscribe .. | .waitForPeer .. | .dropSample .. => .isTrue trivial
  | .tryRecvPinned .. | .dropGuard .. => .isTrue trivial

/-- A stream takes no reference beyond the limit. -/
def Room (limit : Nat) (w : World cfg) (a : Act cfg) : Prop :=
  match a with
  | .tryRecv _ => ∀ b < cfg.blockCount, w.shm.refcount b < limit
  | .tryRecvTyped .. => ∀ b < cfg.blockCount, w.shm.refcount b < limit
  | _ => True

/-- It is enough that no refcount is at the limit. -/
theorem room_of_forall {a : Act cfg} (h : ∀ b < cfg.blockCount, w.shm.refcount b < limit) :
    Room limit w a := by
  unfold Room
  split
  · exact h
  · exact h
  · trivial

/-- A refcount is a `u32`, so the width of the word is no limit. -/
theorem room_word {a : Act cfg} (hI : w.Counts limit) : Room (2 ^ 32) w a := by
  refine room_of_forall (fun b _ => ?_)
  rw [hI.word b]
  exact Nat.mod_lt _ (by norm_num)

/-- The condition in terms of the limit. -/
theorem Unsaturated.room {a : Act cfg} (h : Unsaturated w a) : Room (2 ^ 32 - 1) w a := by
  cases a with
  | tryRecv | tryRecvTyped => exact fun b hb => Nat.lt_sub_of_add_lt (h b hb)
  | _ => trivial

/-- A stream takes a reference for the sample it returns. -/
theorem counts_receive {i : Nat} {f : Stream cfg → Option (Shm cfg × Stream cfg × Sample)}
    (hI : w.Counts limit) (hroom : ∀ b < cfg.blockCount, w.shm.refcount b < limit)
    (hstep : w.receive i f = some w')
    (hf : ∀ s shm s' sample, f s = some (shm, s', sample) →
      ∃ q, s.Next w.shm q ∧ shm = w.shm.addRef (w.shm.blockAt s.topic q) ∧
        sample.blockIdx = w.shm.blockAt s.topic q) : w'.Counts limit := by
  obtain ⟨s, _, ⟨_, rfl⟩ | ⟨shm, s', sample, hsome, rfl⟩⟩ := receive_inv hstep
  · exact hI
  · obtain ⟨q, hnext, rfl, hblock⟩ := hf s shm s' sample hsome
    obtain ⟨_, _, hlt, _, hrc⟩ := hnext.readable
    refine (Shm.Counted.read hI hrc (hroom _ hlt)).of_eq (fun _ => rfl) (fun b => ?_)
    show listTally (sampleOf b) (w.samples ++ [some sample]) = _
    rw [listTally_append, listTally_cons, listTally_nil, addOne_apply]
    simp only [sampleOf, hblock, eq_comm (a := b)]
    rfl

/-- A new stream holds no block. -/
theorem counts_addStream (hI : w.Counts limit) (r : Except Error (Stream cfg)) :
    (w.addStream r).Counts limit := by
  cases r with
  | ok | error => exact hI

/-- **Step**, for the acts that are not made of others. -/
theorem counts_basic {a : Act cfg} (ha : a.basic = true) (hI : w.Counts limit)
    (hstep : step w a = some w') (hok : Room limit w a) : w'.Counts limit := by
  cases a with
  | «open» id =>
    cases hstep
    refine Shm.Counted.of_eq hI (fun b => ?_) (fun _ => rfl)
    -- a new publisher holds nothing
    show listTally (fun o => heldBy o b) (w.pubs ++ [some (.fresh cfg id)]) = w.held b
    rw [listTally_append, listTally_cons, listTally_nil]
    show w.held b + (Publisher.holds (.fresh cfg id) b + 0) = w.held b
    rw [fresh_holds]
    rfl
  | register k uri =>
    exact counts_onPublisher hI hstep fun p rest _ hbal => register_counted p.id uri 0 hbal
  | registerTyped k uri size align =>
    refine counts_onPublisher hI hstep fun p rest _ hbal => ?_
    unfold Shm.registerTyped
    split
    · exact hbal
    · exact register_counted p.id uri _ hbal
  | loan k h =>
    obtain ⟨_, hstep⟩ := withHandle_inv hstep
    exact counts_onPublisher hI hstep fun p rest hb hbal => loanWith_counted (by decide) 0 h hb hbal
  | loanTyped k h size =>
    obtain ⟨_, hstep⟩ := Option.ite_none_right_eq_some.mp hstep
    obtain ⟨_, hstep⟩ := withHandle_inv hstep
    exact counts_onPublisher hI hstep
      fun p rest hb hbal => loanWith_counted (by decide) size h hb hbal
  | loanPinned k h =>
    obtain ⟨_, hstep⟩ := withHandle_inv hstep
    exact counts_onPublisher hI hstep fun p rest hb hbal => loanPinned_counted h hb hbal
  | edit k e =>
    rw [step] at hstep
    refine counts_onLoan hI hstep fun p l rest shm p' hb hbal hf => ?_
    obtain ⟨⟨shm₁, l'⟩, hedit, heq⟩ := Option.map_eq_some_iff.mp hf
    cases heq
    obtain ⟨⟨data, rfl⟩, ⟨len, rfl⟩, _⟩ := Loan.edit_spec hedit
    refine (hbal.of_eq (fun b => ?_) (fun _ => rfl)).frame rfl rfl rfl
    simp only [Publisher.holds, Publisher.recycled, Publisher.cached, Publisher.loaned,
      Publisher.pinned, hb, Loan.owns]
    omega
  | publishLoan k =>
    rw [step] at hstep
    refine counts_onLoan hI hstep fun p l rest shm p' hb hbal hf => ?_
    obtain ⟨shm₁, lastFreed, hpub, hbal'⟩ := Loan.publish_spec hbal
    rw [hpub, Option.some.injEq] at hf
    cases hf
    exact hbal'
  | dropLoan k =>
    rw [step] at hstep
    refine counts_onLoan hI hstep fun p l rest shm p' hb hbal hf => ?_
    cases hf
    exact Loan.drop_spec (hbal.of_eq (fun b => by omega) (fun _ => rfl))
  | publish | publishTyped => cases ha
  | dropPublisher k =>
    exact counts_onPublisher hI hstep fun p rest hb hbal => drop_counted hb hbal
  | subscribe | waitForPeer =>
    cases hstep
    exact counts_addStream hI _
  | tryRecv i =>
    refine counts_receive hI hok hstep fun s shm s' sample h => ?_
    obtain ⟨q, hnext, hshm, _, rfl⟩ := Stream.tryRecv_inv h
    exact ⟨q, hnext, hshm, rfl⟩
  | tryRecvTyped i size =>
    refine counts_receive hI hok hstep fun s shm s' sample h => ?_
    obtain ⟨_, q, hnext, hshm, _, rfl⟩ := Stream.tryRecvTyped_inv h
    exact ⟨q, hnext, hshm, rfl⟩
  | dropSample j =>
    obtain ⟨s, hs, rfl⟩ := dropSample_inv hstep
    refine Shm.Counted.release (Shm.Counted.of_eq hI (fun _ => rfl) (fun b => ?_))
    have hset := listTally_set (sampleOf b) none hs
    rw [addOne_apply]
    simp only [sampleOf, eq_comm (a := s.blockIdx)] at hset
    exact hset
  | tryRecvPinned i =>
    obtain ⟨s, -, rfl | ⟨shm, s', g, hrecv, rfl⟩⟩ := receivePinned_inv hstep
    · exact hI
    · unfold Stream.tryRecvPinned at hrecv
      dsimp only at hrecv
      split_ifs at hrecv
      cases hrecv
      exact Shm.Counted.frame hI rfl rfl rfl
  | dropGuard j =>
    obtain ⟨g, -, rfl⟩ := dropGuard_inv hstep
    exact Shm.Counted.frame hI rfl rfl rfl

/-- The condition is about basic calls. -/
theorem room_expands : Expands (Room limit : World cfg → Act cfg → Prop) :=
  .of_parts (fun _ _ _ => trivial) (fun _ _ _ _ => trivial) (fun _ _ _ => trivial)
    (fun _ _ => trivial) (fun _ _ => trivial)

/-- The condition is about basic calls. -/
theorem unsaturated_expands : Expands (Unsaturated : World cfg → Act cfg → Prop) :=
  .of_parts (fun _ _ _ => trivial) (fun _ _ _ _ => trivial) (fun _ _ _ => trivial)
    (fun _ _ => trivial) (fun _ _ => trivial)

/-- **Step** with a limit. -/
theorem counts_step_within {a : Act cfg} (hI : w.Counts limit) (hok : Room limit w a)
    (hstep : step w a = some w') : w'.Counts limit :=
  step_rule room_expands (fun ha hI hok hst => counts_basic ha hI hst hok) hI hok hstep

/-- **Step.** -/
theorem counts_step {a : Act cfg} (hI : w.Counts (2 ^ 32)) (hstep : step w a = some w') :
    w'.Counts (2 ^ 32) :=
  counts_step_within hI (room_word hI) hstep

/-- **Step** without an overflow. -/
theorem inv_step {a : Act cfg} (hI : w.Inv) (hok : Unsaturated w a) (hstep : step w a = some w') :
    w'.Inv :=
  inv_iff.mpr (counts_step_within (inv_iff.mp hI) hok.room hstep)

/-- A new region: every block is on the free list. -/
theorem counts_create (id : Nat) (hlimit : 0 < limit ∧ limit ≤ 2 ^ 32) :
    (create cfg id).Counts limit := by
  have hnone : ∀ b, (create cfg id).shm.referenced (create cfg id).sampled b = 0 := by
    intro b
    by_cases hb : b = noBlock
    · rw [hb, Shm.referenced, if_pos rfl]
    · rw [Shm.referenced_of_ne _ _ hb]
      have hring : (create cfg id).shm.inRing b = 0 := by
        apply tally_eq_zero
        intro e
        exact if_neg (Ne.symm hb)
      rw [hring]
      rfl
  refine ⟨⟨List.range cfg.blockCount, initFreeList_chain cfg, fun b => ?_⟩, fun b => ?_,
    fun b => ?_, hlimit⟩
  · rw [hnone b]
    show (List.range cfg.blockCount).count b + (Publisher.holds (.fresh cfg id) b + 0) + 0 = _
    rw [fresh_holds]
    split
    · rename_i hlt
      rw [List.count_eq_one_of_mem List.nodup_range (List.mem_range.mpr hlt)]
    · rename_i hge
      rw [List.count_eq_zero.mpr (fun hmem => hge (List.mem_range.mp hmem))]
  · rw [hnone b]
    rfl
  · rw [hnone b]
    exact Nat.zero_le _

/-- A new region has all its blocks on the free list. -/
theorem inv_create (id : Nat) : (create cfg id).Inv :=
  inv_iff.mpr (counts_create id (by norm_num))

/-- **Run.** -/
theorem counts_run {ok : World cfg → Act cfg → Prop} {id : Nat} {as : List (Act cfg)}
    (hrun : Run step ok (create cfg id) as w) : w.Counts (2 ^ 32) :=
  hrun.invariant (counts_create id (by norm_num)) (fun _ _ _ hI _ hstep => counts_step hI hstep)

/-- **Run** without an overflow. -/
theorem inv_run {id : Nat} {as : List (Act cfg)}
    (hrun : Run step Unsaturated (create cfg id) as w) :
    w.Inv :=
  hrun.invariant (inv_create id) (fun _ _ _ hI hok hstep => inv_step hI hok hstep)

/-! ### Every block is in one place -/

namespace World

/-- A count over the publishers that have not been dropped. -/
def overPubs (w : World cfg) (f : Publisher cfg → Nat) : Nat :=
  listTally (fun o => o.elim 0 f) w.pubs

/-- The block caches that hold `b`. -/
def cached (w : World cfg) (b : Nat) : Nat := w.overPubs (·.cached b)

/-- The `last_freed` cells that hold `b`. -/
def recycled (w : World cfg) (b : Nat) : Nat := w.overPubs (·.recycled b)

/-- The live `Loan`s and `TypedLoan`s of `b`. -/
def loaned (w : World cfg) (b : Nat) : Nat := w.overPubs (·.loaned b)

/-- The `pinned_blocks` entries that are `b`. -/
def pinned (w : World cfg) (b : Nat) : Nat := w.overPubs (·.pinned b)

/-- The four places where a publisher has blocks. -/
theorem held_eq (w : World cfg) (b : Nat) :
    w.held b = w.cached b + w.recycled b + w.loaned b + w.pinned b := by
  unfold held cached recycled loaned pinned overPubs
  rw [← listTally_add, ← listTally_add, ← listTally_add]
  congr 1
  funext o
  cases o with
  | none => rfl
  | some p =>
    show p.recycled b + p.cached b + p.loaned b + p.pinned b =
      p.cached b + p.recycled b + p.loaned b + p.pinned b
    omega

end World

/-- **Block conservation.** In every state that whole calls can reach without a refcount
    overflow, the chain from `pool_head` is a list `l` without repetition that ends in
    `NO_BLOCK`, and every block is in exactly one place, once: on `l`, in a publisher's cache
    or `last_freed`, in a live loan, among a publisher's pinned blocks, or referenced by a
    ring entry or a sample.  Its refcount is the number of ring entries and live samples. -/
theorem blocks_conserved {id : Nat} {as : List (Act cfg)}
    (hrun : Run step Unsaturated (create cfg id) as w) :
    ∃ l, w.shm.pool.Chain l ∧ l.Nodup ∧ ∀ b < cfg.blockCount,
      l.count b + w.cached b + w.recycled b + w.loaned b + w.pinned b +
        (if 0 < w.shm.inRing b + w.sampled b then 1 else 0) = 1 ∧
      w.shm.refcount b = w.shm.inRing b + w.sampled b := by
  have hI := inv_run hrun
  obtain ⟨l, hl, hplaces⟩ := hI.chain
  refine ⟨l, hl, ?_, fun b hb => ?_⟩
  · refine List.nodup_iff_count_le_one.mpr (fun b => ?_)
    have hb := hplaces b
    split at hb <;> omega
  · have hrefs := hI.refs b (ne_noBlock hb)
    have hb' := hplaces b
    rw [if_pos hb, w.held_eq b, Shm.published, hrefs] at hb'
    exact ⟨by omega, hrefs⟩

/-- Two publishers: one has published a message that a stream holds, has another loan and a
    cache, the other has pinned a block. -/
def sharedSteps : List (Act oneSlot) :=
  [.register 0 [47], .subscribe [47], .publish 0 ⟨oneSlot.topic0, 5⟩ [1, 2], .tryRecv 0, .open 6,
    .dropSample 0, .publish 0 ⟨oneSlot.topic0, 5⟩ [3], .tryRecv 0, .loan 0 ⟨oneSlot.topic0, 5⟩,
    .dropLoan 0, .loanPinned 1 ⟨oneSlot.topic0, 6⟩, .dropLoan 1, .loan 0 ⟨oneSlot.topic0, 5⟩]

/-- The places after such a run. -/
theorem blocks_conserved_shared : ∃ w : World oneSlot,
    Run step Unsaturated (create oneSlot 5) sharedSteps w ∧
    w.loaned 1 = 1 ∧ w.pinned 3 = 1 ∧ w.cached 0 = 1 ∧ w.shm.refcount 2 = 2 ∧
    ∃ l, w.shm.pool.Chain l ∧ l.Nodup ∧ ∀ b < oneSlot.blockCount,
      l.count b + w.cached b + w.recycled b + w.loaned b + w.pinned b +
        (if 0 < w.shm.inRing b + w.sampled b then 1 else 0) = 1 ∧
      w.shm.refcount b = w.shm.inRing b + w.sampled b := by
  obtain ⟨w, hrun, hloan, hpin, hcache, hrc⟩ := exists_run_of_exec step Unsaturated
    (s := create oneSlot 5) (l := sharedSteps) (p := fun w => w.loaned 1 = 1 ∧ w.pinned 3 = 1 ∧
      w.cached 0 = 1 ∧ w.shm.refcount 2 = 2) (by decide +kernel)
  exact ⟨w, hrun, hloan, hpin, hcache, hrc, blocks_conserved hrun⟩

/-! ### A refcount overflow -/

/-- The creating publisher registers a topic; `n` streams subscribe to it. -/
def subscribed (n : Nat) : World oneSlot :=
  { create oneSlot 0 with
    shm := ((create oneSlot 0).shm.register 0 []).1
    streams := List.replicate n ⟨oneSlot.topic0, 0, 0, []⟩ }

/-- It publishes an empty message; the message goes into block 3. -/
def announced : Shm oneSlot × Publisher oneSlot × Except Error Unit :=
  Publisher.publish ((create oneSlot 0).shm.register 0 []).1 (.fresh oneSlot 0)
    ⟨oneSlot.topic0, 0⟩ []

/-- `i` of the `n` streams have received the message. -/
def received (n i : Nat) : World oneSlot where
  shm := { announced.1 with
    refcount := update announced.1.refcount 3 (wrap32 (i + 1)) }
  pubs := [some announced.2.1]
  streams := List.replicate i ⟨oneSlot.topic0, 1, 0, [1]⟩ ++
    List.replicate (n - i) ⟨oneSlot.topic0, 0, 0, []⟩
  samples := List.replicate i (some ⟨3, 0⟩)
  guards := []

/-- A run to a region with `n` streams. -/
theorem subscribed_run (n : Nat) :
    Run step (fun _ _ => True) (create oneSlot 0)
      (.register 0 [] :: List.replicate n (.subscribe []))
      (subscribed n) := by
  refine .cons trivial (show step _ _ = some (subscribed 0) from rfl) ?_
  -- one more subscription at the end of the run
  induction n with
  | zero => exact .nil _
  | succ n ih =>
    rw [List.replicate_succ']
    refine ih.append (.single trivial ?_)
    have hstream : (subscribed n).shm.subscribe [] = .ok ⟨oneSlot.topic0, 0, 0, []⟩ := rfl
    rw [step, hstream]
    simp only [World.addStream, subscribed, List.replicate_succ']

/-- The message stays in the ring. -/
theorem received_entry (n i : Nat) :
    (received n i).shm.entry (oneSlot.topic0, oneSlot.slotOf 1) = ⟨1, 3, 0⟩ := by
  show announced.1.entry (oneSlot.topic0, oneSlot.slotOf 1) = ⟨1, 3, 0⟩
  decide

/-- A stream that has not received the message finds it, as long as its refcount is not 0. -/
theorem received_next (n : Nat) {i : Nat} (hrc : i + 1 < 2 ^ 32) :
    Stream.Next ⟨oneSlot.topic0, 0, 0, []⟩ (received n i).shm 1 := by
  have hseq : ((received n i).shm.topic oneSlot.topic0).writeSeq = 1 := by
    show (announced.1.topic oneSlot.topic0).writeSeq = 1
    decide
  have hbehind : Stream.behind ⟨oneSlot.topic0, 0, 0, []⟩ (received n i).shm = 0 := by
    unfold Stream.behind
    rw [hseq]
    decide
  refine ⟨by omega, by rw [hseq], ?_, fun q' hlow hlt => absurd hlow (by omega)⟩
  unfold Shm.Readable
  rw [received_entry]
  refine ⟨rfl, by decide, by decide, by decide, ?_⟩
  show update announced.1.refcount 3 (wrap32 (i + 1)) 3 ≠ 0
  rw [update_self, wrap32_of_lt hrc]
  omega

/-- The next stream receives it. -/
theorem received_step {n i : Nat} (hi : i < n) (hrc : i + 1 < 2 ^ 32) :
    step (received n i) (.tryRecv i) = some (received n (i + 1)) := by
  have hstream : (received n i).streams[i]? = some ⟨oneSlot.topic0, 0, 0, []⟩ := by
    show (List.replicate i _ ++ List.replicate (n - i) _)[i]? = _
    rw [List.getElem?_append_right (by simp), List.length_replicate, Nat.sub_self,
      List.getElem?_replicate, if_pos (by omega)]
  have hshm : (received n i).shm.addRef 3 = (received n (i + 1)).shm := by
    simp only [Shm.addRef, received, update_idem, update_self, wrap32_of_lt hrc]
  have hrecv := Stream.tryRecv_of_next (received_next n hrc)
  simp only [Shm.blockAt, received_entry, hshm, Stream.advance, List.nil_append] at hrecv
  -- the stream moves from the second group to the first
  have hstreams : (received n i).streams.set i ⟨oneSlot.topic0, 1, 0, [1]⟩ =
      (received n (i + 1)).streams := by
    obtain ⟨m, rfl⟩ : ∃ m, n = i + 1 + m := ⟨n - i - 1, by omega⟩
    show (List.replicate i _ ++ List.replicate (i + 1 + m - i) _).set i _ =
      List.replicate (i + 1) _ ++ List.replicate (i + 1 + m - (i + 1)) _
    rw [show i + 1 + m - i = m + 1 by omega, show i + 1 + m - (i + 1) = m by omega,
      List.set_append_right _ _ (by simp), List.length_replicate, Nat.sub_self,
      List.replicate_succ, List.set_cons_zero, List.replicate_succ', List.append_assoc]
    rfl
  simp only [step, World.receive, hstream, hrecv, hstreams]
  have hsamples : (received n i).samples ++ [some ⟨3, 0⟩] = (received n (i + 1)).samples :=
    List.replicate_succ'.symm
  rw [hsamples]
  rfl

/-- Up to `2 ^ 32 - 1` streams receive the message, one after the other. -/
theorem received_run {n i : Nat} (hi : i ≤ n) (hrc : i < 2 ^ 32) : ∃ as,
    Run step (fun _ _ => True) (create oneSlot 0) as (received n i) := by
  induction i with
  | zero =>
    have hone : wrap32 (0 + 1) = announced.1.refcount 3 := by decide
    have hpub : step (subscribed n) (.publish 0 ⟨oneSlot.topic0, 0⟩ []) = some (received n 0) := by
      rw [received, hone, update_eq_self]
      rfl
    exact ⟨_, (subscribed_run n).append (.single trivial hpub)⟩
  | succ i ih =>
    obtain ⟨as, hrun⟩ := ih (by omega) (by omega)
    exact ⟨_, hrun.append (.single trivial (received_step (by omega) (by omega)))⟩

/-- **A refcount overflows.** `2 ^ 32 - 1` streams receive one message and keep their samples:
    the refcount of its block is 0, although the ring entry and all the samples refer to it. -/
theorem refcount_overflows : ∃ (as : List (Act oneSlot)) (w : World oneSlot),
    Run step (fun _ _ => True) (create oneSlot 0) as w ∧ w.shm.refcount 3 = 0 ∧
      w.shm.inRing 3 = 1 ∧ w.sampled 3 = 2 ^ 32 - 1 := by
  obtain ⟨n, hn⟩ : ∃ n, n = 2 ^ 32 - 1 := ⟨_, rfl⟩
  obtain ⟨as, hrun⟩ := received_run (le_refl n) (by omega)
  refine ⟨as, received n n, hrun, ?_, ?_, ?_⟩
  · show update announced.1.refcount 3 (wrap32 (n + 1)) 3 = 0
    rw [update_self, hn]
    rfl
  · show Shm.inRing announced.1 3 = 1
    decide
  · show listTally (sampleOf 3) (List.replicate n (some ⟨3, 0⟩)) = 2 ^ 32 - 1
    rw [← hn]
    simp [listTally, sampleOf]

end Crossbar.Region
