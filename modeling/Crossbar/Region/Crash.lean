import Crossbar.Region.PinnedLoan
import Crossbar.Region.PinnedRead

namespace Crossbar.Region

open Crossbar.Lib Crossbar.Pool

/-!
# Region — a process that dies

A process that is killed makes no further call: the `Drop` of what it held does not run, and the
blocks and counters stay as they are.  No other call looks for such blocks, or for a sentinel or a
reader that nobody will take back.

* `pubs_step` — a call changes no publisher but the one it is made on;
* `Publisher.Stocked` — between calls a cache holds at most seven blocks, and a publisher with a
  loan has no recycled block, so a publisher holds at most eight blocks besides the pinned ones;
* `crash_keeps_blocks` — these are lost for the region as long as it exists, and no others;
* `crash_blocks_pinned` — with a live `PinnedLoan`, the pinned path of its topic is closed to
  every stream and every publisher;
* `reader_crash_keeps` — the samples of a dead subscriber keep their blocks, and its guards keep
  every publisher from the pinned blocks of their topics.
-/

variable {cfg : ValidConfig} {w w' : World cfg} {k : Nat} {p : Publisher cfg}

/-! ### The calls of the others -/

/-- The publisher that a call is made on, itself or through its loan. -/
def Act.publisher : Act cfg → Option Nat
  | .register k _ => some k
  | .registerTyped k _ _ _ => some k
  | .loan k _ => some k
  | .loanTyped k _ _ => some k
  | .loanPinned k _ => some k
  | .edit k _ => some k
  | .publishLoan k => some k
  | .dropLoan k => some k
  | .publish k _ _ => some k
  | .publishTyped k _ _ _ => some k
  | .dropPublisher k => some k
  | .open _ | .subscribe _ | .waitForPeer _ | .tryRecv _ | .tryRecvTyped _ _ => none
  | .dropSample _ | .tryRecvPinned _ | .dropGuard _ => none

/-- No call of publisher `k` any more. -/
def Dead (k : Nat) (_w : World cfg) (a : Act cfg) : Prop := a.publisher ≠ some k

instance (w : World cfg) (a : Act cfg) : Decidable (Dead k w a) :=
  inferInstanceAs (Decidable (_ ≠ _))

/-- A call of a publisher changes that publisher only. -/
theorem onPublisher_pubs {f : Publisher cfg → Shm cfg × Option (Publisher cfg)}
    (h : w.onPublisher k f = some w') : ∃ o, w'.pubs = w.pubs.set k o := by
  obtain ⟨p, _, _, rfl⟩ := onPublisher_inv h
  exact ⟨_, rfl⟩

/-- The end of a loan changes its publisher only. -/
theorem onLoan_pubs {f : Publisher cfg → Loan cfg → Option (Shm cfg × Publisher cfg)}
    (h : w.onLoan k f = some w') : ∃ o, w'.pubs = w.pubs.set k o := by
  obtain ⟨p, l, shm, p', _, _, _, rfl⟩ := onLoan_inv h
  exact ⟨_, rfl⟩

/-- A call on a publisher changes this one; another call leaves the publishers, or adds one. -/
theorem pubs_step {a : Act cfg} (hstep : step w a = some w') :
    (∃ k, a.publisher = some k ∧ ∃ o, w'.pubs = w.pubs.set k o) ∨
    (a.publisher = none ∧
      (w'.pubs = w.pubs ∨ ∃ id, w'.pubs = w.pubs ++ [some (.fresh cfg id)])) := by
  cases a with
  | «open» id =>
    cases hstep
    exact Or.inr ⟨rfl, Or.inr ⟨id, rfl⟩⟩
  | register k | registerTyped k | dropPublisher k =>
    exact Or.inl ⟨k, rfl, onPublisher_pubs hstep⟩
  | loan k | loanPinned k | publish k =>
    exact Or.inl ⟨k, rfl, onPublisher_pubs (withHandle_inv hstep).2⟩
  | loanTyped k | publishTyped k =>
    obtain ⟨_, hstep⟩ := Option.ite_none_right_eq_some.mp hstep
    exact Or.inl ⟨k, rfl, onPublisher_pubs (withHandle_inv hstep).2⟩
  | edit k | publishLoan k | dropLoan k =>
    rw [step] at hstep
    exact Or.inl ⟨k, rfl, onLoan_pubs hstep⟩
  | subscribe | waitForPeer =>
    cases hstep
    refine Or.inr ⟨rfl, Or.inl ?_⟩
    unfold World.addStream
    split <;> rfl
  | tryRecv | tryRecvTyped =>
    obtain ⟨s, _, ⟨_, rfl⟩ | ⟨_, _, _, _, rfl⟩⟩ := receive_inv hstep <;>
      exact Or.inr ⟨rfl, Or.inl rfl⟩
  | dropSample =>
    obtain ⟨s, _, rfl⟩ := dropSample_inv hstep
    exact Or.inr ⟨rfl, Or.inl rfl⟩
  | tryRecvPinned =>
    obtain ⟨s, _, rfl | ⟨_, _, _, _, rfl⟩⟩ := receivePinned_inv hstep <;>
      exact Or.inr ⟨rfl, Or.inl rfl⟩
  | dropGuard =>
    obtain ⟨g, _, rfl⟩ := dropGuard_inv hstep
    exact Or.inr ⟨rfl, Or.inl rfl⟩

/-- **Run** after the death of a publisher: it stays as it was. -/
theorem dead_run {bs : List (Act cfg)} (hafter : Run step (Dead k) w bs w')
    (hp : w.pubs[k]? = some (some p)) : w'.pubs[k]? = some (some p) := by
  refine hafter.invariant (I := fun w => w.pubs[k]? = some (some p)) hp ?_
  intro w a w' hp hdead hstep
  rcases pubs_step hstep with ⟨j, hj, o, hset⟩ | ⟨-, hsame | ⟨id, hadd⟩⟩
  · have hne : j ≠ k := by
      rintro rfl
      exact hdead hj
    rw [hset, List.getElem?_set_ne hne]
    exact hp
  · rw [hsame]
    exact hp
  · obtain ⟨hlt, -⟩ := List.getElem?_eq_some_iff.mp hp
    rw [hadd, List.getElem?_append_left hlt]
    exact hp

/-! ### What a publisher holds between calls -/

namespace Publisher

/-- The block of a `Loan` or a `TypedLoan`. -/
def loanBlock (p : Publisher cfg) : List Nat :=
  match p.borrow with
  | some l => if l.kind = .pinned then [] else [l.blockIdx]
  | none => []

/-- The blocks that nobody but the publisher knows of. -/
def privateBlocks (p : Publisher cfg) : List Nat := cell p.lastFreed ++ p.cache ++ p.loanBlock

/-- The block of a loan is the loaned block of the account. -/
theorem count_loanBlock (p : Publisher cfg) (b : Nat) : p.loanBlock.count b = p.loaned b := by
  unfold loanBlock loaned
  cases p.borrow with
  | none => rfl
  | some l =>
    by_cases hkind : l.kind = .pinned
    · simp [hkind]
    · simp [hkind, List.count_cons]

/-- The blocks a publisher holds: the private ones and the pinned ones. -/
theorem holds_pos_iff (p : Publisher cfg) {b : Nat} (hb : b ≠ noBlock) :
    0 < p.holds b ↔ b ∈ p.privateBlocks ∨ ∃ t, p.pinnedBlocks t = b := by
  have hprivate : p.holds b = p.privateBlocks.count b + p.pinned b := by
    unfold privateBlocks
    rw [List.count_append, List.count_append, count_loanBlock]
    rfl
  have hpinned : 0 < p.pinned b ↔ ∃ t, p.pinnedBlocks t = b := by
    constructor
    · intro hpos
      obtain ⟨t, ht⟩ := exists_of_tally_pos hpos
      have hmem : b ∈ cell (p.pinnedBlocks t) := List.count_pos_iff.mp ht
      unfold cell at hmem
      split at hmem
      · cases hmem
      · exact ⟨t, (List.mem_singleton.mp hmem).symm⟩
    · rintro ⟨t, rfl⟩
      have hle := le_tally (fun x => (cell x).count (p.pinnedBlocks t)) p.pinnedBlocks t
      rw [count_cell hb, if_pos rfl] at hle
      exact hle
  rw [hprivate, ← hpinned, ← List.count_pos_iff]
  omega

/-- The cache is not full, and the recycled block has been used before a new loan is made. -/
structure Stocked (p : Publisher cfg) : Prop where
  cache : p.cache.length < cacheSize
  loan : p.loanBlock ≠ [] → p.lastFreed = noBlock

/-- The private blocks would fit into the cache. -/
theorem Stocked.length_le (h : p.Stocked) : p.privateBlocks.length ≤ cacheSize := by
  have hcache := h.cache
  have hcell : (cell p.lastFreed).length ≤ 1 := by
    unfold cell
    split <;> simp
  have hloan : p.loanBlock.length ≤ 1 := by
    unfold loanBlock
    repeat' split
    all_goals simp
  unfold privateBlocks
  rw [List.length_append, List.length_append]
  by_cases hnil : p.loanBlock = []
  · rw [hnil, List.length_nil]
    omega
  · rw [h.loan hnil, cell, if_pos rfl, List.length_nil]
    omega

/-- A new publisher has no blocks. -/
theorem fresh_stocked (id : Nat) : (Publisher.fresh cfg id).Stocked :=
  ⟨Nat.zero_lt_succ _, fun _ => rfl⟩

end Publisher

/-! ### Allocation -/

/-- A refill adds at most `n` blocks. -/
theorem refill_length (n : Nat) (pool : FreeList) (cache : List Nat) :
    (refill cfg n pool cache).2.1.length ≤ cache.length + n := by
  induction n generalizing pool cache with
  | zero => exact le_rfl
  | succ n ih =>
    rw [refill]
    split
    · have hrest := ih ‹_› (cache ++ [‹_›])
      rw [List.length_append, List.length_singleton] at hrest
      omega
    · show cache.length ≤ _
      omega
    · show cache.length ≤ _
      omega

section

variable {shm shm' : Shm cfg} {p' : Publisher cfg}

/-- A cache that is not full is not full after an allocation, and the recycled block is gone. -/
theorem allocCached_stocked (h : p.cache.length < cacheSize) {r : Except Error (Option Nat)}
    (halloc : p.allocCached shm = (shm', p', r)) (hr : ∀ msg, r ≠ .error (.regionCorrupted msg)) :
    p'.cache.length < cacheSize ∧ p'.lastFreed = noBlock := by
  unfold Publisher.allocCached at halloc
  split at halloc
  · rename_i q b hrec
    obtain rfl : _ = q := congrArg Prod.fst hrec
    cases halloc
    exact ⟨h, rfl⟩
  · rename_i q hrec
    obtain rfl : _ = q := congrArg Prod.fst hrec
    split at halloc
    · rename_i b rest htake
      have hlen : p.cache.length = (rest ++ [b]).length :=
        congrArg List.length (takeCache_eq htake)
      cases halloc
      refine ⟨?_, rfl⟩
      rw [List.length_append, List.length_singleton] at hlen
      show rest.length < _
      omega
    · split at halloc
      · cases halloc
        exact absurd rfl (hr _)
      · rename_i pool cache hrefill
        have hfull : cache.length ≤ p.cache.length + (cacheSize - p.cache.length) := by
          have hle : (refill cfg (cacheSize - p.cache.length) shm.pool p.cache).2.1.length ≤ _ :=
            refill_length ..
          exact (congrArg (fun x => x.2.1.length) hrefill) ▸ hle
        split at halloc
        · -- at most `cacheSize` blocks, of which the last is taken
          rename_i b rest htake
          have hlen := congrArg List.length (takeCache_eq htake)
          cases halloc
          refine ⟨?_, rfl⟩
          rw [List.length_append, List.length_singleton] at hlen
          show rest.length < _
          omega
        · rename_i htake
          cases halloc
          exact ⟨by rw [takeCache_eq_none htake]; exact Nat.zero_lt_succ _, rfl⟩

/-- An allocation uses up `last_freed` and leaves the cache less than full. -/
theorem obtainBlock_stocked (h : p.cache.length < cacheSize) {r : Except Error Nat}
    (hobtain : p.obtainBlock shm = (shm', p', r)) (hr : ∀ msg, r ≠ .error (.regionCorrupted msg)) :
    p'.cache.length < cacheSize ∧ p'.lastFreed = noBlock := by
  unfold Publisher.obtainBlock at hobtain
  split at hobtain
  · rename_i halloc
    cases hobtain
    exact allocCached_stocked h halloc nofun
  · rename_i halloc
    cases hobtain
    exact allocCached_stocked h halloc nofun
  · rename_i e halloc
    cases hobtain
    exact allocCached_stocked h halloc fun msg he => hr msg (congrArg Except.error
      (Except.error.inj he))

end

/-- An allocation of a publisher in the world. -/
theorem obtain_stocked {limit : Nat} (hI : w.Counts limit) (hp : w.pubs[k]? = some (some p))
    (h : p.Stocked) :
    ∃ pool lastFreed cache r,
      p.obtainBlock w.shm = ({ w.shm with pool := pool },
        { p with lastFreed := lastFreed, cache := cache }, r) ∧
      cache.length < cacheSize ∧ lastFreed = noBlock := by
  obtain ⟨pool, lastFreed, cache, r, hobtain, hr⟩ := obtainBlock_inv hI hp
  refine ⟨pool, lastFreed, cache, r, hobtain, obtainBlock_stocked h.cache hobtain ?_⟩
  rcases hr with rfl | ⟨b, -, rfl⟩ <;> exact nofun

/-! ### The calls -/

/-- Every publisher is stocked. -/
def World.Stocked (w : World cfg) : Prop := ∀ p, some p ∈ w.pubs → p.Stocked

section

variable {limit : Nat} (hI : w.Counts limit) (hp : w.pubs[k]? = some (some p)) (h : p.Stocked)

include hI hp h

/-- A loan uses up `last_freed` and leaves the cache less than full. -/
theorem loanWith_stocked (kind : LoanKind) (len : Nat) (hd : Handle cfg) {p' : Publisher cfg}
    (hp' : (keepLoan (p.loanWith kind len w.shm hd)).2 = some p') : p'.Stocked := by
  unfold Publisher.loanWith at hp'
  split at hp'
  · cases hp'
    exact h
  · obtain ⟨pool, lastFreed, cache, r, hobtain, hcache, hlast⟩ := obtain_stocked hI hp h
    rw [hobtain] at hp'
    cases r with
    | error | ok =>
      cases hp'
      exact ⟨hcache, fun _ => hlast⟩

/-- A pinned loan allocates as any other loan does, or not at all. -/
theorem loanPinned_stocked (hd : Handle cfg) {p' : Publisher cfg}
    (hp' : (keepLoan (p.loanPinned w.shm hd)).2 = some p') : p'.Stocked := by
  unfold Publisher.loanPinned at hp'
  split at hp'
  · cases hp'
    exact h
  · by_cases hnew : p.pinnedBlocks hd.topicIdx = noBlock
    · obtain ⟨pool, lastFreed, cache, r, hobtain, hcache, hlast⟩ := obtain_stocked hI hp h
      unfold Publisher.pinnedBlock at hp'
      rw [if_neg (not_not.mpr hnew), hobtain] at hp'
      cases r with
      | error e =>
        cases hp'
        exact ⟨hcache, fun _ => hlast⟩
      | ok b =>
        simp only [] at hp'
        split at hp'
        · cases hp'
          exact ⟨hcache, fun _ => hlast⟩
        · cases hp'
          exact ⟨hcache, fun _ => hlast⟩
    · unfold Publisher.pinnedBlock at hp'
      rw [if_pos hnew] at hp'
      simp only [] at hp'
      split at hp'
      · cases hp'
        exact ⟨h.cache, fun hne => absurd rfl hne⟩
      · cases hp'
        exact h

end

/-- One publisher changes. -/
theorem World.Stocked.set {o : Option (Publisher cfg)} (h : w.Stocked)
    (hpubs : w'.pubs = w.pubs.set k o) (hnew : ∀ p, o = some p → p.Stocked) : w'.Stocked := by
  intro p hp
  rw [hpubs] at hp
  rcases List.mem_or_eq_of_mem_set hp with hold | heq
  · exact h p hold
  · exact hnew p heq.symm

/-- Without a loan, only the cache matters. -/
theorem Publisher.Stocked.idle {p' : Publisher cfg} (h : p.Stocked) (hcache : p'.cache = p.cache)
    (hborrow : p'.borrow = none) : p'.Stocked := by
  refine ⟨hcache ▸ h.cache, fun hne => absurd ?_ hne⟩
  unfold loanBlock
  rw [hborrow]

/-- **Step** of a basic call. -/
theorem stocked_basic {limit : Nat} {a : Act cfg} (ha : a.basic = true) (hI : w.Counts limit)
    (h : w.Stocked) (hstep : step w a = some w') : w'.Stocked := by
  have hone {k : Nat} {p : Publisher cfg} (hp : w.pubs[k]? = some (some p)) : p.Stocked :=
    h p (List.mem_of_getElem? hp)
  cases a with
  | register k | registerTyped k =>
    obtain ⟨p, hp, _, rfl⟩ := onPublisher_inv hstep
    exact h.set rfl fun _ he => Option.some.inj he ▸ hone hp
  | loan k hd =>
    obtain ⟨p, hp, _, rfl⟩ := onPublisher_inv (withHandle_inv hstep).2
    exact h.set rfl fun _ he => loanWith_stocked hI hp (hone hp) _ _ _ he
  | loanTyped k hd size =>
    obtain ⟨_, hstep⟩ := Option.ite_none_right_eq_some.mp hstep
    obtain ⟨p, hp, _, rfl⟩ := onPublisher_inv (withHandle_inv hstep).2
    exact h.set rfl fun _ he => loanWith_stocked hI hp (hone hp) _ _ _ he
  | loanPinned k hd =>
    obtain ⟨p, hp, _, rfl⟩ := onPublisher_inv (withHandle_inv hstep).2
    exact h.set rfl fun _ he => loanPinned_stocked hI hp (hone hp) _ he
  | edit k e =>
    rw [step] at hstep
    obtain ⟨p, l, shm, p', hp, hborrow, hf, rfl⟩ := onLoan_inv hstep
    obtain ⟨⟨shm', l'⟩, hedit, heq⟩ := Option.map_eq_some_iff.mp hf
    cases heq
    obtain ⟨_, ⟨len, rfl⟩, _⟩ := Loan.edit_spec hedit
    refine h.set rfl fun _ he => ?_
    cases he
    refine ⟨(hone hp).cache, fun hne => (hone hp).loan ?_⟩
    unfold Publisher.loanBlock at hne ⊢
    rw [hborrow]
    exact hne
  | publishLoan k =>
    rw [step] at hstep
    obtain ⟨p, l, shm, p', hp, hborrow, hf, rfl⟩ := onLoan_inv hstep
    refine h.set rfl fun _ he => ?_
    cases he
    by_cases hkind : l.kind = .pinned
    · simp only [Loan.publish, hkind, Option.some.injEq] at hf
      cases hf
      exact (hone hp).idle rfl rfl
    · obtain ⟨-, lastFreed, hpub⟩ :=
        commitToRing_shape w.shm { p with borrow := none } l.blockIdx l.len l.topic
      rw [Loan.publish_ring hkind, Option.some.injEq] at hf
      rw [hf] at hpub
      cases hpub
      exact (hone hp).idle rfl rfl
  | dropLoan k =>
    rw [step] at hstep
    obtain ⟨p, l, shm, p', hp, hborrow, hf, rfl⟩ := onLoan_inv hstep
    cases hf
    refine h.set rfl fun _ he => ?_
    cases he
    exact (hone hp).idle rfl rfl
  | publish | publishTyped => cases ha
  | dropPublisher k =>
    obtain ⟨p, hp, _, rfl⟩ := onPublisher_inv hstep
    refine h.set rfl fun _ he => ?_
    cases he
  | _ =>
    rcases pubs_step hstep with ⟨k, hk, -⟩ | ⟨-, hsame | ⟨id, hadd⟩⟩
    · cases hk
    · intro p hp
      exact h p (hsame ▸ hp)
    · intro p hp
      rw [hadd] at hp
      rcases List.mem_append.mp hp with hold | hnew
      · exact h p hold
      · cases Option.some.inj (List.mem_singleton.mp hnew)
        exact Publisher.fresh_stocked id

/-- **Run.** -/
theorem stocked_run {id : Nat} {as : List (Act cfg)} {ok : World cfg → Act cfg → Prop}
    (hrun : Run step ok (create cfg id) as w) : w.Counts (2 ^ 32) ∧ w.Stocked := by
  refine hrun.invariant (I := fun w => w.Counts (2 ^ 32) ∧ w.Stocked)
    ⟨counts_create id (by norm_num), ?_⟩ ?_
  · intro p hp
    cases Option.some.inj (List.mem_singleton.mp hp)
    exact Publisher.fresh_stocked id
  · intro w a w' hI _ hstep
    exact step_rule (I := fun w => w.Counts (2 ^ 32) ∧ w.Stocked) always_expands
      (fun ha h _ hstep => ⟨counts_step h.1 hstep, stocked_basic ha h.1 h.2 hstep⟩) hI trivial hstep

/-! ### After the death of a publisher -/

/-- **A crash costs at most eight blocks and the pinned ones.** In every state that whole calls can
    reach, a publisher holds at most eight blocks besides those it has pinned.  If it makes no call
    from then on, then, whatever the others do, each of these blocks and of its pinned blocks stays
    out of use: it is not on the free list, no other publisher holds it, and no ring entry or
    sample refers to it. -/
theorem crash_keeps_blocks {id : Nat} {as bs : List (Act cfg)}
    (hrun : Run step (fun _ _ => True) (create cfg id) as w) (hp : w.pubs[k]? = some (some p))
    (hafter : Run step (Dead k) w bs w') :
    p.privateBlocks.length ≤ 8 ∧ w'.pubs[k]? = some (some p) ∧
    ∃ free, w'.shm.pool.Chain free ∧ ∀ b ≠ noBlock,
      (b ∈ p.privateBlocks ∨ ∃ t, p.pinnedBlocks t = b) →
        b ∉ free ∧ w'.held b = p.holds b ∧ w'.shm.inRing b = 0 ∧ w'.sampled b = 0 := by
  obtain ⟨-, hS⟩ := stocked_run hrun
  have hp' := dead_run hafter hp
  have hall : Run step (fun _ _ => True) (create cfg id) (as ++ bs) w' :=
    hrun.append (hafter.mono fun _ _ _ => trivial)
  obtain ⟨hI, -⟩ := stocked_run hall
  obtain ⟨free, hchain, hplaces⟩ := hI.chain
  refine ⟨(hS p (List.mem_of_getElem? hp)).length_le, hp', free, hchain, ?_⟩
  intro b hb hheld
  have hpos : 0 < p.holds b := (p.holds_pos_iff hb).mpr hheld
  have hle : p.holds b ≤ w'.held b := le_listTally (fun o => heldBy o b) hp'
  have hone := hplaces b
  rw [Shm.referenced_of_ne _ _ hb] at hone
  have hcount : free.count b = 0 := by
    split at hone <;> omega
  refine ⟨List.count_eq_zero.mp hcount, ?_, ?_, ?_⟩ <;> split at hone <;> omega

/-- One topic, ten blocks of 8 payload bytes, a ring of one entry. -/
def tenBlocks : ValidConfig where
  maxTopics := 1
  blockCount := 10
  blockSize := 16
  ringDepth := 1
  maxTopics_lt := oneSlot.maxTopics_lt
  blockCount_lt := by decide
  blockSize_lt := oneSlot.blockSize_lt
  ringDepth_lt := oneSlot.ringDepth_lt
  accepted := by decide

/-- The first publisher dies with its first loan: seven blocks in the cache and that of the loan are
    lost, and the second publisher has two. -/
theorem crash_keeps_blocks_eight : ∃ (w w' : World tenBlocks) (p : Publisher tenBlocks),
    Run step (fun _ _ => True) (create tenBlocks 5)
      [.register 0 [47], .loan 0 ⟨tenBlocks.topic0, 5⟩] w ∧
    w.pubs[0]? = some (some p) ∧ p.privateBlocks = [0, 1, 2, 3, 4, 5, 6, 7] ∧
    Run step (Dead 0) w [.open 6, .publish 1 ⟨tenBlocks.topic0, 6⟩ [1]] w' ∧
    w'.pubs[0]? = some (some p) ∧ w'.held 7 = p.holds 7 := by
  obtain ⟨w, w', hrun, ⟨_, hp, p, rfl, hprivate⟩, hafter, -⟩ := exists_runs_of_exec step
    (fun _ _ => True) (Dead 0) (s := create tenBlocks 5)
    (l := [.register 0 [47], .loan 0 ⟨tenBlocks.topic0, 5⟩])
    (m := [.open 6, .publish 1 ⟨tenBlocks.topic0, 6⟩ [1]])
    (p := fun w => ∃ o ∈ w.pubs[0]?, ∃ p ∈ o, p.privateBlocks = [0, 1, 2, 3, 4, 5, 6, 7])
    (q := fun _ => True) (by decide +kernel)
  obtain ⟨-, hstays, free, -, hlost⟩ := crash_keeps_blocks hrun hp hafter
  have hseven : 7 ∈ p.privateBlocks := by
    rw [hprivate]
    decide
  exact ⟨w, w', p, hrun, hp, hprivate, hafter, hstays, (hlost 7 (by decide) (Or.inl hseven)).2.1⟩

/-! ### A writer that never leaves -/

/-- The readers word of a topic with a live `PinnedLoan`. -/
theorem readers_of_writer (hR : w.ReadersInv) (hp : w.pubs[k]? = some (some p)) {l : Loan cfg}
    (hborrow : p.borrow = some l) (hkind : l.kind = .pinned) :
    (w.shm.topic l.topic).pinnedReaders = pinnedWriterActive := by
  have hle : p.writes l.topic ≤ w.writersOn l.topic :=
    le_listTally (fun o : Option (Publisher cfg) => o.elim 0 (·.writes l.topic)) hp
  rw [writes_pinned hborrow hkind, if_pos rfl] at hle
  obtain ⟨hguards, hwriters⟩ := hR.alone hle
  rw [(hR l.topic).1, hguards, hwriters, Nat.zero_add, Nat.mul_one]

/-- **Run.** -/
theorem readersInv_run {id : Nat} {as : List (Act cfg)}
    (hrun : Run step (fun _ _ => True) (create cfg id) as w) : w.ReadersInv := by
  refine (books_run always_expands (fun _ _ hR _ _ hmove => readersInv_move hR hmove) hrun ?_).2.2
  intro t
  exact ⟨rfl, by show 0 < 2 ^ 32; norm_num⟩

/-- Pinning a block leaves the readers. -/
theorem pinnedBlock_readers (shm : Shm cfg) (p : Publisher cfg) (t t' : cfg.Topic) :
    ((p.pinnedBlock shm t).1.topic t').pinnedReaders = (shm.topic t').pinnedReaders := by
  unfold Publisher.pinnedBlock
  split
  · rfl
  · obtain ⟨pool, lastFreed, cache, r, hobtain⟩ := p.obtainBlock_shape shm
    rw [hobtain]
    cases r with
    | error e => rfl
    | ok b =>
      show ((Shm.setTopic { shm with pool := pool } t
        { shm.topic t with pinnedBlock := b }).topic t').pinnedReaders = _
      rw [setTopic_readers]
      split
      · rename_i ht
        rw [ht]
      · rfl

/-- A topic with a reader or a writer has no loan for anyone. -/
theorem loanPinned_refused {shm : Shm cfg} {h : Handle cfg}
    (hword : (shm.topic h.topicIdx).pinnedReaders ≠ 0) (l : Loan cfg) :
    (p.loanPinned shm h).2.2 ≠ .ok l := by
  by_cases hown : h.publisherId = p.id
  · have hreaders := pinnedBlock_readers shm p h.topicIdx h.topicIdx
    rcases hpin : p.pinnedBlock shm h.topicIdx with ⟨shm', p', e | b⟩
    · rw [Publisher.loanPinned, if_neg (not_not.mpr hown), hpin]
      intro hok
      cases hok
    · rw [hpin] at hreaders
      rcases loanPinned_claim hown hpin with ⟨hzero, -⟩ | ⟨-, e, hloan⟩
      · exact absurd (hreaders.symm.trans hzero) hword
      · rw [hloan]
        intro hok
        cases hok
  · rw [Publisher.loanPinned, if_pos hown]
    intro hok
    cases hok

/-- **A writer that dies closes the pinned path.** If a publisher with a live `PinnedLoan` makes no
    call any more, then, whatever the others do, `PINNED_WRITER_ACTIVE` stays in the topic: no
    stream of the topic receives a guard, and no publisher a `PinnedLoan` of it. -/
theorem crash_blocks_pinned {id : Nat} {as bs : List (Act cfg)}
    (hrun : Run step (fun _ _ => True) (create cfg id) as w) (hp : w.pubs[k]? = some (some p))
    {l : Loan cfg} (hborrow : p.borrow = some l) (hkind : l.kind = .pinned)
    (hafter : Run step (Dead k) w bs w') :
    (w'.shm.topic l.topic).pinnedReaders = pinnedWriterActive ∧
    (∀ s : Stream cfg, s.topic = l.topic → s.tryRecvPinned w'.shm = none) ∧
    ∀ (q : Publisher cfg) (h : Handle cfg) (l' : Loan cfg), h.topicIdx = l.topic →
      (q.loanPinned w'.shm h).2.2 ≠ .ok l' := by
  have hall : Run step (fun _ _ => True) (create cfg id) (as ++ bs) w' :=
    hrun.append (hafter.mono fun _ _ _ => trivial)
  have hword := readers_of_writer (readersInv_run hall) (dead_run hafter hp) hborrow hkind
  refine ⟨hword, fun s hs => ?_, fun q h l' hh => ?_⟩
  · rcases hrecv : s.tryRecvPinned w'.shm with _ | ⟨shm, s', g⟩
    · rfl
    · obtain ⟨hnext, -⟩ := Stream.tryRecvPinned_inv hrecv
      exact absurd (hs ▸ hword) hnext.noWriter
  · refine loanPinned_refused ?_ l'
    rw [hh, hword]
    decide

/-- The publisher dies with its first `PinnedLoan`; a second one and a stream come after it. -/
theorem crash_blocks_pinned_first : ∃ (w w' : World oneSlot) (p : Publisher oneSlot)
    (l : Loan oneSlot),
    Run step (fun _ _ => True) (create oneSlot 5)
      [.register 0 [47], .loanPinned 0 ⟨oneSlot.topic0, 5⟩] w ∧
    w.pubs[0]? = some (some p) ∧ p.borrow = some l ∧ l.kind = .pinned ∧
    Run step (Dead 0) w [.open 6, .waitForPeer [47], .loanPinned 1 ⟨oneSlot.topic0, 6⟩,
      .tryRecvPinned 0] w' ∧
    (w'.shm.topic l.topic).pinnedReaders = pinnedWriterActive := by
  obtain ⟨w, w', hrun, ⟨_, hp, p, rfl, l, hborrow, hkind⟩, hafter, -⟩ := exists_runs_of_exec step
    (fun _ _ => True) (Dead 0) (s := create oneSlot 5)
    (l := [.register 0 [47], .loanPinned 0 ⟨oneSlot.topic0, 5⟩])
    (m := [.open 6, .waitForPeer [47], .loanPinned 1 ⟨oneSlot.topic0, 6⟩, .tryRecvPinned 0])
    (p := fun w => ∃ o ∈ w.pubs[0]?, ∃ p ∈ o, ∃ l ∈ p.borrow, l.kind = .pinned)
    (q := fun _ => True) (by decide +kernel)
  obtain ⟨hword, -⟩ := crash_blocks_pinned hrun hp hborrow hkind hafter
  exact ⟨w, w', p, l, hrun, hp, hborrow, hkind, hafter, hword⟩

/-! ### A reader that dies -/

/-- The sample that a call drops. -/
def Act.sample : Act cfg → Option Nat
  | .dropSample j => some j
  | _ => none

/-- The guard that a call drops. -/
def Act.guard : Act cfg → Option Nat
  | .dropGuard i => some i
  | _ => none

/-- The samples `js` and the guards `gs` are not dropped any more. -/
def Gone (js gs : List Nat) (_w : World cfg) (a : Act cfg) : Prop :=
  (∀ j ∈ js, a.sample ≠ some j) ∧ ∀ i ∈ gs, a.guard ≠ some i

instance (js gs : List Nat) (w : World cfg) (a : Act cfg) : Decidable (Gone js gs w a) :=
  inferInstanceAs (Decidable (_ ∧ _))

/-- The live ones among these samples and guards stay. -/
structure Leaks (js gs : List Nat) (w w' : World cfg) : Prop where
  sample : ∀ j ∈ js, ∀ s, w.samples[j]? = some (some s) → w'.samples[j]? = some (some s)
  guard : ∀ i ∈ gs, ∀ g, w.guards[i]? = some (some g) → w'.guards[i]? = some (some g)

section

variable {js gs : List Nat}

/-- The condition is about basic calls only. -/
theorem gone_expands : Expands (Gone js gs : World cfg → Act cfg → Prop) :=
  .of_parts (fun _ _ _ => by simp [Gone, Act.sample, Act.guard])
    (fun _ _ _ _ => by simp [Gone, Act.sample, Act.guard])
    (fun _ _ _ => by simp [Gone, Act.sample, Act.guard])
    (fun _ _ => by simp [Gone, Act.sample, Act.guard])
    (fun _ _ => by simp [Gone, Act.sample, Act.guard])

/-- Nothing happens. -/
theorem Leaks.refl (w : World cfg) : Leaks js gs w w := ⟨fun _ _ _ h => h, fun _ _ _ h => h⟩

/-- One call after the other. -/
theorem Leaks.trans {w₁ w₂ w₃ : World cfg} (h : Leaks js gs w₁ w₂) (h' : Leaks js gs w₂ w₃) :
    Leaks js gs w₁ w₃ :=
  ⟨fun j hj s hs => h'.sample j hj s (h.sample j hj s hs),
    fun i hi g hg => h'.guard i hi g (h.guard i hi g hg)⟩

/-- **Step** of what a dead reader holds. -/
theorem leaks_move {a : Act cfg} (hgone : Gone js gs w a) (hmove : Move w a w') :
    Leaks js gs w w' := by
  cases hmove with
  | receive len hs hnext =>
    refine ⟨fun j _ s hj => ?_, fun _ _ _ h => h⟩
    obtain ⟨hlt, -⟩ := List.getElem?_eq_some_iff.mp hj
    exact (List.getElem?_append_left hlt).trans hj
  | dropSample hs =>
    refine ⟨fun j hmem s hj => ?_, fun _ _ _ h => h⟩
    exact (List.getElem?_set_ne fun heq => hgone.1 j hmem (congrArg some heq)).trans hj
  | receivePinned hs hrecv =>
    refine ⟨fun _ _ _ h => h, fun i _ g hi => ?_⟩
    obtain ⟨hlt, -⟩ := List.getElem?_eq_some_iff.mp hi
    exact (List.getElem?_append_left hlt).trans hi
  | dropGuard hg =>
    refine ⟨fun _ _ _ h => h, fun i hmem g hi => ?_⟩
    exact (List.getElem?_set_ne fun heq => hgone.2 i hmem (congrArg some heq)).trans hi
  | _ => exact ⟨fun _ _ _ h => h, fun _ _ _ h => h⟩

/-- **Run** after the death of a reader. -/
theorem leaks_run {bs : List (Act cfg)} (hbooks : w.Counts (2 ^ 32) ∧ w.LoansOk)
    (hafter : Run step (Gone js gs) w bs w') : w'.Counts (2 ^ 32) ∧ Leaks js gs w w' := by
  have hend := hafter.invariant
    (I := fun w₂ => w₂.Counts (2 ^ 32) ∧ w₂.LoansOk ∧ Leaks js gs w w₂)
    ⟨hbooks.1, hbooks.2, .refl w⟩ ?_
  · exact ⟨hend.1, hend.2.2⟩
  · intro w₂ a w₃ h hgone hstep
    exact books_step gone_expands
      (fun _ _ hleaks hgone _ hmove => hleaks.trans (leaks_move hgone hmove)) h hgone hstep

/-- A sample keeps its block. -/
theorem block_of_sample {j : Nat} {s : Sample} {free : List Nat}
    (hplaces : ∀ b, free.count b + w.held b + min 1 (w.shm.referenced w.sampled b) =
      if b < cfg.blockCount then 1 else 0)
    (hs : w.samples[j]? = some (some s)) : s.blockIdx ∉ free ∧ w.held s.blockIdx = 0 := by
  have hle : sampleOf s.blockIdx (some s) ≤ w.sampled s.blockIdx := le_listTally _ hs
  have hone : sampleOf s.blockIdx (some s) = 1 := if_pos rfl
  have hb := hplaces s.blockIdx
  rw [← List.count_eq_zero]
  split at hb
  · rename_i hlt
    rw [Shm.referenced_of_ne _ _ (ne_noBlock hlt)] at hb
    omega
  · omega

/-- **A reader that dies keeps what it holds.** If a subscriber process makes no call any more
    while it has samples and guards, then, whatever the others do, the block of each of its samples
    stays out of the free list and of every publisher's hands, and no publisher gets a
    `PinnedLoan` of a topic that one of its guards is of. -/
theorem reader_crash_keeps {id : Nat} {as bs : List (Act cfg)}
    (hrun : Run step (fun _ _ => True) (create cfg id) as w)
    (hafter : Run step (Gone js gs) w bs w') :
    (∃ free, w'.shm.pool.Chain free ∧
      ∀ j ∈ js, ∀ s, w.samples[j]? = some (some s) →
        s.blockIdx ∉ free ∧ w'.held s.blockIdx = 0) ∧
    ∀ i ∈ gs, ∀ g, w.guards[i]? = some (some g) →
      ∀ (q : Publisher cfg) (h : Handle cfg) (l : Loan cfg), h.topicIdx = g.topic →
        (q.loanPinned w'.shm h).2.2 ≠ .ok l := by
  obtain ⟨hI, hL, -⟩ := books_run (X := fun _ => True) always_expands
    (fun _ _ _ _ _ _ => trivial) hrun trivial
  obtain ⟨hI', hleaks⟩ := leaks_run ⟨hI, hL⟩ hafter
  have hall : Run step (fun _ _ => True) (create cfg id) (as ++ bs) w' :=
    hrun.append (hafter.mono fun _ _ _ => trivial)
  obtain ⟨free, hchain, hplaces⟩ := hI'.chain
  refine ⟨⟨free, hchain, fun j hj s hs => block_of_sample hplaces (hleaks.sample j hj s hs)⟩, ?_⟩
  intro i hi g hg q h l hh
  have hguard : guardOf g.topic (some g) ≤ w'.guardsOn g.topic :=
    le_listTally (guardOf g.topic) (hleaks.guard i hi g hg)
  have hone : guardOf g.topic (some g) = 1 := if_pos rfl
  have hword := (readersInv_run hall g.topic).1
  refine loanPinned_refused ?_ l
  rw [hh]
  omega

end

/-- A message of the ring and a pinned one, each received by a stream. -/
def heldSteps : List (Act oneSlot) :=
  [.register 0 [47], .waitForPeer [47], .waitForPeer [47], .publish 0 ⟨oneSlot.topic0, 5⟩ [1],
    .tryRecv 0, .loanPinned 0 ⟨oneSlot.topic0, 5⟩, .edit 0 (.setData [7]), .publishLoan 0,
    .tryRecvPinned 1]

/-- The reader of both dies; two more messages replace the one it holds in the ring. -/
theorem reader_crash_keeps_two : ∃ (w w' : World oneSlot) (s : Sample) (g : PinnedGuard oneSlot),
    Run step (fun _ _ => True) (create oneSlot 5) heldSteps w ∧
    w.samples[0]? = some (some s) ∧ w.guards[0]? = some (some g) ∧
    Run step (Gone [0] [0]) w
      [.publish 0 ⟨oneSlot.topic0, 5⟩ [2], .publish 0 ⟨oneSlot.topic0, 5⟩ [3]] w' ∧
    w'.held s.blockIdx = 0 := by
  obtain ⟨w, w', hrun, ⟨⟨_, hs, s, rfl, -⟩, _, hg, g, rfl, -⟩, hafter, -⟩ :=
    exists_runs_of_exec step (fun _ _ => True) (Gone [0] [0]) (s := create oneSlot 5)
      (l := heldSteps)
      (m := [.publish 0 ⟨oneSlot.topic0, 5⟩ [2], .publish 0 ⟨oneSlot.topic0, 5⟩ [3]])
      (p := fun w => (∃ o ∈ w.samples[0]?, ∃ s ∈ o, True) ∧ ∃ o ∈ w.guards[0]?, ∃ g ∈ o, True)
      (q := fun _ => True) (by decide +kernel)
  obtain ⟨⟨free, -, hkept⟩, -⟩ := reader_crash_keeps hrun hafter
  exact ⟨w, w', s, g, hrun, hs, hg, hafter, (hkept 0 (by decide) s hs).2⟩

end Crossbar.Region
