import Crossbar.Pool.Stack
import Crossbar.Lib.Run

namespace Crossbar.Pool.Concurrent

open Function Crossbar.Lib Crossbar.Pool

/-!
# Pool — the free list under concurrency

Any number of processes run `alloc_block` and `free_block` on one free list, one atomic
operation of one process a step (`popStep` and `pushStep` of `Crossbar.Pool.Stack`), in any
order; a process frees only blocks it owns.

A process that was delayed may hold an old head, and read the link of a block that is no
longer on the list, or is on it again.  Two things save it:

* links are stored by the owner of the block alone, and only block indices or `NO_BLOCK` are
  stored, so no check ever fails (`Inv.links`);
* the generation in the head counts the updates modulo `2 ^ 32`, so within `2 ^ 32` updates a
  CAS that succeeds finds the very head it has loaded, and nothing has changed since then
  (`Snap.fresh`).

`Keeps` is what one process may rely on when another one moves, and `inv_step` the invariant
with the effect of the step on the list.
-/

variable {P : Type*}

/-- What a process is doing.  `since` is history: the number of head updates there had been
    when the operation last loaded the head. -/
inductive Proc where
  | idle
  | alloc (pc : PopPc) (since : Nat)
  | free (b : Nat) (pc : PushPc) (since : Nat)
  deriving DecidableEq

/-- The free list and the processes.  `updates` counts the updates of the head, and `owner`
    says who has allocated a block and not freed it; both are history. -/
structure State (P : Type*) where
  pool : FreeList
  updates : Nat
  owner : Nat → Option P
  proc : P → Proc

/-- A call, a step of a running call, or its return.  Between its calls a process may hand a
    block that it owns to another one. -/
inductive Act (P : Type*) where
  | alloc (i : P)
  | free (i : P) (b : Nat)
  | give (i : P) (b : Nat) (j : P)
  | go (i : P) (spurious : Bool)
  | ret (i : P)

section

variable (cfg : ValidConfig)

/-- A fresh region: `init_free_list` has run, nobody owns a block. -/
def init (P : Type*) : State P where
  pool := initFreeList cfg
  updates := 0
  owner := fun _ => none
  proc := fun _ => .idle

variable [DecidableEq P]

namespace State

variable (s : State P)

/-- Process `i` goes on with `p`. -/
def setProc (i : P) (p : Proc) : State P := { s with proc := update s.proc i p }

/-- The number of updates after a step that leaves `pool`. -/
def count (pool : FreeList) : Nat :=
  if pool.head = s.pool.head then s.updates else s.updates + 1

/-- A step of `alloc_block`; the block belongs to the process from the successful CAS on. -/
def popGo (i : P) (since : Nat) (r : FreeList × PopPc) : State P where
  pool := r.1
  updates := s.count r.1
  owner := match r.2 with
    | .done (.block b) => update s.owner b (some i)
    | _ => s.owner
  proc := update s.proc i (.alloc r.2 since)

/-- A step of `free_block(b)`; the block belongs to the process up to the successful CAS. -/
def pushGo (i : P) (b since : Nat) (r : FreeList × PushPc) : State P where
  pool := r.1
  updates := s.count r.1
  owner := match r.2 with
    | .done => update s.owner b none
    | _ => s.owner
  proc := update s.proc i (.free b r.2 since)

end State

/-- One action. -/
def step (s : State P) : Act P → Option (State P)
  | .alloc i => if s.proc i = .idle then some (s.setProc i (.alloc .load s.updates)) else none
  | .free i b =>
    if s.proc i = .idle ∧ s.owner b = some i then some (s.setProc i (.free b .load s.updates))
    else none
  | .give i b j =>
    if s.proc i = .idle ∧ s.owner b = some i then
      some { s with owner := update s.owner b (some j) }
    else none
  | .go i spurious =>
    match s.proc i with
    | .idle => none
    | .alloc (.done _) _ => none
    | .free _ .done _ => none
    -- the link is loaded, or stored, for the head that was loaded before
    | .alloc (.link head) since => some (s.popGo i since (popStep cfg spurious s.pool (.link head)))
    | .free b (.link head) since =>
      some (s.pushGo i b since (pushStep cfg spurious s.pool b (.link head)))
    | .alloc pc _ => some (s.popGo i s.updates (popStep cfg spurious s.pool pc))
    | .free b pc _ => some (s.pushGo i b s.updates (pushStep cfg spurious s.pool b pc))
  | .ret i =>
    match s.proc i with
    | .alloc (.done _) _ => some (s.setProc i .idle)
    | .free _ .done _ => some (s.setProc i .idle)
    | _ => none

/-- The number of updates at the load of the head, when the CAS is next. -/
def Proc.casSince : Proc → Option Nat
  | .alloc (.cas ..) since => some since
  | .free _ (.cas _) since => some since
  | _ => none

/-- A CAS comes less than `2 ^ 32` head updates after the load of the head. -/
def Timely (s : State P) (a : Act P) : Prop :=
  match a with
  | .go i _ => ∀ since ∈ (s.proc i).casSince, s.updates - since < 2 ^ 32
  | _ => True

instance (s : State P) (a : Act P) : Decidable (Timely s a) :=
  match a with
  | .go i _ => inferInstanceAs (Decidable (∀ since ∈ (s.proc i).casSince, _))
  | .alloc .. | .free .. | .give .. | .ret .. => .isTrue trivial

end

variable {cfg : ValidConfig}

/-! ### What a process relies on -/

/-- A block index or `NO_BLOCK`. -/
def InRange (cfg : ValidConfig) (x : Nat) : Prop := x = noBlock ∨ x < cfg.blockCount

/-- `head` is the head as it was after `since` updates. -/
structure Snap (s : State P) (head : Head) (since : Nat) : Prop where
  le : since ≤ s.updates
  gen : head.gen = wrap32 since
  idx : since = s.updates → head.idx = s.pool.head.idx

/-- What is true of process `i` while it is at `p`. -/
def ProcInv (cfg : ValidConfig) (s : State P) (i : P) : Proc → Prop
  | .alloc (.link head) since => Snap s head since ∧ head.idx < cfg.blockCount
  | .alloc (.cas head next) since => Snap s head since ∧ head.idx < cfg.blockCount ∧
      InRange cfg next ∧ (since = s.updates → s.pool.link head.idx = next)
  | .alloc (.done r) _ => r ≠ .corrupted
  | .free b .load _ => s.owner b = some i
  | .free b (.link head) since => s.owner b = some i ∧ Snap s head since ∧ InRange cfg head.idx
  | .free b (.cas head) since => s.owner b = some i ∧ Snap s head since ∧
      s.pool.link b = head.idx
  | _ => True

/-- What a step of another process leaves to process `j`: as long as the head is not updated,
    the head and the link of its block, and always the blocks `j` owns and their links. -/
structure Keeps (cfg : ValidConfig) (s s' : State P) (j : P) : Prop where
  updates : s.updates ≤ s'.updates
  head : s'.updates = s.updates → s'.pool.head.idx = s.pool.head.idx ∧
    (s.pool.head.idx < cfg.blockCount → s'.pool.link s.pool.head.idx = s.pool.link s.pool.head.idx)
  owned : ∀ b, s.owner b = some j → s'.owner b = some j ∧ s'.pool.link b = s.pool.link b

theorem Snap.keep {s s' : State P} {j : P} {head : Head} {since : Nat} (h : Snap s head since)
    (hk : Keeps cfg s s' j) : Snap s' head since := by
  refine ⟨Nat.le_trans h.le hk.updates, h.gen, fun heq => ?_⟩
  have hle := h.le
  have hup := hk.updates
  rw [(hk.head (by omega)).1]
  exact h.idx (by omega)

/-- A process that does not move keeps what it knows. -/
theorem ProcInv.keep {s s' : State P} {j : P} {p : Proc} (h : ProcInv cfg s j p)
    (hk : Keeps cfg s s' j) : ProcInv cfg s' j p := by
  cases p with
  | idle => trivial
  | alloc pc since =>
    cases pc with
    | load => trivial
    | link head => exact ⟨h.1.keep hk, h.2⟩
    | cas head next =>
      obtain ⟨hsnap, hlt, hrange, hnext⟩ := h
      refine ⟨hsnap.keep hk, hlt, hrange, fun heq => ?_⟩
      have hle := hsnap.le
      have hup := hk.updates
      have hidx := hsnap.idx (by omega)
      have hlink := (hk.head (by omega)).2 (hidx ▸ hlt)
      rw [hidx, hlink, ← hidx]
      exact hnext (by omega)
    | done r => exact h
  | free b pc since =>
    cases pc with
    | load => exact (hk.owned b h).1
    | link head => exact ⟨(hk.owned b h.1).1, h.2.1.keep hk, h.2.2⟩
    | cas head => exact ⟨(hk.owned b h.1).1, h.2.1.keep hk, (hk.owned b h.1).2.trans h.2.2⟩
    | done => trivial

/-! ### The invariant -/

/-- The invariant, with the list of free blocks. -/
structure Inv (cfg : ValidConfig) (s : State P) (l : List Nat) : Prop where
  chain : s.pool.Chain l
  nodup : l.Nodup
  free : ∀ b ∈ l, b < cfg.blockCount ∧ s.owner b = none
  owned : ∀ b i, s.owner b = some i → b < cfg.blockCount
  gen : s.pool.head.gen = wrap32 s.updates
  links : ∀ b, InRange cfg (s.pool.link b)
  procs : ∀ i, ProcInv cfg s i (s.proc i)

/-- The effect of a step on the list of free blocks. -/
inductive Effect (s : State P) (a : Act P) (s' : State P) (l l' : List Nat) : Prop
  /-- the head is not updated; an `alloc_block` that gives up now finds the list empty -/
  | same (hhead : s'.pool.head = s.pool.head) (hl : l' = l)
      (hempty : ∀ i since, s'.proc i = .alloc (.done .exhausted) since →
        s'.proc i = s.proc i ∨ l = [])
  /-- the CAS of an `alloc_block` -/
  | pop (i : P) (spurious : Bool) (b since : Nat) (ha : a = .go i spurious)
      (hret : s'.proc i = .alloc (.done (.block b)) since) (hl : l = b :: l')
      (howner : s'.owner b = some i)
  /-- the CAS of a `free_block` -/
  | push (i : P) (spurious : Bool) (b since : Nat) (ha : a = .go i spurious)
      (hret : s'.proc i = .free b .done since) (hl : l' = b :: l) (howner : s.owner b = some i)

namespace Inv

variable {s : State P} {l : List Nat}

theorem head_range (h : Inv cfg s l) : InRange cfg s.pool.head.idx := by
  by_cases hnil : s.pool.head.idx = noBlock
  · exact Or.inl hnil
  · obtain ⟨l', rfl, _⟩ := Linked.pop h.chain hnil
    exact Or.inr (h.free _ List.mem_cons_self).1

/-- The head as it is now. -/
theorem snap (h : Inv cfg s l) : Snap s s.pool.head s.updates := ⟨le_refl _, h.gen, fun _ => rfl⟩

/-- A block that a process owns is not free. -/
theorem not_mem_of_owner (h : Inv cfg s l) {b : Nat} {i : P} (hown : s.owner b = some i) :
    b ∉ l := by
  intro hmem
  rw [(h.free b hmem).2] at hown
  cases hown

/-- The head is on the list, when there is one. -/
theorem head_mem (h : Inv cfg s l) (hlt : s.pool.head.idx < cfg.blockCount) :
    s.pool.head.idx ∈ l := by
  obtain ⟨l', rfl, _⟩ := Linked.pop h.chain (ne_noBlock hlt)
  exact List.mem_cons_self

end Inv

/-- A CAS that succeeds in time finds the state of its load. -/
theorem Snap.fresh {s : State P} {l : List Nat} {head : Head} {since : Nat} (h : Inv cfg s l)
    (hsnap : Snap s head since) (htime : s.updates - since < 2 ^ 32) (heq : s.pool.head = head) :
    since = s.updates := by
  have hgen := hsnap.gen
  rw [← heq, h.gen] at hgen
  have hle := hsnap.le
  unfold wrap32 at hgen
  omega

/-! ### Steps -/

section

variable {s s' : State P} {l l' : List Nat} {i : P} {p : Proc}

/-- The top of the loop of `alloc_block`, for the present head. -/
theorem enter_inv (h : Inv cfg s l) :
    ProcInv cfg s i (.alloc (.enter cfg s.pool.head) s.updates) ∧
      ∀ since, Proc.alloc (.enter cfg s.pool.head) s.updates ≠ .alloc (.done .exhausted) since ∨
        l = [] := by
  unfold PopPc.enter
  by_cases hnil : s.pool.head.idx = noBlock
  · rw [if_pos hnil]
    exact ⟨nofun, fun _ => Or.inr ((Linked.head_eq_nil h.chain).mp hnil)⟩
  · have hlt := h.head_range.resolve_left hnil
    rw [if_neg hnil, if_neg (by omega)]
    exact ⟨⟨h.snap, hlt⟩, fun _ => Or.inl nofun⟩

theorem enter_ne_block (head : Head) (b : Nat) : PopPc.enter cfg head ≠ .done (.block b) := by
  unfold PopPc.enter
  split
  · nofun
  · split
    · nofun
    · nofun

/-- A generation that has been counted on is another one. -/
theorem count_update (h : Inv cfg s l) (pool : FreeList)
    (hgen : pool.head.gen = wrap32 (s.pool.head.gen + 1)) :
    s.count pool = s.updates + 1 ∧ pool.head.gen = wrap32 (s.updates + 1) := by
  have hold := h.gen
  unfold State.count
  have hne : pool.head ≠ s.pool.head := by
    intro heq
    rw [heq] at hgen
    unfold wrap32 at *
    omega
  refine ⟨if_neg hne, ?_⟩
  unfold wrap32 at *
  omega

/-- Another process owns another block. -/
theorem ne_of_owner {b b' : Nat} {j : P} (hb : s.owner b = some i) (hb' : s.owner b' = some j)
    (hj : j ≠ i) : b' ≠ b := by
  rintro rfl
  exact hj (Option.some.inj (hb'.symm.trans hb))

variable [DecidableEq P]

/-- The processes after a step of process `i`. -/
theorem procs_of_keeps (h : Inv cfg s l) (hproc : s'.proc = update s.proc i p)
    (hkeep : ∀ j, j ≠ i → Keeps cfg s s' j) (hp : ProcInv cfg s' i p) (j : P) :
    ProcInv cfg s' j (s'.proc j) := by
  rw [hproc]
  by_cases hj : j = i
  · subst hj
    rw [update_self]
    exact hp
  · rw [update_of_ne hj]
    exact (h.procs j).keep (hkeep j hj)

/-- A step that changes nothing shared. -/
theorem inv_local (h : Inv cfg s l) (hp : ProcInv cfg s i p) : Inv cfg (s.setProc i p) l := by
  have hkeep : ∀ j, Keeps cfg s (s.setProc i p) j := fun j =>
    ⟨le_refl _, fun _ => ⟨rfl, fun _ => rfl⟩, fun b hb => ⟨hb, rfl⟩⟩
  refine ⟨h.chain, h.nodup, h.free, h.owned, h.gen, h.links, ?_⟩
  refine procs_of_keeps h rfl (fun j _ => hkeep j) ?_
  exact hp.keep (hkeep i)

/-- A call that starts or returns. -/
theorem effect_local {a : Act P} (hp : ∀ since, p ≠ .alloc (.done .exhausted) since ∨ l = []) :
    Effect s a (s.setProc i p) l l := by
  refine .same rfl rfl (fun j since hj => ?_)
  by_cases hji : j = i
  · subst hji
    have hself : (s.setProc j p).proc j = p := update_self ..
    rw [hself] at hj
    exact Or.inr ((hp since).resolve_left (not_not.mpr hj))
  · exact Or.inl (update_of_ne hji ..)

/-- A step of `alloc_block` that leaves the list alone. -/
theorem popGo_local {pc : PopPc} {since : Nat} (hpc : ∀ b, pc ≠ .done (.block b)) :
    s.popGo i since (s.pool, pc) = s.setProc i (.alloc pc since) := by
  unfold State.popGo State.setProc State.count
  simp only [if_true]

theorem pushGo_local {b : Nat} {pc : PushPc} {since : Nat} (hpc : pc ≠ .done) :
    s.pushGo i b since (s.pool, pc) = s.setProc i (.free b pc since) := by
  unfold State.pushGo State.setProc State.count
  simp only [if_true]

/-- The CAS of `alloc_block` pops the first block. -/
theorem inv_pop (h : Inv cfg s l) {head : Head} {next since : Nat}
    (hp : ProcInv cfg s i (.alloc (.cas head next) since)) (htime : s.updates - since < 2 ^ 32)
    (hcas : s.pool.head = head) :
    ∃ l', l = head.idx :: l' ∧ Inv cfg (s.popGo i s.updates
      ({ s.pool with head := ⟨wrap32 (head.gen + 1), next⟩ }, .done (.block head.idx))) l' := by
  obtain ⟨hsnap, hlt, hrange, hnext⟩ := hp
  -- nothing has changed since the head was loaded
  have hlink := hnext (hsnap.fresh h htime hcas)
  obtain ⟨l', rfl, hrest⟩ := Linked.pop h.chain (hcas ▸ ne_noBlock hlt)
  rw [hcas] at hrest ⊢
  rw [hlink] at hrest
  have hnodup := h.nodup
  rw [hcas, List.nodup_cons] at hnodup
  have hfree := h.free
  rw [hcas] at hfree
  have hnone := (hfree head.idx List.mem_cons_self).2
  obtain ⟨hcount, hgen⟩ := count_update h
    { s.pool with head := ⟨wrap32 (head.gen + 1), next⟩ } (by rw [hcas])
  refine ⟨l', rfl, hrest, hnodup.2, fun b hb => ?_, fun b j hb => ?_, ?_, h.links, ?_⟩
  · -- no block is twice on the list, so the popped one is gone from it
    have hne : b ≠ head.idx := fun heq => hnodup.1 (heq ▸ hb)
    obtain ⟨hlt, hown⟩ := hfree b (List.mem_cons_of_mem _ hb)
    exact ⟨hlt, (update_of_ne hne ..).trans hown⟩
  · by_cases hbh : b = head.idx
    · rw [hbh]
      exact hlt
    · exact h.owned b j ((update_of_ne hbh ..).symm.trans hb)
  · show wrap32 _ = wrap32 (s.count _)
    rw [hcount]
    exact hgen
  · refine procs_of_keeps h rfl (fun j _ => ⟨?_, fun heq => ?_, fun b hb => ?_⟩) nofun
    · show s.updates ≤ s.count _
      rw [hcount]
      exact Nat.le_succ _
    · -- whoever has loaded the head before now has an old one
      exact absurd (hcount.symm.trans heq) (Nat.succ_ne_self _)
    · have hne : b ≠ head.idx := by
        rintro rfl
        rw [hnone] at hb
        cases hb
      exact ⟨(update_of_ne hne ..).trans hb, rfl⟩

/-- The CAS of `free_block` pushes the block. -/
theorem inv_push (h : Inv cfg s l) {b : Nat} {head : Head} {since : Nat}
    (hp : ProcInv cfg s i (.free b (.cas head) since)) (hcas : s.pool.head = head) :
    Inv cfg (s.pushGo i b s.updates ({ s.pool with head := ⟨wrap32 (head.gen + 1), b⟩ }, .done))
      (b :: l) := by
  obtain ⟨hown, hsnap, hlink⟩ := hp
  have hlt := h.owned b i hown
  have hmem := h.not_mem_of_owner hown
  obtain ⟨hcount, hgen⟩ := count_update h
    { s.pool with head := ⟨wrap32 (head.gen + 1), b⟩ } (by rw [hcas])
  refine ⟨Linked.push h.chain (ne_noBlock hlt) (hlink.trans (congrArg Head.idx hcas.symm)),
    List.nodup_cons.mpr ⟨hmem, h.nodup⟩, fun b' hb' => ?_, fun b' j hb' => ?_, ?_, h.links, ?_⟩
  · rcases List.mem_cons.mp hb' with rfl | hold
    · exact ⟨hlt, update_self ..⟩
    · obtain ⟨hlt', hnone⟩ := h.free b' hold
      have hne : b' ≠ b := fun heq => hmem (heq ▸ hold)
      exact ⟨hlt', (update_of_ne hne ..).trans hnone⟩
  · by_cases hbb : b' = b
    · rw [hbb]
      exact hlt
    · exact h.owned b' j ((update_of_ne hbb ..).symm.trans hb')
  · show wrap32 _ = wrap32 (s.count _)
    rw [hcount]
    exact hgen
  · refine procs_of_keeps h rfl (fun j hj => ⟨?_, fun heq => ?_, fun b' hb' => ?_⟩) trivial
    · show s.updates ≤ s.count _
      rw [hcount]
      exact Nat.le_succ _
    · exact absurd (hcount.symm.trans heq) (Nat.succ_ne_self _)
    · exact ⟨(update_of_ne (ne_of_owner hown hb' hj) ..).trans hb', rfl⟩

/-- `free_block` stores the link of its block. -/
theorem inv_link (h : Inv cfg s l) {b : Nat} {head : Head} {since : Nat}
    (hp : ProcInv cfg s i (.free b (.link head) since)) :
    Inv cfg (s.pushGo i b since
      ({ s.pool with link := update s.pool.link b head.idx }, .cas head)) l := by
  obtain ⟨hown, hsnap, hrange⟩ := hp
  have hmem := h.not_mem_of_owner hown
  have hcount :
      s.count { s.pool with link := update s.pool.link b head.idx } = s.updates :=
    if_pos rfl
  refine ⟨h.chain.update hmem _, h.nodup, h.free, h.owned, ?_, fun b' => ?_, ?_⟩
  · show s.pool.head.gen = wrap32 (s.count _)
    rw [hcount]
    exact h.gen
  · show InRange cfg (update s.pool.link b head.idx b')
    by_cases hbb : b' = b
    · rw [hbb, update_self]
      exact hrange
    · rw [update_of_ne hbb]
      exact h.links b'
  · refine procs_of_keeps h rfl
      (fun j hj => ⟨?_, fun _ => ⟨rfl, fun hlt => ?_⟩, fun b' hb' => ?_⟩) ?_
    · exact Nat.le_of_eq hcount.symm
    · -- the first block of the list is not owned
      refine update_of_ne ?_ ..
      rintro rfl
      exact hmem (h.head_mem hlt)
    · exact ⟨hb', update_of_ne (ne_of_owner hown hb' hj) ..⟩
    · refine ⟨hown, ⟨?_, hsnap.gen, fun heq => ?_⟩, update_self ..⟩
      · exact Nat.le_trans hsnap.le (Nat.le_of_eq hcount.symm)
      · exact hsnap.idx (heq.trans hcount)

/-- A block goes from one process to another. -/
theorem inv_give (h : Inv cfg s l) {b : Nat} {j : P} (hidle : s.proc i = .idle)
    (hown : s.owner b = some i) :
    Inv cfg { s with owner := update s.owner b (some j) } l := by
  refine ⟨h.chain, h.nodup, fun b' hb' => ?_, fun b' j' hb' => ?_, h.gen, h.links, fun j' => ?_⟩
  · obtain ⟨hlt, hnone⟩ := h.free b' hb'
    have hne : b' ≠ b := fun heq => h.not_mem_of_owner hown (heq ▸ hb')
    exact ⟨hlt, (update_of_ne hne ..).trans hnone⟩
  · by_cases hbb : b' = b
    · rw [hbb]
      exact h.owned b i hown
    · exact h.owned b' j' ((update_of_ne hbb ..).symm.trans hb')
  · by_cases hj : j' = i
    · subst hj
      show ProcInv cfg _ j' (s.proc j')
      rw [hidle]
      trivial
    · refine (h.procs j').keep ⟨le_refl _, fun _ => ⟨rfl, fun _ => rfl⟩, fun b' hb' => ⟨?_, rfl⟩⟩
      exact (update_of_ne (ne_of_owner hown hb' hj) ..).trans hb'

/-- **Step of `alloc_block`.** -/
theorem inv_popGo (h : Inv cfg s l) {pc : PopPc} {since : Nat} {spurious : Bool}
    (hproc : s.proc i = .alloc pc since) (htime : Timely s (.go i spurious))
    (hstep : step cfg s (.go i spurious) = some s') :
    ∃ l', Inv cfg s' l' ∧ Effect s (.go i spurious) s' l l' := by
  have hp := h.procs i
  rw [hproc] at hp
  simp only [Timely, hproc] at htime
  simp only [step, hproc] at hstep
  -- back at the top of the loop, after the first load or a failed CAS
  have hload : s' = s.popGo i s.updates (s.pool, .enter cfg s.pool.head) →
      ∃ l', Inv cfg s' l' ∧ Effect s (.go i spurious) s' l l' := by
    rintro rfl
    obtain ⟨hinv, hempty⟩ := enter_inv (i := i) h
    rw [popGo_local (enter_ne_block _)]
    exact ⟨l, inv_local h hinv, effect_local hempty⟩
  cases pc with
  | load => exact hload (Option.some.inj hstep).symm
  | link head =>
    -- the link is a block index or ends a list, whatever block it is read from
    have hnext : ¬ (s.pool.link head.idx ≠ noBlock ∧ cfg.blockCount ≤ s.pool.link head.idx) := by
      have hrange := h.links head.idx
      unfold InRange at hrange
      omega
    have hstep : some (s.popGo i since (popStep cfg spurious s.pool (.link head))) = some s' :=
      hstep
    have hcas : ∀ b, PopPc.cas head (s.pool.link head.idx) ≠ .done (.block b) := by
      intro b heq
      cases heq
    rw [popStep, if_neg hnext, popGo_local hcas, Option.some.injEq] at hstep
    subst hstep
    obtain ⟨hsnap, hlt⟩ := hp
    refine ⟨l, inv_local h ⟨hsnap, hlt, h.links _, fun _ => rfl⟩,
      effect_local fun _ => Or.inl (by simp)⟩
  | cas head next =>
    have hstep : some (s.popGo i s.updates (popStep cfg spurious s.pool (.cas head next))) =
      some s' := hstep
    rw [popStep] at hstep
    split at hstep
    · rename_i hcas
      cases hstep
      obtain ⟨l', rfl, hinv⟩ := inv_pop h hp (htime since rfl) hcas.2
      exact ⟨l', hinv, .pop i spurious head.idx s.updates rfl (update_self ..) rfl
        (update_self ..)⟩
    · exact hload (Option.some.inj hstep).symm
  | done r => cases hstep

/-- **Step of `free_block`.** -/
theorem inv_pushGo (h : Inv cfg s l) {b : Nat} {pc : PushPc} {since : Nat} {spurious : Bool}
    (hproc : s.proc i = .free b pc since)
    (hstep : step cfg s (.go i spurious) = some s') :
    ∃ l', Inv cfg s' l' ∧ Effect s (.go i spurious) s' l l' := by
  have hp := h.procs i
  rw [hproc] at hp
  simp only [step, hproc] at hstep
  -- the head is loaded, by the first load or a failed CAS
  have hload : s.owner b = some i → s' = s.pushGo i b s.updates (s.pool, .link s.pool.head) →
      ∃ l', Inv cfg s' l' ∧ Effect s (.go i spurious) s' l l' := by
    rintro hown rfl
    rw [pushGo_local (show PushPc.link s.pool.head ≠ .done from nofun)]
    exact ⟨l, inv_local h ⟨hown, h.snap, h.head_range⟩, effect_local fun _ => Or.inl nofun⟩
  cases pc with
  | load =>
    have hlt := h.owned b i hp
    have hstep : some (s.pushGo i b s.updates (pushStep cfg spurious s.pool b .load)) =
      some s' := hstep
    rw [pushStep, if_neg (by omega)] at hstep
    exact hload hp (Option.some.inj hstep).symm
  | link head =>
    cases hstep
    refine ⟨l, inv_link h hp, .same rfl rfl (fun j since' hj => ?_)⟩
    by_cases hji : j = i
    · subst hji
      rw [show State.proc _ j = _ from update_self ..] at hj
      cases hj
    · exact Or.inl (update_of_ne hji ..)
  | cas head =>
    have hstep : some (s.pushGo i b s.updates (pushStep cfg spurious s.pool b (.cas head))) =
      some s' := hstep
    rw [pushStep] at hstep
    split at hstep
    · rename_i hcas
      cases hstep
      exact ⟨b :: l, inv_push h hp hcas.2,
        .push i spurious b s.updates rfl (update_self ..)
        rfl hp.1⟩
    · exact hload hp.1 (Option.some.inj hstep).symm
  | done => cases hstep

/-- **Step.** -/
theorem inv_step {a : Act P} (h : Inv cfg s l) (htime : Timely s a)
    (hstep : step cfg s a = some s') : ∃ l', Inv cfg s' l' ∧ Effect s a s' l l' := by
  cases a with
  | alloc i =>
    obtain ⟨_, heq⟩ := Option.ite_none_right_eq_some.mp hstep
    cases heq
    exact ⟨l, inv_local h trivial, effect_local fun _ => Or.inl nofun⟩
  | free i b =>
    obtain ⟨⟨_, hown⟩, heq⟩ := Option.ite_none_right_eq_some.mp hstep
    cases heq
    exact ⟨l, inv_local h hown, effect_local fun _ => Or.inl nofun⟩
  | give i b j =>
    obtain ⟨⟨hidle, hown⟩, heq⟩ := Option.ite_none_right_eq_some.mp hstep
    cases heq
    exact ⟨l, inv_give h hidle hown, .same rfl rfl fun _ _ _ => Or.inl rfl⟩
  | go i spurious =>
    cases hproc : s.proc i with
    | idle =>
      simp only [step, hproc] at hstep
      cases hstep
    | alloc pc since => exact inv_popGo h hproc htime hstep
    | free b pc since => exact inv_pushGo h hproc hstep
  | ret i =>
    simp only [step] at hstep
    split at hstep
    · cases hstep
      exact ⟨l, inv_local h trivial, effect_local fun _ => Or.inl nofun⟩
    · cases hstep
      exact ⟨l, inv_local h trivial, effect_local fun _ => Or.inl nofun⟩
    · cases hstep

end

/-! ### Runs -/

section

variable [DecidableEq P] {s : State P}

/-- **Run.** -/
theorem inv_run {as : List (Act P)} (hrun : Run (step cfg) Timely (init cfg P) as s) :
    ∃ l, Inv cfg s l := by
  have hinit : Inv cfg (init cfg P) (List.range cfg.blockCount) := by
    refine ⟨initFreeList_chain cfg, List.nodup_range,
      fun b hb => ⟨List.mem_range.mp hb, rfl⟩, nofun,
      rfl, fun b => ?_, fun _ => trivial⟩
    show InRange cfg (if b + 1 < cfg.blockCount then b + 1 else noBlock)
    split
    · rename_i hlt
      exact Or.inr hlt
    · exact Or.inl rfl
  refine hrun.invariant (I := fun s => ∃ l, Inv cfg s l) ⟨_, hinit⟩ ?_
  rintro s a s' ⟨l, h⟩ htime hstep
  obtain ⟨l', h', _⟩ := inv_step h htime hstep
  exact ⟨l', h'⟩

/-- **The pool is a stack.** In every state that the steps of any number of processes can
    reach, as long as every CAS comes less than `2 ^ 32` head updates after its load: the chain
    from the head is a list without repetition that ends in `NO_BLOCK`, and no owned block is
    on it; no `alloc_block` has reported corruption; and every step leaves the list alone, or
    is the CAS of an `alloc_block` that pops it or of a `free_block` that pushes to it, and an
    `alloc_block` gives up only when it finds the list empty. -/
theorem pool_is_stack {as : List (Act P)} (hrun : Run (step cfg) Timely (init cfg P) as s) :
    ∃ l, s.pool.Chain l ∧ l.Nodup ∧ (∀ b i, s.owner b = some i → b ∉ l) ∧
      (∀ i since, s.proc i ≠ .alloc (.done .corrupted) since) ∧
      ∀ a s', Timely s a → step cfg s a = some s' →
        ∃ l', s'.pool.Chain l' ∧ Effect s a s' l l' := by
  obtain ⟨l, h⟩ := inv_run hrun
  refine ⟨l, h.chain, h.nodup, fun _ _ => h.not_mem_of_owner, fun i since hproc => ?_,
    fun a s' htime hstep => ?_⟩
  · have hp := h.procs i
    rw [hproc] at hp
    exact hp rfl
  · obtain ⟨l', h', heffect⟩ := inv_step h htime hstep
    exact ⟨l', h'.chain, heffect⟩

/-- Process 0 has loaded the head and the link of block 0; process 1 allocates block 0 and
    frees it again; process 0 goes on. -/
def returnedBlock : List (Act (Fin 2)) :=
  [.alloc 0, .go 0 false, .go 0 false,
    .alloc 1, .go 1 false, .go 1 false, .go 1 false, .ret 1,
    .free 1 0, .go 1 false, .go 1 false, .go 1 true, .go 1 false, .go 1 false, .ret 1,
    .go 0 false, .go 0 false, .go 0 false]

/-- Its first CAS fails although block 0 is the first one again, the second one pops it. -/
theorem pool_is_stack_returned : ∃ s : State (Fin 2),
    Run (step oneSlot) Timely (init oneSlot (Fin 2)) returnedBlock s ∧ s.updates = 3 ∧
      s.owner 0 = some 0 ∧
    ∃ l, s.pool.Chain l ∧ l.Nodup ∧ (∀ b i, s.owner b = some i → b ∉ l) ∧
      (∀ i since, s.proc i ≠ .alloc (.done .corrupted) since) ∧
      ∀ a s', Timely s a → step oneSlot s a = some s' →
        ∃ l', s'.pool.Chain l' ∧ Effect s a s' l l' := by
  obtain ⟨s, hrun, hupdates, howner⟩ := exists_run_of_exec (step oneSlot) Timely
    (s := init oneSlot (Fin 2)) (l := returnedBlock)
    (p := fun s => s.updates = 3 ∧ s.owner 0 = some 0) (by decide +kernel)
  exact ⟨s, hrun, hupdates, howner, pool_is_stack hrun⟩

end

end Crossbar.Pool.Concurrent
