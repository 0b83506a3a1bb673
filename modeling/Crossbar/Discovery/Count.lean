import Crossbar.Discovery.Step

namespace Crossbar.Discovery

open Crossbar.Lib

/-!
# Discovery — the count of the registry

A registration first claims an entry and later adds one to `entry_count`; a removal first frees
an entry and later subtracts one.  When the subtraction finds 0, the count is set to 0 in a step
of its own.

* `Proc.owesAdd`, `Proc.owesSub` — what a process has still to add or to subtract;
* `Balanced` — up to that, the count is the number of active entries, modulo 2^32;
* `entry_count_exact` — at rest the two agree, in every run in which the clamp never overwrites
  a count other than 0;
* `count_drifts` — an entry that is pruned before its registration has counted it.
-/

variable {P : Type*}

/-- 1 for an active entry. -/
def Entry.weight (e : Entry) : ℕ := if e.active then 1 else 0

/-- 1 between the claim of an entry and the `fetch_add` for it. -/
def Proc.owesAdd : Proc → ℕ
  | .register _ pc =>
    match pc with
    | .writePid _ | .writeTimestamp _ | .writeRegion _ | .writeUri _ | .count _ => 1
    | .load _ | .pid _ | .region _ | .uri .. | .refresh _ | .claim _ => 0
  | .idle | .unregister .. | .prune .. | .discover .. => 0

/-- 1 between the release of an entry and the `fetch_sub` for it. -/
def FreePc.owesSub : FreePc → ℕ
  | .sub _ => 1
  | .cas _ | .clamp _ => 0

/-- The same for a process. -/
def Proc.owesSub : Proc → ℕ
  | .unregister _ _ (.free f) | .prune _ (.free f) => f.owesSub
  | .unregister _ _ (.load _) | .unregister _ _ (.pid _) | .unregister _ _ (.region _) => 0
  | .prune _ (.load _) | .prune _ (.timestamp _) => 0
  | .idle | .register .. | .discover .. => 0

/-- The next step stores 0 to the count. -/
def Proc.clamps : Proc → Bool
  | .unregister _ _ (.free (.clamp _)) | .prune _ (.free (.clamp _)) => true
  | _ => false

/-- A clamp finds the count at 0 already. -/
def ClampsZero (s : State P) : Act P → Prop
  | .go p => (s.proc p).clamps = true → s.reg.entryCount = 0
  | .register .. | .unregister .. | .prune .. | .discover .. => True

instance (s : State P) (a : Act P) : Decidable (ClampsZero s a) :=
  match a with
  | .go p => inferInstanceAs (Decidable ((s.proc p).clamps = true → s.reg.entryCount = 0))
  | .register .. | .unregister .. | .prune .. | .discover .. => .isTrue trivial

/-! ### One step of a process -/

/-- What a step does to the count and the entries, set against what the process owes. -/
structure CountStep (reg reg' : Registry) (x x' : Proc) : Prop where
  bound : reg.entryCount < 2 ^ 32 → reg'.entryCount < 2 ^ 32
  balance : (reg'.entryCount + x'.owesAdd + tally Entry.weight reg.entry + x.owesSub) % 2 ^ 32 =
    (reg.entryCount + x.owesAdd + tally Entry.weight reg'.entry + x'.owesSub) % 2 ^ 32

/-- The registry is not changed, and nothing is owed. -/
theorem CountStep.quiet (reg : Registry) {x x' : Proc} (hadd : x'.owesAdd = x.owesAdd)
    (hsub : x'.owesSub = x.owesSub) : CountStep reg reg x x' where
  bound := id
  balance := by rw [hadd, hsub]

/-- One entry is changed. -/
theorem CountStep.entry (reg : Registry) (i : Slot) {e : Entry} {x x' : Proc}
    (h : x'.owesAdd + (reg.entry i).weight + x.owesSub = x.owesAdd + e.weight + x'.owesSub) :
    CountStep reg (reg.setEntry i e) x x' where
  bound := id
  balance := by
    have htally := tally_update Entry.weight reg.entry i e
    rw [reg.setEntry_entry, reg.setEntry_entryCount]
    omega

/-- The count is changed. -/
theorem CountStep.count (reg : Registry) {n : Nat} {x x' : Proc} (hn : n < 2 ^ 32)
    (h : (n + x'.owesAdd + x.owesSub) % 2 ^ 32 =
      (reg.entryCount + x.owesAdd + x'.owesSub) % 2 ^ 32) :
    CountStep reg { reg with entryCount := n } x x' where
  bound _ := hn
  balance := by
    simp only
    omega

theorem registerStep_count (c : RegisterCall) (reg : Registry) (pc : RegisterPc) :
    CountStep reg (registerStep c reg pc).1 (.register c pc)
      (.orIdle (.register c) (registerStep c reg pc).2) := by
  cases pc with
  | load k =>
    simp only [registerStep]
    split
    · split <;> exact .quiet reg rfl rfl
    · exact .quiet reg rfl rfl
  | pid | uri =>
    simp only [registerStep]
    split <;> exact .quiet reg rfl rfl
  | region i => exact .quiet reg rfl rfl
  | refresh i | writePid i | writeTimestamp i | writeRegion i | writeUri i => exact .entry reg i rfl
  | claim k =>
    simp only [registerStep]
    split
    · split
      · exact .quiet reg rfl rfl
      · rename_i hk hact
        -- one more active entry, and one `fetch_add` owed
        refine .entry reg ⟨k, hk⟩ ?_
        rw [Bool.not_eq_true] at hact
        simp [Proc.orIdle, Proc.owesAdd, Proc.owesSub, Entry.weight, hact]
    · exact .quiet reg rfl rfl
  | count i =>
    refine .count reg (Nat.mod_lt _ (by decide)) ?_
    simp only [Proc.orIdle, registerStep, Proc.owesAdd, Proc.owesSub, wrap32]
    omega

/-- The part that `unregister` and `prune_stale` share, whatever the process is called before and
    after it. -/
theorem freeStep_count (reg : Registry) (f : FreePc) (x x' : Proc) (hx : x.owesAdd = 0)
    (hx' : x'.owesAdd = 0) (hsub : x.owesSub = f.owesSub)
    (hsub' : x'.owesSub = ((freeStep reg f).2.map FreePc.owesSub).getD 0)
    (hclamp : (∃ i, f = .clamp i) → reg.entryCount = 0) :
    CountStep reg (freeStep reg f).1 x x' := by
  cases f with
  | cas i =>
    simp only [freeStep] at hsub' ⊢
    split
    · rename_i hact
      rw [if_pos hact] at hsub'
      -- one active entry less, and one `fetch_sub` owed
      refine .entry reg i ?_
      rw [hx, hx', hsub, hsub']
      simp [FreePc.owesSub, Entry.weight, hact]
    · rename_i hact
      rw [if_neg hact] at hsub'
      exact .quiet reg (by rw [hx, hx']) (by rw [hsub, hsub']; rfl)
  | sub i =>
    have hsub'' : x'.owesSub = 0 := by
      rw [hsub']
      simp only [freeStep]
      split <;> rfl
    refine .count reg (Nat.mod_lt _ (by decide)) ?_
    rw [hx, hx', hsub, hsub'', dec32, wrap32]
    simp only [FreePc.owesSub]
    omega
  | clamp i =>
    -- the only step that could change the count without paying a debt
    refine .count reg (by decide) ?_
    rw [hx, hx', hsub, hsub', hclamp ⟨i, rfl⟩]
    rfl

theorem unregisterStep_count (region : Str) (pid : Nat) (reg : Registry) (pc : UnregisterPc)
    (hclamp : (Proc.unregister region pid pc).clamps = true → reg.entryCount = 0) :
    CountStep reg (unregisterStep region pid reg pc).1 (.unregister region pid pc)
      (.orIdle (.unregister region pid) (unregisterStep region pid reg pc).2) := by
  cases pc with
  | load k =>
    simp only [unregisterStep]
    split
    · split <;> exact .quiet reg rfl rfl
    · exact .quiet reg rfl rfl
  | pid | region =>
    simp only [unregisterStep]
    split <;> exact .quiet reg rfl rfl
  | free f =>
    have hzero : (∃ i, f = .clamp i) → reg.entryCount = 0 := by
      rintro ⟨i, rfl⟩
      exact hclamp rfl
    refine freeStep_count reg f _ _ rfl rfl rfl ?_ hzero
    simp only [unregisterStep]
    cases (freeStep reg f).2 <;> rfl

theorem pruneStep_count (cutoff : Nat) (reg : Registry) (pc : PrunePc)
    (hclamp : (Proc.prune cutoff pc).clamps = true → reg.entryCount = 0) :
    CountStep reg (pruneStep cutoff reg pc).1 (.prune cutoff pc)
      (.orIdle (.prune cutoff) (pruneStep cutoff reg pc).2) := by
  cases pc with
  | load k =>
    simp only [pruneStep]
    split
    · split <;> exact .quiet reg rfl rfl
    · exact .quiet reg rfl rfl
  | timestamp i =>
    simp only [pruneStep]
    split <;> exact .quiet reg rfl rfl
  | free f =>
    have hzero : (∃ i, f = .clamp i) → reg.entryCount = 0 := by
      rintro ⟨i, rfl⟩
      exact hclamp rfl
    refine freeStep_count reg f _ _ rfl rfl rfl ?_ hzero
    simp only [pruneStep]
    cases (freeStep reg f).2 <;> rfl

/-- One step of any process. -/
theorem next_count (reg : Registry) (x : Proc) (hclamp : x.clamps = true → reg.entryCount = 0) :
    CountStep reg (x.next reg).1 x (x.next reg).2.1 := by
  cases x with
  | idle => exact .quiet reg rfl rfl
  | register c pc => exact registerStep_count c reg pc
  | unregister region pid pc => exact unregisterStep_count region pid reg pc hclamp
  | prune cutoff pc => exact pruneStep_count cutoff reg pc hclamp
  | discover pattern found pc =>
    simp only [Proc.next]
    split <;> exact .quiet reg rfl rfl

/-! ### All processes -/

section

variable [Fintype P] [DecidableEq P] {s s' : State P} {a : Act P}

/-- Up to what the processes owe, the count is the number of active entries. -/
structure Balanced (s : State P) : Prop where
  bound : s.reg.entryCount < 2 ^ 32
  balance : (s.reg.entryCount + tally Proc.owesAdd s.proc) % 2 ^ 32 =
    (tally Entry.weight s.reg.entry + tally Proc.owesSub s.proc) % 2 ^ 32

omit [DecidableEq P] in
theorem init_balanced : Balanced (init P) where
  bound := Nat.two_pow_pos 32
  balance := by
    have hadd : tally Proc.owesAdd (init P).proc = 0 := tally_eq_zero _ _ fun _ => rfl
    have hsub : tally Proc.owesSub (init P).proc = 0 := tally_eq_zero _ _ fun _ => rfl
    have hactive : tally Entry.weight (init P).reg.entry = 0 := tally_eq_zero _ _ fun _ => rfl
    rw [hadd, hsub, hactive]
    rfl

/-- Process `p` starts a call: it owes nothing before and after. -/
theorem Balanced.start (h : Balanced s) {p : P} (hp : s.proc p = .idle) {x : Proc}
    {cs : List RegisterCall} (hx : Started x cs) :
    Balanced { s.move p x with calls := s.calls ++ cs } := by
  have hadd : x.owesAdd = 0 := by cases hx <;> rfl
  have hsub : x.owesSub = 0 := by cases hx <;> rfl
  have htadd := tally_update Proc.owesAdd s.proc p x
  have htsub := tally_update Proc.owesSub s.proc p x
  rw [hp, hadd] at htadd
  rw [hp, hsub] at htsub
  refine ⟨h.bound, ?_⟩
  simp only [State.move]
  rw [Nat.add_right_cancel htadd, Nat.add_right_cancel htsub]
  exact h.balance

theorem Balanced.go (h : Balanced s) {p : P} (hok : ClampsZero s (.go p)) : Balanced (s.go p) := by
  have hcount := next_count s.reg (s.proc p) hok
  have htadd := tally_update Proc.owesAdd s.proc p ((s.proc p).next s.reg).2.1
  have htsub := tally_update Proc.owesSub s.proc p ((s.proc p).next s.reg).2.1
  have hbalance := h.balance
  have hstep := hcount.balance
  refine ⟨hcount.bound h.bound, ?_⟩
  simp only [State.go]
  omega

theorem balanced_step (h : Balanced s) (hok : ClampsZero s a) (hstep : step s a = some s') :
    Balanced s' := by
  cases step_inv hstep with
  | skip => exact h
  | start hp hx => exact h.start hp hx
  | go => exact h.go hok

theorem balanced_run {as : List (Act P)} (hrun : Run step ClampsZero (init P) as s) :
    Balanced s :=
  hrun.invariant init_balanced fun _ _ _ h hok hstep => balanced_step h hok hstep

/-- **The count is exact at rest.** In every interleaving of `register`, `unregister`,
    `prune_stale` and `discover` calls in which no clamp overwrites a count other than 0, the
    count is the number of active entries whenever no call is running. -/
theorem entry_count_exact {as : List (Act P)} (hrun : Run step ClampsZero (init P) as s)
    (hidle : ∀ p, s.proc p = .idle) :
    s.reg.entryCount = (Finset.univ.filter fun i => (s.reg.entry i).active = true).card := by
  have h := balanced_run hrun
  -- at rest nothing is owed, and both sides are too small to wrap
  have hadd : tally Proc.owesAdd s.proc = 0 := tally_eq_zero _ _ fun p => by rw [hidle p]; rfl
  have hsub : tally Proc.owesSub s.proc = 0 := tally_eq_zero _ _ fun p => by rw [hidle p]; rfl
  have hcard : tally Entry.weight s.reg.entry =
      (Finset.univ.filter fun i => (s.reg.entry i).active = true).card := by
    rw [Finset.card_filter]
    rfl
  have hle : (Finset.univ.filter fun i => (s.reg.entry i).active = true).card ≤ 256 :=
    (Finset.card_filter_le _ _).trans_eq (Finset.card_fin regMaxEntries)
  have hbound := h.bound
  have hbalance := h.balance
  rw [hadd, hsub, hcard] at hbalance
  omega

end

/-- One process registers a topic, and is looking for a place for a second one when another process
    prunes; the first topic has become stale, and the second one gets its entry. -/
def pruneDuringRegister : List (Act Bool) :=
  .register true (some 5) [114] [47] 1 :: List.replicate 263 (.go true) ++
    .register true (some 95) [115] [48] 2 :: List.replicate 100 (.go true) ++
    .prune false (some 100) 10 :: List.replicate 10 (.go false) ++
    List.replicate 164 (.go true) ++ List.replicate 250 (.go false)

/-- Nobody is at the registry, and this is its count. -/
def restsWith (count : Nat) (s : State Bool) : Bool :=
  (s.proc true).isIdle && (s.proc false).isIdle && s.reg.entryCount == count

theorem idle_of_restsWith {count : Nat} {s : State Bool} (h : restsWith count s = true) :
    (∀ p, s.proc p = .idle) ∧ s.reg.entryCount = count := by
  simp only [restsWith, Bool.and_eq_true, beq_iff_eq] at h
  refine ⟨fun p => ?_, h.2⟩
  cases p with
  | true => exact Proc.eq_idle h.1.1
  | false => exact Proc.eq_idle h.1.2

/-- The count goes up, down and up again. -/
theorem entry_count_exact_pruned : ∃ s, Run step ClampsZero (init Bool) pruneDuringRegister s ∧
    s.reg.entryCount = 1 ∧
    (Finset.univ.filter fun i => (s.reg.entry i).active = true).card = 1 := by
  obtain ⟨s, hrun, hrest⟩ := exists_run_of_exec step ClampsZero (s := init Bool)
    (l := pruneDuringRegister) (p := fun s => restsWith 1 s) (by decide +kernel)
  obtain ⟨hidle, hone⟩ := idle_of_restsWith hrest
  exact ⟨s, hrun, hone, (entry_count_exact hrun hidle).symm.trans hone⟩

/-- The prune comes between the claim of the entry and the writes to it. -/
def pruneWithinRegister : List (Act Bool) :=
  .register true (some 5) [114] [47] 1 :: List.replicate 258 (.go true) ++
    .prune false (some 100) 10 :: List.replicate 261 (.go false) ++ List.replicate 5 (.go true)

/-- **The count drifts.** A claimed entry still has the timestamp 0, so that a prune frees it; the
    prune finds the count at 0 and sets it to 0, and then the registration adds 1.  At rest the
    count is 1, and no entry is active. -/
theorem count_drifts : ∃ s, Run step (fun _ _ => True) (init Bool) pruneWithinRegister s ∧
    (∀ p, s.proc p = .idle) ∧ s.reg.entryCount = 1 ∧ ∀ i, (s.reg.entry i).active = false := by
  obtain ⟨s, hrun, hend⟩ := exists_run_of_exec step (fun _ _ => True) (s := init Bool)
    (l := pruneWithinRegister)
    (p := fun s => restsWith 1 s &&
      (List.finRange regMaxEntries).all fun i => !(s.reg.entry i).active)
    (by decide +kernel)
  rw [Bool.and_eq_true, List.all_eq_true] at hend
  obtain ⟨hidle, hone⟩ := idle_of_restsWith hend.1
  refine ⟨s, hrun, hidle, hone, fun i => ?_⟩
  exact Bool.not_eq_true' _ ▸ hend.2 i (List.mem_finRange i)

end Crossbar.Discovery
