import Crossbar.Lib.Scan
import Crossbar.Discovery.Step

namespace Crossbar.Discovery

open Function Crossbar.Lib

/-!
# Discovery — one call alone

A call of `Crossbar.Discovery.Step` with nothing between its steps is the call of
`Crossbar.Discovery.Registry`: it comes to its end, with the same registry and the same answer.

* `Ends` — a process that goes on alone comes to the end of its call;
* `Ends.clear` — the loop of `unregister` and `prune_stale`, for any test;
* `register_alone`, `unregister_alone`, `prune_alone`, `discover_alone` — the four calls.
-/

/-! ### Going on alone -/

/-- A process with nothing between its steps comes to the end of its call, with registry `reg'`
    and the answer `ds`. -/
inductive Ends : Registry → Proc → Registry → List DiscoveredTopic → Prop
  | ret {reg reg' : Registry} {x : Proc} {ds : List DiscoveredTopic} (hx : x.isIdle = false)
      (hnext : x.next reg = (reg', .idle, ds)) : Ends reg x reg' ds
  | more {reg reg₁ reg' : Registry} {x x₁ : Proc} {ds : List DiscoveredTopic}
      (hx : x.isIdle = false) (hnext : x.next reg = (reg₁, x₁, []))
      (rest : Ends reg₁ x₁ reg' ds) : Ends reg x reg' ds

section

variable {P : Type*} [DecidableEq P] {s : State P} {p : P}

/-- It does so in the runs of the system in which only this process goes on. -/
theorem Ends.run {reg reg' : Registry} {x : Proc} {ds : List DiscoveredTopic}
    (h : Ends reg x reg' ds) (hreg : s.reg = reg) (hproc : s.proc p = x) :
    ∃ n, Run step (fun _ _ => True) s (List.replicate n (.go p))
      { s with
        reg := reg', proc := update s.proc p .idle, answers := s.answers ++ ds } := by
  induction h generalizing s with
  | ret hx hnext =>
    subst hreg hproc
    refine ⟨1, .single trivial ?_⟩
    rw [step, if_neg (Bool.eq_false_iff.mp hx), State.go, hnext]
  | @more reg reg₁ reg' x x₁ ds hx hnext _ ih =>
    subst hreg hproc
    have hgo : s.go p = { s with reg := reg₁, proc := update s.proc p x₁ } := by
      rw [State.go, hnext, List.append_nil]
    have hstep : step s (.go p) = some (s.go p) := by
      rw [step, if_neg (Bool.eq_false_iff.mp hx)]
    obtain ⟨n, hrun⟩ := ih (s := s.go p) (by rw [hgo]) (by rw [hgo]; exact update_self ..)
    refine ⟨n + 1, .cons trivial hstep ?_⟩
    rw [hgo] at hrun ⊢
    simp only [update_idem] at hrun
    exact hrun

end

/-! ### Calls with a program counter -/

/-- The steps of a call that returns nothing. -/
structure Steps {α : Type*} (f : α → Proc) (pcStep : Registry → α → Registry × Option α) :
    Prop where
  busy : ∀ pc, (f pc).isIdle = false
  next : ∀ reg pc, (f pc).next reg = ((pcStep reg pc).1, .orIdle f (pcStep reg pc).2, [])

theorem register_steps (c : RegisterCall) : Steps (.register c) (registerStep c) where
  busy _ := rfl
  next _ _ := rfl

theorem unregister_steps (region : Str) (pid : Nat) :
    Steps (.unregister region pid) (unregisterStep region pid) where
  busy _ := rfl
  next _ _ := rfl

theorem prune_steps (cutoff : Nat) : Steps (.prune cutoff) (pruneStep cutoff) where
  busy _ := rfl
  next _ _ := rfl

namespace Steps

variable {α : Type*} {f : α → Proc} {pcStep : Registry → α → Registry × Option α}
  {reg reg₁ reg' : Registry} {pc pc₁ : α}

theorem ret (hf : Steps f pcStep) (hpc : pcStep reg pc = (reg', none)) :
    Ends reg (f pc) reg' [] := by
  apply Ends.ret (hf.busy pc)
  rw [hf.next, hpc]
  rfl

theorem more (hf : Steps f pcStep) (hpc : pcStep reg pc = (reg₁, some pc₁))
    (rest : Ends reg₁ (f pc₁) reg' []) : Ends reg (f pc) reg' [] := by
  apply Ends.more (hf.busy pc) _ rest
  rw [hf.next, hpc]
  rfl

end Steps

/-! ### `unregister` and `prune_stale` -/

section

variable {α : Type*} {f : α → Proc} {pcStep : Registry → α → Registry × Option α}
  {load : Nat → α} {release : FreePc → α} {reg reg' : Registry} {i : Slot}

/-- An active entry is freed, and counted down. -/
theorem Ends.free (hf : Steps f pcStep)
    (hfree : ∀ reg x, pcStep reg (release x) =
      ((freeStep reg x).1, some ((freeStep reg x).2.elim (load (x.slot + 1)) release)))
    (hactive : (reg.entry i).active = true)
    (rest : Ends
      { reg.setEntry i { reg.entry i with active := false } with
        entryCount := Registry.countDown reg.entryCount } (f (load (i + 1))) reg' []) :
    Ends reg (f (release (.cas i))) reg' [] := by
  have hcas : pcStep reg (release (.cas i)) =
      (reg.setEntry i { reg.entry i with active := false }, some (release (.sub i))) := by
    rw [hfree, freeStep, if_pos hactive]
    rfl
  apply hf.more hcas
  by_cases hzero : reg.entryCount = 0
  · -- below 0: the count is set to 0 again
    rw [Registry.countDown, if_pos hzero] at rest
    have hsub : pcStep (reg.setEntry i { reg.entry i with active := false }) (release (.sub i)) =
        ({ reg.setEntry i { reg.entry i with active := false } with
            entryCount := dec32 reg.entryCount }, some (release (.clamp i))) := by
      rw [hfree, freeStep, Registry.setEntry_entryCount, if_pos hzero]
      rfl
    apply hf.more hsub
    apply hf.more _ rest
    rw [hfree]
    rfl
  · rw [Registry.countDown, if_neg hzero] at rest
    apply hf.more _ rest
    rw [hfree, freeStep, Registry.setEntry_entryCount, if_neg hzero]
    rfl

/-- **The clearing loop.** When one turn of the loop clears its entry, the loop clears them
    all. -/
theorem Ends.clear (hf : Steps f pcStep) (load : Nat → α) {test : Entry → Bool}
    (hturn : ∀ {reg reg' : Registry} (i : Slot),
      Ends (reg.clearAt test i) (f (load (i + 1))) reg' [] → Ends reg (f (load i)) reg' [])
    (hend : ∀ reg, pcStep reg (load regMaxEntries) = (reg, none)) (reg : Registry) :
    Ends reg (f (load 0)) (reg.clear test) [] := by
  have hloop : ∀ k ≤ regMaxEntries, ∀ reg : Registry, Ends reg (f (load k))
      (((List.finRange regMaxEntries).drop k).foldl (fun reg i => reg.clearAt test i) reg) [] := by
    intro k hk
    -- the registry changes on the way, so that the rule is for every registry
    refine scan_induction ?_ ?_ hk
    · intro reg
      rw [drop_finRange_end]
      exact hf.ret (hend reg)
    · intro i ih reg
      rw [drop_finRange, List.foldl_cons]
      exact hturn i (ih _)
  have hall := hloop 0 (Nat.zero_le _) reg
  rw [List.drop_zero] at hall
  rw [Registry.clear]
  exact hall

end

/-- The loop of `unregister`. -/
theorem unregister_ends (reg : Registry) (region : Str) (pid : Nat) :
    Ends reg (.unregister region pid (.load 0)) (reg.unregister region pid) [] := by
  have hf := unregister_steps region pid
  apply Ends.clear hf .load
  · intro reg reg' i rest
    unfold Registry.clearAt at rest
    by_cases hactive : (reg.entry i).active = true
    · have hload : unregisterStep region pid reg (.load i) = (reg, some (.pid i)) := by
        rw [unregisterStep, dif_pos i.isLt, if_pos hactive]
      apply hf.more hload
      by_cases hpid : (reg.entry i).pid = pid
      · have hcompare : unregisterStep region pid reg (.pid i) = (reg, some (.region i)) := by
          rw [unregisterStep, if_pos hpid]
        apply hf.more hcompare
        by_cases hregion : (reg.entry i).region = region
        · rw [if_pos (by simp [hactive, hpid, hregion])] at rest
          have hsame : unregisterStep region pid reg (.region i) =
              (reg, some (.free (.cas i))) := by
            rw [unregisterStep, if_pos hregion]
          exact hf.more hsame (Ends.free hf (fun _ _ => rfl) hactive rest)
        · rw [if_neg (by simp [hregion])] at rest
          apply hf.more _ rest
          rw [unregisterStep, if_neg hregion]
      · rw [if_neg (by simp [hpid])] at rest
        apply hf.more _ rest
        rw [unregisterStep, if_neg hpid]
    · rw [if_neg (by simp [hactive])] at rest
      apply hf.more _ rest
      rw [unregisterStep, dif_pos i.isLt, if_neg hactive]
  · intro reg
    rw [unregisterStep, dif_neg (Nat.lt_irrefl _)]

/-- The loop of `prune_stale`. -/
theorem prune_ends (reg : Registry) (cutoff : Nat) :
    Ends reg (.prune cutoff (.load 0)) (reg.clear fun e => e.timestamp < cutoff) [] := by
  have hf := prune_steps cutoff
  apply Ends.clear hf .load
  · intro reg reg' i rest
    unfold Registry.clearAt at rest
    by_cases hactive : (reg.entry i).active = true
    · have hload : pruneStep cutoff reg (.load i) = (reg, some (.timestamp i)) := by
        rw [pruneStep, dif_pos i.isLt, if_pos hactive]
      apply hf.more hload
      by_cases hstale : (reg.entry i).timestamp < cutoff
      · rw [if_pos (by simp [hactive, hstale])] at rest
        have hfree : pruneStep cutoff reg (.timestamp i) = (reg, some (.free (.cas i))) := by
          rw [pruneStep, if_pos hstale]
        exact hf.more hfree (Ends.free hf (fun _ _ => rfl) hactive rest)
      · rw [if_neg (by simp [hstale])] at rest
        apply hf.more _ rest
        rw [pruneStep, if_neg hstale]
    · rw [if_neg (by simp [hactive])] at rest
      apply hf.more _ rest
      rw [pruneStep, dif_pos i.isLt, if_neg hactive]
  · intro reg
    rw [pruneStep, dif_neg (Nat.lt_irrefl _)]

/-! ### `discover` -/

/-- What `discover` makes of an entry. -/
def Registry.topicAt (reg : Registry) (pattern : Str) (i : Slot) : Option DiscoveredTopic :=
  if (reg.entry i).active && matchesPattern pattern (reg.entry i).uri then
    some ⟨(reg.entry i).region, (reg.entry i).uri, (reg.entry i).pid, (reg.entry i).timestamp⟩
  else none

theorem Registry.discover_eq (reg : Registry) (pattern : Str) :
    reg.discover pattern = (List.finRange regMaxEntries).filterMap (reg.topicAt pattern) := by
  rw [Registry.discover, Registry.collect]
  apply congrArg (List.filterMap · _)
  funext i
  simp only [Registry.topicAt, Bool.and_true]

section

variable {reg reg' : Registry} {pattern : Str} {found ds : List DiscoveredTopic}
  {pc pc₁ : DiscoverPc}

theorem Ends.look (hpc : discoverStep pattern reg pc = .more pc₁)
    (rest : Ends reg (.discover pattern found pc₁) reg' ds) :
    Ends reg (.discover pattern found pc) reg' ds := by
  apply Ends.more rfl _ rest
  rw [Proc.next, hpc]

theorem Ends.push {d : DiscoveredTopic} (hpc : discoverStep pattern reg pc = .push d pc₁)
    (rest : Ends reg (.discover pattern (found ++ [d]) pc₁) reg' ds) :
    Ends reg (.discover pattern found pc) reg' ds := by
  apply Ends.more rfl _ rest
  rw [Proc.next, hpc]

/-- One turn of the loop of `discover`. -/
theorem Ends.turn (i : Slot)
    (rest : Ends reg (.discover pattern (found ++ (reg.topicAt pattern i).toList) (.load (i + 1)))
      reg' ds) :
    Ends reg (.discover pattern found (.load i)) reg' ds := by
  unfold Registry.topicAt at rest
  by_cases hactive : (reg.entry i).active = true
  · have hload : discoverStep pattern reg (.load i) = .more (.uri i) := by
      rw [discoverStep, dif_pos i.isLt, if_pos hactive]
    apply Ends.look hload
    by_cases hmatch : matchesPattern pattern (reg.entry i).uri = true
    · have huri : discoverStep pattern reg (.uri i) = .more (.region i (reg.entry i).uri) := by
        rw [discoverStep, if_pos hmatch]
      rw [if_pos (by simp [hactive, hmatch])] at rest
      exact Ends.look huri (Ends.look rfl (Ends.look rfl (Ends.push rfl rest)))
    · rw [if_neg (by simp [hmatch]), Option.toList_none, List.append_nil] at rest
      apply Ends.look _ rest
      rw [discoverStep, if_neg hmatch]
  · rw [if_neg (by simp [hactive]), Option.toList_none, List.append_nil] at rest
    apply Ends.look _ rest
    rw [discoverStep, dif_pos i.isLt, if_neg hactive]

/-- The loop of `discover`. -/
theorem discover_ends (reg : Registry) (pattern : Str) :
    Ends reg (.discover pattern [] (.load 0)) reg (reg.discover pattern) := by
  -- what the loop has found before stands in front of what it finds
  have hloop : ∀ k ≤ regMaxEntries, ∀ found, Ends reg (.discover pattern found (.load k)) reg
      (found ++ ((List.finRange regMaxEntries).drop k).filterMap (reg.topicAt pattern)) := by
    intro k hk
    refine scan_induction ?_ ?_ hk
    · intro found
      rw [drop_finRange_end, List.filterMap_nil, List.append_nil]
      apply Ends.ret rfl
      rw [Proc.next, discoverStep, dif_neg (Nat.lt_irrefl _)]
    · intro i ih found
      have hsplit : (i :: (List.finRange regMaxEntries).drop (i + 1)).filterMap
            (reg.topicAt pattern) = (reg.topicAt pattern i).toList ++
          ((List.finRange regMaxEntries).drop (i + 1)).filterMap (reg.topicAt pattern) := by
        cases hi : reg.topicAt pattern i with
        | none => exact List.filterMap_cons_none hi
        | some d => exact List.filterMap_cons_some hi
      rw [drop_finRange, hsplit, ← List.append_assoc]
      exact Ends.turn i (ih _)
  have hall := hloop 0 (Nat.zero_le _) []
  rw [List.drop_zero, List.nil_append] at hall
  rw [Registry.discover_eq]
  exact hall

end

/-! ### `register` -/

section

variable {reg reg' : Registry} {c : RegisterCall} {k m : Nat}

/-- The first scan passes entries with another region, URI or pid. -/
theorem Ends.pass (hkm : k ≤ m) (hm : m ≤ regMaxEntries)
    (hother : ∀ j : Slot, j.val < m →
      ((reg.entry j).active && (reg.entry j).pid == c.pid &&
        ((reg.entry j).region == c.region && (reg.entry j).uri == c.uri)) = false)
    (rest : Ends reg (.register c (.load m)) reg' []) :
    Ends reg (.register c (.load k)) reg' [] := by
  have hf := register_steps c
  refine scan_induction rest (fun i ih => ?_) hkm
  have hi : i.val < regMaxEntries := i.isLt.trans_le hm
  have hthis := hother ⟨i, hi⟩ i.isLt
  by_cases hactive : (reg.entry ⟨i, hi⟩).active = true
  · have hload : registerStep c reg (.load i) = (reg, some (.pid ⟨i, hi⟩)) := by
      rw [registerStep, dif_pos hi, if_pos hactive]
    apply hf.more hload
    by_cases hpid : (reg.entry ⟨i, hi⟩).pid = c.pid
    · have hcompare : registerStep c reg (.pid ⟨i, hi⟩) = (reg, some (.region ⟨i, hi⟩)) := by
        rw [registerStep, if_pos hpid]
      rw [hactive, beq_iff_eq.mpr hpid, Bool.and_self, Bool.true_and] at hthis
      -- the region name and the URI are both read before they are compared
      apply hf.more hcompare
      apply hf.more rfl
      apply hf.more _ ih
      rw [registerStep, if_neg (Bool.eq_false_iff.mp hthis)]
    · apply hf.more _ ih
      rw [registerStep, if_neg hpid]
  · apply hf.more _ ih
    rw [registerStep, dif_pos hi, if_neg hactive]

/-- The second scan passes active entries. -/
theorem Ends.taken (hkm : k ≤ m) (hm : m ≤ regMaxEntries)
    (htaken : ∀ j : Slot, j.val < m → (reg.entry j).active = true)
    (rest : Ends reg (.register c (.claim m)) reg' []) :
    Ends reg (.register c (.claim k)) reg' [] := by
  refine scan_induction rest (fun i ih => ?_) hkm
  have hi : i.val < regMaxEntries := i.isLt.trans_le hm
  apply (register_steps c).more _ ih
  rw [registerStep, dif_pos hi, if_pos (htaken ⟨i, hi⟩ i.isLt)]

/-- An entry is claimed, written and counted. -/
theorem Ends.write {i : Slot} (hfree : (reg.entry i).active = false) :
    Ends reg (.register c (.claim i))
      { reg.setEntry i ((reg.entry i).written c.region c.uri c.pid c.ts) with
        entryCount := wrap32 (reg.entryCount + 1) } [] := by
  have hf := register_steps c
  have hclaim : registerStep c reg (.claim i) =
      (reg.setEntry i { reg.entry i with active := true }, some (.writePid i)) := by
    rw [registerStep, dif_pos i.isLt, if_neg (Bool.eq_false_iff.mp hfree)]
  apply hf.more hclaim
  -- the four fields, and the count
  apply hf.more rfl
  apply hf.more rfl
  apply hf.more rfl
  apply hf.more rfl
  apply hf.ret
  simp [registerStep, Registry.setEntry, Entry.written]

/-- The two scans of `register`. -/
theorem register_ends (reg : Registry) (clock : Option Nat) {region uri : Str} (pid : Nat)
    (hshort : ¬(reRegionNameMax ≤ region.length ∨ reTopicUriMax ≤ uri.length)) :
    Ends reg (.register ⟨region, uri, pid, (nowMicros clock).getD 0⟩ (.load 0))
      (reg.register clock region uri pid) [] := by
  let c : RegisterCall := ⟨region, uri, pid, (nowMicros clock).getD 0⟩
  have hf := register_steps c
  rw [Registry.register, if_neg hshort]
  cases hfind : reg.findEntry region uri pid with
  | some i =>
    obtain ⟨hi, hbefore⟩ := first_of_find hfind
    apply Ends.pass (Nat.zero_le i) i.isLt.le hbefore
    simp only [Bool.and_eq_true, beq_iff_eq] at hi
    obtain ⟨⟨hactive, hpid⟩, hregion, huri⟩ := hi
    have hload : registerStep c reg (.load i) = (reg, some (.pid i)) := by
      rw [registerStep, dif_pos i.isLt, if_pos hactive]
    have hcompare : registerStep c reg (.pid i) = (reg, some (.region i)) := by
      rw [registerStep, if_pos hpid]
    have hsame : registerStep c reg (.uri i ((reg.entry i).region == region)) =
        (reg, some (.refresh i)) := by
      rw [registerStep, if_pos (by simp [hregion, huri, c])]
    -- the entry is found, and its timestamp written
    apply hf.more hload
    apply hf.more hcompare
    apply hf.more rfl
    apply hf.more hsame
    exact hf.ret rfl
  | none =>
    have hnone := List.find?_eq_none.mp hfind
    have hend : registerStep c reg (.load regMaxEntries) = (reg, some (.claim 0)) := by
      rw [registerStep, dif_neg (Nat.lt_irrefl _)]
    apply Ends.pass (Nat.zero_le _) le_rfl
    · intro j _
      exact Bool.eq_false_iff.mpr (hnone j (List.mem_finRange j))
    apply hf.more hend
    cases hslot : reg.freeEntry with
    | none =>
      -- the key is new and there is no room
      have htaken := List.find?_eq_none.mp hslot
      apply Ends.taken (Nat.zero_le _) le_rfl
      · intro j _
        have hj := htaken j (List.mem_finRange j)
        rw [Bool.not_eq_true, Bool.not_eq_false'] at hj
        exact hj
      apply hf.ret
      rw [registerStep, dif_neg (Nat.lt_irrefl _)]
    | some i =>
      obtain ⟨hi, hbefore⟩ := first_of_find hslot
      apply Ends.taken (Nat.zero_le i) i.isLt.le
      · intro j hj
        have hactive := hbefore j hj
        rw [Bool.not_eq_false'] at hactive
        exact hactive
      rw [Bool.not_eq_true'] at hi
      exact Ends.write hi

end

/-! ### Whole calls -/

section

variable {P : Type*} [DecidableEq P] {s : State P} {p : P}

/-- A call starts, and its process goes on alone to the end. -/
theorem Ends.call {a : Act P} {s₁ : State P} {x : Proc} {reg' : Registry}
    {ds : List DiscoveredTopic} (h : Ends s.reg x reg' ds) (hp : s.proc p = .idle)
    (hstep : step s a = some s₁) (hreg : s₁.reg = s.reg)
    (hproc : s₁.proc = update s.proc p x) (hanswers : s₁.answers = s.answers) :
    ∃ n s', Run step (fun _ _ => True) s (a :: List.replicate n (.go p)) s' ∧
      s'.reg = reg' ∧ s'.proc = s.proc ∧ s'.answers = s.answers ++ ds := by
  obtain ⟨n, hrun⟩ := h.run (s := s₁) (p := p) hreg (by rw [hproc, update_self])
  refine ⟨n, _, .cons trivial hstep hrun, rfl, ?_, ?_⟩
  · simp only [hproc, update_idem]
    rw [← hp]
    exact update_eq_self p s.proc
  · simp only [hanswers]

/-- `register` with nothing between its steps. -/
theorem register_alone (hp : s.proc p = .idle) (clock : Option Nat) (region uri : Str)
    (pid : Nat) :
    ∃ n s', Run step (fun _ _ => True) s
        (.register p clock region uri pid :: List.replicate n (.go p)) s' ∧
      s'.reg = s.reg.register clock region uri pid ∧ s'.proc = s.proc ∧
      s'.answers = s.answers := by
  have hidle : (s.proc p).isIdle = true := by rw [hp]; rfl
  have hstep : step s (.register p clock region uri pid) =
      some (s.startRegister p ⟨region, uri, pid, (nowMicros clock).getD 0⟩) := by
    rw [step, if_pos hidle]
  by_cases hlong : reRegionNameMax ≤ region.length ∨ reTopicUriMax ≤ uri.length
  · rw [State.startRegister, if_pos hlong] at hstep
    refine ⟨0, s, .single trivial hstep, ?_, rfl, rfl⟩
    rw [Registry.register, if_pos hlong]
  · rw [State.startRegister, if_neg hlong] at hstep
    have hcall := (register_ends s.reg clock pid hlong).call hp hstep rfl rfl rfl
    rw [List.append_nil] at hcall
    exact hcall

/-- `unregister` with nothing between its steps. -/
theorem unregister_alone (hp : s.proc p = .idle) (region : Str) (pid : Nat) :
    ∃ n s', Run step (fun _ _ => True) s
        (.unregister p region pid :: List.replicate n (.go p)) s' ∧
      s'.reg = s.reg.unregister region pid ∧ s'.proc = s.proc ∧ s'.answers = s.answers := by
  have hstep : step s (.unregister p region pid) =
      some (s.move p (.unregister region pid (.load 0))) := by
    rw [step, if_pos (by rw [hp]; rfl)]
  have hcall := (unregister_ends s.reg region pid).call hp hstep rfl rfl rfl
  rw [List.append_nil] at hcall
  exact hcall

/-- `prune_stale` with nothing between its steps. -/
theorem prune_alone (hp : s.proc p = .idle) (clock : Option Nat) (staleTimeout : Nat) :
    ∃ n s', Run step (fun _ _ => True) s
        (.prune p clock staleTimeout :: List.replicate n (.go p)) s' ∧
      s'.reg = s.reg.pruneStale clock staleTimeout ∧ s'.proc = s.proc ∧
      s'.answers = s.answers := by
  have hidle : (s.proc p).isIdle = true := by rw [hp]; rfl
  unfold Registry.pruneStale
  cases hnow : nowMicros clock with
  | none =>
    have hstep : step s (.prune p clock staleTimeout) = some s := by
      rw [step, if_pos hidle, hnow]
    exact ⟨0, s, .single trivial hstep, rfl, rfl, rfl⟩
  | some now =>
    have hstep : step s (.prune p clock staleTimeout) =
        some (s.move p (.prune (now - wrap64 staleTimeout) (.load 0))) := by
      rw [step, if_pos hidle, hnow]
    have hcall := (prune_ends s.reg (now - wrap64 staleTimeout)).call hp hstep rfl rfl rfl
    rw [List.append_nil] at hcall
    exact hcall

/-- `discover` with nothing between its steps. -/
theorem discover_alone (hp : s.proc p = .idle) (pattern : Str) :
    ∃ n s', Run step (fun _ _ => True) s
        (.discover p pattern :: List.replicate n (.go p)) s' ∧
      s'.reg = s.reg ∧ s'.proc = s.proc ∧
      s'.answers = s.answers ++ s.reg.discover pattern := by
  have hstep : step s (.discover p pattern) =
      some (s.move p (.discover pattern [] (.load 0))) := by
    rw [step, if_pos (by rw [hp]; rfl)]
  exact (discover_ends s.reg pattern).call hp hstep rfl rfl rfl

end

end Crossbar.Discovery
