import Crossbar.Discovery.Step

namespace Crossbar.Discovery

open Function Crossbar.Lib

/-!
# Discovery — what `discover` returns

An entry is active from the moment it is claimed, before its fields are written, and `discover`
does not look at the state again after it has read the fields.

* `Proc.writing`, `Proc.reading` — the entry whose fields a process is writing or reading;
* `Apart` — nobody claims an entry that another process is still writing or reading, and no
  `discover` turns to an entry that is being written;
* `Inv` — an active entry that nobody is writing has the fields of one `register` call, and so has
  whatever has been read of an entry;
* `discover_returns_registered` — in every run that keeps to `Apart`, every topic that is returned
  has the region, the URI and the pid of one `register` call;
* `unregistered_returned` — an entry that is read between its claim and the first write.
-/

variable {P : Type*}

/-- The entry whose fields a process is writing. -/
def Proc.writing : Proc → Option Slot
  | .register _ pc =>
    match pc with
    | .writePid i | .writeTimestamp i | .writeRegion i | .writeUri i => some i
    | .load _ | .pid _ | .region _ | .uri .. | .refresh _ | .claim _ | .count _ => none
  | .idle | .unregister .. | .prune .. | .discover .. => none

/-- The entry whose URI, region and pid a `discover` is reading. -/
def Proc.reading : Proc → Option Slot
  | .discover _ _ pc =>
    match pc with
    | .uri i | .region i _ | .pid i _ _ => some i
    | .load _ | .timestamp .. => none
  | .idle | .register .. | .unregister .. | .prune .. => none

/-- The entry that the next step claims. -/
def Proc.claims (reg : Registry) : Proc → Option Slot
  | .register _ (.claim k) =>
    if h : k < regMaxEntries then
      if (reg.entry ⟨k, h⟩).active then none else some ⟨k, h⟩
    else none
  | _ => none

/-- The entry that the next step finds active, to read it then. -/
def Proc.enters (reg : Registry) : Proc → Option Slot
  | .discover _ _ (.load k) =>
    if h : k < regMaxEntries then
      if (reg.entry ⟨k, h⟩).active then some ⟨k, h⟩ else none
    else none
  | _ => none

/-- An entry is claimed only when nobody is writing or reading it, and a `discover` turns to an
    active entry only when nobody is writing it. -/
def Apart (s : State P) : Act P → Prop
  | .go p =>
    (∀ i ∈ (s.proc p).claims s.reg, ∀ q,
      (s.proc q).writing ≠ some i ∧ (s.proc q).reading ≠ some i) ∧
    ∀ i ∈ (s.proc p).enters s.reg, ∀ q, (s.proc q).writing ≠ some i
  | .register .. | .unregister .. | .prune .. | .discover .. => True

/-! ### Fields -/

/-- The pid and the strings are the same. -/
def Entry.SameFields (e e' : Entry) : Prop :=
  e'.pid = e.pid ∧ e'.regionName = e.regionName ∧ e'.topicUri = e.topicUri

/-- Nothing is written. -/
theorem Entry.SameFields.refl (e : Entry) : e.SameFields e := ⟨rfl, rfl, rfl⟩

/-- The entry has the fields of a `register` call. -/
def Entry.Of (e : Entry) (c : RegisterCall) : Prop :=
  e.pid = c.pid ∧ e.region = cstr c.region ∧ e.uri = cstr c.uri

/-- Whose entry it is depends on these fields alone. -/
theorem Entry.Of.same {e e' : Entry} {c : RegisterCall} (h : e.Of c) (hsame : e.SameFields e') :
    e'.Of c := by
  obtain ⟨hpid, hregion, huri⟩ := hsame
  unfold Entry.Of Entry.region Entry.uri at h ⊢
  rw [hpid, hregion, huri]
  exact h

/-- The topic is that of a `register` call. -/
def DiscoveredTopic.Of (d : DiscoveredTopic) (c : RegisterCall) : Prop :=
  d.region = cstr c.region ∧ d.uri = cstr c.uri ∧ d.pid = c.pid

/-! ### One step of a process -/

/-- A store that keeps the fields of its entry keeps those of all entries. -/
theorem setEntry_same (reg : Registry) (i : Slot) {e : Entry} (he : (reg.entry i).SameFields e)
    (j : Slot) : (reg.entry j).SameFields ((reg.setEntry i e).entry j) := by
  rw [reg.setEntry_entry]
  by_cases hj : j = i
  · rw [hj, update_self]
    exact he
  · rw [update_of_ne hj]
    exact .refl _

/-- A store changes no other entry. -/
theorem setEntry_of_ne (reg : Registry) {i j : Slot} (e : Entry) (hj : j ≠ i) :
    (reg.setEntry i e).entry j = reg.entry j := by
  rw [reg.setEntry_entry, update_of_ne hj]

/-- What a step leaves as it is, and when it starts to write or to read. -/
structure StepSpec (reg reg' : Registry) (x x' : Proc) : Prop where
  /-- the pid and the strings change only in the entry that the process has claimed -/
  fields : ∀ j, x.writing ≠ some j → (reg.entry j).SameFields (reg'.entry j)
  /-- an entry becomes active only by a claim -/
  active : ∀ j, (reg'.entry j).active = true → (reg.entry j).active = true ∨ x'.writing = some j
  writing : ∀ j, x'.writing = some j → x.writing = some j ∨ x.claims reg = some j
  reading : ∀ j, x'.reading = some j → x.reading = some j ∨ x.enters reg = some j

/-- The process only reads, and starts neither to write nor to read the fields. -/
theorem StepSpec.scan (reg : Registry) {x x' : Proc} (hw : x'.writing = none)
    (hr : x'.reading = none) : StepSpec reg reg x x' where
  fields j _ := .refl _
  active j hj := Or.inl hj
  writing j hj := by rw [hw] at hj; cases hj
  reading j hj := by rw [hr] at hj; cases hj

/-- The process changes an entry, which is not claimed by that, and the fields of an entry only if
    it is the one it is writing. -/
theorem StepSpec.change (reg : Registry) {i : Slot} {e : Entry} {x x' : Proc}
    (hfields : x.writing ≠ some i → (reg.entry i).SameFields e)
    (hactive : e.active = true → (reg.entry i).active = true)
    (hw : x'.writing = none ∨ x'.writing = x.writing) (hr : x'.reading = none) :
    StepSpec reg (reg.setEntry i e) x x' where
  fields j hj := by
    by_cases hji : j = i
    · subst hji
      exact setEntry_same reg j (hfields hj) j
    · rw [setEntry_of_ne reg e hji]
      exact .refl _
  active j hj := by
    by_cases hji : j = i
    · subst hji
      rw [reg.setEntry_entry, update_self] at hj
      exact Or.inl (hactive hj)
    · rw [setEntry_of_ne reg e hji] at hj
      exact Or.inl hj
  writing j hj := by
    rcases hw with hnone | hsame
    · rw [hnone] at hj
      cases hj
    · rw [hsame] at hj
      exact Or.inl hj
  reading j hj := by rw [hr] at hj; cases hj

/-- `register` writes to the entry that it has claimed. -/
theorem registerStep_spec (c : RegisterCall) (reg : Registry) (pc : RegisterPc) :
    StepSpec reg (registerStep c reg pc).1 (.register c pc)
      (.orIdle (.register c) (registerStep c reg pc).2) := by
  cases pc with
  | load k =>
    simp only [registerStep]
    split
    · split <;> exact .scan reg rfl rfl
    · exact .scan reg rfl rfl
  | pid | uri =>
    simp only [registerStep]
    split <;> exact .scan reg rfl rfl
  | region i => exact .scan reg rfl rfl
  | refresh i => exact .change reg (fun _ => ⟨rfl, rfl, rfl⟩) id (Or.inl rfl) rfl
  | claim k =>
    simp only [registerStep]
    split
    · rename_i hk
      split
      · exact .scan reg rfl rfl
      · rename_i hact
        -- the entry becomes active, and is written from now on
        refine ⟨fun j _ => ?_, fun j hj => ?_, fun j hj => ?_, by rintro _ ⟨⟩⟩
        · apply setEntry_same
          exact ⟨rfl, rfl, rfl⟩
        · by_cases hjk : j = ⟨k, hk⟩
          · exact Or.inr (by rw [hjk]; rfl)
          · rw [setEntry_of_ne reg _ hjk] at hj
            exact Or.inl hj
        · refine Or.inr (Eq.trans ?_ hj)
          simp only [Proc.claims, dif_pos hk, if_neg hact]
          rfl
    · exact .scan reg rfl rfl
  | writePid i =>
    exact .change reg (fun h => absurd rfl h) id (Or.inr rfl) rfl
  | writeTimestamp i => exact .change reg (fun _ => ⟨rfl, rfl, rfl⟩) id (Or.inr rfl) rfl
  | writeRegion i => exact .change reg (fun h => absurd rfl h) id (Or.inr rfl) rfl
  | writeUri i => exact .change reg (fun h => absurd rfl h) id (Or.inl rfl) rfl
  | count i => exact ⟨fun j _ => .refl _, fun j hj => Or.inl hj, by rintro _ ⟨⟩, by rintro _ ⟨⟩⟩

/-- Freeing an entry writes none of its fields. -/
theorem freeStep_spec (reg : Registry) (f : FreePc) {x x' : Proc} (hw : x'.writing = none)
    (hr : x'.reading = none) : StepSpec reg (freeStep reg f).1 x x' := by
  cases f with
  | cas i =>
    simp only [freeStep]
    split
    · exact .change reg (fun _ => ⟨rfl, rfl, rfl⟩) (by rintro ⟨⟩) (Or.inl hw) hr
    · exact .scan reg hw hr
  | sub | clamp =>
    refine ⟨fun j _ => .refl _, fun j hj => Or.inl hj, fun j hj => ?_, fun j hj => ?_⟩
    · rw [hw] at hj; cases hj
    · rw [hr] at hj; cases hj

/-- `unregister` only frees entries. -/
theorem unregisterStep_spec (region : Str) (pid : Nat) (reg : Registry) (pc : UnregisterPc) :
    StepSpec reg (unregisterStep region pid reg pc).1 (.unregister region pid pc)
      (.orIdle (.unregister region pid) (unregisterStep region pid reg pc).2) := by
  cases pc with
  | load k =>
    simp only [unregisterStep]
    split
    · split <;> exact .scan reg rfl rfl
    · exact .scan reg rfl rfl
  | pid | region =>
    simp only [unregisterStep]
    split <;> exact .scan reg rfl rfl
  | free f => exact freeStep_spec reg f rfl rfl

/-- `prune_stale` only frees entries. -/
theorem pruneStep_spec (cutoff : Nat) (reg : Registry) (pc : PrunePc) :
    StepSpec reg (pruneStep cutoff reg pc).1 (.prune cutoff pc)
      (.orIdle (.prune cutoff) (pruneStep cutoff reg pc).2) := by
  cases pc with
  | load k =>
    simp only [pruneStep]
    split
    · split <;> exact .scan reg rfl rfl
    · exact .scan reg rfl rfl
  | timestamp i =>
    simp only [pruneStep]
    split <;> exact .scan reg rfl rfl
  | free f => exact freeStep_spec reg f rfl rfl

/-- `discover` writes nothing. -/
theorem discoverStep_spec (pattern : Str) (found : List DiscoveredTopic) (reg : Registry)
    (pc : DiscoverPc) : StepSpec reg ((Proc.discover pattern found pc).next reg).1
      (.discover pattern found pc) ((Proc.discover pattern found pc).next reg).2.1 := by
  cases pc with
  | load k =>
    simp only [Proc.next, discoverStep]
    by_cases hk : k < regMaxEntries
    · rw [dif_pos hk]
      by_cases hact : (reg.entry ⟨k, hk⟩).active = true
      · rw [if_pos hact]
        -- the entry is read from now on
        refine ⟨fun j _ => .refl _, fun j hj => Or.inl hj, by rintro _ ⟨⟩, fun j hj => ?_⟩
        refine Or.inr (Eq.trans ?_ hj)
        simp only [Proc.enters, dif_pos hk, if_pos hact]
        rfl
      · rw [if_neg hact]
        exact .scan reg rfl rfl
    · rw [dif_neg hk]
      exact .scan reg rfl rfl
  | uri i =>
    simp only [Proc.next, discoverStep]
    by_cases hmatch : matchesPattern pattern (reg.entry i).uri = true
    · rw [if_pos hmatch]
      exact ⟨fun j _ => .refl _, fun j hj => Or.inl hj, by rintro _ ⟨⟩, fun j hj => Or.inl hj⟩
    · rw [if_neg hmatch]
      exact .scan reg rfl rfl
  | region i uri =>
    exact ⟨fun j _ => .refl _, fun j hj => Or.inl hj, by rintro _ ⟨⟩, fun j hj => Or.inl hj⟩
  | pid | timestamp => exact .scan reg rfl rfl

/-- One step of any process. -/
theorem next_spec (reg : Registry) (x : Proc) : StepSpec reg (x.next reg).1 x (x.next reg).2.1 := by
  cases x with
  | idle => exact .scan reg rfl rfl
  | register c pc => exact registerStep_spec c reg pc
  | unregister region pid pc => exact unregisterStep_spec region pid reg pc
  | prune cutoff pc => exact pruneStep_spec cutoff reg pc
  | discover pattern found pc => exact discoverStep_spec pattern found reg pc

/-! ### What a process knows -/

/-- What a registration has written so far. -/
def RegisterPc.Wrote (reg : Registry) (c : RegisterCall) : RegisterPc → Prop
  | .writeTimestamp i | .writeRegion i => (reg.entry i).pid = c.pid
  | .writeUri i => (reg.entry i).pid = c.pid ∧ (reg.entry i).region = cstr c.region
  | .load _ | .pid _ | .region _ | .uri .. | .refresh _ | .claim _ | .writePid _ | .count _ => True

/-- What a `discover` has read so far is of one call, and so is the entry that it is reading. -/
def DiscoverPc.Read (calls : List RegisterCall) (reg : Registry) : DiscoverPc → Prop
  | .load _ => True
  | .uri i => ∃ c ∈ calls, (reg.entry i).Of c
  | .region i u => ∃ c ∈ calls, (reg.entry i).Of c ∧ u = cstr c.uri
  | .pid i u r => ∃ c ∈ calls, (reg.entry i).Of c ∧ u = cstr c.uri ∧ r = cstr c.region
  | .timestamp _ u r n => ∃ c ∈ calls, u = cstr c.uri ∧ r = cstr c.region ∧ n = c.pid

/-- What is true of a process. -/
def ProcInv (calls : List RegisterCall) (reg : Registry) : Proc → Prop
  | .register c pc =>
    c ∈ calls ∧ c.region.length < reRegionNameMax ∧ c.uri.length < reTopicUriMax ∧
      pc.Wrote reg c
  | .discover _ found pc => (∀ d ∈ found, ∃ c ∈ calls, d.Of c) ∧ pc.Read calls reg
  | .idle | .unregister .. | .prune .. => True

variable {calls : List RegisterCall} {reg reg' : Registry}

/-- A process keeps what it knows when others leave its entry alone. -/
theorem ProcInv.frame {x : Proc} (h : ProcInv calls reg x)
    (hsame : ∀ j, x.writing = some j ∨ x.reading = some j →
      (reg.entry j).SameFields (reg'.entry j)) : ProcInv calls reg' x := by
  cases x with
  | idle | unregister | prune => trivial
  | register c pc =>
    obtain ⟨hc, hregion, huri, hwrote⟩ := h
    refine ⟨hc, hregion, huri, ?_⟩
    cases pc with
    | writeTimestamp i => exact (hsame i (Or.inl rfl)).1.trans hwrote
    | writeRegion i => exact (hsame i (Or.inl rfl)).1.trans hwrote
    | writeUri i =>
      obtain ⟨hpid, hname, -⟩ := hsame i (Or.inl rfl)
      refine ⟨hpid.trans hwrote.1, ?_⟩
      rw [Entry.region, hname]
      exact hwrote.2
    | _ => trivial
  | discover pattern found pc =>
    refine ⟨h.1, ?_⟩
    have hread := h.2
    cases pc with
    | load k => trivial
    | uri i =>
      obtain ⟨c, hc, hof⟩ := hread
      exact ⟨c, hc, hof.same (hsame i (Or.inr rfl))⟩
    | region i uri =>
      obtain ⟨c, hc, hof, hrest⟩ := hread
      exact ⟨c, hc, hof.same (hsame i (Or.inr rfl)), hrest⟩
    | pid i uri region =>
      obtain ⟨c, hc, hof, hrest⟩ := hread
      exact ⟨c, hc, hof.same (hsame i (Or.inr rfl)), hrest⟩
    | timestamp i uri region pid => exact hread

/-- A call stays on record. -/
theorem exists_call_append {q : RegisterCall → Prop} (cs : List RegisterCall)
    (h : ∃ c ∈ calls, q c) : ∃ c ∈ calls ++ cs, q c := by
  obtain ⟨c, hc, hq⟩ := h
  exact ⟨c, List.mem_append_left cs hc, hq⟩

/-- More calls change nothing. -/
theorem ProcInv.more {x : Proc} (h : ProcInv calls reg x) (cs : List RegisterCall) :
    ProcInv (calls ++ cs) reg x := by
  cases x with
  | idle | unregister | prune => trivial
  | register c pc => exact ⟨List.mem_append_left cs h.1, h.2⟩
  | discover pattern found pc =>
    refine ⟨fun d hd => exists_call_append cs (h.1 d hd), ?_⟩
    cases pc with
    | load k => trivial
    | uri i => exact exists_call_append cs h.2
    | region i uri => exact exists_call_append cs h.2
    | pid i uri region => exact exists_call_append cs h.2
    | timestamp i uri region pid => exact exists_call_append cs h.2

/-- A registration goes on, and leaves an entry of its call when it has written the last field. -/
theorem registerStep_inv {c : RegisterCall} {pc : RegisterPc}
    (h : ProcInv calls reg (.register c pc)) :
    ProcInv calls (registerStep c reg pc).1 (.orIdle (.register c) (registerStep c reg pc).2) ∧
      ∀ j, (Proc.register c pc).writing = some j →
        (Proc.orIdle (.register c) (registerStep c reg pc).2).writing = some j ∨
          ((registerStep c reg pc).1.entry j).Of c := by
  obtain ⟨hc, hregion, huri, hwrote⟩ := h
  have hscan : ∀ {reg'} {pc' : RegisterPc}, pc'.Wrote reg' c →
      ProcInv calls reg' (.register c pc') :=
    fun hw => ⟨hc, hregion, huri, hw⟩
  cases pc with
  | load k =>
    refine ⟨?_, by rintro _ ⟨⟩⟩
    simp only [registerStep]
    split
    · split <;> exact hscan trivial
    · exact hscan trivial
  | pid | uri =>
    refine ⟨?_, by rintro _ ⟨⟩⟩
    simp only [registerStep]
    split <;> exact hscan trivial
  | region i => exact ⟨hscan trivial, by rintro _ ⟨⟩⟩
  | refresh | count => exact ⟨trivial, by rintro _ ⟨⟩⟩
  | claim k =>
    refine ⟨?_, by rintro _ ⟨⟩⟩
    simp only [registerStep]
    split
    · split <;> exact hscan trivial
    · trivial
  | writePid i =>
    refine ⟨hscan ?_, fun j hj => Or.inl hj⟩
    show ((reg.setEntry i _).entry i).pid = c.pid
    rw [reg.setEntry_entry, update_self]
  | writeTimestamp i =>
    refine ⟨hscan ?_, fun j hj => Or.inl hj⟩
    show ((reg.setEntry i _).entry i).pid = c.pid
    rw [reg.setEntry_entry, update_self]
    exact hwrote
  | writeRegion i =>
    refine ⟨hscan ?_, fun j hj => Or.inl hj⟩
    show ((reg.setEntry i _).entry i).pid = c.pid ∧
      ((reg.setEntry i _).entry i).region = cstr c.region
    rw [reg.setEntry_entry, update_self]
    exact ⟨hwrote, readFixedStr_writeFixedStr _ hregion⟩
  | writeUri i =>
    -- the last field: the entry is that of the call
    refine ⟨hscan trivial, fun j hj => Or.inr ?_⟩
    cases hj
    show ((reg.setEntry i _).entry i).Of c
    rw [reg.setEntry_entry, update_self]
    exact ⟨hwrote.1, hwrote.2, readFixedStr_writeFixedStr _ huri⟩

/-- A `discover` goes on with an entry of a call, and returns topics of calls. -/
theorem discoverStep_inv {pattern : Str} {found : List DiscoveredTopic} {pc : DiscoverPc}
    (h : ProcInv calls reg (.discover pattern found pc))
    (henter : ∀ i ∈ (Proc.discover pattern found pc).enters reg, ∃ c ∈ calls, (reg.entry i).Of c) :
    ProcInv calls reg ((Proc.discover pattern found pc).next reg).2.1 ∧
      ∀ d ∈ ((Proc.discover pattern found pc).next reg).2.2, ∃ c ∈ calls, d.Of c := by
  obtain ⟨hfound, hread⟩ := h
  cases pc with
  | load k =>
    simp only [Proc.next, discoverStep]
    by_cases hk : k < regMaxEntries
    · rw [dif_pos hk]
      by_cases hact : (reg.entry ⟨k, hk⟩).active = true
      · rw [if_pos hact]
        refine ⟨⟨hfound, henter ⟨k, hk⟩ ?_⟩, by rintro _ ⟨⟩⟩
        simp only [Proc.enters, dif_pos hk, if_pos hact]
        rfl
      · rw [if_neg hact]
        exact ⟨⟨hfound, trivial⟩, by rintro _ ⟨⟩⟩
    · rw [dif_neg hk]
      exact ⟨trivial, hfound⟩
  | uri i =>
    simp only [Proc.next, discoverStep]
    obtain ⟨c, hc, hof⟩ := hread
    by_cases hmatch : matchesPattern pattern (reg.entry i).uri = true
    · rw [if_pos hmatch]
      exact ⟨⟨hfound, c, hc, hof, hof.2.2⟩, by rintro _ ⟨⟩⟩
    · rw [if_neg hmatch]
      exact ⟨⟨hfound, trivial⟩, by rintro _ ⟨⟩⟩
  | region i u =>
    obtain ⟨c, hc, hof, hu⟩ := hread
    exact ⟨⟨hfound, c, hc, hof, hu, hof.2.1⟩, by rintro _ ⟨⟩⟩
  | pid i u r =>
    obtain ⟨c, hc, hof, hu, hr⟩ := hread
    exact ⟨⟨hfound, c, hc, hu, hr, hof.1⟩, by rintro _ ⟨⟩⟩
  | timestamp i u r n =>
    obtain ⟨c, hc, hu, hr, hn⟩ := hread
    refine ⟨⟨fun d hd => ?_, trivial⟩, by rintro _ ⟨⟩⟩
    rcases List.mem_append.mp hd with hold | hnew
    · exact hfound d hold
    · rw [List.mem_singleton.mp hnew]
      exact ⟨c, hc, hr, hu, hn⟩

/-- One step of any process, as far as it is concerned itself. -/
theorem next_inv {x : Proc} (h : ProcInv calls reg x)
    (henter : ∀ i ∈ x.enters reg, ∃ c ∈ calls, (reg.entry i).Of c) :
    ProcInv calls (x.next reg).1 (x.next reg).2.1 ∧
      (∀ d ∈ (x.next reg).2.2, ∃ c ∈ calls, d.Of c) ∧
      ∀ j, x.writing = some j → (x.next reg).2.1.writing = some j ∨
        ∃ c ∈ calls, ((x.next reg).1.entry j).Of c := by
  cases x with
  | idle => exact ⟨trivial, by rintro _ ⟨⟩, by rintro _ ⟨⟩⟩
  | register c pc =>
    obtain ⟨hnext, hdone⟩ := registerStep_inv h
    refine ⟨hnext, by rintro _ ⟨⟩, fun j hj => ?_⟩
    exact (hdone j hj).imp_right fun hof => ⟨c, h.1, hof⟩
  | unregister region pid pc =>
    refine ⟨?_, by rintro _ ⟨⟩, by rintro _ ⟨⟩⟩
    simp only [Proc.next]
    cases (unregisterStep region pid reg pc).2 <;> trivial
  | prune cutoff pc =>
    refine ⟨?_, by rintro _ ⟨⟩, by rintro _ ⟨⟩⟩
    simp only [Proc.next]
    cases (pruneStep cutoff reg pc).2 <;> trivial
  | discover pattern found pc =>
    obtain ⟨hnext, hret⟩ := discoverStep_inv h henter
    have hreg : ((Proc.discover pattern found pc).next reg).1 = reg := by
      simp only [Proc.next]
      split <;> rfl
    rw [hreg]
    exact ⟨hnext, hret, by rintro _ ⟨⟩⟩

/-! ### All processes -/

/-- Entries that are written have one writer and no reader; an active entry that nobody is writing
    is of one call, and so is every topic that was returned. -/
structure Inv (s : State P) : Prop where
  proc : ∀ p, ProcInv s.calls s.reg (s.proc p)
  single : ∀ p q i, (s.proc p).writing = some i → (s.proc q).writing = some i → p = q
  unread : ∀ p q i, (s.proc p).writing = some i → (s.proc q).reading ≠ some i
  entry : ∀ i, (s.reg.entry i).active = true → (∀ p, (s.proc p).writing ≠ some i) →
    ∃ c ∈ s.calls, (s.reg.entry i).Of c
  answers : ∀ d ∈ s.answers, ∃ c ∈ s.calls, d.Of c

/-- Nobody is writing or reading. -/
theorem init_inv : Inv (init P) where
  proc _ := trivial
  single := by rintro _ _ _ ⟨⟩
  unread := by rintro _ _ _ ⟨⟩
  entry := by rintro _ ⟨⟩
  answers := by rintro _ ⟨⟩

/-- A process does not write and read at once. -/
theorem Proc.reading_of_writing {x : Proc} {i : Slot} (h : x.writing = some i) :
    x.reading = none := by
  cases x with
  | register => rfl
  | _ => cases h

/-- What a `discover` turns to is active. -/
theorem Proc.active_of_enters {x : Proc} {i : Slot} (h : x.enters reg = some i) :
    (reg.entry i).active = true := by
  unfold Proc.enters at h
  split at h
  · split at h
    · split at h
      · rename_i hact
        cases h
        exact hact
      · cases h
    · cases h
  · cases h

section

variable [DecidableEq P] {s s' : State P} {a : Act P}

/-- Process `p` starts a call. -/
theorem Inv.start (h : Inv s) {p : P} (hp : s.proc p = .idle) {x : Proc} {cs : List RegisterCall}
    (hx : Started x cs) : Inv { s.move p x with calls := s.calls ++ cs } := by
  have hw : x.writing = none := by cases hx <;> rfl
  have hr : x.reading = none := by cases hx <;> rfl
  -- the new process writes and reads nothing, like the idle one
  have hwriting : ∀ q, (update s.proc p x q).writing = (s.proc q).writing := by
    intro q
    by_cases hq : q = p
    · rw [hq, update_self, hw, hp]
      rfl
    · rw [update_of_ne hq]
  have hreading : ∀ q, (update s.proc p x q).reading = (s.proc q).reading := by
    intro q
    by_cases hq : q = p
    · rw [hq, update_self, hr, hp]
      rfl
    · rw [update_of_ne hq]
  refine ⟨fun q => ?_, fun q q' i hq hq' => ?_, fun q q' i hq => ?_, fun i hact hno => ?_,
    fun d hd => exists_call_append cs (h.answers d hd)⟩
  · simp only [State.move]
    by_cases hq : q = p
    · rw [hq, update_self]
      cases hx with
      | register hregion huri =>
        exact ⟨List.mem_append_right _ (List.mem_singleton_self _), hregion, huri, trivial⟩
      | unregister | prune => trivial
      | discover => exact ⟨by rintro _ ⟨⟩, trivial⟩
    · rw [update_of_ne hq]
      exact (h.proc q).more cs
  · simp only [State.move, hwriting] at hq hq'
    exact h.single q q' i hq hq'
  · simp only [State.move, hwriting] at hq
    simp only [State.move, hreading]
    exact h.unread q q' i hq
  · simp only [State.move, hwriting] at hno
    exact exists_call_append cs (h.entry i hact hno)

/-- Process `p` makes a step. -/
theorem Inv.go (h : Inv s) {p : P} (hok : Apart s (.go p)) : Inv (s.go p) := by
  obtain ⟨hclaim, henter⟩ := hok
  have hspec := next_spec s.reg (s.proc p)
  obtain ⟨hown, hret, hdone⟩ := next_inv (h.proc p) fun i hi =>
    h.entry i (Proc.active_of_enters hi) (henter i hi)
  refine ⟨fun q => ?_, fun q q' i hq hq' => ?_, fun q q' i hq => ?_, fun i hact hno => ?_,
    fun d hd => ?_⟩
  · by_cases hq : q = p
    · simp only [State.go, hq, update_self]
      exact hown
    · simp only [State.go, update_of_ne hq]
      -- nobody else writes the entry that `q` is at
      refine (h.proc q).frame fun j hj => hspec.fields j fun hp => ?_
      rcases hj with hw | hr
      · exact hq (h.single q p j hw hp)
      · exact h.unread p q j hp hr
  · simp only [State.go] at hq hq'
    -- a new writer has claimed the entry, and then there was none
    have hnew : ∀ q, q ≠ p → (s.proc q).writing = some i →
        ((s.proc p).next s.reg).2.1.writing ≠ some i := by
      intro q hqp hqi hpi
      rcases hspec.writing i hpi with hold | hclaimed
      · -- `p` was writing it all along
        exact hqp (h.single q p i hqi hold)
      · exact (hclaim i hclaimed q).1 hqi
    by_cases hqp : q = p
    · by_cases hqp' : q' = p
      · rw [hqp, hqp']
      · rw [hqp, update_self] at hq
        rw [update_of_ne hqp'] at hq'
        exact absurd hq (hnew q' hqp' hq')
    · rw [update_of_ne hqp] at hq
      by_cases hqp' : q' = p
      · rw [hqp', update_self] at hq'
        exact absurd hq' (hnew q hqp hq)
      · rw [update_of_ne hqp'] at hq'
        exact h.single q q' i hq hq'
  · simp only [State.go] at hq ⊢
    by_cases hqp : q = p
    · rw [hqp, update_self] at hq
      by_cases hqp' : q' = p
      · rw [hqp', update_self, Proc.reading_of_writing hq]
        exact fun hnone => by cases hnone
      · rw [update_of_ne hqp']
        rcases hspec.writing i hq with hold | hclaimed
        · exact h.unread p q' i hold
        · exact (hclaim i hclaimed q').2
    · rw [update_of_ne hqp] at hq
      by_cases hqp' : q' = p
      · rw [hqp', update_self]
        intro hr
        rcases hspec.reading i hr with hold | hentered
        · exact h.unread q p i hq hold
        · exact henter i hentered q hq
      · rw [update_of_ne hqp']
        exact h.unread q q' i hq
  · simp only [State.go] at hact hno ⊢
    have hother : ∀ q, q ≠ p → (s.proc q).writing ≠ some i := by
      intro q hq
      have hnoq := hno q
      rw [update_of_ne hq] at hnoq
      exact hnoq
    have hself := hno p
    rw [update_self] at hself
    by_cases hp : (s.proc p).writing = some i
    · exact (hdone i hp).resolve_left hself
    · -- nobody was writing it, and its fields have not changed
      obtain ⟨c, hc, hof⟩ := h.entry i ((hspec.active i hact).resolve_right hself) fun q => by
        by_cases hq : q = p
        · rw [hq]
          exact hp
        · exact hother q hq
      exact ⟨c, hc, hof.same (hspec.fields i hp)⟩
  · rcases List.mem_append.mp hd with hold | hnew
    · exact h.answers d hold
    · exact hret d hnew

/-- **Step.** -/
theorem inv_step (h : Inv s) (hok : Apart s a) (hstep : step s a = some s') : Inv s' := by
  cases step_inv hstep with
  | skip => exact h
  | start hp hx => exact h.start hp hx
  | go => exact h.go hok

/-- **Registered topics only.** In every interleaving of `register`, `unregister`, `prune_stale`
    and `discover` calls in which nobody claims an entry that another process is writing or
    reading, and no `discover` turns to an entry that is being written, every topic that a
    `discover` returns has the region name, the URI (each up to its first NUL) and the pid of one
    `register` call. -/
theorem discover_returns_registered {as : List (Act P)} (hrun : Run step Apart (init P) as s)
    {d : DiscoveredTopic} (hd : d ∈ s.answers) :
    ∃ c ∈ s.calls, d.region = cstr c.region ∧ d.uri = cstr c.uri ∧ d.pid = c.pid :=
  (hrun.invariant init_inv fun _ _ _ h hok hstep => inv_step h hok hstep).answers d hd

end

/-- `Apart` for two processes: the other one is not at the entry. -/
def apart (s : State Bool) : Act Bool → Bool
  | .go p =>
    ((s.proc p).claims s.reg).all (fun i =>
      (s.proc !p).writing != some i && (s.proc !p).reading != some i) &&
    ((s.proc p).enters s.reg).all fun i => (s.proc !p).writing != some i
  | .register .. | .unregister .. | .prune .. | .discover .. => true

/-- A process that is claiming or turning to an entry is not writing or reading one. -/
theorem Proc.writing_of_claims {x : Proc} {i : Slot} (h : x.claims reg = some i) :
    x.writing = none ∧ x.reading = none := by
  unfold Proc.claims at h
  split at h
  · exact ⟨rfl, rfl⟩
  · cases h

/-- Who claims an entry has not been writing to one. -/
theorem Proc.writing_of_enters {x : Proc} {i : Slot} (h : x.enters reg = some i) :
    x.writing = none := by
  unfold Proc.enters at h
  split at h
  · rfl
  · cases h

/-- The executable condition implies the other one. -/
theorem apart_sound (s : State Bool) (a : Act Bool) (h : apart s a = true) : Apart s a := by
  cases a with
  | go p =>
    simp only [apart, Bool.and_eq_true, Option.all_eq_true, bne_iff_ne] at h
    have hother : ∀ q, q = p ∨ q = !p := by
      intro q
      cases q <;> cases p <;> simp
    refine ⟨fun i hi q => ?_, fun i hi q => ?_⟩
    · rcases hother q with rfl | rfl
      · obtain ⟨hw, hr⟩ := Proc.writing_of_claims hi
        rw [hw, hr]
        exact ⟨by rintro ⟨⟩, by rintro ⟨⟩⟩
      · exact h.1 i hi
    · rcases hother q with rfl | rfl
      · rw [Proc.writing_of_enters hi]
        rintro ⟨⟩
      · exact h.2 i hi
  | register | unregister | prune | discover => trivial

/-- One process registers two topics; the other one has started its search when the second entry is
    claimed and written. -/
def registerDuringDiscover : List (Act Bool) :=
  .register true (some 5) [114] [47] 1 :: List.replicate 263 (.go true) ++
    .register true (some 6) [115] [48] 2 :: List.replicate 100 (.go true) ++
    .discover false [42] :: .go false :: List.replicate 165 (.go true) ++
    List.replicate 264 (.go false)

/-- Both topics are found, and are those of the calls. -/
theorem discover_returns_registered_two : ∃ s,
    Run step Apart (init Bool) registerDuringDiscover s ∧
    s.answers = [⟨[114], [47], 1, 5⟩, ⟨[115], [48], 2, 6⟩] ∧
    ∃ c ∈ s.calls, [115] = cstr c.region ∧ [48] = cstr c.uri ∧ 2 = c.pid := by
  obtain ⟨s, hapart, hanswers⟩ := exists_run_of_exec step (fun s a => apart s a = true)
    (s := init Bool) (l := registerDuringDiscover)
    (p := fun s => s.answers = [⟨[114], [47], 1, 5⟩, ⟨[115], [48], 2, 6⟩]) (by decide +kernel)
  have hrun := hapart.mono apart_sound
  have hmem : (⟨[115], [48], 2, 6⟩ : DiscoveredTopic) ∈ s.answers := by
    rw [hanswers]
    exact List.mem_cons_of_mem _ (List.mem_singleton_self _)
  exact ⟨s, hrun, hanswers, discover_returns_registered hrun hmem⟩

/-- One process registers a topic, and the other one searches between the claim of the entry and
    the writes to it. -/
def discoverWithinRegister : List (Act Bool) :=
  .register true (some 5) [114] [47] 1 :: List.replicate 258 (.go true) ++
    .discover false [42] :: List.replicate 261 (.go false)

/-- **A topic that nobody registered.** A `discover` reads an entry that has been claimed and not
    yet written: it returns an empty region, an empty URI and the pid 0, while the only `register`
    call has other ones. -/
theorem unregistered_returned : ∃ s,
    Run step (fun _ _ => True) (init Bool) discoverWithinRegister s ∧
    s.answers = [⟨[], [], 0, 0⟩] ∧ s.calls = [⟨[114], [47], 1, 5⟩] :=
  exists_run_of_exec _ _ (by decide +kernel)

end Crossbar.Discovery
