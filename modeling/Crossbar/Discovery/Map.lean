import Crossbar.Lib.SlotTable
import Crossbar.Discovery.Registry

namespace Crossbar.Discovery

open Function Crossbar.Lib

/-!
# Discovery — the registry is a bounded map

What the registry is for: a map from (region, URI, pid) to a timestamp, with at most 256 keys.
The calls of `Crossbar.Discovery.Registry` are compared with the calls of such a map.

* `Registry.Refines` — the active entries are those of the map, no key is active twice, and
  `entry_count` is their number;
* `register_refines`, `clear_refines`, `collect_spec` — the calls, one by one;
* `Call.apply`, `Call.answer` — what each call does to the map, and returns from it;
* `registry_is_bounded_map` — the registry does the same, in every sequence of calls.
-/

/-- What identifies an entry. -/
structure Key where
  region : Str
  uri : Str
  pid : Nat
  deriving DecidableEq

/-- The key and the timestamp of an active entry. -/
def Entry.slot (e : Entry) : Option (Key × Nat) :=
  if e.active then some (⟨e.region, e.uri, e.pid⟩, e.timestamp) else none

/-- The entries as a table of keys and timestamps. -/
def Registry.slots (reg : Registry) : Slots Key Nat regMaxEntries := fun i => (reg.entry i).slot

/-- The registry stores the map, and counts its entries. -/
structure Registry.Refines (reg : Registry) (m : BoundedMap Key Nat regMaxEntries) : Prop where
  stores : Stores reg.slots m
  count : reg.entryCount = tally slotWeight reg.slots

variable {reg : Registry} {m : BoundedMap Key Nat regMaxEntries} {region uri : Str} {pid : Nat}

/-- A new registry is the empty map. -/
theorem createNew_refines : Registry.createNew.Refines .empty where
  stores := .empty
  count := (tally_eq_zero _ _ fun _ => rfl).symm

/-! ### Entries and slots -/

/-- An active entry is its key and its timestamp. -/
theorem Entry.slot_eq_some {e : Entry} {k : Key} {ts : Nat} : e.slot = some (k, ts) ↔
    e.active = true ∧ k = ⟨e.region, e.uri, e.pid⟩ ∧ ts = e.timestamp := by
  unfold Entry.slot
  split
  · rename_i hact
    rw [Option.some.injEq, Prod.mk.injEq, eq_comm, @eq_comm _ e.timestamp]
    exact (and_iff_right hact).symm
  · rename_i hact
    exact iff_of_false (by simp) fun h => hact h.1

/-- An inactive entry is nothing. -/
theorem Entry.slot_eq_none {e : Entry} : e.slot = none ↔ e.active = false := by
  unfold Entry.slot
  cases e.active <;> simp

/-- The slot of an entry that `register` has written. -/
theorem Entry.written_slot (e : Entry) {region uri : Str} (pid ts : Nat)
    (hregion : region.length < reRegionNameMax) (huri : uri.length < reTopicUriMax) :
    (e.written region uri pid ts).slot = some (⟨cstr region, cstr uri, pid⟩, ts) := by
  rw [slot_eq_some]
  refine ⟨rfl, ?_, rfl⟩
  rw [Key.mk.injEq]
  refine ⟨?_, ?_, rfl⟩
  · exact (readFixedStr_writeFixedStr _ hregion).symm
  · exact (readFixedStr_writeFixedStr _ huri).symm

namespace Registry

/-- A store changes one slot. -/
theorem setEntry_slots (reg : Registry) (i : Slot) (e : Entry) :
    (reg.setEntry i e).slots = update reg.slots i e.slot := by
  ext1 j
  by_cases hj : j = i
  · rw [hj, update_self]
    exact congrArg Entry.slot (update_self ..)
  · rw [update_of_ne hj]
    exact congrArg Entry.slot (update_of_ne hj ..)

/-! ### Registration -/

/-- The entry that is found has the key. -/
theorem findEntry_some {i : Slot} (h : reg.findEntry region uri pid = some i) :
    reg.slots i = some (⟨region, uri, pid⟩, (reg.entry i).timestamp) := by
  have hmatch := List.find?_some h
  simp only [Bool.and_eq_true, beq_iff_eq] at hmatch
  obtain ⟨⟨hact, hpid⟩, hregion, huri⟩ := hmatch
  rw [slots, Entry.slot_eq_some, hregion, huri, hpid]
  exact ⟨hact, rfl, rfl⟩

/-- When no entry is found, none has the key. -/
theorem findEntry_none (h : reg.findEntry region uri pid = none) (i : Slot) (ts : Nat) :
    reg.slots i ≠ some (⟨region, uri, pid⟩, ts) := by
  intro hi
  rw [slots, Entry.slot_eq_some, Key.mk.injEq] at hi
  obtain ⟨hact, ⟨hregion, huri, hpid⟩, -⟩ := hi
  refine List.find?_eq_none.mp h i (List.mem_finRange i) ?_
  simp [hact, hregion, huri, hpid]

/-- The entry that `freeEntry` finds is free. -/
theorem freeEntry_some {i : Slot} (h : reg.freeEntry = some i) : reg.slots i = none := by
  have hmatch := List.find?_some h
  rw [Bool.not_eq_true'] at hmatch
  exact Entry.slot_eq_none.mpr hmatch

/-- When `freeEntry` finds none, the registry is full. -/
theorem freeEntry_none (h : reg.freeEntry = none) (i : Slot) : reg.slots i ≠ none := by
  intro hi
  refine List.find?_eq_none.mp h i (List.mem_finRange i) ?_
  rw [Entry.slot_eq_none.mp hi]
  rfl

/-- `entry_count` cannot overflow. -/
theorem regMaxEntries_lt : regMaxEntries < 2 ^ 32 - 1 := by decide

/-- There are no more entries than slots. -/
theorem count_le (reg : Registry) : tally slotWeight reg.slots ≤ regMaxEntries := by
  calc tally slotWeight reg.slots ≤ ∑ _ : Slot, 1 := by
        refine Finset.sum_le_sum fun i _ => ?_
        cases reg.slots i <;> simp [slotWeight]
    _ = regMaxEntries := by simp

/-- Strings that are too long are ignored. -/
theorem register_of_long (reg : Registry) (clock : Option Nat) (pid : Nat)
    (hlong : reRegionNameMax ≤ region.length ∨ reTopicUriMax ≤ uri.length) :
    reg.register clock region uri pid = reg := if_pos hlong

/-- `register` puts the key otherwise. -/
theorem register_refines (h : reg.Refines m) (clock : Option Nat) (pid : Nat)
    (hregion : (0 : UInt8) ∉ region) (huri : (0 : UInt8) ∉ uri)
    (hshort : ¬(reRegionNameMax ≤ region.length ∨ reTopicUriMax ≤ uri.length)) :
    (reg.register clock region uri pid).Refines
      (m.put ⟨region, uri, pid⟩ ((nowMicros clock).getD 0)) := by
  rw [register, if_neg hshort]
  rw [not_or, Nat.not_le, Nat.not_le] at hshort
  cases hfind : reg.findEntry region uri pid with
  | some i =>
    -- refreshed in its slot
    have hi := findEntry_some hfind
    have hslot : ({ reg.entry i with timestamp := (nowMicros clock).getD 0 } : Entry).slot =
        some (⟨region, uri, pid⟩, (nowMicros clock).getD 0) := by
      rw [slots, Entry.slot_eq_some] at hi
      exact Entry.slot_eq_some.mpr ⟨hi.1, hi.2.1, rfl⟩
    refine ⟨?_, ?_⟩
    · show Stores (setEntry reg i _).slots _
      rw [setEntry_slots, hslot]
      exact h.stores.refresh hi _
    · show reg.entryCount = tally slotWeight (setEntry reg i _).slots
      have htally := tally_update slotWeight reg.slots i
        (some (⟨region, uri, pid⟩, (nowMicros clock).getD 0))
      rw [hi] at htally
      rw [setEntry_slots, hslot, h.count]
      exact (Nat.add_right_cancel htally).symm
  | none =>
    cases hfree : reg.freeEntry with
    | some i =>
      -- a new key, in the first free slot
      have hi := freeEntry_some hfree
      have hslot := (reg.entry i).written_slot pid ((nowMicros clock).getD 0) hshort.1 hshort.2
      rw [cstr_of_not_mem hregion, cstr_of_not_mem huri] at hslot
      have hslots : (reg.setEntry i ((reg.entry i).written region uri pid
          ((nowMicros clock).getD 0))).slots =
          update reg.slots i (some (⟨region, uri, pid⟩, (nowMicros clock).getD 0)) := by
        rw [setEntry_slots, hslot]
      refine ⟨?_, ?_⟩
      · show Stores (setEntry reg i _).slots _
        rw [hslots]
        exact h.stores.fill (findEntry_none hfind) hi _
      · show wrap32 (reg.entryCount + 1) = tally slotWeight (setEntry reg i _).slots
        have htally := tally_update slotWeight reg.slots i
          (some (⟨region, uri, pid⟩, (nowMicros clock).getD 0))
        have hle := count_le reg
        have hmax := regMaxEntries_lt
        rw [hi] at htally
        simp only [slotWeight, Nat.add_zero] at htally
        rw [hslots, h.count, wrap32_of_lt (by omega), htally]
    | none =>
      -- a new key that finds no room is ignored
      exact ⟨h.stores.full (findEntry_none hfind) (freeEntry_none hfree) _, h.count⟩

end Registry

/-! ### Removal -/

/-- An entry after the loop body of `unregister` or `prune_stale`. -/
def Entry.cleared (test : Entry → Bool) (e : Entry) : Entry :=
  if e.active && test e then { e with active := false } else e

/-- Clearing twice is clearing once. -/
theorem Entry.cleared_cleared (test : Entry → Bool) (e : Entry) :
    (e.cleared test).cleared test = e.cleared test := by
  unfold cleared
  by_cases h : (e.active && test e) = true
  · rw [if_pos h]
    rfl
  · rw [if_neg h, if_neg h]

/-- Of the slot, what passes the opposite test is left. -/
theorem Entry.cleared_slot {test : Entry → Bool} {p : Key → Nat → Bool}
    (htest : ∀ e : Entry, test e = !p ⟨e.region, e.uri, e.pid⟩ e.timestamp) (e : Entry) :
    (e.cleared test).slot = e.slot.filter fun x => p x.1 x.2 := by
  unfold cleared slot
  rw [htest e]
  cases hact : e.active with
  | false =>
    rw [Bool.false_and, if_neg Bool.false_ne_true, hact]
    rfl
  | true =>
    cases hp : p ⟨e.region, e.uri, e.pid⟩ e.timestamp with
    | false => simp [Option.filter, hp]
    | true => simp [Option.filter, hp, hact]

namespace Registry

/-- One round of the loop clears one entry, if the test says so. -/
theorem clearAt_entry (test : Entry → Bool) (reg : Registry) (i : Slot) :
    (reg.clearAt test i).entry = update reg.entry i ((reg.entry i).cleared test) := by
  unfold clearAt Entry.cleared
  split
  · rfl
  · rw [update_eq_self]

/-- The same for the slots of the map. -/
theorem clearAt_slots (test : Entry → Bool) (reg : Registry) (i : Slot) :
    (reg.clearAt test i).slots =
      update reg.slots i ((reg.entry i).cleared test).slot := by
  rw [← setEntry_slots]
  ext1 j
  rw [slots, clearAt_entry]
  rfl

/-- The count goes down when an entry is cleared. -/
theorem clearAt_count {test : Entry → Bool} (i : Slot)
    (h : reg.entryCount = tally slotWeight reg.slots) :
    (reg.clearAt test i).entryCount = tally slotWeight (reg.clearAt test i).slots := by
  have htally := tally_update slotWeight reg.slots i ((reg.entry i).cleared test).slot
  have hle := count_le reg
  have hmax := regMaxEntries_lt
  rw [clearAt_slots]
  by_cases hclear : ((reg.entry i).active && test (reg.entry i)) = true
  · have hnone : ((reg.entry i).cleared test).slot = none := by
      rw [Entry.cleared, if_pos hclear]
      rfl
    have hsome : slotWeight (reg.slots i) = 1 := by
      rw [slots, Entry.slot, if_pos (Bool.and_eq_true_iff.mp hclear).1]
      rfl
    -- the slot counts, so that the count is not 0 and the clamp is not taken
    have hone := le_tally slotWeight reg.slots i
    have hzero : slotWeight (none : Option (Key × Nat)) = 0 := rfl
    rw [hsome] at htally hone
    rw [hnone, hzero] at htally
    rw [hnone, clearAt, if_pos hclear]
    show countDown reg.entryCount = _
    rw [countDown, if_neg (by omega), dec32_of_pos (by omega) (by omega)]
    omega
  · have hsame : ((reg.entry i).cleared test).slot = reg.slots i := by
      rw [Entry.cleared, if_neg hclear, slots]
    rw [hsame, update_eq_self, clearAt, if_neg hclear, h]

/-- The loop, over any list of slots: those in the list are cleared, and the count stays right. -/
theorem foldl_clearAt (test : Entry → Bool) (l : List Slot) (reg : Registry) :
    (∀ i, (l.foldl (fun reg i => reg.clearAt test i) reg).entry i =
      if i ∈ l then (reg.entry i).cleared test else reg.entry i) ∧
    (reg.entryCount = tally slotWeight reg.slots →
      (l.foldl (fun reg i => reg.clearAt test i) reg).entryCount =
        tally slotWeight (l.foldl (fun reg i => reg.clearAt test i) reg).slots) := by
  induction l generalizing reg with
  | nil => exact ⟨fun i => by simp, fun h => h⟩
  | cons j l ih =>
    obtain ⟨hentry, hcount⟩ := ih (reg.clearAt test j)
    rw [List.foldl_cons]
    refine ⟨fun i => ?_, fun h => hcount (clearAt_count j h)⟩
    rw [hentry, clearAt_entry]
    by_cases hij : i = j
    · subst hij
      rw [update_self, if_pos List.mem_cons_self, Entry.cleared_cleared, ite_self]
    · rw [update_of_ne hij]
      simp only [List.mem_cons, hij, false_or]

/-- `unregister` and `prune_stale` keep the keys that fail their test. -/
theorem clear_refines {test : Entry → Bool} {p : Key → Nat → Bool}
    (htest : ∀ e : Entry, test e = !p ⟨e.region, e.uri, e.pid⟩ e.timestamp)
    (h : reg.Refines m) : (reg.clear test).Refines (m.keep p) := by
  obtain ⟨hentry, hcount⟩ := foldl_clearAt test (List.finRange regMaxEntries) reg
  refine ⟨?_, hcount h.count⟩
  have hslots : (reg.clear test).slots = fun i => (reg.slots i).filter fun x => p x.1 x.2 := by
    ext1 i
    rw [slots, clear, hentry, if_pos (List.mem_finRange i), Entry.cleared_slot htest]
    rfl
  rw [hslots]
  exact h.stores.keep p

/-! ### Queries -/

/-- An entry of the map, as it is returned. -/
def toTopic (e : Key × Nat) : DiscoveredTopic := ⟨e.1.region, e.1.uri, e.1.pid, e.2⟩

end Registry

/-- The key of a topic that was found. -/
def DiscoveredTopic.key (d : DiscoveredTopic) : Key := ⟨d.region, d.uri, d.pid⟩

namespace Registry

/-- A discovered topic is a key with its timestamp. -/
theorem toTopic_eq {e : Key × Nat} {d : DiscoveredTopic} :
    toTopic e = d ↔ e = (d.key, d.timestampUs) := by
  constructor
  · rintro rfl
    rfl
  · rintro rfl
    rfl

/-- The loop goes through the slots, and picks those that pass. -/
theorem collect_eq {test : Entry → Bool} {p : Key → Nat → Bool}
    (htest : ∀ e : Entry, test e = p ⟨e.region, e.uri, e.pid⟩ e.timestamp) (reg : Registry)
    (pattern : Str) : reg.collect pattern test =
      (((List.finRange regMaxEntries).filterMap reg.slots).filter fun e =>
        p e.1 e.2 && matchesPattern pattern e.1.uri).map toTopic := by
  unfold collect
  rw [List.filter_filterMap, List.map_filterMap]
  congr 1
  ext1 i
  simp only [slots, Entry.slot, htest]
  cases (reg.entry i).active with
  | false => rfl
  | true =>
    simp only [Bool.true_and, if_true, Option.filter]
    split <;> rfl

/-- A query returns each matching entry of the map once. -/
theorem collect_spec {test : Entry → Bool} {p : Key → Nat → Bool}
    (htest : ∀ e : Entry, test e = p ⟨e.region, e.uri, e.pid⟩ e.timestamp)
    (h : reg.Refines m) (pattern : Str) :
    (reg.collect pattern test).Nodup ∧ ∀ d, d ∈ reg.collect pattern test ↔
      m.get d.key = some d.timestampUs ∧ p d.key d.timestampUs = true ∧
        matchesPattern pattern d.uri = true := by
  rw [collect_eq htest]
  constructor
  · refine (h.stores.nodup_entries.filter _).map ?_
    intro e e' heq
    exact (toTopic_eq.mp heq).trans (toTopic_eq.mp rfl).symm
  · intro d
    simp only [List.mem_map, toTopic_eq, exists_eq_right, List.mem_filter, h.stores.mem_entries,
      Bool.and_eq_true]
    rfl

/-! ### The calls -/

/-- `unregister` removes the keys of one region and process. -/
theorem unregister_refines (h : reg.Refines m) (region : Str) (pid : Nat) :
    (reg.unregister region pid).Refines
      (m.keep fun k _ => !(k.pid == pid && k.region == region)) := by
  refine clear_refines (fun e => ?_) h
  rw [Bool.not_not]

/-- `prune_stale` removes what is older than the timeout. -/
theorem pruneStale_refines (h : reg.Refines m) (clock staleTimeout : Nat) :
    (reg.pruneStale (some clock) staleTimeout).Refines
      (m.keep fun _ ts => wrap64 clock - wrap64 staleTimeout ≤ ts) := by
  refine clear_refines (fun e => ?_) h
  rw [← decide_not, decide_eq_decide, Nat.not_le]

/-- `discover` returns the topics that match, each once. -/
theorem discover_spec (h : reg.Refines m) (pattern : Str) :
    (reg.discover pattern).Nodup ∧ ∀ d, d ∈ reg.discover pattern ↔
      m.get d.key = some d.timestampUs ∧ matchesPattern pattern d.uri = true := by
  have hspec := collect_spec (p := fun _ _ => true) (fun _ => rfl) h pattern
  simp only [true_and] at hspec
  exact hspec

/-- `discover_since` returns those of them that are newer. -/
theorem discoverSince_spec (h : reg.Refines m) (pattern : Str) (sinceUs : Nat) :
    (reg.discoverSince pattern sinceUs).Nodup ∧ ∀ d, d ∈ reg.discoverSince pattern sinceUs ↔
      m.get d.key = some d.timestampUs ∧ sinceUs < d.timestampUs ∧
        matchesPattern pattern d.uri = true := by
  have hspec := collect_spec (p := fun _ ts => sinceUs < ts) (fun _ => rfl) h pattern
  simp only [decide_eq_true_eq] at hspec
  exact hspec

end Registry

/-- A call, with the clock that it reads. -/
inductive Call where
  | register (clock : Nat) (region uri : Str) (pid : Nat)
  | unregister (region : Str) (pid : Nat)
  | pruneStale (clock staleTimeout : Nat)
  | discover (pattern : Str)
  | discoverSince (pattern : Str) (sinceUs : Nat)

/-- The registry after a call, and what the call returns. -/
def Registry.call (reg : Registry) : Call → Registry × List DiscoveredTopic
  | .register clock region uri pid => (reg.register (some clock) region uri pid, [])
  | .unregister region pid => (reg.unregister region pid, [])
  | .pruneStale clock staleTimeout => (reg.pruneStale (some clock) staleTimeout, [])
  | .discover pattern => (reg, reg.discover pattern)
  | .discoverSince pattern sinceUs => (reg, reg.discoverSince pattern sinceUs)

namespace Call

/-- Registered strings have no NUL, and a timeout is below 2^64 microseconds. -/
def Admissible : Call → Prop
  | .register _ region uri _ => (0 : UInt8) ∉ region ∧ (0 : UInt8) ∉ uri
  | .pruneStale _ staleTimeout => staleTimeout < 2 ^ 64
  | .unregister .. | .discover _ | .discoverSince .. => True

/-- What a call does to the map.  A clock reading is a `u64`. -/
noncomputable def apply (m : BoundedMap Key Nat regMaxEntries) :
    Call → BoundedMap Key Nat regMaxEntries
  | .register clock region uri pid =>
    if 48 ≤ region.length ∨ 64 ≤ uri.length then m else m.put ⟨region, uri, pid⟩ (wrap64 clock)
  | .unregister region pid => m.keep fun k _ => !(k.pid == pid && k.region == region)
  | .pruneStale clock staleTimeout => m.keep fun _ ts => wrap64 clock - staleTimeout ≤ ts
  | .discover _ | .discoverSince .. => m

/-- What a call returns, as a set of entries of the map. -/
def answer (m : BoundedMap Key Nat regMaxEntries) : Call → Set DiscoveredTopic
  | .discover pattern =>
    {d | m.get d.key = some d.timestampUs ∧ matchesPattern pattern d.uri = true}
  | .discoverSince pattern sinceUs =>
    {d | m.get d.key = some d.timestampUs ∧ sinceUs < d.timestampUs ∧
      matchesPattern pattern d.uri = true}
  | .register .. | .unregister .. | .pruneStale .. => ∅

end Call

/-- One call. -/
theorem call_refines {c : Call} (hc : c.Admissible) (h : reg.Refines m) :
    (reg.call c).1.Refines (c.apply m) := by
  cases c with
  | register clock region uri pid =>
    simp only [Registry.call, Call.apply]
    by_cases hlong : 48 ≤ region.length ∨ 64 ≤ uri.length
    · rw [if_pos hlong, Registry.register_of_long reg (some clock) pid hlong]
      exact h
    · rw [if_neg hlong]
      exact Registry.register_refines h (some clock) pid hc.1 hc.2 hlong
  | unregister region pid =>
    simp only [Registry.call, Call.apply]
    exact Registry.unregister_refines h region pid
  | pruneStale clock staleTimeout =>
    simp only [Registry.call, Call.apply]
    have hprune := Registry.pruneStale_refines h clock staleTimeout
    rw [wrap64_of_lt hc] at hprune
    exact hprune
  | discover | discoverSince => exact h

/-- What one call returns. -/
theorem call_answer (c : Call) (h : reg.Refines m) :
    (reg.call c).2.Nodup ∧ ∀ d, d ∈ (reg.call c).2 ↔ d ∈ c.answer m := by
  cases c with
  | discover pattern => exact Registry.discover_spec h pattern
  | discoverSince pattern sinceUs => exact Registry.discoverSince_spec h pattern sinceUs
  | register | unregister | pruneStale =>
    exact ⟨List.nodup_nil, fun d => by simp [Registry.call, Call.answer]⟩

/-- A sequence of calls. -/
theorem calls_refine {calls : List Call} (hcalls : ∀ c ∈ calls, c.Admissible)
    (h : reg.Refines m) :
    (calls.foldl (fun reg c => (reg.call c).1) reg).Refines
      (calls.foldl (fun m c => c.apply m) m) := by
  induction calls generalizing reg m with
  | nil => exact h
  | cons c calls ih =>
    rw [List.foldl_cons, List.foldl_cons]
    apply ih
    · intro c' hc'
      exact hcalls c' (List.mem_cons_of_mem c hc')
    · exact call_refines (hcalls c List.mem_cons_self) h

/-- **The registry is a bounded map.** After any sequence of calls, the active entries are those
    of the map that the calls make of the empty map, each key in one entry; `entry_count` is the
    size of the map; and every call returns what it would return of the map, each entry once. -/
theorem registry_is_bounded_map (calls : List Call) (hcalls : ∀ c ∈ calls, c.Admissible) :
    let reg := calls.foldl (fun reg c => (reg.call c).1) Registry.createNew
    let m : BoundedMap Key Nat 256 := calls.foldl (fun m c => c.apply m) .empty
    Stores reg.slots m ∧ reg.entryCount = m.size ∧
      ∀ c, (reg.call c).2.Nodup ∧ ∀ d, d ∈ (reg.call c).2 ↔ d ∈ c.answer m := by
  intro reg m
  have h : reg.Refines m := calls_refine hcalls createNew_refines
  exact ⟨h.stores, h.count.trans h.stores.occupied, fun c => call_answer c h⟩

/-- Two registrations, one of them refreshed, and a removal. -/
def fewCalls : List Call :=
  [.register 5 [114] [47, 97] 1, .register 6 [114] [47, 98] 2, .register 7 [114] [47, 97] 1,
    .unregister [114] 2]

/-- What is left is found under its prefix. -/
theorem registry_is_bounded_map_few :
    (fewCalls.foldl (fun reg c => (reg.call c).1) Registry.createNew).entryCount = 1 ∧
      (fewCalls.foldl (fun m c => c.apply m) .empty : BoundedMap Key Nat 256).size = 1 ∧
      (⟨[114], [47, 97], 1, 7⟩ : DiscoveredTopic) ∈
        (Call.discover [47, 42]).answer (fewCalls.foldl (fun m c => c.apply m) .empty) := by
  obtain ⟨-, hcount, hanswer⟩ := registry_is_bounded_map fewCalls
    (by simp [fewCalls, Call.Admissible])
  have hone : (fewCalls.foldl (fun reg c => (reg.call c).1) Registry.createNew).entryCount = 1 := by
    decide +kernel
  have hfound : (⟨[114], [47, 97], 1, 7⟩ : DiscoveredTopic) ∈
      ((fewCalls.foldl (fun reg c => (reg.call c).1) Registry.createNew).call
        (.discover [47, 42])).2 := by
    decide +kernel
  exact ⟨hone, hcount.symm.trans hone, ((hanswer (.discover [47, 42])).2 _).mp hfound⟩

end Crossbar.Discovery
