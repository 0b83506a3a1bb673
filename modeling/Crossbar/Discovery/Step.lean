import Crossbar.Lib.Run
import Crossbar.Lib.Tally
import Crossbar.Discovery.Registry

namespace Crossbar.Discovery

open Crossbar.Lib

/-!
# Discovery — the steps of the registry calls

The calls of `Crossbar.Discovery.Registry` as any number of processes make them at the same time:
one access to the file a step.  The state of an entry is compared and exchanged; its fields are
plain memory.

* `registerStep`, `unregisterStep`, `pruneStep`, `discoverStep` — the four calls;
* `Proc.next` — one step of a process, and what its call returns when it ends;
* `step` — calls and steps of all processes.
-/

variable {P : Type*}

/-! ### `register` -/

/-- The arguments of a `register` call, and the time that it reads. -/
structure RegisterCall where
  region : Str
  uri : Str
  pid : Nat
  ts : Nat
  deriving DecidableEq

/-- Where `register` is. -/
inductive RegisterPc where
  /-- the state of entry `k` is loaded, if there is such an entry -/
  | load (k : Nat)
  /-- the pid of entry `i`, which was active, is compared -/
  | pid (i : Slot)
  | region (i : Slot)
  /-- the URI is read; `same` says whether the region name was the same -/
  | uri (i : Slot) (same : Bool)
  /-- entry `i` is the one: its timestamp is written -/
  | refresh (i : Slot)
  /-- the CAS on the state of entry `k`, if there is such an entry -/
  | claim (k : Nat)
  /-- entry `i` is claimed: its fields are written -/
  | writePid (i : Slot)
  | writeTimestamp (i : Slot)
  | writeRegion (i : Slot)
  | writeUri (i : Slot)
  /-- `fetch_add` on the count, for entry `i` -/
  | count (i : Slot)

/-- One step of `register`; `none` when it returns. -/
def registerStep (c : RegisterCall) (reg : Registry) : RegisterPc → Registry × Option RegisterPc
  | .load k =>
    if h : k < regMaxEntries then
      if (reg.entry ⟨k, h⟩).active then (reg, some (.pid ⟨k, h⟩)) else (reg, some (.load (k + 1)))
    else
      -- not found: the second scan
      (reg, some (.claim 0))
  | .pid i =>
    if (reg.entry i).pid = c.pid then (reg, some (.region i)) else (reg, some (.load (i + 1)))
  | .region i => (reg, some (.uri i ((reg.entry i).region == c.region)))
  | .uri i same =>
    if same && (reg.entry i).uri == c.uri then (reg, some (.refresh i))
    else (reg, some (.load (i + 1)))
  | .refresh i => (reg.setEntry i { reg.entry i with timestamp := c.ts }, none)
  | .claim k =>
    if h : k < regMaxEntries then
      if (reg.entry ⟨k, h⟩).active then (reg, some (.claim (k + 1)))
      else
        -- from here on the entry is active, with the fields that it had before
        (reg.setEntry ⟨k, h⟩ { reg.entry ⟨k, h⟩ with active := true }, some (.writePid ⟨k, h⟩))
    else (reg, none)
  | .writePid i =>
    (reg.setEntry i { reg.entry i with pid := c.pid }, some (.writeTimestamp i))
  | .writeTimestamp i =>
    (reg.setEntry i { reg.entry i with timestamp := c.ts }, some (.writeRegion i))
  | .writeRegion i =>
    (reg.setEntry i
      { reg.entry i with
        regionName := writeFixedStr (reg.entry i).regionName c.region reRegionNameMax },
      some (.writeUri i))
  | .writeUri i =>
    (reg.setEntry i
      { reg.entry i with topicUri := writeFixedStr (reg.entry i).topicUri c.uri reTopicUriMax },
      some (.count i))
  | .count _ => ({ reg with entryCount := wrap32 (reg.entryCount + 1) }, none)

/-! ### `unregister` and `prune_stale` -/

/-- Where the two calls are with an entry that they free. -/
inductive FreePc where
  /-- the CAS on the state of entry `i` -/
  | cas (i : Slot)
  /-- `fetch_sub` on the count -/
  | sub (i : Slot)
  /-- the count was 0: it is set to 0 again -/
  | clamp (i : Slot)

/-- One step; `none` when the loop goes on with the next entry. -/
def freeStep (reg : Registry) : FreePc → Registry × Option FreePc
  | .cas i =>
    if (reg.entry i).active then
      (reg.setEntry i { reg.entry i with active := false }, some (.sub i))
    else (reg, none)
  | .sub i =>
    -- the count wraps below 0 until the next step
    ({ reg with entryCount := dec32 reg.entryCount },
      if reg.entryCount = 0 then some (.clamp i) else none)
  | .clamp _ => ({ reg with entryCount := 0 }, none)

/-- The entry that is freed. -/
def FreePc.slot : FreePc → Slot
  | .cas i | .sub i | .clamp i => i

/-- Where `unregister` is. -/
inductive UnregisterPc where
  | load (k : Nat)
  | pid (i : Slot)
  | region (i : Slot)
  | free (f : FreePc)

/-- One step of `unregister`; `none` when it returns. -/
def unregisterStep (region : Str) (pid : Nat) (reg : Registry) :
    UnregisterPc → Registry × Option UnregisterPc
  | .load k =>
    if h : k < regMaxEntries then
      if (reg.entry ⟨k, h⟩).active then (reg, some (.pid ⟨k, h⟩)) else (reg, some (.load (k + 1)))
    else (reg, none)
  | .pid i =>
    if (reg.entry i).pid = pid then (reg, some (.region i)) else (reg, some (.load (i + 1)))
  | .region i =>
    if (reg.entry i).region = region then (reg, some (.free (.cas i)))
    else (reg, some (.load (i + 1)))
  | .free f =>
    ((freeStep reg f).1, some ((freeStep reg f).2.elim (.load (f.slot + 1)) .free))

/-- Where `prune_stale` is. -/
inductive PrunePc where
  | load (k : Nat)
  | timestamp (i : Slot)
  | free (f : FreePc)

/-- One step of `prune_stale`; `none` when it returns. -/
def pruneStep (cutoff : Nat) (reg : Registry) : PrunePc → Registry × Option PrunePc
  | .load k =>
    if h : k < regMaxEntries then
      if (reg.entry ⟨k, h⟩).active then (reg, some (.timestamp ⟨k, h⟩))
      else (reg, some (.load (k + 1)))
    else (reg, none)
  | .timestamp i =>
    if (reg.entry i).timestamp < cutoff then (reg, some (.free (.cas i)))
    else (reg, some (.load (i + 1)))
  | .free f =>
    ((freeStep reg f).1, some ((freeStep reg f).2.elim (.load (f.slot + 1)) .free))

/-! ### `discover` -/

/-- Where `discover` is, with what it has read of the entry. -/
inductive DiscoverPc where
  | load (k : Nat)
  | uri (i : Slot)
  | region (i : Slot) (uri : Str)
  | pid (i : Slot) (uri region : Str)
  | timestamp (i : Slot) (uri region : Str) (pid : Nat)

/-- How `discover` goes on: at the next step, with one more result, or not at all. -/
inductive DiscoverNext where
  | more (pc : DiscoverPc)
  | push (d : DiscoveredTopic) (pc : DiscoverPc)
  | ret

/-- One step of `discover`, which only reads. -/
def discoverStep (pattern : Str) (reg : Registry) : DiscoverPc → DiscoverNext
  | .load k =>
    if h : k < regMaxEntries then
      if (reg.entry ⟨k, h⟩).active then .more (.uri ⟨k, h⟩) else .more (.load (k + 1))
    else .ret
  | .uri i =>
    if matchesPattern pattern (reg.entry i).uri then .more (.region i (reg.entry i).uri)
    else .more (.load (i + 1))
  | .region i uri => .more (.pid i uri (reg.entry i).region)
  | .pid i uri region => .more (.timestamp i uri region (reg.entry i).pid)
  | .timestamp i uri region pid =>
    -- the state of the entry is not loaded again
    .push ⟨region, uri, pid, (reg.entry i).timestamp⟩ (.load (i + 1))

/-! ### Processes -/

/-- What a process is doing. -/
inductive Proc where
  | idle
  | register (c : RegisterCall) (pc : RegisterPc)
  | unregister (region : Str) (pid : Nat) (pc : UnregisterPc)
  | prune (cutoff : Nat) (pc : PrunePc)
  | discover (pattern : Str) (found : List DiscoveredTopic) (pc : DiscoverPc)

/-- A call goes on, or has returned. -/
def Proc.orIdle {α : Type*} (f : α → Proc) : Option α → Proc
  | some pc => f pc
  | none => .idle

/-- One step of a process: the registry, the process, and what the call returns. -/
def Proc.next (reg : Registry) : Proc → Registry × Proc × List DiscoveredTopic
  | .idle => (reg, .idle, [])
  | .register c pc =>
    ((registerStep c reg pc).1, orIdle (.register c) (registerStep c reg pc).2, [])
  | .unregister region pid pc =>
    ((unregisterStep region pid reg pc).1,
      orIdle (.unregister region pid) (unregisterStep region pid reg pc).2, [])
  | .prune cutoff pc =>
    ((pruneStep cutoff reg pc).1, orIdle (.prune cutoff) (pruneStep cutoff reg pc).2, [])
  | .discover pattern found pc =>
    match discoverStep pattern reg pc with
    | .more pc => (reg, .discover pattern found pc, [])
    | .push d pc => (reg, .discover pattern (found ++ [d]) pc, [])
    | .ret => (reg, .idle, found)

/-- Whether a process is between calls. -/
def Proc.isIdle : Proc → Bool
  | .idle => true
  | .register .. | .unregister .. | .prune .. | .discover .. => false

/-- The registry and the processes.  `calls` and `answers` are history: the `register` calls that
    were made, and what `discover` calls have returned. -/
structure State (P : Type*) where
  reg : Registry
  proc : P → Proc
  calls : List RegisterCall
  answers : List DiscoveredTopic

/-- A call, with the clock that it reads, or the next step of a running one. -/
inductive Act (P : Type*) where
  | register (p : P) (clock : Option Nat) (region uri : Str) (pid : Nat)
  | unregister (p : P) (region : Str) (pid : Nat)
  | prune (p : P) (clock : Option Nat) (staleTimeout : Nat)
  | discover (p : P) (pattern : Str)
  | go (p : P)

/-- A new registry, with nobody at it. -/
def init (P : Type*) : State P where
  reg := .createNew
  proc _ := .idle
  calls := []
  answers := []

variable [DecidableEq P]

namespace State

variable (s : State P) (p : P)

/-- Process `p` goes on with `x`. -/
def move (x : Proc) : State P := { s with proc := Function.update s.proc p x }

/-- The head of `register`: strings that are too long are skipped. -/
def startRegister (c : RegisterCall) : State P :=
  if reRegionNameMax ≤ c.region.length ∨ reTopicUriMax ≤ c.uri.length then s
  else { s.move p (.register c (.load 0)) with calls := s.calls ++ [c] }

/-- One step of process `p`. -/
def go : State P where
  reg := ((s.proc p).next s.reg).1
  proc := Function.update s.proc p ((s.proc p).next s.reg).2.1
  calls := s.calls
  answers := s.answers ++ ((s.proc p).next s.reg).2.2

end State

/-- A process starts a call when it is between calls, and goes on otherwise. -/
def step (s : State P) : Act P → Option (State P)
  | .register p clock region uri pid =>
    if (s.proc p).isIdle then
      some (s.startRegister p ⟨region, uri, pid, (nowMicros clock).getD 0⟩)
    else none
  | .unregister p region pid =>
    if (s.proc p).isIdle then some (s.move p (.unregister region pid (.load 0))) else none
  | .prune p clock staleTimeout =>
    if (s.proc p).isIdle then
      match nowMicros clock with
      | some now => some (s.move p (.prune (now - wrap64 staleTimeout) (.load 0)))
      | none => some s
    else none
  | .discover p pattern =>
    if (s.proc p).isIdle then some (s.move p (.discover pattern [] (.load 0))) else none
  | .go p => if (s.proc p).isIdle then none else some (s.go p)

/-! ### What an action can do -/

/-- The first step of a call, with the `register` call that it is, if it is one. -/
inductive Started : Proc → List RegisterCall → Prop
  | register {c : RegisterCall} (hregion : c.region.length < reRegionNameMax)
      (huri : c.uri.length < reTopicUriMax) : Started (.register c (.load 0)) [c]
  | unregister (region : Str) (pid : Nat) : Started (.unregister region pid (.load 0)) []
  | prune (cutoff : Nat) : Started (.prune cutoff (.load 0)) []
  | discover (pattern : Str) : Started (.discover pattern [] (.load 0)) []

/-- A call that is skipped, the start of a call, or a step of a running one. -/
inductive StepTo (s : State P) : Act P → State P → Prop
  | skip (a : Act P) : StepTo s a s
  | start {a : Act P} {p : P} {x : Proc} {cs : List RegisterCall} (hp : s.proc p = .idle)
      (hx : Started x cs) : StepTo s a { s.move p x with calls := s.calls ++ cs }
  | go {p : P} (hp : (s.proc p).isIdle = false) : StepTo s (.go p) (s.go p)

theorem Proc.eq_idle {x : Proc} (h : x.isIdle = true) : x = .idle := by
  cases x with
  | idle => rfl
  | _ => cases h

theorem step_inv {s s' : State P} {a : Act P} (hstep : step s a = some s') : StepTo s a s' := by
  have hstart : ∀ {a : Act P} {p : P} {x : Proc}, (s.proc p).isIdle = true → Started x [] →
      StepTo s a (s.move p x) := by
    intro a p x hidle hx
    -- no `register` call, so that the history of calls stays as it is
    have hto := StepTo.start (a := a) (Proc.eq_idle hidle) hx
    rw [List.append_nil] at hto
    exact hto
  cases a with
  | register p clock region uri pid =>
    simp only [step, Option.ite_none_right_eq_some, Option.some.injEq] at hstep
    obtain ⟨hidle, rfl⟩ := hstep
    unfold State.startRegister
    split
    · exact .skip _
    · rename_i hshort
      rw [not_or, Nat.not_le, Nat.not_le] at hshort
      exact .start (Proc.eq_idle hidle) (.register hshort.1 hshort.2)
  | unregister p region pid =>
    simp only [step, Option.ite_none_right_eq_some, Option.some.injEq] at hstep
    obtain ⟨hidle, rfl⟩ := hstep
    exact hstart hidle (.unregister region pid)
  | prune p clock staleTimeout =>
    simp only [step, Option.ite_none_right_eq_some] at hstep
    obtain ⟨hidle, hstep⟩ := hstep
    split at hstep
    · cases hstep
      exact hstart hidle (.prune _)
    · cases hstep
      exact .skip _
  | discover p pattern =>
    simp only [step, Option.ite_none_right_eq_some, Option.some.injEq] at hstep
    obtain ⟨hidle, rfl⟩ := hstep
    exact hstart hidle (.discover pattern)
  | go p =>
    simp only [step, Option.ite_none_left_eq_some, Option.some.injEq, Bool.not_eq_true] at hstep
    obtain ⟨hrun, rfl⟩ := hstep
    exact .go hrun

end Crossbar.Discovery
