import Crossbar.Lib.Run
import Crossbar.Lib.Scan
import Crossbar.Region.Model

namespace Crossbar.Topics

open Function Crossbar.Lib Crossbar.Region

/-!
# Topics — concurrent registration

`register_inner` and `subscribe` on the topic table, one operation on a topic entry a step, for
any number of processes.  A call first looks through the `ACTIVE` entries for its URI; when the
URI is not there, `register_inner` goes through the table again and claims the first entry it
can turn from `FREE` to `INIT`, fills it and makes it `ACTIVE`.

* `lookStep` — the scan that `register_inner` and `subscribe` share;
* `registerStep` — the two phases of `register_inner`;
* `Keeps` — what one process may rely on when another one moves;
* `Inv` — at most one `ACTIVE` entry for a URI, and whoever is past its scan for a URI knows
  that there is none;
* `registration_agrees` — for runs in which no two registrations of one URI overlap.  The
  claim of an entry is atomic, but it is not tied to the scan before it:
  `overlapping_registers_split_topic` is what two overlapping calls can do;
* `registerInner_alone` — a call with nothing between its steps is that of `Crossbar.Region`.

The discovery registry, to which `register_inner` also writes the URI, is not read by these
calls.
-/

variable {cfg : ValidConfig} {P : Type*}

/-- The word `TE_ACTIVE`: `TE_STATE_FREE`, `TE_STATE_INIT` or `TE_STATE_ACTIVE`. -/
inductive EntryState where
  | free
  | init
  | active
  deriving DecidableEq

/-- What a registration writes to a topic entry, and its state; `uri` is
    `TE_URI[0..TE_URI_LEN)`. -/
structure Entry where
  state : EntryState
  uriHash : UInt64
  uri : List UInt8
  typeSize : Nat
  writeSeq : Nat

/-- The topic table. -/
abbrev Table (cfg : ValidConfig) : Type := cfg.Topic → Entry

/-- Where a call is in the scan for an active entry. -/
inductive LookPc (cfg : ValidConfig) where
  /-- the state of entry `k` is loaded, if there is such an entry -/
  | load (k : Nat)
  /-- entry `i` was active; its hash, length and bytes are compared -/
  | compare (i : cfg.Topic)
  deriving DecidableEq

/-- How the scan goes on, or ends. -/
inductive Look (cfg : ValidConfig) where
  | more (l : LookPc cfg)
  | found (i : cfg.Topic)
  | absent

/-- One step of the scan for `uri`. -/
def lookStep (tbl : Table cfg) (uri : List UInt8) : LookPc cfg → Look cfg
  | .load k =>
    if h : k < cfg.maxTopics then
      if (tbl ⟨k, h⟩).state = .active then .more (.compare ⟨k, h⟩) else .more (.load (k + 1))
    else .absent
  | .compare i =>
    if (tbl i).uriHash = uriHash uri ∧ (tbl i).uri = uri then .found i else .more (.load (i + 1))

/-- The arguments of `register_inner`. -/
structure Call where
  uri : List UInt8
  typeSize : Nat

/-- Where `register_inner` is. -/
inductive RegisterPc (cfg : ValidConfig) where
  | look (l : LookPc cfg)
  /-- the CAS on the state of entry `k`, if there is such an entry -/
  | claim (k : Nat)
  /-- entry `i` is claimed and its fields are written -/
  | fill (i : cfg.Topic)
  /-- the state of entry `i` is stored -/
  | activate (i : cfg.Topic)

/-- How `register_inner` goes on, or what it returns. -/
inductive Next (cfg : ValidConfig) where
  | more (pc : RegisterPc cfg)
  | ret (r : Except Error cfg.Topic)

/-- One step of `register_inner`. -/
def registerStep (c : Call) (tbl : Table cfg) : RegisterPc cfg → Table cfg × Next cfg
  | .look l =>
    match lookStep tbl c.uri l with
    | .more l => (tbl, .more (.look l))
    | .found i => (tbl, .ret (.ok i))
    | .absent => (tbl, .more (.claim 0))
  | .claim k =>
    if h : k < cfg.maxTopics then
      if (tbl ⟨k, h⟩).state = .free then
        (update tbl ⟨k, h⟩ { tbl ⟨k, h⟩ with state := .init }, .more (.fill ⟨k, h⟩))
      else (tbl, .more (.claim (k + 1)))
    else (tbl, .ret (.error .maxTopicsReached))
  | .fill i =>
    (update tbl i
      { tbl i with uriHash := uriHash c.uri, uri := c.uri, writeSeq := 0, typeSize := c.typeSize },
      .more (.activate i))
  | .activate i => (update tbl i { tbl i with state := .active }, .ret (.ok i))

/-- What a process is doing. -/
inductive Proc (cfg : ValidConfig) where
  | idle
  | register (c : Call) (pc : RegisterPc cfg)
  | subscribe (uri : List UInt8) (l : LookPc cfg)

/-- The two kinds of calls. -/
inductive Kind where
  | register
  | subscribe
  deriving DecidableEq

/-- A call that has returned: what it was called with, and the topic index of the handle or
    the stream. -/
structure Answer (cfg : ValidConfig) where
  kind : Kind
  uri : List UInt8
  result : Except Error cfg.Topic
  deriving DecidableEq

/-- The topic table and the processes; `answers` is history. -/
structure State (cfg : ValidConfig) (P : Type*) where
  table : Table cfg
  proc : P → Proc cfg
  answers : List (Answer cfg)

/-- A call, or the next step of a running one. -/
inductive Act (P : Type*) where
  | register (p : P) (uri : List UInt8)
  | registerTyped (p : P) (uri : List UInt8) (size align : Nat)
  | subscribe (p : P) (uri : List UInt8)
  | go (p : P)

/-- The table of a new region. -/
def init (cfg : ValidConfig) (P : Type*) : State cfg P where
  table := fun _ => ⟨.free, 0, [], 0, 0⟩
  proc := fun _ => .idle
  answers := []

section

variable [DecidableEq P]

namespace State

variable (s : State cfg P) (p : P)

/-- Process `p` goes on with `x`, and leaves the table `tbl`. -/
def move (tbl : Table cfg) (x : Proc cfg) : State cfg P :=
  { s with table := tbl, proc := update s.proc p x }

/-- The call of process `p` returns. -/
def answer (tbl : Table cfg) (a : Answer cfg) : State cfg P where
  table := tbl
  proc := update s.proc p .idle
  answers := s.answers ++ [a]

/-- The check at the head of `register_inner`. -/
def startRegister (c : Call) : State cfg P :=
  if teUriMax < c.uri.length then
    s.answer p s.table ⟨.register, c.uri, .error (.uriTooLong c.uri.length teUriMax)⟩
  else s.move p s.table (.register c (.look (.load 0)))

end State

/-- One action. -/
def step (s : State cfg P) : Act P → Option (State cfg P)
  | .register p uri =>
    match s.proc p with
    | .idle => some (s.startRegister p ⟨uri, 0⟩)
    | _ => none
  | .registerTyped p uri size align =>
    match s.proc p with
    | .idle =>
      if 8 < align then
        some (s.answer p s.table ⟨.register, uri, .error (.alignmentError align 8)⟩)
      else some (s.startRegister p ⟨uri, wrap32 size⟩)
    | _ => none
  | .subscribe p uri =>
    match s.proc p with
    | .idle => some (s.move p s.table (.subscribe uri (.load 0)))
    | _ => none
  | .go p =>
    match s.proc p with
    | .idle => none
    | .register c pc =>
      match registerStep c s.table pc with
      | (tbl, .more pc) => some (s.move p tbl (.register c pc))
      | (tbl, .ret r) => some (s.answer p tbl ⟨.register, c.uri, r⟩)
    | .subscribe uri l =>
      match lookStep s.table uri l with
      | .more l => some (s.move p s.table (.subscribe uri l))
      | .found i => some (s.answer p s.table ⟨.subscribe, uri, .ok i⟩)
      | .absent => some (s.answer p s.table ⟨.subscribe, uri, .error (.topicNotFound uri)⟩)

end

/-- The URI that a process is registering. -/
def Proc.uri : Proc cfg → Option (List UInt8)
  | .register c _ => some c.uri
  | .idle | .subscribe .. => none

/-- The URI whose registration an action starts. -/
def Act.uri : Act P → Option (List UInt8)
  | .register _ uri | .registerTyped _ uri _ _ => some uri
  | .subscribe .. | .go _ => none

/-- A registration starts only when no other one of the same URI is running. -/
def Apart (s : State cfg P) (a : Act P) : Prop := ∀ u ∈ a.uri, ∀ q, (s.proc q).uri ≠ some u

instance [Fintype P] (s : State cfg P) (a : Act P) : Decidable (Apart s a) :=
  inferInstanceAs (Decidable (∀ u ∈ a.uri, _))

/-! ### What a process relies on -/

/-- Below `k` no active entry holds `uri`. -/
def AbsentBelow (tbl : Table cfg) (uri : List UInt8) (k : Nat) : Prop :=
  ∀ i : cfg.Topic, i.val < k → (tbl i).state = .active → (tbl i).uri ≠ uri

/-- The number of entries the scan is done with. -/
def LookPc.pos : LookPc cfg → Nat
  | .load k => k
  | .compare i => i

/-- An entry is compared only when it was active. -/
def LookPc.Seen (tbl : Table cfg) : LookPc cfg → Prop
  | .load _ => True
  | .compare i => (tbl i).state = .active

/-- What is true of a process.  Past its scan, a registration knows that its URI is not in the
    table. -/
def ProcInv (tbl : Table cfg) : Proc cfg → Prop
  | .idle => True
  | .register c (.look l) => AbsentBelow tbl c.uri l.pos ∧ l.Seen tbl
  | .register c (.claim _) => AbsentBelow tbl c.uri cfg.maxTopics
  | .register c (.fill i) => AbsentBelow tbl c.uri cfg.maxTopics ∧ (tbl i).state = .init
  | .register c (.activate i) => AbsentBelow tbl c.uri cfg.maxTopics ∧ (tbl i).state = .init ∧
      (tbl i).uriHash = uriHash c.uri ∧ (tbl i).uri = c.uri
  | .subscribe _ l => l.Seen tbl

/-- The entry that a process has claimed. -/
def Proc.owned : Proc cfg → Option cfg.Topic
  | .register _ (.fill i) | .register _ (.activate i) => some i
  | .register _ (.look _) | .register _ (.claim _) | .idle | .subscribe .. => none

/-- What a step of another process leaves to the process `x`: active entries stay as they are,
    a new one holds another URI than `x` is registering, and the entry `x` has claimed is not
    touched. -/
structure Keeps (tbl tbl' : Table cfg) (x : Proc cfg) : Prop where
  active : ∀ i, (tbl i).state = .active → tbl' i = tbl i
  fresh : ∀ i, (tbl' i).state = .active → tbl' i = tbl i ∨ x.uri ≠ some (tbl' i).uri
  owned : ∀ i ∈ x.owned, tbl' i = tbl i

/-- Nothing is written. -/
theorem Keeps.refl (tbl : Table cfg) (x : Proc cfg) : Keeps tbl tbl x :=
  ⟨fun _ _ => rfl, fun _ _ => Or.inl rfl, fun _ _ => rfl⟩

/-- What a lookup has passed stays absent while nobody registers the URI. -/
theorem AbsentBelow.keep {tbl tbl' : Table cfg} {x : Proc cfg} {uri : List UInt8} {k : Nat}
    (h : AbsentBelow tbl uri k) (hk : Keeps tbl tbl' x) (huri : x.uri = some uri) :
    AbsentBelow tbl' uri k := by
  intro i hi hact heq
  rcases hk.fresh i hact with hsame | hother
  · rw [hsame] at hact heq
    exact h i hi hact heq
  · exact hother (by rw [huri, heq])

/-- What a lookup has seen stays. -/
theorem LookPc.Seen.keep {tbl tbl' : Table cfg} {x : Proc cfg} {l : LookPc cfg} (h : l.Seen tbl)
    (hk : Keeps tbl tbl' x) : l.Seen tbl' := by
  cases l with
  | load k => trivial
  | compare i =>
    change (tbl' i).state = .active
    rw [hk.active i h]
    exact h

/-- A write that does not make an entry active. -/
theorem AbsentBelow.reserve {tbl : Table cfg} {uri : List UInt8} {k : Nat} {i : cfg.Topic}
    {e : Entry} (h : AbsentBelow tbl uri k) (he : e.state ≠ .active) :
    AbsentBelow (update tbl i e) uri k := by
  intro j hj hact
  by_cases hji : j = i
  · rw [hji, update_self] at hact
    exact absurd hact he
  · rw [update_of_ne hji] at hact ⊢
    exact h j hj hact

/-- A process that does not move keeps what it knows. -/
theorem ProcInv.keep {tbl tbl' : Table cfg} {x : Proc cfg} (h : ProcInv tbl x)
    (hk : Keeps tbl tbl' x) : ProcInv tbl' x := by
  cases x with
  | idle => trivial
  | register c pc =>
    cases pc with
    | look l => exact ⟨h.1.keep hk rfl, h.2.keep hk⟩
    | claim k => exact AbsentBelow.keep h hk rfl
    | fill i => exact ⟨h.1.keep hk rfl, by rw [hk.owned i rfl]; exact h.2⟩
    | activate i => exact ⟨h.1.keep hk rfl, by rw [hk.owned i rfl]; exact h.2⟩
  | subscribe uri l => exact LookPc.Seen.keep h hk

/-- A claimed entry is being initialised. -/
theorem ProcInv.init_of_owned {tbl : Table cfg} {x : Proc cfg} (h : ProcInv tbl x) {i : cfg.Topic}
    (hi : i ∈ x.owned) : (tbl i).state = .init := by
  cases x with
  | idle | subscribe => cases hi
  | register c pc =>
    cases pc with
    | look l => cases hi
    | claim k => cases hi
    | fill j =>
      cases hi
      exact h.2
    | activate j =>
      cases hi
      exact h.2.1

/-! ### The scan -/

section

variable {tbl : Table cfg} {uri : List UInt8} {l l' : LookPc cfg} {i : cfg.Topic}

/-- One more entry does not hold the URI. -/
theorem AbsentBelow.succ (h : AbsentBelow tbl uri i)
    (hi : (tbl i).state = .active → (tbl i).uri ≠ uri) : AbsentBelow tbl uri (i + 1) := by
  intro j hj hact
  by_cases heq : j = i
  · subst heq
    exact hi hact
  · have hne : j.val ≠ i.val := fun hval => heq (Fin.ext hval)
    exact h j (by omega) hact

/-- What a step of the scan can be. -/
inductive LookMove (tbl : Table cfg) (uri : List UInt8) : LookPc cfg → Look cfg → Prop
  | active {k : Nat} (hk : k < cfg.maxTopics) :
      (tbl ⟨k, hk⟩).state = .active → LookMove tbl uri (.load k) (.more (.compare ⟨k, hk⟩))
  | skip {k : Nat} (hk : k < cfg.maxTopics) :
      (tbl ⟨k, hk⟩).state ≠ .active → LookMove tbl uri (.load k) (.more (.load (k + 1)))
  | absent {k : Nat} : cfg.maxTopics ≤ k → LookMove tbl uri (.load k) .absent
  | found {i : cfg.Topic} :
      (tbl i).uriHash = uriHash uri → (tbl i).uri = uri → LookMove tbl uri (.compare i) (.found i)
  | differ {i : cfg.Topic} :
      ¬((tbl i).uriHash = uriHash uri ∧ (tbl i).uri = uri) →
      LookMove tbl uri (.compare i) (.more (.load (i + 1)))

/-- **Inversion.** -/
theorem lookStep_move {r : Look cfg} (hstep : lookStep tbl uri l = r) : LookMove tbl uri l r := by
  subst hstep
  cases l with
  | load k =>
    rw [lookStep]
    split
    · rename_i hk
      split
      · rename_i hact
        exact .active hk hact
      · rename_i hact
        exact .skip hk hact
    · rename_i hk
      exact .absent (Nat.le_of_not_lt hk)
  | compare i =>
    rw [lookStep]
    split
    · rename_i heq
      exact .found heq.1 heq.2
    · rename_i hne
      exact .differ hne

/-- A lookup has seen the entry that it compares. -/
theorem LookMove.seen (hmove : LookMove tbl uri l (.more l')) : l'.Seen tbl := by
  cases hmove with
  | active hk hact => exact hact
  | skip | differ => trivial

/-- The scan ends at an active entry with the URI. -/
theorem LookMove.right (hmove : LookMove tbl uri l (.found i)) (hseen : l.Seen tbl) :
    (tbl i).state = .active ∧ (tbl i).uri = uri := by
  cases hmove with
  | found hhash huri => exact ⟨hseen, huri⟩

/-- An entry that the scan passes does not hold the URI. -/
theorem LookMove.passed (hmove : LookMove tbl uri l (.more l')) (hseen : l.Seen tbl)
    (hhash : ∀ i, (tbl i).state = .active → (tbl i).uriHash = uriHash (tbl i).uri)
    (h : AbsentBelow tbl uri l.pos) : AbsentBelow tbl uri l'.pos := by
  cases hmove with
  | active hk hact => exact h
  | skip hk hact => exact AbsentBelow.succ (i := ⟨_, hk⟩) h (fun hact' => absurd hact' hact)
  | @differ j hne =>
    -- equal bytes would have equal hashes
    refine AbsentBelow.succ h (fun _ heq => hne ⟨?_, heq⟩)
    rw [hhash j hseen, heq]

/-- A lookup that finds nothing has passed all entries. -/
theorem LookMove.all_passed (hmove : LookMove tbl uri l .absent) (h : AbsentBelow tbl uri l.pos) :
    AbsentBelow tbl uri cfg.maxTopics := by
  cases hmove with
  | absent hk => exact fun i hi => h i (Nat.lt_of_lt_of_le hi hk)

end

/-! ### The invariant -/

/-- A topic index that was returned is that of an active entry with the URI. -/
def Answer.Right (tbl : Table cfg) (a : Answer cfg) : Prop :=
  ∀ i, a.result = .ok i → (tbl i).state = .active ∧ (tbl i).uri = a.uri

/-- The invariant. -/
structure Inv (s : State cfg P) : Prop where
  hash : ∀ i, (s.table i).state = .active → (s.table i).uriHash = uriHash (s.table i).uri
  unique : ∀ i j, (s.table i).state = .active → (s.table j).state = .active →
    (s.table i).uri = (s.table j).uri → i = j
  apart : ∀ p q u, (s.proc p).uri = some u → (s.proc q).uri = some u → p = q
  owned : ∀ p q i, i ∈ (s.proc p).owned → i ∈ (s.proc q).owned → p = q
  procs : ∀ p, ProcInv s.table (s.proc p)
  answers : ∀ a ∈ s.answers, a.Right s.table

/-- An empty table, and no calls. -/
theorem inv_init : Inv (init cfg P) where
  hash := nofun
  unique := nofun
  apart := nofun
  owned := nofun
  procs := fun _ => trivial
  answers := nofun

section

variable {s s' : State cfg P} {p : P} {x : Proc cfg}

/-- The process whose step it is, is the only one with its URI. -/
theorem Inv.other_uri (h : Inv s) {u : List UInt8} (hp : (s.proc p).uri = some u) (q : P)
    (hq : q ≠ p) : (s.proc q).uri ≠ some u :=
  fun heq => hq (h.apart q p u heq hp)

variable [DecidableEq P]

/-- Something that no two processes have, and that no other process has when `p` gets it. -/
theorem unique_update {κ : Type*} (key : Proc cfg → Option κ) {g : P → Proc cfg}
    (h : ∀ q r u, key (g q) = some u → key (g r) = some u → q = r)
    (hx : ∀ u, key x = some u → ∀ q, q ≠ p → key (g q) ≠ some u) :
    ∀ q r u, key (update g p x q) = some u → key (update g p x r) = some u →
      q = r := by
  intro q r u hq hr
  by_cases hqp : q = p
  · by_cases hrp : r = p
    · rw [hqp, hrp]
    · rw [hqp, update_self] at hq
      rw [update_of_ne hrp] at hr
      exact absurd hr (hx u hq r hrp)
  · rw [update_of_ne hqp] at hq
    by_cases hrp : r = p
    · rw [hrp, update_self] at hr
      exact absurd hq (hx u hr q hqp)
    · rw [update_of_ne hrp] at hr
      exact h q r u hq hr

/-- Process `p` goes on with `x`, while the others keep what they know. -/
theorem Inv.moved (h : Inv s) (hproc : s'.proc = update s.proc p x)
    (hhash : ∀ i, (s'.table i).state = .active → (s'.table i).uriHash = uriHash (s'.table i).uri)
    (hunique : ∀ i j, (s'.table i).state = .active → (s'.table j).state = .active →
      (s'.table i).uri = (s'.table j).uri → i = j)
    (huri : ∀ u, x.uri = some u → ∀ q, q ≠ p → (s.proc q).uri ≠ some u)
    (howned : ∀ i ∈ x.owned, ∀ q, q ≠ p → i ∉ (s.proc q).owned)
    (hkeep : ∀ q, q ≠ p → Keeps s.table s'.table (s.proc q)) (hx : ProcInv s'.table x)
    (hactive : ∀ i, (s.table i).state = .active → s'.table i = s.table i)
    (hanswers : ∀ a ∈ s'.answers, a ∈ s.answers ∨ a.Right s'.table) : Inv s' := by
  refine ⟨hhash, hunique, ?_, ?_, ?_, ?_⟩
  · rw [hproc]
    exact unique_update Proc.uri h.apart huri
  · rw [hproc]
    exact unique_update Proc.owned h.owned howned
  · intro q
    rw [hproc]
    by_cases hqp : q = p
    · rw [hqp, update_self]
      exact hx
    · rw [update_of_ne hqp]
      exact (h.procs q).keep (hkeep q hqp)
  · intro a ha
    rcases hanswers a ha with hold | hnew
    · intro i hi
      have hright := h.answers a hold i hi
      rw [hactive i hright.1]
      exact hright
    · exact hnew

/-- A step that does not write to the table. -/
theorem Inv.local (h : Inv s) (hproc : s'.proc = update s.proc p x)
    (htable : s'.table = s.table)
    (huri : ∀ u, x.uri = some u → ∀ q, q ≠ p → (s.proc q).uri ≠ some u)
    (howned : x.owned = none) (hx : ProcInv s.table x)
    (hanswers : ∀ a ∈ s'.answers, a ∈ s.answers ∨ a.Right s.table) : Inv s' := by
  refine h.moved hproc ?_ ?_ huri ?_ ?_ ?_ ?_ ?_
  · rw [htable]
    exact h.hash
  · rw [htable]
    exact h.unique
  · rw [howned]
    nofun
  · intro q _
    rw [htable]
    exact Keeps.refl _ _
  · rw [htable]
    exact hx
  · intro i _
    rw [htable]
  · rw [htable]
    exact hanswers

/-- A step that writes to an entry which is not active, and that no other process has
    claimed. -/
theorem Inv.reserve (h : Inv s) {i : cfg.Topic} {e : Entry} (hold : (s.table i).state ≠ .active)
    (hnew : e.state ≠ .active) (hproc : s'.proc = update s.proc p x)
    (htable : s'.table = update s.table i e) (hanswers : s'.answers = s.answers)
    (huri : x.uri = (s.proc p).uri) (howned : x.owned = some i)
    (hfree : ∀ q, q ≠ p → i ∉ (s.proc q).owned) (hx : ProcInv s'.table x) : Inv s' := by
  have hsame : ∀ j, j ≠ i → s'.table j = s.table j := by
    intro j hj
    rw [htable, update_of_ne hj]
  have hactive' : ∀ j, (s'.table j).state = .active → s'.table j = s.table j := by
    intro j hj
    refine hsame j (fun heq => hnew ?_)
    rw [heq, htable, update_self] at hj
    exact hj
  have hactive : ∀ j, (s.table j).state = .active → s'.table j = s.table j :=
    fun j hj => hsame j (fun heq => hold (heq ▸ hj))
  -- the active entries are the same, before and afterwards
  refine h.moved hproc ?_ ?_ ?_ ?_ ?_ hx hactive ?_
  · intro j hj
    have heq := hactive' j hj
    rw [heq] at hj ⊢
    exact h.hash j hj
  · intro j k hj hk
    have hj' := hactive' j hj
    have hk' := hactive' k hk
    rw [hj'] at hj ⊢
    rw [hk'] at hk ⊢
    exact h.unique j k hj hk
  · intro u hu
    rw [huri] at hu
    exact h.other_uri hu
  · rw [howned]
    rintro j ⟨rfl⟩
    exact hfree
  · intro q hq
    refine ⟨hactive, fun j hj => Or.inl (hactive' j hj), fun j hj => hsame j ?_⟩
    rintro rfl
    exact hfree q hq hj
  · rw [hanswers]
    exact fun a ha => Or.inl ha

/-- The answers after a call has returned. -/
theorem answer_right {tbl : Table cfg} {a : Answer cfg} (ha : a.Right tbl) :
    ∀ b ∈ (s.answer p tbl a).answers, b ∈ s.answers ∨ b.Right tbl := by
  intro b hb
  rcases List.mem_append.mp hb with hold | hnew
  · exact Or.inl hold
  · rw [List.mem_singleton] at hnew
    subst hnew
    exact Or.inr ha

/-- The store of `ACTIVE`: the new active entry is the only one with its URI. -/
theorem Inv.activate (h : Inv s) {c : Call} {i : cfg.Topic}
    (hp : s.proc p = .register c (.activate i)) :
    Inv (s.answer p (update s.table i { s.table i with state := .active })
      ⟨.register, c.uri, .ok i⟩) := by
  have hpinv := h.procs p
  rw [hp] at hpinv
  obtain ⟨habsent, hinit, hhash, huri⟩ := hpinv
  have hpuri : (s.proc p).uri = some c.uri := by rw [hp]; rfl
  have hsame : ∀ j, j ≠ i → update s.table i { s.table i with state := .active } j =
      s.table j := fun j hj => update_of_ne hj ..
  have hself : update s.table i { s.table i with state := .active } i =
      { s.table i with state := .active } := update_self ..
  have hactive : ∀ j, (s.table j).state = .active →
      update s.table i { s.table i with state := .active } j = s.table j := by
    intro j hj
    refine hsame j (fun heq => ?_)
    rw [heq, hinit] at hj
    cases hj
  refine h.moved (x := .idle) rfl ?_ ?_ nofun nofun ?_ trivial hactive ?_
  · -- the hash was written with the URI
    intro j hj
    change (update s.table i _ j).uriHash = uriHash (update s.table i _ j).uri
    change (update s.table i _ j).state = _ at hj
    by_cases hji : j = i
    · subst hji
      rw [hself]
      show (s.table j).uriHash = uriHash (s.table j).uri
      rw [hhash, huri]
    · rw [hsame j hji] at hj ⊢
      exact h.hash j hj
  · -- another active entry with the URI would contradict what the registration found
    intro j k hj hk
    change (update s.table i _ j).state = _ at hj
    change (update s.table i _ k).state = _ at hk
    change (update s.table i _ j).uri = (update s.table i _ k).uri → _
    by_cases hji : j = i
    · by_cases hki : k = i
      · rw [hji, hki]
        exact fun _ => rfl
      · rw [hsame k hki] at hk ⊢
        rw [hji, hself]
        intro heq
        exact absurd (heq.symm.trans huri) (habsent k k.isLt hk)
    · rw [hsame j hji] at hj ⊢
      by_cases hki : k = i
      · rw [hki, hself]
        intro heq
        exact absurd (heq.trans huri) (habsent j j.isLt hj)
      · rw [hsame k hki] at hk ⊢
        exact h.unique j k hj hk
  · -- no other process is registering this URI, so nobody relies on its absence
    intro q hq
    refine ⟨hactive, fun j _ => ?_, fun j hj => hsame j ?_⟩
    · change update s.table i _ j = _ ∨ _ ≠ some (update s.table i _ j).uri
      by_cases hji : j = i
      · refine Or.inr ?_
        rw [hji, hself]
        show (s.proc q).uri ≠ some (s.table i).uri
        rw [huri]
        exact h.other_uri hpuri q hq
      · exact Or.inl (hsame j hji)
    · rintro rfl
      exact hq (h.owned q p j hj (by rw [hp]; rfl))
  · refine answer_right (fun j hj => ?_)
    cases hj
    rw [hself]
    exact ⟨rfl, huri⟩

/-- A call returns without having written to the table. -/
theorem Inv.answer (h : Inv s) {a : Answer cfg} (ha : a.Right s.table) :
    Inv (s.answer p s.table a) :=
  h.local (x := .idle) rfl rfl nofun rfl trivial (answer_right ha)

/-- An error names no topic. -/
theorem right_error {tbl : Table cfg} {kind : Kind} {uri : List UInt8} {e : Error} :
    Answer.Right tbl ⟨kind, uri, .error e⟩ := nofun

/-- `register_inner` starts. -/
theorem Inv.startRegister (h : Inv s) {c : Call} (happart : ∀ q, (s.proc q).uri ≠ some c.uri) :
    Inv (s.startRegister p c) := by
  unfold State.startRegister
  split
  · exact h.answer right_error
  · refine h.local (x := .register c (.look (.load 0))) rfl rfl ?_ rfl ?_ (fun a ha => Or.inl ha)
    · rintro u ⟨rfl⟩ q _
      exact happart q
    · exact ⟨fun i hi => absurd hi (Nat.not_lt_zero _), trivial⟩

/-- A registration takes its next step. -/
theorem inv_register {c : Call} {pc : RegisterPc cfg} (h : Inv s) (hp : s.proc p = .register c pc)
    (hstep : step s (.go p) = some s') : Inv s' := by
  have hpinv := h.procs p
  rw [hp] at hpinv
  have hpuri : (s.proc p).uri = some c.uri := by rw [hp]; rfl
  have huri : ∀ {pc' : RegisterPc cfg} u, Proc.uri (.register c pc') = some u →
      ∀ q, q ≠ p → (s.proc q).uri ≠ some u := by
    rintro pc' u ⟨rfl⟩
    exact h.other_uri hpuri
  simp only [step, hp] at hstep
  cases pc with
  | look l =>
    obtain ⟨habsent, hseen⟩ := hpinv
    simp only [registerStep] at hstep
    cases hlook : lookStep s.table c.uri l with
    | more l' =>
      have hmove := lookStep_move hlook
      rw [hlook] at hstep
      cases hstep
      exact h.local (x := .register c (.look l')) rfl rfl huri rfl
        ⟨hmove.passed hseen h.hash habsent, hmove.seen⟩ (fun a ha => Or.inl ha)
    | found i =>
      have hmove := lookStep_move hlook
      rw [hlook] at hstep
      cases hstep
      refine h.answer (fun j hj => ?_)
      cases hj
      exact hmove.right hseen
    | absent =>
      have hmove := lookStep_move hlook
      rw [hlook] at hstep
      cases hstep
      exact h.local (x := .register c (.claim 0)) rfl rfl huri rfl
        (hmove.all_passed habsent) (fun a ha => Or.inl ha)
  | claim k =>
    rw [registerStep] at hstep
    by_cases hk : k < cfg.maxTopics
    · rw [dif_pos hk] at hstep
      by_cases hfree : (s.table ⟨k, hk⟩).state = .free
      · rw [if_pos hfree] at hstep
        cases hstep
        -- nobody has claimed a free entry
        have hunowned : ∀ q, q ≠ p → (⟨k, hk⟩ : cfg.Topic) ∉ (s.proc q).owned := by
          intro q _ hq
          have hinit := (h.procs q).init_of_owned hq
          rw [hfree] at hinit
          cases hinit
        refine h.reserve (i := ⟨k, hk⟩) (e := { s.table ⟨k, hk⟩ with state := .init })
          (by rw [hfree]; nofun) nofun rfl rfl rfl hpuri.symm rfl hunowned
          ⟨AbsentBelow.reserve hpinv nofun, ?_⟩
        change (update s.table _ _ ⟨k, hk⟩).state = .init
        rw [update_self]
      · rw [if_neg hfree] at hstep
        cases hstep
        exact h.local (x := .register c (.claim (k + 1))) rfl rfl huri rfl hpinv
          (fun a ha => Or.inl ha)
    · rw [dif_neg hk] at hstep
      cases hstep
      exact h.answer right_error
  | fill i =>
    -- the entry is the caller's own since the CAS
    obtain ⟨habsent, hinit⟩ := hpinv
    cases hstep
    have hunowned : ∀ q, q ≠ p → i ∉ (s.proc q).owned :=
      fun q hq hown => hq (h.owned q p i hown (by rw [hp]; rfl))
    refine h.reserve (by rw [hinit]; nofun) ?_ rfl rfl rfl hpuri.symm rfl hunowned
      ⟨AbsentBelow.reserve habsent ?_, ?_⟩
    · rw [hinit]
      nofun
    · rw [hinit]
      nofun
    · change (update s.table i _ i).state = _ ∧
        (update s.table i _ i).uriHash = _ ∧ (update s.table i _ i).uri = _
      rw [update_self]
      exact ⟨hinit, rfl, rfl⟩
  | activate i =>
    cases hstep
    exact h.activate hp

/-- A subscription takes its next step. -/
theorem inv_subscribe {uri : List UInt8} {l : LookPc cfg} (h : Inv s)
    (hp : s.proc p = .subscribe uri l) (hstep : step s (.go p) = some s') : Inv s' := by
  have hseen := h.procs p
  rw [hp] at hseen
  simp only [step, hp] at hstep
  cases hlook : lookStep s.table uri l with
  | more l' =>
    have hmove := lookStep_move hlook
    rw [hlook] at hstep
    cases hstep
    exact h.local (x := .subscribe uri l') rfl rfl nofun rfl hmove.seen
      (fun a ha => Or.inl ha)
  | found i =>
    have hmove := lookStep_move hlook
    rw [hlook] at hstep
    cases hstep
    refine h.answer (fun j hj => ?_)
    cases hj
    exact hmove.right hseen
  | absent =>
    rw [hlook] at hstep
    cases hstep
    exact h.answer right_error

/-- **Step.** The invariant is kept when registrations of one URI do not overlap. -/
theorem inv_step (a : Act P) (h : Inv s) (hok : Apart s a) (hstep : step s a = some s') :
    Inv s' := by
  cases a with
  | register p uri =>
    simp only [step] at hstep
    split at hstep
    · cases hstep
      exact h.startRegister (hok uri rfl)
    · cases hstep
  | registerTyped p uri size align =>
    simp only [step] at hstep
    split at hstep
    · split at hstep
      · cases hstep
        exact h.answer right_error
      · cases hstep
        exact h.startRegister (hok uri rfl)
    · cases hstep
  | subscribe p uri =>
    simp only [step] at hstep
    split at hstep
    · cases hstep
      exact h.local (x := .subscribe uri (.load 0)) rfl rfl nofun rfl trivial
        (fun a ha => Or.inl ha)
    · cases hstep
  | go p =>
    cases hp : s.proc p with
    | idle =>
      simp only [step, hp] at hstep
      cases hstep
    | register c pc => exact inv_register h hp hstep
    | subscribe uri l => exact inv_subscribe h hp hstep

/-- **Registration agrees.** When no two registrations of one URI overlap, no two active topic
    entries hold the same URI, and all `register` and `subscribe` calls with one URI that
    return a topic index return the same one. -/
theorem registration_agrees {as : List (Act P)} (hrun : Run step Apart (init cfg P) as s) :
    (∀ i j, (s.table i).state = .active → (s.table j).state = .active →
      (s.table i).uri = (s.table j).uri → i = j) ∧
    (∀ a ∈ s.answers, ∀ b ∈ s.answers, a.uri = b.uri →
      ∀ i j, a.result = .ok i → b.result = .ok j → i = j) := by
  have h : Inv s := hrun.invariant inv_init (fun _ a _ h hok hstep => inv_step a h hok hstep)
  refine ⟨h.unique, fun a ha b hb huri i j hi hj => ?_⟩
  obtain ⟨hia, hiu⟩ := h.answers a ha i hi
  obtain ⟨hja, hju⟩ := h.answers b hb j hj
  exact h.unique i j hia hja (by rw [hiu, hju, huri])

end

/-! ### Overlapping calls -/

/-- One process registers the URI `a`, another one registers it after that, and a third one
    subscribes. -/
def inTurn : List (Act (Fin 3)) :=
  [.register 0 [97], .go 0, .go 0, .go 0, .go 0, .go 0, .go 0, .registerTyped 1 [97] 8 8, .go 1,
    .go 1, .subscribe 2 [97], .go 2, .go 2]

/-- A `register`, a `register_typed` and a `subscribe` of one URI, one after the other. -/
theorem registration_agrees_in_turn :
    ∃ s, Run step Apart (init twoTopics (Fin 3)) inTurn s ∧ s.answers.length = 3 ∧
      ∀ a ∈ s.answers, ∀ b ∈ s.answers, a.uri = b.uri →
        ∀ i j, a.result = .ok i → b.result = .ok j → i = j := by
  obtain ⟨s, hrun, hlength⟩ := exists_run_of_exec step Apart (s := init twoTopics (Fin 3))
    (l := inTurn) (p := fun s => s.answers.length = 3) (by decide +kernel)
  exact ⟨s, hrun, hlength, (registration_agrees hrun).2⟩

/-- Two processes look for the URI `a` before either of them claims an entry; then a third one
    subscribes. -/
def overlapping : List (Act (Fin 3)) :=
  [.register 0 [97], .register 1 [97], .go 0, .go 0, .go 0, .go 1, .go 1, .go 1, .go 0, .go 0,
    .go 0, .go 1, .go 1, .go 1, .go 1, .subscribe 2 [97], .go 2, .go 2]

/-- **Overlapping registrations split a topic.** Both calls return, with different topic
    indices; both entries are active with the same URI, and a stream that subscribes to it reads
    the first one only. -/
theorem overlapping_registers_split_topic :
    ∃ s, Run step (fun _ _ => True) (init twoTopics (Fin 3)) overlapping s ∧
      s.answers = [⟨.register, [97], .ok ⟨0, by decide⟩⟩, ⟨.register, [97], .ok ⟨1, by decide⟩⟩,
        ⟨.subscribe, [97], .ok ⟨0, by decide⟩⟩] ∧
      ∀ i, (s.table i).state = .active ∧ (s.table i).uri = [97] :=
  exists_run_of_exec _ _ (by decide +kernel)

/-! ### One call alone -/

/-- The topic table of a region in which no registration is running. -/
def tableOf (shm : Shm cfg) : Table cfg := fun t =>
  ⟨if (shm.topic t).active then .active else .free, (shm.topic t).uriHash, (shm.topic t).uri,
    (shm.topic t).typeSize, (shm.topic t).writeSeq⟩

/-- An active entry of the region is active in the table. -/
theorem tableOf_active (shm : Shm cfg) (t : cfg.Topic) :
    (tableOf shm t).state = .active ↔ (shm.topic t).active = true := by
  unfold tableOf
  cases (shm.topic t).active <;> simp

/-- Any other entry is free in the table. -/
theorem tableOf_free (shm : Shm cfg) (t : cfg.Topic) :
    (tableOf shm t).state = .free ↔ (!(shm.topic t).active) = true := by
  unfold tableOf
  cases (shm.topic t).active <;> simp

/-- The test of the first scan is that of `Shm.findTopic`. -/
theorem tableOf_holds (shm : Shm cfg) (uri : List UInt8) (t : cfg.Topic) :
    ((tableOf shm t).state = .active ∧ (tableOf shm t).uriHash = uriHash uri ∧
      (tableOf shm t).uri = uri) ↔
    ((shm.topic t).active && (shm.topic t).uriHash == uriHash uri &&
      (shm.topic t).uri == uri) = true := by
  rw [tableOf_active, Bool.and_eq_true, Bool.and_eq_true, beq_iff_eq, beq_iff_eq, and_assoc]
  rfl

section

variable [DecidableEq P] {s s' : State cfg P} {p : P} {c : Call} {tbl tbl' : Table cfg}

/-- Process `p` goes on, with nothing between its steps, until the state is `s'`. -/
def Alone (p : P) (s s' : State cfg P) : Prop :=
  ∃ n, Run step (fun _ _ => True) s (List.replicate n (.go p)) s'

/-- The step of `register_inner` that a process is at. -/
theorem step_go_more {pc pc' : RegisterPc cfg} (hproc : s.proc p = .register c pc)
    (hstep : registerStep c s.table pc = (tbl', .more pc')) :
    step s (.go p) = some (s.move p tbl' (.register c pc')) := by
  simp only [step, hproc, hstep]

/-- The last step of a registration gives its answer. -/
theorem step_go_ret {pc : RegisterPc cfg} {r : Except Error cfg.Topic}
    (hproc : s.proc p = .register c pc) (hstep : registerStep c s.table pc = (tbl', .ret r)) :
    step s (.go p) = some (s.answer p tbl' ⟨.register, c.uri, r⟩) := by
  simp only [step, hproc, hstep]

/-- A step of `register_inner`, then the rest. -/
theorem Alone.more {pc pc' : RegisterPc cfg} (hstep : registerStep c tbl pc = (tbl', .more pc'))
    (h : Alone p (s.move p tbl' (.register c pc')) s') :
    Alone p (s.move p tbl (.register c pc)) s' := by
  obtain ⟨n, hrun⟩ := h
  refine ⟨n + 1, .cons trivial ?_ hrun⟩
  rw [step_go_more (s := s.move p tbl (.register c pc)) (update_self ..) hstep]
  simp only [State.move, update_idem]

/-- The step at which `register_inner` returns. -/
theorem Alone.ret {pc : RegisterPc cfg} {r : Except Error cfg.Topic}
    (hstep : registerStep c tbl pc = (tbl', .ret r)) :
    Alone p (s.move p tbl (.register c pc)) (s.answer p tbl' ⟨.register, c.uri, r⟩) := by
  refine ⟨1, .single trivial ?_⟩
  rw [step_go_ret (s := s.move p tbl (.register c pc)) (update_self ..) hstep]
  simp only [State.move, State.answer, update_idem]

/-- The first scan passes entries that do not hold the URI. -/
theorem Alone.pass {k m : Nat} (hkm : k ≤ m) (hm : m ≤ cfg.maxTopics)
    (hnone : ∀ j : cfg.Topic, k ≤ j.val → j.val < m →
      ¬((tbl j).state = .active ∧ (tbl j).uriHash = uriHash c.uri ∧ (tbl j).uri = c.uri))
    (h : Alone p (s.move p tbl (.register c (.look (.load m)))) s') :
    Alone p (s.move p tbl (.register c (.look (.load k)))) s' := by
  induction hkm using Nat.decreasingInduction with
  | self => exact h
  | of_succ k hk ih =>
    -- from the back: the scan from `k + 1` on is the induction hypothesis
    have hrest := ih (fun j hj => hnone j (by omega))
    have hlt : k < cfg.maxTopics := by omega
    have hthis := hnone ⟨k, hlt⟩ le_rfl hk
    by_cases hact : (tbl ⟨k, hlt⟩).state = .active
    · have hload : registerStep c tbl (.look (.load k)) =
          (tbl, .more (.look (.compare ⟨k, hlt⟩))) := by
        simp only [registerStep, lookStep, dif_pos hlt, if_pos hact]
      refine Alone.more hload (Alone.more ?_ hrest)
      simp only [registerStep, lookStep]
      rw [if_neg (fun heq => hthis ⟨hact, heq⟩)]
    · refine Alone.more ?_ hrest
      simp only [registerStep, lookStep, dif_pos hlt, if_neg hact]

/-- The second scan passes entries that are not free. -/
theorem Alone.taken {k m : Nat} (hkm : k ≤ m) (hm : m ≤ cfg.maxTopics)
    (hnone : ∀ j : cfg.Topic, k ≤ j.val → j.val < m → (tbl j).state ≠ .free)
    (h : Alone p (s.move p tbl (.register c (.claim m))) s') :
    Alone p (s.move p tbl (.register c (.claim k))) s' := by
  induction hkm using Nat.decreasingInduction with
  | self => exact h
  | of_succ k hk ih =>
    have hrest := ih (fun j hj => hnone j (by omega))
    have hlt : k < cfg.maxTopics := by omega
    refine Alone.more ?_ hrest
    rw [registerStep, dif_pos hlt, if_neg (hnone ⟨k, hlt⟩ le_rfl hk)]

/-- `register_inner` with nothing between its steps is the call of `Crossbar.Region`. -/
theorem registerInner_alone {shm : Shm cfg} (htable : s.table = tableOf shm) (id : Nat)
    (c : Call) :
    Alone p (s.startRegister p c)
      (s.answer p (tableOf (shm.registerInner id c.uri c.typeSize).1)
        ⟨.register, c.uri, (shm.registerInner id c.uri c.typeSize).2.map Handle.topicIdx⟩) := by
  unfold State.startRegister Shm.registerInner
  by_cases hlong : teUriMax < c.uri.length
  · rw [if_pos hlong, if_pos hlong, htable]
    exact ⟨0, .nil _⟩
  rw [if_neg hlong, if_neg hlong, htable]
  cases hfind : shm.findTopic c.uri with
  | some i =>
    -- the URI is registered: the first scan returns its entry
    obtain ⟨hi, hbefore⟩ := first_of_find hfind
    obtain ⟨hact, hhash, huri⟩ := (tableOf_holds shm c.uri i).mpr hi
    have hload : registerStep c (tableOf shm) (.look (.load i)) =
        (tableOf shm, .more (.look (.compare i))) := by
      simp only [registerStep, lookStep, dif_pos i.isLt, if_pos hact]
    refine Alone.pass (Nat.zero_le i) i.isLt.le (fun j _ hj hold => ?_)
      (Alone.more hload (Alone.ret ?_))
    · rw [tableOf_holds, hbefore j hj] at hold
      cases hold
    · simp only [registerStep, lookStep]
      rw [if_pos ⟨hhash, huri⟩]
      rfl
  | none =>
    have habsent := List.find?_eq_none.mp hfind
    have hend : registerStep c (tableOf shm) (.look (.load cfg.maxTopics)) =
        (tableOf shm, .more (.claim 0)) := by
      simp only [registerStep, lookStep, dif_neg (Nat.lt_irrefl _)]
    refine Alone.pass (Nat.zero_le _) le_rfl (fun j _ _ hold => ?_) (Alone.more hend ?_)
    · exact habsent j (List.mem_finRange j) ((tableOf_holds shm c.uri j).mp hold)
    cases hslot : shm.freeTopic with
    | none =>
      -- neither the URI nor a free entry
      have htaken := List.find?_eq_none.mp hslot
      refine Alone.taken (Nat.zero_le _) le_rfl (fun j _ _ hj => ?_) (Alone.ret ?_)
      · exact htaken j (List.mem_finRange j) ((tableOf_free shm j).mp hj)
      · rw [registerStep, dif_neg (Nat.lt_irrefl _)]
        rfl
    | some i =>
      -- the first free entry is claimed, filled and made active
      obtain ⟨hi, hbefore⟩ := first_of_find hslot
      have hclaim : registerStep c (tableOf shm) (.claim i) =
          (update (tableOf shm) i { tableOf shm i with state := .init },
            .more (.fill i)) := by
        rw [registerStep, dif_pos i.isLt, if_pos ((tableOf_free shm i).mpr hi)]
      refine Alone.taken (Nat.zero_le i) i.isLt.le (fun j _ hj hold => ?_)
        (Alone.more hclaim (Alone.more rfl (Alone.ret ?_)))
      · rw [tableOf_free, hbefore j hj] at hold
        cases hold
      · -- what is written is the entry of the whole call
        rw [registerStep]
        refine Prod.ext ?_ rfl
        funext j
        by_cases hj : j = i
        · subst hj
          simp [tableOf, Shm.setTopic]
        · simp [tableOf, Shm.setTopic, update_of_ne hj]

end

end Crossbar.Topics
