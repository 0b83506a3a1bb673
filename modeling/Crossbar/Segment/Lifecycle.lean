import Crossbar.Lib.Run
import Crossbar.Lib.Files
import Crossbar.Protocol.Paths

namespace Crossbar.Segment

open Function Crossbar.Lib Crossbar.Paths

/-!
# Segment — the two files of a region

`Publisher::create`, `Publisher::open`, `Drop for Publisher` and `Subscriber::connect` of
`src/platform/shm.rs`, by what they do to the region file and to the lock file of one segment name.
Any number of processes run them, interleaved; a call may fail at every operation that can, and a
process may die at any time, which closes its files and does nothing else.

* `step` — the next operation of one process; the lock of a creator becomes a shared one at once, as
  `shared_lock` expects of `flock`;
* `Move` — what a step can do;
* `Inv` — the creator of the region and those who have it open are on one file, which is at its path
  as long as its owner has not removed it;
* `publishers_share_region` — at most one owner, one region file for all publishers, and nobody
  else while it is being made;
* `owner_keeps_file` — the file of an owner stays at the path until its own `drop` removes it, and
  `create` never empties a file that somebody has mapped.

Both results are for names whose two paths differ: for a name that ends in `.lock` the lock file is
the region file, and `create` removes the file that it has locked.  The segment name and the
configuration have been validated before, and nobody else uses the two paths.  What `create` writes
to its file is the subject of `Crossbar.Mapping`.
-/

/-! ### The processes -/

/-- Where a process is, with the lock file that it has open, the region file that it has mapped,
    and `created_ino`. -/
inductive Pc where
  | out
  -- `Publisher::create`
  /-- the lock file is open; `exclusive_lock` is next -/
  | create (lock : Nat)
  /-- `remove_file` is next -/
  | locked (lock : Nat)
  /-- `open` with `create` and `truncate` is next -/
  | removed (lock : Nat)
  /-- the region is written; `shared_lock` is next -/
  | init (lock file : Nat)
  /-- `file_identity` is next -/
  | ready (lock file : Nat)
  | owner (lock file : Nat) (createdIno : Option Nat)
  -- `Publisher::open`
  /-- the lock file is open; `shared_lock` is next -/
  | «open» (lock : Nat)
  /-- `open_and_validate_region` is next -/
  | opened (lock : Nat)
  | secondary (lock file : Nat)
  -- `Drop for Publisher`
  /-- `file_identity` is next -/
  | dropping (lock file : Nat) (createdIno : Option Nat)
  /-- `remove_file` is next -/
  | removing (lock file : Nat)
  /-- the fields are dropped: the mapping, then the lock file -/
  | closing (lock file : Nat)
  /-- a `Subscriber`, which takes no lock -/
  | subscriber (file : Nat)
  deriving DecidableEq

/-- The lock that a process holds. -/
def Pc.lock : Pc → Option (Nat × LockMode)
  | .locked l | .removed l | .init l _ => some (l, .exclusive)
  | .ready l _ | .owner l _ _ | .opened l | .secondary l _ | .dropping l _ _ | .removing l _
  | .closing l _ => some (l, .shared)
  | .out | .create _ | .open _ | .subscriber _ => none

/-- The lock file that a process has open. -/
def Pc.lockFile : Pc → Option Nat
  | .create l | .locked l | .removed l | .init l _ | .ready l _ | .owner l _ _ | .open l
  | .opened l | .secondary l _ | .dropping l _ _ | .removing l _ | .closing l _ => some l
  | .out | .subscriber _ => none

/-- The region file that a publisher has mapped. -/
def Pc.maps : Pc → Option Nat
  | .init _ f | .ready _ f | .owner _ f _ | .secondary _ f | .dropping _ f _ | .removing _ f
  | .closing _ f => some f
  | .out | .create _ | .locked _ | .removed _ | .open _ | .opened _ | .subscriber _ => none

/-- The directory, and where everybody is. -/
structure State (P : Type*) where
  files : Files Path
  pc : P → Pc

/-- One step. -/
inductive Act (P : Type*) where
  /-- `Publisher::create` opens the lock file -/
  | create (p : P)
  /-- `Publisher::open` opens the lock file -/
  | «open» (p : P)
  /-- `Subscriber::connect` opens the region file -/
  | connect (p : P)
  /-- a publisher or a subscriber is dropped -/
  | drop (p : P)
  /-- the next operation of the running call -/
  | go (p : P)
  /-- the next operation fails, and the call returns the error -/
  | fail (p : P)
  /-- the next operation fails, and the call goes on -/
  | ignore (p : P)
  /-- the process dies -/
  | crash (p : P)
  deriving DecidableEq

/-- The call returns an error when its next operation fails. -/
def Pc.fallible : Pc → Bool
  | .create _ | .removed _ | .init .. | .open _ | .opened _ | .subscriber _ => true
  | .out | .locked _ | .ready .. | .owner .. | .secondary .. | .dropping .. | .removing ..
  | .closing .. => false

/-- The call goes on when `remove_file` or `file_identity` fails. -/
def Pc.ignores : Pc → Option Pc
  | .locked l => some (.removed l)
  | .ready l f => some (.owner l f none)
  | .dropping l f _ | .removing l f => some (.closing l f)
  | _ => none

namespace State

variable {P : Type*} (s : State P)

/-- The locks that are held. -/
def locks : Locks P := fun p => (s.pc p).lock

variable [DecidableEq P]

/-- Process `p` goes on as `x`. -/
def put (p : P) (x : Pc) : State P := { s with pc := update s.pc p x }

/-- The same, with another directory. -/
def putWith (files : Files Path) (p : P) (x : Pc) : State P := ⟨files, update s.pc p x⟩

variable [Fintype P]

/-- The next operation of a running call; `none` when there is no call, or when it has to wait
    for a lock. -/
def go (name : List Char) (p : P) : Option (State P) :=
  match s.pc p with
  | .create l =>
    -- `LOCK_NB`: a conflict is the error `LockContention`
    if s.locks.Grants p l .exclusive then some (s.put p (.locked l)) else some (s.put p .out)
  | .locked l => some (s.putWith (s.files.unlink (shmPath name)) p (.removed l))
  | .removed l =>
    let (files, f) := s.files.openCreate (shmPath name)
    some (s.putWith files p (.init l f))
  | .init l f => some (s.put p (.ready l f))
  | .ready l f => some (s.put p (.owner l f (s.files.name (shmPath name))))
  | .open l => if s.locks.Grants p l .shared then some (s.put p (.opened l)) else none
  | .opened l =>
    match s.files.name (shmPath name) with
    | some f => some (s.put p (.secondary l f))
    | none => some (s.put p .out)
  | .dropping l f c =>
    if c ≠ none ∧ c = s.files.name (shmPath name) then some (s.put p (.removing l f))
    else some (s.put p (.closing l f))
  | .removing l f => some (s.putWith (s.files.unlink (shmPath name)) p (.closing l f))
  | .closing .. => some (s.put p .out)
  | .out | .owner .. | .secondary .. | .subscriber _ => none

end State

variable {P : Type*} [Fintype P] [DecidableEq P]

/-- One step of one process on the segment `name`. -/
def step (name : List Char) (s : State P) : Act P → Option (State P)
  | .create p =>
    if s.pc p = .out then
      let (files, l) := s.files.openCreate (lockPath name)
      some (s.putWith files p (.create l))
    else none
  | .open p =>
    if s.pc p = .out then
      let (files, l) := s.files.openCreate (lockPath name)
      some (s.putWith files p (.open l))
    else none
  | .connect p =>
    if s.pc p = .out then
      match s.files.name (shmPath name) with
      | some f => some (s.put p (.subscriber f))
      | none => some s
    else none
  | .drop p =>
    match s.pc p with
    | .owner l f c => some (s.put p (.dropping l f c))
    | .secondary l f => some (s.put p (.closing l f))
    | .subscriber _ => some (s.put p .out)
    | _ => none
  | .go p => s.go name p
  | .fail p => if (s.pc p).fallible then some (s.put p .out) else none
  | .ignore p => (s.pc p).ignores.map (s.put p)
  | .crash p => some (s.put p .out)

/-- Nobody has anything open; the directory is as earlier runs have left it. -/
def start (P : Type*) (files : Files Path) : State P := ⟨files, fun _ => .out⟩

/-! ### What a step can do -/

/-- A step `a` of process `p`: where it was, the directory after the step, and where it is then. -/
inductive Move (name : List Char) (s : State P) (a : Act P) (p : P) : Pc → Files Path → Pc → Prop
  | create : Move name s a p .out (s.files.openCreate (lockPath name)).1
      (.create (s.files.openCreate (lockPath name)).2)
  | «open» : Move name s a p .out (s.files.openCreate (lockPath name)).1
      (.open (s.files.openCreate (lockPath name)).2)
  | connect {f : Nat} : s.files.name (shmPath name) = some f →
      Move name s a p .out s.files (.subscriber f)
  /-- a call returns an error, a drop ends, or the process dies -/
  | leave (x : Pc) : Move name s a p x s.files .out
  | lock {l : Nat} : s.locks.Grants p l .exclusive → Move name s a p (.create l) s.files (.locked l)
  | remove {l : Nat} : Move name s a p (.locked l) (s.files.unlink (shmPath name)) (.removed l)
  | make {l : Nat} : Move name s a p (.removed l) (s.files.openCreate (shmPath name)).1
      (.init l (s.files.openCreate (shmPath name)).2)
  | downgrade {l f : Nat} : Move name s a p (.init l f) s.files (.ready l f)
  | identify {l f : Nat} :
      Move name s a p (.ready l f) s.files (.owner l f (s.files.name (shmPath name)))
  | share {l : Nat} : s.locks.Grants p l .shared → Move name s a p (.open l) s.files (.opened l)
  | map {l f : Nat} : s.files.name (shmPath name) = some f →
      Move name s a p (.opened l) s.files (.secondary l f)
  | drop {l f : Nat} {c : Option Nat} : Move name s a p (.owner l f c) s.files (.dropping l f c)
  | dropSecondary {l f : Nat} : Move name s a p (.secondary l f) s.files (.closing l f)
  | same {l f : Nat} {c : Option Nat} : c ≠ none → c = s.files.name (shmPath name) →
      Move name s a p (.dropping l f c) s.files (.removing l f)
  | other {l f : Nat} {c : Option Nat} : ¬(c ≠ none ∧ c = s.files.name (shmPath name)) →
      Move name s a p (.dropping l f c) s.files (.closing l f)
  | unlink {l f : Nat} :
      Move name s a p (.removing l f) (s.files.unlink (shmPath name)) (.closing l f)
  /-- `remove_file` or `file_identity` fails -/
  | ignore {x y : Pc} : a = .ignore p → x.ignores = some y → Move name s a p x s.files y

variable {name : List Char} {s s' : State P} {a : Act P} {p q : P}

/-- Inversion of the step within a call: where its process was decides where it is then. -/
theorem go_cases (h : s.go name p = some s') :
    ∃ files x, Move name s a p (s.pc p) files x ∧ s' = s.putWith files p x := by
  unfold State.go at h
  split at h <;> rename_i hpc
  · split at h
    · rename_i hgrant
      cases h
      exact ⟨_, _, hpc ▸ .lock hgrant, rfl⟩
    · cases h
      exact ⟨_, _, .leave _, rfl⟩
  · cases h
    exact ⟨_, _, hpc ▸ .remove, rfl⟩
  · cases h
    exact ⟨_, _, hpc ▸ .make, rfl⟩
  · cases h
    exact ⟨_, _, hpc ▸ .downgrade, rfl⟩
  · cases h
    exact ⟨_, _, hpc ▸ .identify, rfl⟩
  · simp only [Option.ite_none_right_eq_some, Option.some.injEq] at h
    obtain ⟨hgrant, rfl⟩ := h
    exact ⟨_, _, hpc ▸ .share hgrant, rfl⟩
  · split at h
    · rename_i f hf
      cases h
      exact ⟨_, _, hpc ▸ .map hf, rfl⟩
    · cases h
      exact ⟨_, _, .leave _, rfl⟩
  · split at h
    · rename_i hsame
      cases h
      exact ⟨_, _, hpc ▸ .same hsame.1 hsame.2, rfl⟩
    · rename_i hother
      cases h
      exact ⟨_, _, hpc ▸ .other hother, rfl⟩
  · cases h
    exact ⟨_, _, hpc ▸ .unlink, rfl⟩
  · cases h
    exact ⟨_, _, .leave _, rfl⟩
  all_goals cases h

/-- **Inversion.** A step leaves everything, or moves one process. -/
theorem step_cases (h : step name s a = some s') :
    s' = s ∨ ∃ p files x, Move name s a p (s.pc p) files x ∧ s' = s.putWith files p x := by
  cases a with
  | create p =>
    simp only [step, Option.ite_none_right_eq_some, Option.some.injEq] at h
    obtain ⟨hout, rfl⟩ := h
    exact Or.inr ⟨p, _, _, hout ▸ .create, rfl⟩
  | «open» p =>
    simp only [step, Option.ite_none_right_eq_some, Option.some.injEq] at h
    obtain ⟨hout, rfl⟩ := h
    exact Or.inr ⟨p, _, _, hout ▸ .open, rfl⟩
  | connect p =>
    simp only [step, Option.ite_none_right_eq_some] at h
    obtain ⟨hout, h⟩ := h
    split at h
    · rename_i f hf
      cases h
      exact Or.inr ⟨p, _, _, hout ▸ .connect hf, rfl⟩
    · cases h
      exact Or.inl rfl
  | drop p =>
    simp only [step] at h
    split at h
    · rename_i hpc
      cases h
      exact Or.inr ⟨p, _, _, hpc ▸ .drop, rfl⟩
    · rename_i hpc
      cases h
      exact Or.inr ⟨p, _, _, hpc ▸ .dropSecondary, rfl⟩
    · cases h
      exact Or.inr ⟨p, _, _, .leave _, rfl⟩
    · cases h
  | fail p =>
    simp only [step, Option.ite_none_right_eq_some, Option.some.injEq] at h
    obtain ⟨-, rfl⟩ := h
    exact Or.inr ⟨p, _, _, .leave _, rfl⟩
  | ignore p =>
    obtain ⟨y, hy, rfl⟩ := Option.map_eq_some_iff.mp h
    exact Or.inr ⟨p, _, _, .ignore rfl hy, rfl⟩
  | crash p =>
    cases h
    exact Or.inr ⟨p, _, _, .leave _, rfl⟩
  | go p => exact Or.inr ⟨p, go_cases h⟩

/-! ### The lock file -/

/-- Everybody has the same lock file open, and no two locks conflict. -/
structure LockInv (name : List Char) (s : State P) : Prop where
  lockFile : ∀ p, ∀ l ∈ (s.pc p).lockFile, s.files.name (lockPath name) = some l
  locks : s.locks.Consistent

/-- A lock is on the open lock file. -/
theorem Pc.lockFile_of_lock {x : Pc} {y : Nat × LockMode} (h : x.lock = some y) :
    x.lockFile = some y.1 := by
  cases x <;> cases h <;> rfl

omit [Fintype P] in
theorem locks_putWith (files : Files Path) (x : Pc) :
    (s.putWith files p x).locks = update s.locks p x.lock := by
  funext q
  by_cases hq : q = p
  · subst hq
    simp [State.locks, State.putWith]
  · simp [State.locks, State.putWith, hq]

/-- The call that goes on has the same lock file, lock and mapping. -/
theorem Pc.ignores_same {x y : Pc} (h : x.ignores = some y) :
    y.lockFile = x.lockFile ∧ y.lock = x.lock ∧ y.maps = x.maps := by
  cases x <;> cases h <;> exact ⟨rfl, rfl, rfl⟩

omit [Fintype P] [DecidableEq P] in
/-- The lock file stays, and a process has none open but this one. -/
theorem Move.lockName {x y : Pc} {files : Files Path} (hne : lockPath name ≠ shmPath name)
    (hm : Move name s a p x files y)
    (hx : ∀ l ∈ x.lockFile, s.files.name (lockPath name) = some l) :
    (∀ l, s.files.name (lockPath name) = some l → files.name (lockPath name) = some l) ∧
      ∀ l ∈ y.lockFile, files.name (lockPath name) = some l := by
  have hopen : ∀ l, s.files.name (lockPath name) = some l →
      (s.files.openCreate (lockPath name)).1.name (lockPath name) = some l := by
    intro l hl
    rwa [Files.openCreate_of_some hl]
  cases hm with
  | create | «open» =>
    refine ⟨hopen, fun l hl => ?_⟩
    cases hl
    exact Files.openCreate_name_self ..
  | make =>
    rw [Files.openCreate_name_of_ne hne]
    exact ⟨fun _ h => h, hx⟩
  | remove | unlink =>
    rw [Files.unlink_name_of_ne hne]
    exact ⟨fun _ h => h, hx⟩
  | ignore _ hy => exact ⟨fun _ h => h, (Pc.ignores_same hy).1 ▸ hx⟩
  | leave | connect => exact ⟨fun _ h => h, by rintro l ⟨⟩⟩
  | _ => exact ⟨fun _ h => h, hx⟩

omit [Fintype P] [DecidableEq P] in
/-- The lock that a process has after a step is one that it was granted. -/
theorem Move.grants {x y : Pc} {files : Files Path} (hm : Move name s a p x files y)
    (hp : s.pc p = x) (h : s.locks.Consistent) :
    ∀ z ∈ y.lock, s.locks.Grants p z.1 z.2 := by
  have hkept : ∀ z ∈ x.lock, s.locks.Grants p z.1 z.2 := by
    intro z hz
    exact h p z (by rw [State.locks, hp]; exact hz)
  cases hm with
  | lock hgrant | share hgrant =>
    rintro z ⟨⟩
    exact hgrant
  | downgrade =>
    rintro z ⟨⟩
    exact h.downgrade (by rw [State.locks, hp]; rfl)
  | create | «open» | connect | leave => rintro z ⟨⟩
  | ignore _ hy => exact (Pc.ignores_same hy).2.1 ▸ hkept
  | remove | make | identify | map | drop | dropSecondary | same | other | unlink => exact hkept

omit [Fintype P] in
theorem LockInv.move {x : Pc} {files : Files Path} (hne : lockPath name ≠ shmPath name)
    (h : LockInv name s) (hm : Move name s a p (s.pc p) files x) :
    LockInv name (s.putWith files p x) where
  lockFile := by
    obtain ⟨hstays, hnew⟩ := hm.lockName hne (h.lockFile p)
    intro q l hl
    by_cases hq : q = p
    · subst hq
      simp only [State.putWith, update_self] at hl
      exact hnew l hl
    · simp only [State.putWith, update_of_ne hq] at hl
      exact hstays l (h.lockFile q l hl)
  locks := by
    rw [locks_putWith]
    cases hx : x.lock with
    | none => exact h.locks.release p
    | some z => exact h.locks.grant (hm.grants rfl h.locks z hx)

omit [Fintype P] [DecidableEq P] in
/-- A lock that is granted to `p` exclusively is the only one. -/
theorem LockInv.alone_of_grants {l : Nat} (h : LockInv name s) (hp : (s.pc p).lockFile = some l)
    (hgrant : s.locks.Grants p l .exclusive) (hq : q ≠ p) : (s.pc q).lock = none := by
  rw [Option.eq_none_iff_forall_ne_some]
  intro y hy
  -- the lock of `q` is on the same file
  have hfile := (h.lockFile q y.1 (Pc.lockFile_of_lock hy)).symm.trans (h.lockFile p l hp)
  obtain ⟨-, hmode⟩ := hgrant q hq y hy (Option.some.inj hfile)
  cases hmode

omit [Fintype P] [DecidableEq P] in
theorem LockInv.alone {l : Nat} (h : LockInv name s) (hp : (s.pc p).lock = some (l, .exclusive))
    (hq : q ≠ p) : (s.pc q).lock = none :=
  h.alone_of_grants (Pc.lockFile_of_lock hp) (h.locks p _ hp) hq

/-! ### The region file -/

/-- The region file that its creator still answers for. -/
def Pc.keeps : Pc → Option Nat
  | .init _ f | .ready _ f | .owner _ f _ | .dropping _ f _ | .removing _ f => some f
  | .out | .create _ | .locked _ | .removed _ | .open _ | .opened _ | .secondary ..
  | .closing .. | .subscriber _ => none

/-- The process may replace or remove the region file. -/
def Pc.creator : Pc → Bool
  | .locked _ | .removed _ | .init .. | .ready .. | .owner .. | .dropping .. | .removing .. => true
  | .out | .create _ | .open _ | .opened _ | .secondary .. | .closing ..
  | .subscriber _ => false

/-- `created_ino`, if it is known, is the file that the process has mapped. -/
def Pc.identified : Pc → Prop
  | .owner _ f c | .dropping _ f c => c.elim True (· = f)
  | _ => True

/-- The region file is its creator's; publishers have the file at the path mapped, or all the same
    one that is no longer there; and there is one creator at most. -/
structure Inv (name : List Char) (s : State P) : Prop extends LockInv name s where
  keeps : ∀ p, ∀ f ∈ (s.pc p).keeps, s.files.name (shmPath name) = some f
  identified : ∀ p, (s.pc p).identified
  path : ∀ p, ∀ f ∈ (s.pc p).maps, ∀ i ∈ s.files.name (shmPath name), i = f
  same : ∀ p q, ∀ f ∈ (s.pc p).maps, ∀ g ∈ (s.pc q).maps, f = g
  single : ∀ p q, (s.pc p).creator = true → (s.pc q).creator = true → p = q

/-- Without a lock a publisher has nothing mapped. -/
theorem Pc.maps_of_lock {x : Pc} (h : x.lock = none) :
    x.maps = none ∧ x.keeps = none ∧ x.creator = false := by
  cases x with
  | out | create | «open» | subscriber => exact ⟨rfl, rfl, rfl⟩
  | _ => cases h

theorem Pc.maps_of_keeps {x : Pc} {f : Nat} (h : x.keeps = some f) :
    x.maps = some f ∧ x.creator = true := by
  cases x <;> cases h <;> exact ⟨rfl, rfl⟩

omit [Fintype P] in
/-- What is true of everybody after a step of `p`. -/
theorem State.forall_putWith {Q : P → Pc → Prop} {files : Files Path} {x : Pc} (hp : Q p x)
    (hothers : ∀ q, q ≠ p → Q q (s.pc q)) (q : P) : Q q ((s.putWith files p x).pc q) :=
  (forall_update_iff s.pc Q).mpr ⟨hp, hothers⟩ q

namespace Inv

variable {x : Pc} {files : Files Path}

omit [Fintype P] in
/-- A step of a process that is the only one with a lock. -/
theorem put_alone (h : Inv name s) (hlock : LockInv name (s.putWith files p x))
    (hothers : ∀ q, q ≠ p → (s.pc q).lock = none)
    (hkeeps : ∀ f ∈ x.keeps, files.name (shmPath name) = some f) (hidentified : x.identified)
    (hpath : ∀ f ∈ x.maps, ∀ i ∈ files.name (shmPath name), i = f) :
    Inv name (s.putWith files p x) := by
  -- nobody else has anything to do with the region file
  have hidle : ∀ q, q ≠ p →
      (s.pc q).maps = none ∧ (s.pc q).keeps = none ∧ (s.pc q).creator = false :=
    fun q hq => Pc.maps_of_lock (hothers q hq)
  have hmaps : ∀ q, ∀ f ∈ ((s.putWith files p x).pc q).maps, f ∈ x.maps := by
    refine State.forall_putWith (Q := fun _ y => ∀ f ∈ y.maps, f ∈ x.maps) (fun f hf => hf) ?_
    intro q hq f hf
    rw [(hidle q hq).1] at hf
    cases hf
  have hcreator : ∀ q, ((s.putWith files p x).pc q).creator = true → q = p := by
    refine State.forall_putWith (Q := fun q y => y.creator = true → q = p) (fun _ => rfl) ?_
    intro q hq hcreates
    rw [(hidle q hq).2.2] at hcreates
    cases hcreates
  refine { hlock with
    keeps := ?_
    identified := State.forall_putWith (Q := fun _ y => y.identified) hidentified
      fun q _ => h.identified q
    path := fun q f hf => hpath f (hmaps q f hf)
    same := fun q r f hf g hg => Option.some.inj ((hmaps q f hf).symm.trans (hmaps r g hg))
    single := fun q r hq hr => (hcreator q hq).trans (hcreator r hr).symm }
  · refine State.forall_putWith (Q := fun _ y => ∀ f ∈ y.keeps, files.name (shmPath name) = some f)
      hkeeps ?_
    intro q hq f hf
    rw [(hidle q hq).2.1] at hf
    cases hf

omit [Fintype P] in
/-- A step that leaves the region file, of a process that becomes no creator by it. -/
theorem put_quiet (h : Inv name s) (hlock : LockInv name (s.putWith files p x))
    (hshm : files.name (shmPath name) = s.files.name (shmPath name))
    (hkeeps : ∀ f ∈ x.keeps, f ∈ (s.pc p).keeps)
    (hidentified : x.identified)
    (hmaps : ∀ f ∈ x.maps, f ∈ (s.pc p).maps ∨ s.files.name (shmPath name) = some f)
    (hcreator : x.creator = true → (s.pc p).creator = true) : Inv name (s.putWith files p x) := by
  -- what `p` has mapped is the file at the path, if there is one, and that of the others
  have hfile : ∀ f ∈ x.maps, (∀ i ∈ s.files.name (shmPath name), i = f) ∧
      ∀ q, ∀ g ∈ (s.pc q).maps, f = g := by
    intro f hf
    rcases hmaps f hf with hold | hnew
    · exact ⟨h.path p f hold, fun q g hg => h.same p q f hold g hg⟩
    · refine ⟨fun i hi => Option.some.inj (hi.symm.trans hnew), fun q g hg => ?_⟩
      exact h.path q g hg f hnew
  refine { hlock with
    keeps := ?_
    identified := State.forall_putWith (Q := fun _ y => y.identified) hidentified
      fun q _ => h.identified q
    path := ?_
    same := ?_
    single := ?_ }
  · show ∀ q, ∀ f ∈ ((s.putWith files p x).pc q).keeps, files.name (shmPath name) = some f
    rw [hshm]
    exact State.forall_putWith (Q := fun _ y => ∀ f ∈ y.keeps, s.files.name (shmPath name) = some f)
      (fun f hf => h.keeps p f (hkeeps f hf)) fun q _ => h.keeps q
  · show ∀ q, ∀ f ∈ ((s.putWith files p x).pc q).maps, ∀ i ∈ files.name (shmPath name), i = f
    rw [hshm]
    exact State.forall_putWith (Q := fun _ y => ∀ f ∈ y.maps, ∀ i ∈ _, i = f)
      (fun f hf => (hfile f hf).1) fun q _ => h.path q
  · intro q r f hf g hg
    by_cases hqp : q = p <;> by_cases hrp : r = p
    · subst hqp hrp
      exact Option.some.inj (hf.symm.trans hg)
    · subst hqp
      simp only [State.putWith, update_self, update_of_ne hrp] at hf hg
      exact (hfile f hf).2 r g hg
    · subst hrp
      simp only [State.putWith, update_self, update_of_ne hqp] at hf hg
      exact ((hfile g hg).2 q f hf).symm
    · simp only [State.putWith, update_of_ne hqp, update_of_ne hrp] at hf hg
      exact h.same q r f hf g hg
  · have hwas : ∀ q, ((s.putWith files p x).pc q).creator = true → (s.pc q).creator = true :=
      State.forall_putWith (Q := fun q y => y.creator = true → (s.pc q).creator = true) hcreator
        fun q _ hq => hq
    exact fun q r hq hr => h.single q r (hwas q hq) (hwas r hr)

omit [Fintype P] in
/-- The owner removes its file. -/
theorem put_unlink {l f : Nat} (h : Inv name s) (hp : s.pc p = .removing l f)
    (hlock : LockInv name (s.putWith (s.files.unlink (shmPath name)) p (.closing l f))) :
    Inv name (s.putWith (s.files.unlink (shmPath name)) p (.closing l f)) := by
  -- there is no other creator
  have hothers : ∀ q, q ≠ p → (s.pc q).creator = false := by
    intro q hq
    rw [Bool.eq_false_iff]
    exact fun hcreator => hq (h.single q p hcreator (by rw [hp]; rfl))
  have hwas : ∀ q, ∀ g ∈ ((s.putWith (s.files.unlink (shmPath name)) p (.closing l f)).pc q).maps,
      g ∈ (s.pc q).maps := by
    refine State.forall_putWith (Q := fun q y => ∀ g ∈ y.maps, g ∈ (s.pc q).maps)
      (fun g hg => ?_) fun q _ g hg => hg
    rw [hp]
    exact hg
  have hwas' : ∀ q,
      ((s.putWith (s.files.unlink (shmPath name)) p (.closing l f)).pc q).creator = true →
        (s.pc q).creator = true :=
    State.forall_putWith (Q := fun q y => y.creator = true → (s.pc q).creator = true)
      (by rintro ⟨⟩) fun q _ hq => hq
  refine { hlock with
    keeps := ?_
    identified := State.forall_putWith (Q := fun _ y => y.identified) trivial
      fun q _ => h.identified q
    path := ?_
    same := fun q r f hf g hg => h.same q r f (hwas q f hf) g (hwas r g hg)
    single := fun q r hq hr => h.single q r (hwas' q hq) (hwas' r hr) }
  · refine State.forall_putWith (Q := fun _ y => ∀ g ∈ y.keeps,
      (s.files.unlink (shmPath name)).name (shmPath name) = some g) (by rintro g ⟨⟩) ?_
    intro q hq g hg
    have hcreator := (Pc.maps_of_keeps hg).2
    rw [hothers q hq] at hcreator
    cases hcreator
  · intro q g _ i hi
    simp only [State.putWith, Files.unlink_name_self] at hi
    cases hi

omit [Fintype P] in
/-- **Step** of the invariant. -/
theorem move (hne : lockPath name ≠ shmPath name) (h : Inv name s)
    (hm : Move name s a p (s.pc p) files x) : Inv name (s.putWith files p x) := by
  have hlock := h.toLockInv.move hne hm
  generalize hp : s.pc p = y at hm
  have hkeeps := h.keeps p
  have hidentified := h.identified p
  rw [hp] at hkeeps hidentified
  cases hm with
  | lock hgrant =>
    exact h.put_alone hlock (fun q hq => h.alone_of_grants (by rw [hp]; rfl) hgrant hq)
      (by rintro f ⟨⟩) trivial (by rintro f ⟨⟩)
  | remove =>
    exact h.put_alone hlock (fun q hq => h.alone (by rw [hp]; rfl) hq)
      (by rintro f ⟨⟩) trivial (by rintro f ⟨⟩)
  | make =>
    refine h.put_alone hlock (fun q hq => h.alone (by rw [hp]; rfl) hq) ?_ trivial ?_
    · rintro f ⟨⟩
      exact Files.openCreate_name_self ..
    · rintro f ⟨⟩ i hi
      rw [Files.openCreate_name_self] at hi
      exact (Option.some.inj hi).symm
  | downgrade =>
    refine h.put_alone hlock (fun q hq => h.alone (by rw [hp]; rfl) hq) hkeeps trivial ?_
    rintro f ⟨⟩ i hi
    exact Option.some.inj (hi.symm.trans (hkeeps _ rfl))
  | unlink => exact h.put_unlink hp hlock
  | create | «open» =>
    exact h.put_quiet hlock (Files.openCreate_name_of_ne hne.symm)
      (by rintro f ⟨⟩) trivial (by rintro f ⟨⟩) (by rintro ⟨⟩)
  | connect | leave | share =>
    exact h.put_quiet hlock rfl (by rintro f ⟨⟩) trivial (by rintro f ⟨⟩) (by rintro ⟨⟩)
  | identify =>
    refine h.put_quiet hlock rfl (hp ▸ fun _ hf => hf) ?_ (hp ▸ fun _ hf => Or.inl hf)
      (hp ▸ fun hc => hc)
    rw [Pc.identified, hkeeps _ rfl]
    rfl
  | map hf =>
    exact h.put_quiet hlock rfl (by rintro f ⟨⟩) trivial (by rintro f ⟨⟩; exact Or.inr hf)
      (by rintro ⟨⟩)
  | drop =>
    exact h.put_quiet hlock rfl (hp ▸ fun _ hf => hf) hidentified
      (hp ▸ fun _ hf => Or.inl hf) (hp ▸ fun hc => hc)
  | same =>
    exact h.put_quiet hlock rfl (hp ▸ fun _ hf => hf) trivial
      (hp ▸ fun _ hf => Or.inl hf) (hp ▸ fun hc => hc)
  | dropSecondary | other =>
    exact h.put_quiet hlock rfl (by rintro f ⟨⟩) trivial (hp ▸ fun _ hf => Or.inl hf)
      (by rintro ⟨⟩)
  | ignore _ hy =>
    -- the call keeps what it has, and answers for no more than before
    obtain ⟨-, -, hmaps⟩ := Pc.ignores_same hy
    refine h.put_quiet hlock rfl ?_ ?_ (hp ▸ hmaps ▸ fun _ hf => Or.inl hf) ?_
    · rw [hp]
      cases y <;> cases hy <;> first | exact fun _ hf => hf | rintro f ⟨⟩
    · cases y <;> cases hy <;> trivial
    · rw [hp]
      cases y <;> cases hy <;> exact fun _ => rfl

theorem step (hne : lockPath name ≠ shmPath name) (h : Inv name s)
    (hstep : Segment.step name s a = some s') : Inv name s' := by
  rcases step_cases hstep with rfl | ⟨p, files, x, hm, rfl⟩
  · exact h
  · exact h.move hne hm

end Inv

omit [Fintype P] [DecidableEq P] in
theorem start_inv (files : Files Path) : Inv name (start P files) where
  lockFile := by rintro p l ⟨⟩
  locks := by rintro p x ⟨⟩
  keeps := by rintro p f ⟨⟩
  identified := fun _ => trivial
  path := by rintro p f ⟨⟩
  same := by rintro p q f ⟨⟩
  single := by rintro p q ⟨⟩

/-! ### Files in use -/

/-- The region file that a process has mapped, as a publisher or as a subscriber. -/
def Pc.file : Pc → Option Nat
  | .subscriber f => some f
  | x => x.maps

/-- Every mapped file has been made. -/
def State.Known (s : State P) : Prop := ∀ p, ∀ f ∈ (s.pc p).file, f < s.files.next

omit [Fintype P] in
/-- A step maps a file that was at the path, or one that it has made. -/
theorem State.Known.move {x : Pc} {files : Files Path} (h : s.Known)
    (hm : Move name s a p (s.pc p) files x) : (s.putWith files p x).Known := by
  have hold := h p
  generalize s.pc p = y at hm hold
  have hnext : s.files.next ≤ files.next := by
    cases hm with
    | create | «open» | make => exact Files.next_le_openCreate
    | _ => exact le_rfl
  refine State.forall_putWith (Q := fun _ y => ∀ f ∈ y.file, f < files.next) ?_
    fun q _ f hf => (h q f hf).trans_le hnext
  cases hm with
  | connect hf | map hf =>
    rintro f ⟨⟩
    exact s.files.bound (shmPath name) _ hf
  | make =>
    rintro f ⟨⟩
    exact (s.files.openCreate (shmPath name)).1.bound _ _ (Files.openCreate_name_self ..)
  | create | «open» | leave | lock | remove | share => rintro f ⟨⟩
  | ignore _ hy => cases y <;> cases hy <;> exact hold
  | downgrade | identify | drop | dropSecondary | same | other | unlink => exact hold

theorem State.Known.step (h : s.Known) (hstep : Segment.step name s a = some s') : s'.Known := by
  rcases step_cases hstep with rfl | ⟨p, files, x, hm, rfl⟩
  · exact h
  · exact h.move hm

/-- `remove_file` of `create` does not fail, except that there may be no file. -/
def Removes (s : State P) (a : Act P) : Prop := ∀ p, a = .ignore p → (s.pc p).maps ≠ none

instance : DecidableRel (Removes (P := P)) := fun s a =>
  inferInstanceAs (Decidable (∀ p, a = .ignore p → (s.pc p).maps ≠ none))

/-- There is no region file when `create` is about to make one. -/
def State.Cleared (name : List Char) (s : State P) : Prop :=
  ∀ p l, s.pc p = .removed l → s.files.name (shmPath name) = none

theorem State.Cleared.step (hne : lockPath name ≠ shmPath name) (hinv : Inv name s)
    (h : s.Cleared name) (hok : Removes s a) (hstep : Segment.step name s a = some s') :
    s'.Cleared name := by
  rcases step_cases hstep with rfl | ⟨p, files, x, hm, rfl⟩
  · exact h
  intro q l hq
  by_cases hqp : q = p
  · -- the process that moves has just removed the file
    subst hqp
    simp only [State.putWith, update_self] at hq ⊢
    subst hq
    have hmaps := hok q
    generalize s.pc q = y at hm hmaps
    cases hm with
    | remove => exact Files.unlink_name_self ..
    | ignore ha hy =>
      -- a call that goes on with a mapping is not about to make a file
      exact absurd (Pc.ignores_same hy).2.2.symm (hmaps ha)
  · -- `q` has the only lock, so the process that moves makes no file
    simp only [State.putWith, update_of_ne hqp] at hq ⊢
    have hnone := h q l hq
    have hlock := hinv.alone (p := q) (q := p) (by rw [hq]; rfl) (Ne.symm hqp)
    generalize s.pc p = y at hm hlock
    cases hm with
    | make | remove | unlink => cases hlock
    | create | «open» =>
      rw [Files.openCreate_name_of_ne hne.symm]
      exact hnone
    | _ => exact hnone

/-- **Run** of the invariant. -/
theorem inv_run {files : Files Path} {as : List (Act P)} {ok : State P → Act P → Prop}
    (hne : lockPath name ≠ shmPath name) (hrun : Run (step name) ok (start P files) as s) :
    Inv name s :=
  hrun.invariant (start_inv files) fun _ _ _ h _ hstep => h.step hne hstep

/-- **Run** with the files in use. -/
theorem cleared_run {files : Files Path} {as : List (Act P)} (hne : lockPath name ≠ shmPath name)
    (hrun : Run (step name) Removes (start P files) as s) : s.Cleared name ∧ s.Known := by
  refine (hrun.invariant (I := fun s => Inv name s ∧ s.Cleared name ∧ s.Known)
    ⟨start_inv files, by rintro p l ⟨⟩, by rintro p f ⟨⟩⟩ ?_).2
  rintro s a s' ⟨hinv, hcleared, hknown⟩ hok hstep
  exact ⟨hinv.step hne hstep, hcleared.step hne hinv hok hstep, hknown.step hstep⟩

/-! ### All publishers of a name -/

/-- Without the ending the two paths of a name differ. -/
theorem lockPath_ne_shmPath (hvalid : isValidSegmentName name = true) (hname : ¬EndsInLock name) :
    lockPath name ≠ shmPath name := by
  rw [lockPath, shmPath, setExtension_shmDir name (slash_not_mem hvalid), Ne,
    List.append_right_inj, eq_comm, ← endsInLock_iff]
  exact hname

/-- **One region for all publishers.** For a name that does not end in `.lock`, in every
    interleaving of `create`, `open`, `connect`, drops, failures and crashes, whatever files earlier
    runs have left: all publishers have the same region file mapped; at most one of them is the
    owner; while a `create` is at work nobody else has a publisher's mapping or a lock; and a
    `create` that comes while there is a publisher fails. -/
theorem publishers_share_region {files : Files Path} {as : List (Act P)}
    (hvalid : isValidSegmentName name = true) (hname : ¬EndsInLock name)
    (hrun : Run (step name) (fun _ _ => True) (start P files) as s) :
    (∀ p q f g, (s.pc p).maps = some f → (s.pc q).maps = some g → f = g) ∧
    (∀ p q, (s.pc p).creator = true → (s.pc q).creator = true → p = q) ∧
    (∀ p l, (s.pc p).lock = some (l, .exclusive) →
      ∀ q, q ≠ p → (s.pc q).maps = none ∧ (s.pc q).lock = none) ∧
    ∀ p l, s.pc p = .create l → ∀ q f, (s.pc q).maps = some f →
      step name s (.go p) = some (s.put p .out) := by
  have hne := lockPath_ne_shmPath hvalid hname
  have h := inv_run hne hrun
  refine ⟨fun p q f g hf hg => h.same p q f hf g hg, h.single, fun p l hp q hq => ?_, ?_⟩
  · have hlock := h.alone hp hq
    exact ⟨(Pc.maps_of_lock hlock).1, hlock⟩
  · intro p l hp q f hq
    -- the publisher has a lock, so the exclusive one is not granted
    have hcontended : ¬s.locks.Grants p l .exclusive := by
      intro hgrant
      have hne : q ≠ p := by
        rintro rfl
        rw [hp] at hq
        cases hq
      have hnone := h.alone_of_grants (by rw [hp]; rfl) hgrant hne
      rw [(Pc.maps_of_lock hnone).1] at hq
      cases hq
    simp [step, State.go, hp, hcontended]

/-- The files of a publisher that has died. -/
def leftover (name : List Char) : Files Path :=
  (Files.empty.create (shmPath name)).create (lockPath name)

/-- A region is made anew and opened, and a third process that wants to make it has opened the lock
    file. -/
def joinSteps (p q r : P) : List (Act P) :=
  [.create p, .go p, .go p, .go p, .go p, .go p, .open q, .go q, .create r, .go q]

/-- The owner and the second publisher are on the new file, and the third process fails. -/
theorem publishers_share_region_joined : ∃ s : State (Fin 3),
    Run (step ['a', '.', 'b']) (fun _ _ => True) (start (Fin 3) (leftover ['a', '.', 'b']))
      (joinSteps 0 1 2) s ∧
      s.pc 0 = .owner 1 2 (some 2) ∧ s.pc 1 = .secondary 1 2 ∧
      step ['a', '.', 'b'] s (.go 2) = some (s.put 2 .out) := by
  obtain ⟨s, hrun, howner, hsecond, hthird⟩ := exists_run_of_exec (step ['a', '.', 'b'])
    (fun _ _ => True) (s := start (Fin 3) (leftover ['a', '.', 'b'])) (l := joinSteps 0 1 2)
    (p := fun s => s.pc 0 = .owner 1 2 (some 2) ∧ s.pc 1 = .secondary 1 2 ∧ s.pc 2 = .create 1)
    (by decide +kernel)
  have hname : ¬EndsInLock ['a', '.', 'b'] := by unfold EndsInLock; decide
  exact ⟨s, hrun, howner, hsecond,
    (publishers_share_region (by decide) hname hrun).2.2.2 2 1 hthird 1 2 (by rw [hsecond]; rfl)⟩

/-- **The owner's file stays.** For a name that does not end in `.lock`, in every interleaving in
    which `remove_file` of `create` does not fail: the file of an owner is at the path of the region
    until the owner's own drop has removed it; the file that `create` opens is a new one, which
    nobody has mapped; and a drop that knows `created_ino` finds it at the path. -/
theorem owner_keeps_file {files : Files Path} {as : List (Act P)}
    (hvalid : isValidSegmentName name = true) (hname : ¬EndsInLock name)
    (hrun : Run (step name) Removes (start P files) as s) :
    (∀ p f, (s.pc p).keeps = some f → s.files.name (shmPath name) = some f) ∧
    (∀ p l, s.pc p = .removed l → s.files.name (shmPath name) = none ∧
      ∀ q f, (s.pc q).file = some f → f ≠ (s.files.openCreate (shmPath name)).2) ∧
    ∀ p l f c, s.pc p = .dropping l f c → c ≠ none →
      step name s (.go p) = some (s.put p (.removing l f)) := by
  have hne := lockPath_ne_shmPath hvalid hname
  have h := inv_run hne hrun
  obtain ⟨hcleared, hknown⟩ := cleared_run hne hrun
  refine ⟨h.keeps, fun p l hp => ?_, fun p l f c hp hc => ?_⟩
  · have hnone := hcleared p l hp
    refine ⟨hnone, fun q f hf => ?_⟩
    rw [Files.openCreate_of_none hnone]
    exact Nat.ne_of_lt (hknown q f hf)
  · have hcreated := h.identified p
    have hkept := h.keeps p f
    rw [hp] at hcreated hkept
    obtain ⟨i, rfl⟩ := Option.ne_none_iff_exists'.mp hc
    obtain rfl : i = f := hcreated
    simp [step, State.go, hp, hkept rfl]

/-- The owner is dropped while the second publisher goes on. -/
theorem owner_keeps_file_dropped : ∃ s : State (Fin 3),
    Run (step ['a', '.', 'b']) Removes (start (Fin 3) (leftover ['a', '.', 'b']))
      (joinSteps 0 1 2 ++ [.drop 0]) s ∧
      s.pc 0 = .dropping 1 2 (some 2) ∧ s.files.name (shmPath ['a', '.', 'b']) = some 2 ∧
      step ['a', '.', 'b'] s (.go 0) = some (s.put 0 (.removing 1 2)) := by
  obtain ⟨s, hrun, hpc⟩ := exists_run_of_exec (step ['a', '.', 'b']) Removes
    (s := start (Fin 3) (leftover ['a', '.', 'b'])) (l := joinSteps 0 1 2 ++ [.drop 0])
    (p := fun s => s.pc 0 = .dropping 1 2 (some 2)) (by decide +kernel)
  have hname : ¬EndsInLock ['a', '.', 'b'] := by unfold EndsInLock; decide
  obtain ⟨hkeeps, -, hsame⟩ := owner_keeps_file (by decide) hname hrun
  exact ⟨s, hrun, hpc, hkeeps 0 2 (by rw [hpc]; rfl), hsame 0 1 2 _ hpc (by rintro ⟨⟩)⟩

end Crossbar.Segment
