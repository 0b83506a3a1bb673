import Mathlib.Logic.Function.Basic
import Mathlib.Data.Fintype.Basic

namespace Crossbar.Lib

open Function

/-!
# Names, files and advisory locks

A directory maps names to files; a file is known by its number, which is given out once.  A file
that is unlinked keeps its number for those who have it open.

* `Files` — the directory, with the numbers in use below `next`;
* `Files.openCreate`, `Files.unlink` — `open` with `O_CREAT`, and `unlink`;
* `Locks` — the locks of `flock`: who holds one, on which file, shared or exclusive;
* `Locks.Consistent` — an exclusive lock is the only one on its file, which granting, releasing
  and downgrading keep.
-/

/-! ### Files -/

/-- A directory; every number in it has been given out. -/
structure Files (N : Type*) where
  name : N → Option Nat
  next : Nat
  bound : ∀ n, ∀ i ∈ name n, i < next

namespace Files

/-- Nothing has been made. -/
def empty {N : Type*} : Files N where
  name _ := none
  next := 0
  bound := by rintro n i ⟨⟩

variable {N : Type*} [DecidableEq N] (fs : Files N) (n : N)

/-- A new file at a name. -/
def create : Files N where
  name := update fs.name n (some fs.next)
  next := fs.next + 1
  bound := by
    intro m i hi
    by_cases hm : m = n
    · subst hm
      rw [update_self, Option.mem_some_iff] at hi
      omega
    · rw [update_of_ne hm] at hi
      exact Nat.lt_succ_of_lt (fs.bound m i hi)

/-- `open` with `O_CREAT`: the directory then, and the file. -/
def openCreate : Files N × Nat :=
  match fs.name n with
  | some i => (fs, i)
  | none => (fs.create n, fs.next)

/-- `unlink`. -/
def unlink : Files N where
  name := update fs.name n none
  next := fs.next
  bound := by
    intro m i hi
    by_cases hm : m = n
    · subst hm
      rw [update_self] at hi
      cases hi
    · rw [update_of_ne hm] at hi
      exact fs.bound m i hi

variable {fs n} {m : N}

/-- A file that is there is opened. -/
theorem openCreate_of_some {i : Nat} (h : fs.name n = some i) : fs.openCreate n = (fs, i) := by
  rw [openCreate, h]

/-- A file that is not there is created. -/
theorem openCreate_of_none (h : fs.name n = none) :
    fs.openCreate n = (fs.create n, fs.next) := by
  rw [openCreate, h]

variable (fs n) in
/-- A new file gets the next number. -/
@[simp] theorem create_name_self : (fs.create n).name n = some fs.next := update_self ..

/-- Creating a file leaves the other names as they are. -/
theorem create_name_of_ne (hm : m ≠ n) : (fs.create n).name m = fs.name m :=
  update_of_ne hm ..

variable (fs n) in
/-- The file is at its name. -/
@[simp] theorem openCreate_name_self :
    (fs.openCreate n).1.name n = some (fs.openCreate n).2 := by
  cases h : fs.name n with
  | some i => rw [openCreate_of_some h, h]
  | none => rw [openCreate_of_none h, create_name_self]

/-- Opening one name leaves the others as they are. -/
theorem openCreate_name_of_ne (hm : m ≠ n) : (fs.openCreate n).1.name m = fs.name m := by
  cases h : fs.name n with
  | some i => rw [openCreate_of_some h]
  | none =>
    rw [openCreate_of_none h, create_name_of_ne hm]

/-- Numbers are not used again. -/
theorem next_le_openCreate : fs.next ≤ (fs.openCreate n).1.next := by
  cases h : fs.name n with
  | some i => rw [openCreate_of_some h]
  | none =>
    rw [openCreate_of_none h]
    exact Nat.le_succ _

variable (fs n) in
/-- After `unlink` the name is gone. -/
@[simp] theorem unlink_name_self : (fs.unlink n).name n = none := update_self ..

/-- `unlink` leaves the other names as they are. -/
theorem unlink_name_of_ne (hm : m ≠ n) : (fs.unlink n).name m = fs.name m :=
  update_of_ne hm ..

end Files

/-! ### Locks -/

/-- The two kinds of `flock` locks. -/
inductive LockMode where
  | shared
  | exclusive
  deriving DecidableEq

/-- The locks that are held: by whom, on which file. -/
abbrev Locks (P : Type*) : Type _ := P → Option (Nat × LockMode)

namespace Locks

variable {P : Type*} (locks : Locks P)

/-- Nobody else holds a lock that conflicts with the one that `p` asks for. -/
def Grants (p : P) (file : Nat) (mode : LockMode) : Prop :=
  ∀ q, q ≠ p → ∀ x ∈ locks q, x.1 = file → x.2 = .shared ∧ mode = .shared

instance [Fintype P] [DecidableEq P] (p : P) (file : Nat) (mode : LockMode) :
    Decidable (locks.Grants p file mode) :=
  inferInstanceAs (Decidable (∀ _ : P, _))

/-- No two locks conflict. -/
def Consistent : Prop := ∀ p, ∀ x ∈ locks p, locks.Grants p x.1 x.2

variable {locks} {p q : P}

/-- Whoever holds an exclusive lock is alone on the file. -/
theorem Consistent.alone (h : locks.Consistent) {file : Nat}
    (hp : locks p = some (file, .exclusive)) (hne : q ≠ p) (mode : LockMode) :
    locks q ≠ some (file, mode) := by
  intro hq
  obtain ⟨-, hmode⟩ := h p _ hp q hne _ hq rfl
  cases hmode

/-- A lock that is granted conflicts with none. -/
theorem Consistent.grant [DecidableEq P] (h : locks.Consistent) {file : Nat} {mode : LockMode}
    (hgrant : locks.Grants p file mode) :
    Locks.Consistent (update locks p (some (file, mode))) := by
  intro q x hx r hr y hy hfile
  by_cases hq : q = p
  · subst hq
    rw [update_self, Option.mem_some_iff] at hx
    subst hx
    rw [update_of_ne hr] at hy
    exact hgrant r hr y hy hfile
  · rw [update_of_ne hq] at hx
    by_cases hrp : r = p
    · subst hrp
      rw [update_self, Option.mem_some_iff] at hy
      subst hy
      exact (hgrant q hq x hx hfile.symm).symm
    · rw [update_of_ne hrp] at hy
      exact h q x hx r hr y hy hfile

/-- A process may give up its locks at any time. -/
theorem Consistent.release [DecidableEq P] (h : locks.Consistent) (p : P) :
    Locks.Consistent (update locks p none) := by
  intro q x hx r hr y hy hfile
  have hkept : ∀ {a : P} {z : Nat × LockMode}, z ∈ update locks p none a →
      z ∈ locks a := by
    intro a z hz
    by_cases ha : a = p
    · subst ha
      rw [update_self] at hz
      cases hz
    · rwa [update_of_ne ha] at hz
  exact h q x (hkept hx) r hr y (hkept hy) hfile

/-- An exclusive lock can be made a shared one at once. -/
theorem Consistent.downgrade (h : locks.Consistent) {file : Nat}
    (hp : locks p = some (file, .exclusive)) : locks.Grants p file .shared := by
  intro q hq x hx hfile
  refine absurd ?_ (h.alone hp hq x.2)
  rw [← hfile]
  exact hx

end Locks

end Crossbar.Lib
