import Crossbar.Lib.Split

namespace Crossbar.Paths

open Crossbar.Lib

/-!
# Paths — the files of a segment

A pub/sub region and a PodBus have a data file and a lock file, the registry has one file, all in
one directory.  `shm_path` and `pod_bus_shm_path` put a prefix in front of the name of the
segment; the lock path replaces the extension of the data path, that is, whatever follows the
last `.` of the name.  (The paths on Linux.)

* `isValidSegmentName` — what a name may contain;
* `setExtension` — `PathBuf::set_extension`;
* `Segment.files` — the files of a region, a PodBus or the registry;
* `segment_files_distinct` — the files of two segments are distinct exactly when no name ends in
  `.lock`, no region is called `registry`, and what comes before the last `.` of the names, with
  `pod-` in front of the name of a PodBus, differs;
* `segment_files_collide` — four ways in which they are not.
-/

/-- A path, character by character. -/
abbrev Path : Type := List Char

/-- `is_valid_segment_name`. -/
def isValidSegmentName (name : List Char) : Bool :=
  !name.isEmpty && !name.contains '/' && !name.contains '\\' && !name.contains '\x00' &&
    !name.tails.any (['.', '.'].isPrefixOf ·)

/-! ### `PathBuf` -/

/-- `Path::file_name`, of a path whose last component is a name. -/
def fileName (path : Path) : List Char := afterLast '/' path

/-- `Path::file_stem`, of a file name: a name that starts with its only `.` has no extension. -/
def fileStem (file : List Char) : List Char :=
  if file = ['.', '.'] then file
  else
    match beforeLast '.' file with
    | none => file
    | some before => if before = [] then file else before

/-- `PathBuf::set_extension`: what follows the stem of the file name is replaced. -/
def setExtension (path : Path) (ext : List Char) : Path :=
  path.take (path.length - (fileName path).length) ++ fileStem (fileName path) ++ '.' :: ext

/-! ### The path builders -/

/-- `/dev/shm/`. -/
def shmDir : Path := ['/', 'd', 'e', 'v', '/', 's', 'h', 'm', '/']

/-- The prefix of every file name. -/
def crossbar : List Char := ['c', 'r', 'o', 's', 's', 'b', 'a', 'r', '-']

/-- The rest of the prefix of a PodBus. -/
def pod : List Char := ['p', 'o', 'd', '-']

/-- The rest of the name of the registry file. -/
def registry : List Char := ['r', 'e', 'g', 'i', 's', 't', 'r', 'y']

/-- The extension of a lock file. -/
def lock : List Char := ['l', 'o', 'c', 'k']

/-- `shm_path`. -/
def shmPath (name : List Char) : Path := shmDir ++ crossbar ++ name

/-- `lock_path`. -/
def lockPath (name : List Char) : Path := setExtension (shmPath name) lock

/-- `pod_bus_shm_path`. -/
def podBusShmPath (name : List Char) : Path := shmDir ++ crossbar ++ pod ++ name

/-- `pod_bus_lock_path`. -/
def podBusLockPath (name : List Char) : Path := setExtension (podBusShmPath name) lock

/-- `registry_path`, without an override in the environment. -/
def registryPath : Path := shmDir ++ crossbar ++ registry

/-- A pub/sub region, a PodBus, or the registry. -/
inductive Segment where
  | region (name : List Char)
  | podBus (name : List Char)
  | registry
  deriving DecidableEq

namespace Segment

/-- The name of the segment is accepted by `validate_name`. -/
def valid : Segment → Bool
  | .region name => isValidSegmentName name
  | .podBus name => isValidSegmentName name
  | .registry => true

/-- The data file and the lock file. -/
def files : Segment → List Path
  | .region name => [shmPath name, lockPath name]
  | .podBus name => [podBusShmPath name, podBusLockPath name]
  | .registry => [registryPath]

/-- The file name of the data file, without the common prefix. -/
def base : Segment → List Char
  | .region name => name
  | .podBus name => pod ++ name
  | .registry => Paths.registry

/-- The segment has a lock file. -/
def locked : Segment → Bool
  | .registry => false
  | _ => true

end Segment

/-- A name without its extension: what comes before its last `.`. -/
def cut (name : List Char) : List Char := (beforeLast '.' name).getD name

/-- The name ends in `.lock`. -/
def EndsInLock (name : List Char) : Prop := '.' :: lock <:+ name

/-- No file of one segment is the other file of it, or a file of the other one. -/
def Segment.Apart (s t : Segment) : Prop :=
  ¬EndsInLock s.base ∧ ¬EndsInLock t.base ∧ s.base ≠ t.base ∧
    (s.locked = true → t.locked = true → cut s.base ≠ cut t.base)

/-! ### What the builders make of a name -/

theorem slash_not_mem {name : List Char} (h : isValidSegmentName name = true) : '/' ∉ name := by
  simp only [isValidSegmentName, Bool.and_eq_true, Bool.not_eq_true', List.contains_eq_mem,
    decide_eq_false_iff_not] at h
  exact h.1.1.1.2

theorem Segment.slash_not_mem_base {s : Segment} (h : s.valid = true) : '/' ∉ s.base := by
  cases s with
  | region name => exact slash_not_mem h
  | podBus name =>
    rw [Segment.base, List.mem_append, not_or]
    exact ⟨by decide, slash_not_mem h⟩
  | registry => decide

/-- The prefix has no `.`, so the stem is that of the name. -/
theorem fileStem_crossbar (name : List Char) :
    fileStem (crossbar ++ name) = crossbar ++ cut name := by
  have hdots : crossbar ++ name ≠ ['.', '.'] := by
    intro h
    cases h
  rw [fileStem, if_neg hdots, cut]
  by_cases hdot : '.' ∈ name
  · obtain ⟨a, b, rfl, hb⟩ := exists_last hdot
    have hbefore := beforeLast_append a hb
    rw [beforeLast_append_left hbefore crossbar, hbefore, Option.getD_some]
    exact if_neg (by simp [crossbar])
  · have hnone : '.' ∉ crossbar ++ name := by
      rw [List.mem_append, not_or]
      exact ⟨by decide, hdot⟩
    rw [beforeLast_of_not_mem hnone, beforeLast_of_not_mem hdot, Option.getD_none]

/-- The lock path of a data path in the directory. -/
theorem setExtension_shmDir (name : List Char) (h : '/' ∉ name) :
    setExtension (shmDir ++ crossbar ++ name) lock =
      shmDir ++ crossbar ++ (cut name ++ '.' :: lock) := by
  have hslash : '/' ∉ crossbar ++ name := by
    rw [List.mem_append, not_or]
    exact ⟨by decide, h⟩
  have hfile : fileName (shmDir ++ crossbar ++ name) = crossbar ++ name := by
    rw [List.append_assoc]
    exact afterLast_append ['/', 'd', 'e', 'v', '/', 's', 'h', 'm'] hslash
  rw [setExtension, hfile, fileStem_crossbar, List.append_assoc shmDir crossbar name]
  rw [List.length_append, Nat.add_sub_cancel, List.take_left]
  simp only [List.append_assoc]

/-- The files of a segment, by its base name. -/
theorem Segment.files_eq {s : Segment} (h : s.valid = true) :
    s.files = (shmDir ++ crossbar ++ s.base) ::
      if s.locked then [shmDir ++ crossbar ++ (cut s.base ++ '.' :: lock)] else [] := by
  have hslash := s.slash_not_mem_base h
  cases s with
  | region name =>
    rw [Segment.files, shmPath, lockPath, shmPath, setExtension_shmDir name hslash]
    rfl
  | podBus name =>
    have hassoc : podBusShmPath name = shmDir ++ crossbar ++ (pod ++ name) := by
      rw [podBusShmPath, List.append_assoc]
    rw [Segment.files, podBusLockPath, hassoc, setExtension_shmDir (pod ++ name) hslash]
    rfl
  | registry => rfl

/-! ### Collisions -/

theorem lock_no_dot : '.' ∉ lock := by decide

theorem cut_lock (name : List Char) : cut (name ++ '.' :: lock) = name := by
  rw [cut, beforeLast_append name lock_no_dot, Option.getD_some]

/-- A data file is its own lock file exactly when the name ends in `.lock`. -/
theorem endsInLock_iff (name : List Char) : EndsInLock name ↔ name = cut name ++ '.' :: lock := by
  constructor
  · rintro ⟨a, rfl⟩
    rw [cut_lock]
  · intro h
    exact ⟨cut name, h.symm⟩

theorem not_endsInLock_of_not_locked {s : Segment} (h : s.locked = false) : ¬EndsInLock s.base := by
  cases s with
  | region | podBus => cases h
  | registry =>
    unfold EndsInLock
    decide

/-- **Distinct files.** Two segments with valid names have no file in common, and neither has one
    file in two roles, exactly when their names are apart. -/
theorem segment_files_distinct {s t : Segment} (hs : s.valid = true) (ht : t.valid = true) :
    (s.files ++ t.files).Nodup ↔ s.Apart t := by
  -- a data file that is a lock file, its own or not, ends in `.lock`
  have hst : s.base = cut t.base ++ '.' :: lock → EndsInLock s.base := fun h => ⟨_, h.symm⟩
  have hts : cut s.base ++ '.' :: lock = t.base → EndsInLock t.base := fun h => ⟨_, h⟩
  rw [Segment.files_eq hs, Segment.files_eq ht, Segment.Apart]
  cases hls : s.locked <;> cases hlt : t.locked
  all_goals
    simp only [List.cons_append, List.nil_append, List.nodup_cons, List.mem_cons, List.mem_nil_iff,
      or_false, not_or, not_false_eq_true, List.nodup_nil, and_true, List.append_right_inj,
      List.append_left_inj, if_true, if_false, Bool.false_eq_true, false_implies, true_implies,
      ← endsInLock_iff]
  · have hns := not_endsInLock_of_not_locked hls
    have hnt := not_endsInLock_of_not_locked hlt
    tauto
  · have hns := not_endsInLock_of_not_locked hls
    tauto
  · have hnt := not_endsInLock_of_not_locked hlt
    tauto
  · tauto

/-- A region and a PodBus of the same name, one with an extension. -/
theorem segment_files_distinct_dotted :
    (Segment.region ['a', '.', 'b']).valid = true ∧ (Segment.podBus ['a']).valid = true ∧
      ((Segment.region ['a', '.', 'b']).files ++ (Segment.podBus ['a']).files).Nodup := by
  refine ⟨by decide, by decide, (segment_files_distinct (by decide) (by decide)).mpr ?_⟩
  unfold Segment.Apart EndsInLock
  decide

/-- **Files that coincide.** Every name here is valid.  A region `pod-x` has the files of the
    PodBus `x`; a region `registry` has the file of the registry; the regions `a.b` and `a.c` have
    one lock file; and the lock file of a region `a.lock` is its data file. -/
theorem segment_files_collide :
    (Segment.region (pod ++ ['x'])).valid = true ∧ (Segment.podBus ['x']).valid = true ∧
    (Segment.region (pod ++ ['x'])).files = (Segment.podBus ['x']).files ∧
    (Segment.region registry).valid = true ∧ shmPath registry = registryPath ∧
    (Segment.region ['a', '.', 'b']).valid = true ∧ (Segment.region ['a', '.', 'c']).valid = true ∧
    lockPath ['a', '.', 'b'] = lockPath ['a', '.', 'c'] ∧
    (Segment.region ('a' :: '.' :: lock)).valid = true ∧
    lockPath ('a' :: '.' :: lock) = shmPath ('a' :: '.' :: lock) := by
  decide

end Crossbar.Paths
