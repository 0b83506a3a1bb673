import Mathlib.Data.List.FinRange
import Mathlib.Data.List.TakeWhile
import Crossbar.Protocol.Layout

namespace Crossbar.Discovery

/-!
# Discovery — the registry file

`src/platform/registry.rs`: a table of 256 entries in a shared file, each free or active with a
pid, a timestamp and two strings in fields of fixed size.  The calls here are whole calls;
`Crossbar.Discovery.Step` has their single steps.

* `readFixedStr`, `writeFixedStr` — strings in fields, with `readFixedStr_writeFixedStr`: what is
  read is the string up to its first NUL;
* `Registry.register`, `unregister`, `pruneStale`, `discover`, `discoverSince` — the calls.

Strings are lists of UTF-8 bytes; `from_utf8_lossy` gives back the bytes of a string.  Opening the
file and the checks of its header are not modelled: the file is there.
-/

/-- A string, by its bytes. -/
abbrev Str : Type := List UInt8

/-! ### Strings in fields of fixed size -/

/-- The string up to its first NUL. -/
def cstr (s : Str) : Str := s.takeWhile (· ≠ 0)

theorem cstr_of_not_mem {s : Str} (h : (0 : UInt8) ∉ s) : cstr s = s := by
  refine List.takeWhile_eq_self_iff.mpr fun b hb => ?_
  rw [decide_eq_true_eq]
  rintro rfl
  exact h hb

/-- `read_fixed_str`. -/
def readFixedStr (field : Nat → UInt8) (maxLen : Nat) : Str :=
  cstr ((List.range maxLen).map field)

/-- `write_fixed_str`: what does not fit is cut off, and the rest of the field is zeroed. -/
def writeFixedStr (field : Nat → UInt8) (s : Str) (maxLen : Nat) : Nat → UInt8 := fun i =>
  if i < min s.length (maxLen - 1) then s.getD i 0
  else if i < maxLen then 0
  else field i

/-- What is read from a field is the string that was written, up to its first NUL. -/
theorem readFixedStr_writeFixedStr (field : Nat → UInt8) {s : Str} {maxLen : Nat}
    (hlen : s.length < maxLen) : readFixedStr (writeFixedStr field s maxLen) maxLen = cstr s := by
  have hbytes : (List.range maxLen).map (writeFixedStr field s maxLen) =
      s ++ List.replicate (maxLen - s.length) 0 := by
    apply List.ext_getElem
    · simp
      omega
    · intro i hi hi'
      have hmin : min s.length (maxLen - 1) = s.length := by omega
      simp only [List.length_map, List.length_range] at hi
      simp only [List.getElem_map, List.getElem_range, writeFixedStr, hmin, List.getElem_append,
        List.getElem_replicate, if_pos hi]
      split
      · rw [List.getD_eq_getElem _ _ (by assumption)]
      · rfl
  have hzeros : (List.replicate (maxLen - s.length) (0 : UInt8)).takeWhile (· ≠ 0) = [] := by
    cases maxLen - s.length <;> rfl
  rw [readFixedStr, hbytes, cstr, List.takeWhile_append, hzeros, List.append_nil]
  split
  · rename_i hall
    exact ((List.takeWhile_prefix _).eq_of_length hall).symm
  · rfl

/-! ### The file -/

/-- `REG_MAX_ENTRIES`. -/
def regMaxEntries : Nat := 256

/-- `RE_REGION_NAME_MAX`. -/
def reRegionNameMax : Nat := 48

/-- `RE_TOPIC_URI_MAX`. -/
def reTopicUriMax : Nat := 64

/-- The index of an entry. -/
abbrev Slot : Type := Fin regMaxEntries

/-- An entry; `active` is the word `RE_ACTIVE`, which is only ever 0 or 1. -/
structure Entry where
  active : Bool
  pid : Nat
  timestamp : Nat
  regionName : Nat → UInt8
  topicUri : Nat → UInt8

namespace Entry

/-- The region name that is read from an entry. -/
def region (e : Entry) : Str := readFixedStr e.regionName reRegionNameMax

/-- The URI that is read from an entry. -/
def uri (e : Entry) : Str := readFixedStr e.topicUri reTopicUriMax

/-- A claimed entry with its fields written. -/
def written (e : Entry) (region uri : Str) (pid ts : Nat) : Entry where
  active := true
  pid := pid
  timestamp := ts
  regionName := writeFixedStr e.regionName region reRegionNameMax
  topicUri := writeFixedStr e.topicUri uri reTopicUriMax

end Entry

/-- The registry file: the count in the header, and the entries. -/
structure Registry where
  entryCount : Nat
  entry : Slot → Entry

/-- `DiscoveredTopic`. -/
structure DiscoveredTopic where
  region : Str
  uri : Str
  pid : Nat
  timestampUs : Nat
  deriving DecidableEq

/-- `now_micros`, for a clock that is so many microseconds after the UNIX epoch, or before it. -/
def nowMicros (clock : Option Nat) : Option Nat := clock.map wrap64

/-- Whether a URI matches a pattern: a trailing `*` (the byte 42) stands for any rest. -/
def matchesPattern (pattern uri : Str) : Bool :=
  if pattern.getLast? = some 42 then pattern.dropLast.isPrefixOf uri else uri == pattern

namespace Registry

/-- `Registry::create_new`: the file is zero but for the header. -/
def createNew : Registry where
  entryCount := 0
  entry _ := ⟨false, 0, 0, fun _ => 0, fun _ => 0⟩

variable (reg : Registry)

/-- The first scan of `register`, for an active entry with this region, URI and pid. -/
def findEntry (region uri : Str) (pid : Nat) : Option Slot :=
  (List.finRange regMaxEntries).find? fun i =>
    let e := reg.entry i
    e.active && e.pid == pid && (e.region == region && e.uri == uri)

/-- The second scan of `register`, for a free entry. -/
def freeEntry : Option Slot :=
  (List.finRange regMaxEntries).find? fun i => !(reg.entry i).active

/-- Change one entry. -/
def setEntry (i : Slot) (e : Entry) : Registry :=
  { reg with entry := Function.update reg.entry i e }

@[simp] theorem setEntry_entry (i : Slot) (e : Entry) :
    (reg.setEntry i e).entry = Function.update reg.entry i e := rfl

@[simp] theorem setEntry_entryCount (i : Slot) (e : Entry) :
    (reg.setEntry i e).entryCount = reg.entryCount := rfl

/-- `Registry::register`, which never fails: strings that are too long and new entries that find
    no slot are ignored. -/
def register (clock : Option Nat) (region uri : Str) (pid : Nat) : Registry :=
  if reRegionNameMax ≤ region.length ∨ reTopicUriMax ≤ uri.length then reg
  else
    let ts := (nowMicros clock).getD 0
    match reg.findEntry region uri pid with
    | some i =>
      -- registered before: only the time is new
      reg.setEntry i { reg.entry i with timestamp := ts }
    | none =>
      match reg.freeEntry with
      | some i =>
        { reg.setEntry i ((reg.entry i).written region uri pid ts) with
          entryCount := wrap32 (reg.entryCount + 1) }
      | none =>
        -- the table is full: the topic is not registered, and the caller is not told
        reg

/-- The count after `fetch_sub`, with the store that keeps it from wrapping below zero. -/
def countDown (count : Nat) : Nat := if count = 0 then 0 else dec32 count

/-- The loop body of `unregister` and `prune_stale`, which differ in the test. -/
def clearAt (test : Entry → Bool) (i : Slot) : Registry :=
  if (reg.entry i).active && test (reg.entry i) then
    { reg.setEntry i { reg.entry i with active := false } with
      entryCount := countDown reg.entryCount }
  else reg

/-- The loop of `unregister` and `prune_stale`. -/
def clear (test : Entry → Bool) : Registry :=
  (List.finRange regMaxEntries).foldl (fun reg i => reg.clearAt test i) reg

/-- `Registry::unregister`. -/
def unregister (region : Str) (pid : Nat) : Registry :=
  reg.clear fun e => e.pid == pid && e.region == region

/-- `Registry::prune_stale`, for a timeout in microseconds. -/
def pruneStale (clock : Option Nat) (staleTimeout : Nat) : Registry :=
  match nowMicros clock with
  | some now => reg.clear fun e => e.timestamp < now - wrap64 staleTimeout
  | none => reg

/-- The loop of `discover` and `discover_since`, which differ in the test. -/
def collect (pattern : Str) (test : Entry → Bool) : List DiscoveredTopic :=
  (List.finRange regMaxEntries).filterMap fun i =>
    let e := reg.entry i
    if e.active && test e && matchesPattern pattern e.uri then
      some ⟨e.region, e.uri, e.pid, e.timestamp⟩
    else none

/-- `Registry::discover`. -/
def discover (pattern : Str) : List DiscoveredTopic := reg.collect pattern fun _ => true

/-- `Registry::discover_since`. -/
def discoverSince (pattern : Str) (sinceUs : Nat) : List DiscoveredTopic :=
  reg.collect pattern fun e => sinceUs < e.timestamp

end Registry

end Crossbar.Discovery
