import Crossbar.Lib.Run
import Crossbar.Region.Model
import Crossbar.Mapping.Reads
import Crossbar.Discovery.Map

namespace Crossbar.Discovery.Publishers

open Function Crossbar.Lib

/-!
# Discovery — publishers, their regions and the registry

The publishers of a machine, in any number of processes, with the region files that they create or
open and the registry.  `register_inner` writes to the registry only when it claims a new topic of
the region, with the name of the region and the pid of the process; `Drop` removes every entry with
that name and that pid; a heartbeat is written to the region and not to the registry.

* `step` — `create`, `open`, `register`, `heartbeat`, `loan`, `drop`, and `crossbar::discover`,
  which prunes what is older than 10 seconds;
* `Inv` — the claims that stand have their entries, and the entries are those of claims;
* `topic_stays_discoverable` — when no publisher is dropped while others rely on the topics that its
  process has claimed, what a live publisher has registered is discovered;
* `topic_not_discovered` — the second publisher of a process takes the entries of the first along;
* `live_publisher_discovered` — `discover` returns the topics that were claimed in the last 10
  seconds, and no others;
* `live_publisher_pruned` — a publisher with a fresh heartbeat that is not discovered.

A `create` that finds the lock of the region taken fails and changes nothing; the model leaves it
to the run whether the lock is free.  What a loan does to the pool and to the ring is the subject of
`Crossbar.Region`; here it is a heartbeat from time to time.
-/

/-! ### The machine -/

/-- A region file.  `owner` is history: who has claimed the topic of a URI, and when, until a
    publisher of that process with the name of the region is dropped. -/
structure RegionFile where
  name : Str
  cfg : ValidConfig
  shm : Region.Shm cfg
  heartbeat : Nat
  staleTimeout : Nat
  owner : Str → Option (Nat × Nat)

/-- A `Publisher`, with the pid of its process and the file it has mapped.  `registered` is history:
    the URIs for which `register` has returned a topic. -/
structure Publisher where
  name : Str
  pid : Nat
  file : Nat
  isOwner : Bool
  id : Nat
  heartbeatInterval : Nat
  lastHeartbeat : Nat
  loanCount : Nat
  registered : List Str

/-- A topic of the region is claimed. -/
def RegionFile.claim (f : RegionFile) (shm : Region.Shm f.cfg) (uri : Str) (o : Nat × Nat) :
    RegionFile :=
  { f with shm := shm, owner := update f.owner uri (some o) }

/-- `register` has returned a topic. -/
def Publisher.withTopic (b : Publisher) (uri : Str) : Publisher :=
  { b with registered := b.registered ++ [uri] }

/-- The clock, in microseconds; the files, by inode; the file of each region name; the live
    publishers; the registry. -/
structure Host (P : Type*) where
  now : Nat
  files : Nat → Option RegionFile
  path : Str → Option Nat
  pubs : P → Option Publisher
  reg : Registry

/-- Nothing has been created. -/
def start (P : Type*) (now : Nat) : Host P where
  now := now
  files _ := none
  path _ := none
  pubs _ := none
  reg := .createNew

/-- The default of `heartbeat_interval`, in microseconds. -/
def defaultHeartbeatInterval : Nat := 100000

/-- The timeout of `crossbar::discover`, in microseconds. -/
def discoverTimeout : Nat := 10000000

/-- `is_valid_segment_name`.  What it looks for are ASCII characters, so that the bytes are
    enough. -/
def isValidName (name : Str) : Bool :=
  !name.isEmpty && !name.contains 47 && !name.contains 92 && !name.contains 0 &&
    !name.tails.any (List.isPrefixOf [46, 46])

/-- A call; `p` is the publisher, and `inode` a new file. -/
inductive Act (P : Type*) where
  /-- time goes by -/
  | tick (d : Nat)
  | create (p : P) (name : Str) (cfg : ValidConfig)
      (heartbeatInterval staleTimeout pid id inode : Nat)
  | «open» (p : P) (name : Str) (pid id : Nat)
  | register (p : P) (uri : Str) (typeSize : Nat)
  | heartbeat (p : P)
  /-- `loan`, with the publisher that the handle is of -/
  | loan (p : P) (publisherId : Nat)
  | discover (pattern : Str)
  | drop (p : P)

variable {P : Type*} [DecidableEq P]

namespace Host

variable (w : Host P)

/-- `crossbar::discover`, the part that changes the registry. -/
def pruned : Registry := w.reg.pruneStale (some w.now) discoverTimeout

/-- What `crossbar::discover` returns. -/
def discover (pattern : Str) : List DiscoveredTopic := w.pruned.discover pattern

/-- Store a file and a publisher that has it mapped. -/
def put (p : P) (b : Publisher) (f : RegionFile) : Host P :=
  { w with
    files := update w.files b.file (some f)
    pubs := update w.pubs p (some b) }

/-- `Publisher::register_inner`. -/
def registerInner (p : P) (b : Publisher) (f : RegionFile) (uri : Str) (typeSize : Nat) : Host P :=
  match f.shm.registerInner b.id uri typeSize with
  | (_, .error _) => w
  | (shm, .ok _) =>
    if (f.shm.findTopic uri).isSome then w.put p (b.withTopic uri) f
    else
      -- a topic entry was claimed: only then the registry is told
      { w.put p (b.withTopic uri) (f.claim shm uri (b.pid, w.now)) with
        reg := w.reg.register (some w.now) b.name uri b.pid }

/-- `Publisher::heartbeat`, with `update_heartbeat`. -/
def beat (p : P) (b : Publisher) (f : RegionFile) : Host P :=
  w.put p { b with lastHeartbeat := w.now } { f with heartbeat := max f.heartbeat w.now }

/-- The head of `loan`: every 1024 loans the time of the last heartbeat is looked at. -/
def loan (p : P) (b : Publisher) (f : RegionFile) (publisherId : Nat) : Host P :=
  if publisherId ≠ b.id then w
  else
    let b := { b with loanCount := wrap32 (b.loanCount + 1) }
    if b.loanCount &&& 0x3FF = 0 ∧ b.heartbeatInterval ≤ w.now - b.lastHeartbeat then w.beat p b f
    else w.put p b f

/-- `Drop for Publisher`: the registry entries, and the file if the publisher has created it. -/
def drop (p : P) (b : Publisher) : Host P where
  now := w.now
  files i := (w.files i).map fun f =>
    if f.name = b.name then { f with owner := fun u => (f.owner u).filter (·.1 ≠ b.pid) } else f
  path := if b.isOwner ∧ w.path b.name = some b.file then update w.path b.name none
    else w.path
  pubs := update w.pubs p none
  reg := w.reg.unregister b.name b.pid

/-- `Publisher::open`: the region must be valid and its heartbeat fresh. -/
def «open» (p : P) (name : Str) (pid id : Nat) : Host P :=
  match w.path name with
  | some i =>
    match w.files i with
    | some f =>
      -- of the checks of the header, the one that a file made by `create` can fail
      if f.cfg.maxTopics ≤ Mapping.maxTopicsLimit ∧ w.now - f.heartbeat ≤ f.staleTimeout then
        w.put p ⟨name, pid, i, false, id, defaultHeartbeatInterval, w.now, 0, []⟩ f
      else w
    | none => w
  | none => w

/-- `Publisher::create`: a new file takes the place of the one with this name. -/
def create (p : P) (name : Str) (cfg : ValidConfig)
    (heartbeatInterval staleTimeout pid id inode : Nat) : Host P :=
  { w.put p ⟨name, pid, inode, true, id, heartbeatInterval, w.now, 0, []⟩
      ⟨name, cfg, (Region.create cfg id).shm, w.now, staleTimeout, fun _ => none⟩ with
    path := update w.path name (some inode) }

end Host

/-- The calls of one publisher that exists, with its file. -/
def Host.withFile (w : Host P) (p : P) (f : Publisher → RegionFile → Host P) : Option (Host P) :=
  match w.pubs p with
  | some b => (w.files b.file).map (f b)
  | none => none

/-- One call.  The clock stays below 2^64. -/
def step (w : Host P) : Act P → Option (Host P)
  | .tick d => if w.now + d < 2 ^ 64 then some { w with now := w.now + d } else none
  | .create p name cfg heartbeatInterval staleTimeout pid id inode =>
    if w.pubs p = none ∧ w.files inode = none ∧ isValidName name = true then
      some (w.create p name cfg heartbeatInterval staleTimeout pid id inode)
    else none
  | .open p name pid id => if w.pubs p = none then some (w.open p name pid id) else none
  | .register p uri typeSize => w.withFile p fun b f => w.registerInner p b f uri typeSize
  | .heartbeat p => w.withFile p fun b f => w.beat p b f
  | .loan p publisherId => w.withFile p fun b f => w.loan p b f publisherId
  | .discover _ => some { w with reg := w.pruned }
  | .drop p => w.withFile p fun b _ => w.drop p b

/-! ### Conditions -/

/-- A URI that the registry can take, while it has room. -/
def Host.Takes (w : Host P) (uri : Str) : Prop :=
  (0 : UInt8) ∉ uri ∧ uri.length < reTopicUriMax ∧ w.reg.freeEntry ≠ none

/-- Names and URIs are short enough for the registry, which has room. -/
def Fits (w : Host P) : Act P → Prop
  | .create _ name .. => name.length < reRegionNameMax
  | .register _ uri _ => w.Takes uri
  | .tick _ | .open .. | .heartbeat _ | .loan .. | .discover _ | .drop _ => True

/-- Nothing is pruned; a topic is not registered again when its claim is gone; and a publisher is
    not dropped while another one of its region has registered a topic that its process has
    claimed. -/
def Orderly (w : Host P) : Act P → Prop
  | .register p uri _ =>
      ∀ b ∈ w.pubs p, ∀ f ∈ w.files b.file, f.shm.findTopic uri ≠ none → f.owner uri ≠ none
  | .drop p => ∀ b ∈ w.pubs p, ∀ q, q ≠ p → ∀ b' ∈ w.pubs q, b'.name = b.name →
      ∀ f ∈ w.files b'.file, ∀ u ∈ b'.registered, ∀ o ∈ f.owner u, o.1 ≠ b.pid
  | .discover _ => False
  | .tick _ | .create .. | .open .. | .heartbeat _ | .loan .. => True

/-- A region of this name has the topic, by a claim that stands and is not older than the timeout of
    `discover`. -/
def Host.ClaimedRecently (w : Host P) (name uri : Str) : Prop :=
  ∃ i, ∃ f ∈ w.files i, f.name = name ∧ ∃ o ∈ f.owner uri, w.now ≤ o.2 + discoverTimeout

/-! ### The topics of a region -/

section

variable {cfg : ValidConfig} {shm shm' : Region.Shm cfg} {uri u : Str}

/-- A topic is found when an active entry has the URI and its hash. -/
theorem findTopic_ne_none : shm.findTopic u ≠ none ↔
    ∃ t, (shm.topic t).active = true ∧ (shm.topic t).uriHash = Region.uriHash u ∧
      (shm.topic t).uri = u := by
  rw [← Option.isSome_iff_ne_none, Region.Shm.findTopic, List.find?_isSome]
  simp [and_assoc]

/-- A registration that finds no topic adds one. -/
theorem findTopic_registerInner {id typeSize : Nat} {h : Region.Handle cfg}
    (hreg : shm.registerInner id uri typeSize = (shm', .ok h)) (hnew : shm.findTopic uri = none) :
    shm'.findTopic u ≠ none ↔ u = uri ∨ shm.findTopic u ≠ none := by
  unfold Region.Shm.registerInner at hreg
  split at hreg
  · cases hreg
  · rw [hnew] at hreg
    cases hfree : shm.freeTopic with
    | none =>
      rw [hfree] at hreg
      cases hreg
    | some t =>
      simp only [hfree] at hreg
      cases hreg
      have hinactive := List.find?_some hfree
      rw [findTopic_ne_none, findTopic_ne_none]
      constructor
      · rintro ⟨t', hactive, hhash, huri⟩
        by_cases ht : t' = t
        · -- the entry that was claimed
          simp only [ht, Region.Shm.setTopic, update_self] at huri
          exact Or.inl huri.symm
        · simp only [Region.Shm.setTopic, update_of_ne ht] at hactive hhash huri
          exact Or.inr ⟨t', hactive, hhash, huri⟩
      · rintro (rfl | ⟨t', hactive, hhash, huri⟩)
        · exact ⟨t, by simp [Region.Shm.setTopic]⟩
        · -- the entry that was claimed is another one, since it was free
          have ht : t' ≠ t := by
            rintro rfl
            simp [hactive] at hinactive
          refine ⟨t', ?_⟩
          simp only [Region.Shm.setTopic, update_of_ne ht]
          exact ⟨hactive, hhash, huri⟩

end

/-! ### What holds -/

/-- What is stored in a table after one entry has been set. -/
theorem mem_update {ι α : Type*} [DecidableEq ι] {t : ι → Option α} {a i : ι} {x y : α} :
    y ∈ update t a (some x) i ↔ (i = a ∧ y = x) ∨ (i ≠ a ∧ y ∈ t i) := by
  by_cases hi : i = a
  · subst hi
    simp [eq_comm]
  · simp [hi]

/-- The registry stores `m`.  Every claim that stands, if it was made at one of the times `S`, has
    its entry, which is not older, and every entry is that of a claim; only topics of the region are
    claimed; live publishers have a file with their name; and what they have registered is
    claimed. -/
structure Inv (S : Nat → Prop) (w : Host P) (m : BoundedMap Key Nat regMaxEntries) : Prop where
  refines : w.reg.Refines m
  clock : w.now < 2 ^ 64
  name : ∀ i, ∀ f ∈ w.files i, (0 : UInt8) ∉ f.name ∧ f.name.length < reRegionNameMax
  past : ∀ i, ∀ f ∈ w.files i, ∀ u, ∀ o ∈ f.owner u, o.2 ≤ w.now
  owned : ∀ i, ∀ f ∈ w.files i, ∀ u, ∀ o ∈ f.owner u, S o.2 →
    ∃ ts, m.get ⟨f.name, u, o.1⟩ = some ts ∧ o.2 ≤ ts
  stored : ∀ k ts, m.get k = some ts →
    ∃ i, ∃ f ∈ w.files i, f.name = k.region ∧ (k.pid, ts) ∈ f.owner k.uri
  shown : ∀ i, ∀ f ∈ w.files i, ∀ u, f.owner u ≠ none → f.shm.findTopic u ≠ none
  path : ∀ name i, w.path name = some i → ∃ f, w.files i = some f ∧ f.name = name
  file : ∀ p, ∀ b ∈ w.pubs p, ∃ f, w.files b.file = some f ∧ f.name = b.name

variable {S : Nat → Prop} {w w' : Host P} {m : BoundedMap Key Nat regMaxEntries} {p : P}
  {b : Publisher} {f : RegionFile}

omit [DecidableEq P] in
/-- A host without regions, and an empty registry. -/
theorem start_inv {now : Nat} (hnow : now < 2 ^ 64) : Inv S (start P now) .empty where
  refines := createNew_refines
  clock := hnow
  name := by rintro _ _ ⟨⟩
  past := by rintro _ _ ⟨⟩
  owned := by rintro _ _ ⟨⟩
  stored := by rintro _ _ ⟨⟩
  shown := by rintro _ _ ⟨⟩
  path := by rintro _ _ ⟨⟩
  file := by rintro _ _ ⟨⟩

omit [DecidableEq P] in
/-- Fewer times. -/
theorem Inv.mono {S' : Nat → Prop} (h : Inv S w m) (hS : ∀ t, S' t → S t) : Inv S' w m :=
  { h with owned := fun i f hf u o ho ht => h.owned i f hf u o ho (hS _ ht) }

/-- What becomes of the file of a publisher: it is new, or has the name and the claims that it
    had. -/
def Host.Extends (w : Host P) (i : Nat) (f : RegionFile) : Prop :=
  ∀ f₀ ∈ w.files i, f.name = f₀.name ∧ ∀ u, ∀ o ∈ f₀.owner u, o ∈ f.owner u

/-- Every file is still there, with its name and its claims. -/
theorem Host.Extends.keep (hext : w.Extends b.file f) {i : Nat} {g₀ : RegionFile}
    (hg₀ : w.files i = some g₀) : ∃ g, (w.put p b f).files i = some g ∧ g.name = g₀.name ∧
      ∀ u, ∀ o ∈ g₀.owner u, o ∈ g.owner u := by
  by_cases hi : i = b.file
  · subst hi
    exact ⟨f, mem_update.mpr (Or.inl ⟨rfl, rfl⟩), hext g₀ hg₀⟩
  · exact ⟨g₀, mem_update.mpr (Or.inr ⟨hi, hg₀⟩), rfl, fun u o ho => ho⟩

omit [DecidableEq P] in
/-- A file with the same name and owners loses nothing. -/
theorem Host.extends_of_owner {i : Nat} {f₀ : RegionFile} (hf₀ : w.files i = some f₀)
    (hname : f.name = f₀.name) (howner : f.owner = f₀.owner) : w.Extends i f := by
  intro f₁ hf₁
  rw [hf₀] at hf₁
  cases hf₁
  rw [howner]
  exact ⟨hname, fun u o ho => ho⟩

/-- A publisher and its file are stored, and the registry changes: the file has a good name, its
    new claims have entries, the other claims keep theirs, and new entries are those of its
    claims. -/
theorem Inv.put (h : Inv S w m) {m' : BoundedMap Key Nat regMaxEntries} {reg : Registry}
    (hrefines : reg.Refines m') (hname : (0 : UInt8) ∉ f.name ∧ f.name.length < reRegionNameMax)
    (hb : f.name = b.name) (hext : w.Extends b.file f)
    (hold : ∀ i, ∀ g ∈ w.files i, ∀ u, ∀ o ∈ g.owner u, S o.2 →
      ∃ ts, m'.get ⟨g.name, u, o.1⟩ = some ts ∧ o.2 ≤ ts)
    (hclaims : ∀ u, ∀ o ∈ f.owner u, (∃ f₀ ∈ w.files b.file, o ∈ f₀.owner u) ∨
      (o.2 ≤ w.now ∧ ∃ ts, m'.get ⟨f.name, u, o.1⟩ = some ts ∧ o.2 ≤ ts))
    (hstored : ∀ k ts, m'.get k = some ts →
      m.get k = some ts ∨ (f.name = k.region ∧ (k.pid, ts) ∈ f.owner k.uri))
    (hshown : ∀ u, f.owner u ≠ none → f.shm.findTopic u ≠ none) :
    Inv S { w.put p b f with reg := reg } m' := by
  refine ⟨hrefines, h.clock, fun i g hg => ?_, fun i g hg u o ho => ?_, fun i g hg u o ho ht => ?_,
    fun k ts hts => ?_, fun i g hg u => ?_, fun name i hi => ?_, fun q c hc => ?_⟩
  · rcases mem_update.mp hg with ⟨-, rfl⟩ | ⟨-, hg⟩
    · exact hname
    · exact h.name i g hg
  · rcases mem_update.mp hg with ⟨rfl, rfl⟩ | ⟨-, hg⟩
    · rcases hclaims u o ho with ⟨f₀, hf₀, ho₀⟩ | ⟨hnow, -⟩
      · exact h.past b.file f₀ hf₀ u o ho₀
      · exact hnow
    · exact h.past i g hg u o ho
  · rcases mem_update.mp hg with ⟨rfl, rfl⟩ | ⟨-, hg⟩
    · rcases hclaims u o ho with ⟨f₀, hf₀, ho₀⟩ | ⟨-, hts⟩
      · rw [(hext f₀ hf₀).1]
        exact hold b.file f₀ hf₀ u o ho₀ ht
      · exact hts
    · exact hold i g hg u o ho ht
  · rcases hstored k ts hts with hts | hclaim
    · -- an old entry, whose claim is kept
      obtain ⟨i, g₀, hg₀, hn, ho⟩ := h.stored k ts hts
      obtain ⟨g, hg, hn', hkeep⟩ := hext.keep (p := p) hg₀
      exact ⟨i, g, hg, hn'.trans hn, hkeep k.uri _ ho⟩
    · exact ⟨b.file, f, mem_update.mpr (Or.inl ⟨rfl, rfl⟩), hclaim⟩
  · rcases mem_update.mp hg with ⟨-, rfl⟩ | ⟨-, hg⟩
    · exact hshown u
    · exact h.shown i g hg u
  · obtain ⟨g₀, hg₀, hn⟩ := h.path name i hi
    obtain ⟨g, hg, hn', -⟩ := hext.keep (p := p) hg₀
    exact ⟨g, hg, hn'.trans hn⟩
  · rcases mem_update.mp hc with ⟨-, rfl⟩ | ⟨-, hc⟩
    · exact ⟨f, mem_update.mpr (Or.inl ⟨rfl, rfl⟩), hb⟩
    · obtain ⟨g₀, hg₀, hn⟩ := h.file q c hc
      obtain ⟨g, hg, hn', -⟩ := hext.keep (p := p) hg₀
      exact ⟨g, hg, hn'.trans hn⟩

/-- The file keeps its topics and its claims, and the registry its entries. -/
theorem Inv.put_same (h : Inv S w m) {f₀ : RegionFile} (hf₀ : w.files b.file = some f₀)
    (hname : f.name = f₀.name) (howner : f.owner = f₀.owner)
    (hshown : ∀ u, f.owner u ≠ none → f.shm.findTopic u ≠ none) (hb : f₀.name = b.name) :
    Inv S (w.put p b f) m := by
  apply h.put h.refines
  · rw [hname]
    exact h.name b.file f₀ hf₀
  · exact hname.trans hb
  · exact Host.extends_of_owner hf₀ hname howner
  · exact h.owned
  · intro u o ho
    rw [howner] at ho
    exact Or.inl ⟨f₀, hf₀, ho⟩
  · intro k ts hts
    exact Or.inl hts
  · exact hshown

/-- A valid name has no NUL byte. -/
theorem nul_not_mem {name : Str} (h : isValidName name = true) : (0 : UInt8) ∉ name := by
  simp only [isValidName, Bool.and_eq_true, Bool.not_eq_true', List.contains_eq_mem,
    decide_eq_false_iff_not] at h
  exact h.1.2

/-- A new file, with a new publisher. -/
theorem Inv.create (h : Inv S w m) {name : Str} {inode : Nat} (hfile : w.files inode = none)
    (hvalid : isValidName name = true) (hlen : name.length < reRegionNameMax) (p : P)
    (cfg : ValidConfig) (heartbeatInterval staleTimeout pid id : Nat) :
    Inv S (w.create p name cfg heartbeatInterval staleTimeout pid id inode) m := by
  have hput : Inv S (w.put p ⟨name, pid, inode, true, id, heartbeatInterval, w.now, 0, []⟩
      ⟨name, cfg, (Region.create cfg id).shm, w.now, staleTimeout, fun _ => none⟩) m := by
    apply h.put h.refines
    · exact ⟨nul_not_mem hvalid, hlen⟩
    · rfl
    · intro f₀ hf₀
      rw [hfile] at hf₀
      cases hf₀
    · exact h.owned
    · rintro u o ⟨⟩
    · intro k ts hts
      exact Or.inl hts
    · intro u hu
      exact absurd rfl hu
  refine { hput with path := fun name' i hi => ?_ }
  rcases mem_update.mp hi with ⟨rfl, rfl⟩ | ⟨-, hi⟩
  · exact ⟨_, update_self .., rfl⟩
  · exact hput.path name' i hi

omit [DecidableEq P] in
/-- A publisher is on the file of its region name. -/
theorem Inv.file_name (h : Inv S w m) (hp : w.pubs p = some b) (hf : w.files b.file = some f) :
    f.name = b.name := by
  obtain ⟨f₀, hf₀, hname⟩ := h.file p b hp
  rw [hf] at hf₀
  cases hf₀
  exact hname

/-- What the head of `loan` does: it counts, and may store a heartbeat. -/
theorem Host.loan_cases (w : Host P) (p : P) (b : Publisher) (f : RegionFile) (publisherId : Nat) :
    w.loan p b f publisherId = w ∨
    ∃ count last beat, w.loan p b f publisherId =
      w.put p { b with loanCount := count, lastHeartbeat := last }
        { f with heartbeat := beat } := by
  unfold Host.loan
  split
  · exact Or.inl rfl
  · dsimp only
    split
    · exact Or.inr ⟨_, _, _, rfl⟩
    · exact Or.inr ⟨_, b.lastHeartbeat, f.heartbeat, rfl⟩

/-- What `open` does, when it returns a publisher. -/
theorem Host.open_cases (w : Host P) (p : P) (name : Str) (pid id : Nat) :
    w.open p name pid id = w ∨
    ∃ i f, w.path name = some i ∧ w.files i = some f ∧ w.open p name pid id =
      w.put p ⟨name, pid, i, false, id, defaultHeartbeatInterval, w.now, 0, []⟩ f := by
  unfold Host.open
  split
  · rename_i i hi
    split
    · rename_i f hf
      split
      · exact Or.inr ⟨i, f, hi, hf, rfl⟩
      · exact Or.inl rfl
    · exact Or.inl rfl
  · exact Or.inl rfl

/-- **Step** of a loan, which may store a heartbeat. -/
theorem Inv.loan (h : Inv S w m) (hp : w.pubs p = some b) (hf : w.files b.file = some f)
    (publisherId : Nat) : Inv S (w.loan p b f publisherId) m := by
  have hb := h.file_name hp hf
  rcases w.loan_cases p b f publisherId with heq | ⟨count, last, beat, heq⟩
  · rw [heq]
    exact h
  · rw [heq]
    exact h.put_same hf rfl rfl (h.shown b.file f hf) hb

/-- **Step** of `open`. -/
theorem Inv.open (h : Inv S w m) (p : P) (name : Str) (pid id : Nat) :
    Inv S (w.open p name pid id) m := by
  rcases w.open_cases p name pid id with heq | ⟨i, f, hi, hf, heq⟩
  · rw [heq]
    exact h
  · obtain ⟨f₀, hf₀, hname⟩ := h.path name i hi
    rw [hf] at hf₀
    cases hf₀
    rw [heq]
    exact h.put_same hf rfl rfl (h.shown i f hf) hname

omit [DecidableEq P] in
/-- A topic that the region does not have is not claimed, so that a new claim ends none. -/
theorem Inv.extends_claim (h : Inv S w m) {i : Nat} (hf : w.files i = some f) {uri : Str}
    (hnew : f.shm.findTopic uri = none) (shm : Region.Shm f.cfg) (o : Nat × Nat) :
    w.Extends i (f.claim shm uri o) := by
  intro f₀ hf₀
  rw [hf] at hf₀
  cases hf₀
  refine ⟨rfl, fun u o' ho' => mem_update.mpr (Or.inr ⟨?_, ho'⟩)⟩
  rintro rfl
  have hclaimed : f.owner u ≠ none := by
    rw [ho']
    exact Option.some_ne_none o'
  exact h.shown i f hf u hclaimed hnew

/-- A topic is claimed: the registry gets an entry for it, and the entries that it has do not get
    older. -/
theorem Inv.claim (h : Inv S w m) (hp : w.pubs p = some b) (hf : w.files b.file = some f)
    {uri : Str} (huri : w.Takes uri) (hnew : f.shm.findTopic uri = none) {typeSize : Nat}
    {shm : Region.Shm f.cfg} {t : Region.Handle f.cfg}
    (hreg : f.shm.registerInner b.id uri typeSize = (shm, .ok t)) :
    Inv S { w.put p (b.withTopic uri) (f.claim shm uri (b.pid, w.now)) with
        reg := w.reg.register (some w.now) b.name uri b.pid }
      (m.put ⟨b.name, uri, b.pid⟩ w.now) := by
  have hb := h.file_name hp hf
  obtain ⟨hnul, hlen, hroom⟩ := huri
  have hname := h.name b.file f hf
  have hnow : (nowMicros (some w.now)).getD 0 = w.now := wrap64_of_lt h.clock
  -- the new entry, and what becomes of an old one
  have hget : (m.put ⟨b.name, uri, b.pid⟩ w.now).get =
      update m.get ⟨b.name, uri, b.pid⟩ (some w.now) := by
    obtain ⟨i, hi⟩ := Option.ne_none_iff_exists'.mp hroom
    exact m.put_get _ _ (Or.inr (h.refines.stores.size_lt (Registry.freeEntry_some hi)))
  have hrefines := Registry.register_refines h.refines (some w.now) b.pid (hb ▸ hname.1) hnul
    (not_or.mpr ⟨Nat.not_le.mpr (hb ▸ hname.2), Nat.not_le.mpr hlen⟩)
  rw [hnow] at hrefines
  apply h.put hrefines
  · exact hname
  · exact hb
  · exact h.extends_claim hf hnew shm (b.pid, w.now)
  · intro i g hg u o ho ht
    obtain ⟨ts, hts, hle⟩ := h.owned i g hg u o ho ht
    -- a claim with this very key is in another file: its entry gets newer
    rw [hget]
    by_cases hk : (⟨g.name, u, o.1⟩ : Key) = ⟨b.name, uri, b.pid⟩
    · rw [hk, update_self]
      exact ⟨w.now, rfl, h.past i g hg u o ho⟩
    · rw [update_of_ne hk]
      exact ⟨ts, hts, hle⟩
  · intro u o ho
    rcases mem_update.mp ho with ⟨rfl, rfl⟩ | ⟨-, ho⟩
    · refine Or.inr ⟨le_refl w.now, w.now, ?_, le_refl w.now⟩
      rw [hget, RegionFile.claim, hb, update_self]
    · exact Or.inl ⟨f, hf, ho⟩
  · intro k ts hts
    rw [hget] at hts
    rcases mem_update.mp hts with ⟨rfl, rfl⟩ | ⟨-, hts⟩
    · exact Or.inr ⟨hb, mem_update.mpr (Or.inl ⟨rfl, rfl⟩)⟩
    · exact Or.inl hts
  · intro u hu
    refine (findTopic_registerInner hreg hnew).mpr ?_
    by_cases hne : u = uri
    · exact Or.inl hne
    · simp only [RegionFile.claim, update_of_ne hne] at hu
      exact Or.inr (h.shown b.file f hf u hu)

/-- What `register_inner` does, when it returns a topic. -/
theorem Host.registerInner_cases (w : Host P) (p : P) (b : Publisher) (f : RegionFile) (uri : Str)
    (typeSize : Nat) :
    w.registerInner p b f uri typeSize = w ∨
    (f.shm.findTopic uri ≠ none ∧ w.registerInner p b f uri typeSize =
      w.put p (b.withTopic uri) f) ∨
    ∃ shm t, f.shm.findTopic uri = none ∧ f.shm.registerInner b.id uri typeSize = (shm, .ok t) ∧
      w.registerInner p b f uri typeSize =
        { w.put p (b.withTopic uri) (f.claim shm uri (b.pid, w.now)) with
          reg := w.reg.register (some w.now) b.name uri b.pid } := by
  unfold Host.registerInner
  split
  · exact Or.inl rfl
  · rename_i shm t hreg
    split
    · rename_i hfound
      exact Or.inr (Or.inl ⟨Option.isSome_iff_ne_none.mp hfound, rfl⟩)
    · rename_i hfound
      exact Or.inr (Or.inr ⟨shm, t, Option.not_isSome_iff_eq_none.mp hfound, hreg, rfl⟩)

/-- **Step** of `register`. -/
theorem Inv.registerInner (h : Inv S w m) (hp : w.pubs p = some b) (hf : w.files b.file = some f)
    {uri : Str} (huri : w.Takes uri) (typeSize : Nat) :
    ∃ m', Inv S (w.registerInner p b f uri typeSize) m' := by
  rcases w.registerInner_cases p b f uri typeSize with heq | ⟨-, heq⟩ | ⟨shm, t, hnew, hreg, heq⟩
  · rw [heq]
    exact ⟨m, h⟩
  · have hb := h.file_name hp hf
    rw [heq]
    exact ⟨m, h.put_same hf rfl rfl (h.shown b.file f hf) hb⟩
  · rw [heq]
    exact ⟨_, h.claim hp hf huri hnew hreg⟩

omit [DecidableEq P] in
/-- `crossbar::discover` prunes no claim that was made in the last 10 seconds. -/
theorem Inv.prune (h : Inv S w m) (hS : ∀ t, S t → w.now ≤ t + discoverTimeout) :
    Inv S { w with reg := w.pruned } (m.keep fun _ ts => w.now - discoverTimeout ≤ ts) := by
  have hnow : wrap64 w.now = w.now := wrap64_of_lt h.clock
  have htimeout : wrap64 discoverTimeout = discoverTimeout := rfl
  have hrefines := Registry.pruneStale_refines h.refines w.now discoverTimeout
  rw [hnow, htimeout, ← Host.pruned] at hrefines
  refine { h with refines := ?_, owned := fun i f hf u o ho ht => ?_
                  stored := fun k ts hts => ?_ }
  · dsimp only
    exact hrefines
  · obtain ⟨ts, hts, hle⟩ := h.owned i f hf u o ho ht
    have hclaim := hS o.2 ht
    refine ⟨ts, ?_, hle⟩
    rw [BoundedMap.keep, Option.filter_eq_some_iff]
    exact ⟨hts, decide_eq_true (by omega)⟩
  · rw [BoundedMap.keep, Option.filter_eq_some_iff] at hts
    exact h.stored k ts hts.1

/-- The files after a drop: claims of the process on files of that name are gone. -/
theorem Host.drop_file {i : Nat} {g : RegionFile} (hg : g ∈ (w.drop p b).files i) :
    ∃ g₀ ∈ w.files i, g.name = g₀.name ∧
      (∀ u, g.shm.findTopic u = none ↔ g₀.shm.findTopic u = none) ∧
      ∀ u o, o ∈ g.owner u ↔ o ∈ g₀.owner u ∧ (g₀.name = b.name → o.1 ≠ b.pid) := by
  obtain ⟨g₀, hg₀, rfl⟩ := Option.map_eq_some_iff.mp hg
  refine ⟨g₀, hg₀, ?_⟩
  by_cases hname : g₀.name = b.name
  · rw [if_pos hname]
    refine ⟨rfl, fun u => Iff.rfl, fun u o => ?_⟩
    simp [Option.mem_def, Option.filter_eq_some_iff, hname]
  · rw [if_neg hname]
    refine ⟨rfl, fun u => Iff.rfl, fun u o => ?_⟩
    exact ⟨fun ho => ⟨ho, fun h => absurd h hname⟩, fun ho => ho.1⟩

/-- Dropping a publisher keeps every file and its name. -/
theorem Host.drop_keeps (p : P) (b : Publisher) {i : Nat} {g₀ : RegionFile}
    (hg₀ : w.files i = some g₀) : ∃ g, (w.drop p b).files i = some g ∧ g.name = g₀.name := by
  simp only [Host.drop, hg₀, Option.map_some, Option.some.injEq]
  refine ⟨_, rfl, ?_⟩
  split <;> rfl

/-- Dropping a publisher unregisters its process from its region. -/
theorem Host.drop_reg (w : Host P) (p : P) (b : Publisher) :
    (w.drop p b).reg = w.reg.unregister b.name b.pid := by
  simp only [Host.drop]

/-- The other publishers. -/
theorem Host.drop_pubs {q : P} {c : Publisher} (hc : c ∈ (w.drop p b).pubs q) :
    q ≠ p ∧ c ∈ w.pubs q := by
  simp only [Host.drop] at hc
  by_cases hq : q = p
  · rw [hq, update_self] at hc
    cases hc
  · rw [update_of_ne hq] at hc
    exact ⟨hq, hc⟩

/-- Dropping a publisher adds no path. -/
theorem Host.drop_path {name : Str} {i : Nat} (hi : (w.drop p b).path name = some i) :
    w.path name = some i := by
  simp only [Host.drop] at hi
  split at hi
  · by_cases hn : name = b.name
    · rw [hn, update_self] at hi
      cases hi
    · rw [update_of_ne hn] at hi
      exact hi
  · exact hi

/-- The entries that a drop removes are those of the claims that it ends. -/
theorem Inv.drop (h : Inv S w m) (p : P) (b : Publisher) :
    Inv S (w.drop p b) (m.keep fun k _ => !(k.pid == b.pid && k.region == b.name)) := by
  have hrefines := Registry.unregister_refines h.refines b.name b.pid
  rw [← w.drop_reg p b] at hrefines
  have hkeep : ∀ (k : Key) (ts : Nat),
      (m.keep fun k _ => !(k.pid == b.pid && k.region == b.name)).get k = some ts ↔
        m.get k = some ts ∧ (k.region = b.name → k.pid ≠ b.pid) := by
    intro k ts
    rw [BoundedMap.keep, Option.filter_eq_some_iff]
    simp only [Bool.not_eq_true', Bool.and_eq_false_imp, beq_iff_eq, beq_eq_false_iff_ne]
    exact and_congr_right fun _ => ⟨fun hk hr hp => hk hp hr, fun hk hp hr => hk hr hp⟩
  refine ⟨hrefines, h.clock, fun i g hg => ?_, fun i g hg u o ho => ?_, fun i g hg u o ho ht => ?_,
    fun k ts hts => ?_, fun i g hg u hu => ?_, fun name i hi => ?_, fun q c hc => ?_⟩
  · obtain ⟨g₀, hg₀, hname, -⟩ := Host.drop_file hg
    rw [hname]
    exact h.name i g₀ hg₀
  · obtain ⟨g₀, hg₀, -, -, hclaims⟩ := Host.drop_file hg
    exact h.past i g₀ hg₀ u o ((hclaims u o).mp ho).1
  · -- a claim that stands has another name or another pid, and so has its entry
    obtain ⟨g₀, hg₀, hname, -, hclaims⟩ := Host.drop_file hg
    obtain ⟨ho₀, hother⟩ := (hclaims u o).mp ho
    obtain ⟨ts, hts, hle⟩ := h.owned i g₀ hg₀ u o ho₀ ht
    rw [hname]
    exact ⟨ts, (hkeep _ ts).mpr ⟨hts, hother⟩, hle⟩
  · obtain ⟨hts, hother⟩ := (hkeep k ts).mp hts
    obtain ⟨i, g₀, hg₀, hname, ho⟩ := h.stored k ts hts
    obtain ⟨g, hg, -⟩ := Host.drop_keeps p b hg₀
    obtain ⟨g₁, hg₁, hname', -, hclaims⟩ := Host.drop_file hg
    rw [hg₀] at hg₁
    cases hg₁
    refine ⟨i, g, hg, hname'.trans hname, (hclaims _ _).mpr ⟨ho, fun hb => ?_⟩⟩
    exact hother (hname ▸ hb)
  · obtain ⟨g₀, hg₀, -, htopics, hclaims⟩ := Host.drop_file hg
    obtain ⟨o, ho⟩ := Option.ne_none_iff_exists'.mp hu
    have hold : g₀.owner u ≠ none := by
      rw [((hclaims u o).mp ho).1]
      exact Option.some_ne_none o
    exact fun hnone => h.shown i g₀ hg₀ u hold ((htopics u).mp hnone)
  · obtain ⟨g₀, hg₀, hname⟩ := h.path name i (Host.drop_path hi)
    obtain ⟨g, hg, hname'⟩ := Host.drop_keeps p b hg₀
    exact ⟨g, hg, hname'.trans hname⟩
  · obtain ⟨g₀, hg₀, hname⟩ := h.file q c (Host.drop_pubs hc).2
    obtain ⟨g, hg, hname'⟩ := Host.drop_keeps p b hg₀
    exact ⟨g, hg, hname'.trans hname⟩

/-! ### Runs -/

omit [DecidableEq P] in
/-- A call of a publisher needs it alive. -/
theorem withFile_inv {g : Publisher → RegionFile → Host P} (h : w.withFile p g = some w') :
    ∃ b f, w.pubs p = some b ∧ w.files b.file = some f ∧ w' = g b f := by
  unfold Host.withFile at h
  split at h
  · rename_i b hb
    obtain ⟨f, hf, rfl⟩ := Option.map_eq_some_iff.mp h
    exact ⟨b, f, hb, hf, rfl⟩
  · cases h

/-- What one call keeps, when `discover` prunes no claim of the times `S`. -/
theorem inv_step {a : Act P} (h : ∃ m, Inv S w m) (hfits : Fits w a)
    (hS : ∀ pattern, a = .discover pattern → ∀ t, S t → w.now ≤ t + discoverTimeout)
    (hstep : step w a = some w') : ∃ m, Inv S w' m := by
  obtain ⟨m, h⟩ := h
  cases a with
  | tick d =>
    simp only [step, Option.ite_none_right_eq_some, Option.some.injEq] at hstep
    obtain ⟨hnow, rfl⟩ := hstep
    refine ⟨m, { h with clock := hnow, past := fun i f hf u o ho => ?_ }⟩
    exact (h.past i f hf u o ho).trans (Nat.le_add_right ..)
  | create p name cfg heartbeatInterval staleTimeout pid id inode =>
    simp only [step, Option.ite_none_right_eq_some, Option.some.injEq] at hstep
    obtain ⟨⟨-, hfile, hvalid⟩, rfl⟩ := hstep
    exact ⟨m, h.create hfile hvalid hfits p cfg heartbeatInterval staleTimeout pid id⟩
  | «open» p name pid id =>
    simp only [step, Option.ite_none_right_eq_some, Option.some.injEq] at hstep
    obtain ⟨-, rfl⟩ := hstep
    exact ⟨m, h.open p name pid id⟩
  | register p uri typeSize =>
    obtain ⟨b, f, hp, hf, rfl⟩ := withFile_inv hstep
    exact h.registerInner hp hf hfits typeSize
  | heartbeat p =>
    obtain ⟨b, f, hp, hf, rfl⟩ := withFile_inv hstep
    have hb := h.file_name hp hf
    exact ⟨m, h.put_same hf rfl rfl (h.shown b.file f hf) hb⟩
  | loan p publisherId =>
    obtain ⟨b, f, hp, hf, rfl⟩ := withFile_inv hstep
    exact ⟨m, h.loan hp hf publisherId⟩
  | discover pattern =>
    simp only [step, Option.some.injEq] at hstep
    subst hstep
    exact ⟨_, h.prune (hS pattern rfl)⟩
  | drop p =>
    obtain ⟨b, f, hp, hf, rfl⟩ := withFile_inv hstep
    exact ⟨_, h.drop p b⟩

/-- Every URI matches itself. -/
theorem matchesPattern_self (uri : Str) : matchesPattern uri uri = true := by
  unfold matchesPattern
  split
  · rw [List.isPrefixOf_iff_prefix]
    exact List.dropLast_prefix uri
  · exact beq_self_eq_true uri

/-- What `Registry::discover` returns for a URI. -/
theorem discover_iff {reg : Registry} (hrefines : reg.Refines m) (name uri : Str) :
    (∃ d ∈ reg.discover uri, d.region = name ∧ d.uri = uri) ↔
      ∃ pid ts, m.get ⟨name, uri, pid⟩ = some ts := by
  have hspec := (Registry.discover_spec hrefines uri).2
  constructor
  · rintro ⟨d, hd, rfl, rfl⟩
    exact ⟨d.pid, d.timestampUs, ((hspec d).mp hd).1⟩
  · rintro ⟨pid, ts, hts⟩
    exact ⟨⟨name, uri, pid, ts⟩, (hspec _).mpr ⟨hts, matchesPattern_self uri⟩, rfl, rfl⟩

/-! ### When publishers are dropped -/

/-- What live publishers have registered is claimed. -/
def Host.Backed (w : Host P) : Prop :=
  ∀ p, ∀ b ∈ w.pubs p, ∀ f ∈ w.files b.file, ∀ u ∈ b.registered, f.owner u ≠ none

/-- A publisher is stored whose file has all that it registered. -/
theorem Host.Backed.put (hback : w.Backed) (h : Inv S w m) (hext : w.Extends b.file f)
    (hreg : ∀ u ∈ b.registered, f.owner u ≠ none) : (w.put p b f).Backed := by
  intro q c hc g hg u hu
  rcases mem_update.mp hc with ⟨-, rfl⟩ | ⟨-, hc₀⟩
  · rcases mem_update.mp hg with ⟨-, rfl⟩ | ⟨hne, -⟩
    · exact hreg u hu
    · exact absurd rfl hne
  · rcases mem_update.mp hg with ⟨hfile, rfl⟩ | ⟨-, hg₀⟩
    · -- another publisher of the same file
      obtain ⟨f₀, hf₀, -⟩ := h.file q c hc₀
      obtain ⟨o, ho⟩ := Option.ne_none_iff_exists'.mp (hback q c hc₀ f₀ hf₀ u hu)
      rw [hfile] at hf₀
      rw [(hext f₀ hf₀).2 u o ho]
      exact Option.some_ne_none o
    · exact hback q c hc₀ g hg₀ u hu

/-- A registration that finds the topic finds a claim that stands. -/
theorem Host.Backed.registerInner (hback : w.Backed) (h : Inv S w m) (hp : w.pubs p = some b)
    (hf : w.files b.file = some f) {uri : Str}
    (hclaimed : f.shm.findTopic uri ≠ none → f.owner uri ≠ none) (typeSize : Nat) :
    (w.registerInner p b f uri typeSize).Backed := by
  have hreg := hback p b hp f hf
  rcases w.registerInner_cases p b f uri typeSize with heq | ⟨hold, heq⟩ | ⟨shm, t, hnew, -, heq⟩
  · rw [heq]
    exact hback
  · rw [heq]
    apply hback.put h
    · exact Host.extends_of_owner hf rfl rfl
    · intro u hu
      rcases List.mem_append.mp hu with hu | hu
      · exact hreg u hu
      · rw [List.mem_singleton.mp hu]
        exact hclaimed hold
  · have hput : (w.put p (b.withTopic uri) (f.claim shm uri (b.pid, w.now))).Backed := by
      apply hback.put h
      · exact h.extends_claim hf hnew shm (b.pid, w.now)
      · intro u hu
        rw [RegionFile.claim]
        by_cases hne : u = uri
        · simp [hne]
        · have hmem := (List.mem_append.mp hu).resolve_right fun h => hne (List.mem_singleton.mp h)
          simpa [hne] using hreg u hmem
    rw [heq]
    exact hput

/-- Nobody else relies on the claims of the process. -/
theorem Host.Backed.drop (hback : w.Backed) (h : Inv S w m) (hp : w.pubs p = some b)
    (hok : Orderly w (.drop p)) : (w.drop p b).Backed := by
  intro q c hc g hg u hu
  obtain ⟨hq, hc⟩ := Host.drop_pubs hc
  obtain ⟨g₀, hg₀, -, -, hclaims⟩ := Host.drop_file hg
  obtain ⟨o, ho⟩ := Option.ne_none_iff_exists'.mp (hback q c hc g₀ hg₀ u hu)
  have hstands : o ∈ g.owner u := by
    refine (hclaims u o).mpr ⟨ho, fun hname => ?_⟩
    have hcname := (h.file_name hc hg₀).symm.trans hname
    exact hok b hp q hq c hc hcname g₀ hg₀ u hu o ho
  rw [hstands]
  exact Option.some_ne_none o

/-- **Step.** -/
theorem backed_step {a : Act P} (hback : w.Backed) (h : Inv S w m) (hok : Orderly w a)
    (hstep : step w a = some w') : w'.Backed := by
  cases a with
  | tick d =>
    simp only [step, Option.ite_none_right_eq_some, Option.some.injEq] at hstep
    obtain ⟨-, rfl⟩ := hstep
    exact hback
  | create p name cfg heartbeatInterval staleTimeout pid id inode =>
    simp only [step, Option.ite_none_right_eq_some, Option.some.injEq] at hstep
    obtain ⟨⟨-, hfile, -⟩, rfl⟩ := hstep
    apply hback.put h
    · intro f₀ hf₀
      rw [hfile] at hf₀
      cases hf₀
    · rintro u ⟨⟩
  | «open» p name pid id =>
    simp only [step, Option.ite_none_right_eq_some, Option.some.injEq] at hstep
    obtain ⟨-, rfl⟩ := hstep
    rcases w.open_cases p name pid id with heq | ⟨i, f, -, hf, heq⟩
    · rw [heq]
      exact hback
    · rw [heq]
      apply hback.put h
      · exact Host.extends_of_owner hf rfl rfl
      · rintro u ⟨⟩
  | register p uri typeSize =>
    obtain ⟨b, f, hp, hf, rfl⟩ := withFile_inv hstep
    exact hback.registerInner h hp hf (hok b hp f hf) typeSize
  | heartbeat p =>
    obtain ⟨b, f, hp, hf, rfl⟩ := withFile_inv hstep
    apply hback.put h
    · exact Host.extends_of_owner hf rfl rfl
    · exact hback p b hp f hf
  | loan p publisherId =>
    obtain ⟨b, f, hp, hf, rfl⟩ := withFile_inv hstep
    rcases w.loan_cases p b f publisherId with heq | ⟨count, last, beat, heq⟩
    · rw [heq]
      exact hback
    · rw [heq]
      apply hback.put h
      · exact Host.extends_of_owner hf rfl rfl
      · exact hback p b hp f hf
  | discover pattern => exact hok.elim
  | drop p =>
    obtain ⟨b, f, hp, hf, rfl⟩ := withFile_inv hstep
    exact hback.drop h hp hok

/-- **A topic stays discoverable.** In every run in which no publisher is dropped while another
    live one of its region has registered a topic that its process has claimed, and no topic is
    registered whose claim is gone, `Registry::discover` finds every URI that a live publisher has
    registered, under the name of its region. -/
theorem topic_stays_discoverable {now : Nat} (hnow : now < 2 ^ 64) {as : List (Act P)}
    (hrun : Run step (fun w a => Fits w a ∧ Orderly w a) (start P now) as w)
    (hp : w.pubs p = some b) {uri : Str} (huri : uri ∈ b.registered) :
    ∃ d ∈ w.reg.discover uri, d.region = b.name ∧ d.uri = uri := by
  have hinv : (∃ m, Inv (fun _ => True) w m) ∧ w.Backed := by
    refine hrun.invariant (I := fun w => (∃ m, Inv (fun _ => True) w m) ∧ w.Backed)
      ⟨⟨_, start_inv hnow⟩, by rintro _ _ ⟨⟩⟩ fun w a w' h hok hstep => ?_
    obtain ⟨⟨m, h⟩, hback⟩ := h
    refine ⟨inv_step ⟨m, h⟩ hok.1 ?_ hstep, backed_step hback h hok.2 hstep⟩
    -- nothing is pruned
    rintro pattern rfl
    exact hok.2.elim
  obtain ⟨⟨m, h⟩, hback⟩ := hinv
  obtain ⟨f, hf, hname⟩ := h.file p b hp
  obtain ⟨o, ho⟩ := Option.ne_none_iff_exists'.mp (hback p b hp f hf uri huri)
  obtain ⟨ts, hts, -⟩ := h.owned b.file f hf uri o ho trivial
  rw [hname] at hts
  exact (discover_iff h.refines b.name uri).mpr ⟨o.1, ts, hts⟩

instance (w : Host P) (a : Act P) : Decidable (Fits w a) := by
  cases a <;> unfold Fits <;> first | infer_instance | (unfold Host.Takes; infer_instance)

instance [Fintype P] (w : Host P) (a : Act P) : Decidable (Orderly w a) := by
  cases a <;> unfold Orderly <;> infer_instance

/-- Two publishers of region `r` with the topic `/a`: the first is in process 1, and creates it; the
    second opens it, and is dropped. -/
def secondDropped (pid : Nat) : List (Act Bool) :=
  [.create false [114] oneSlot 100000 5000000 1 7 0, .register false [47, 97] 0,
    .open true [114] pid 8, .register true [47, 97] 0, .drop true]

/-- The second one is in another process. -/
theorem topic_stays_discoverable_other_process : ∃ w,
    Run step (fun w a => Fits w a ∧ Orderly w a) (start Bool 5) (secondDropped 2) w ∧
    ∃ b, w.pubs false = some b ∧ [47, 97] ∈ b.registered ∧
      ∃ d ∈ w.reg.discover [47, 97], d.region = b.name ∧ d.uri = [47, 97] := by
  obtain ⟨w, hrun, b, hb, huri⟩ := exists_run_of_exec step (fun w a => Fits w a ∧ Orderly w a)
    (s := start Bool 5) (l := secondDropped 2)
    (p := fun w => ∃ b ∈ w.pubs false, [47, 97] ∈ b.registered) (by decide +kernel)
  exact ⟨w, hrun, b, hb, huri, topic_stays_discoverable (by decide) hrun hb huri⟩

/-- **A topic of a live publisher is not discovered.** Both publishers are in one process: the
    entry of the first one goes with the second. -/
theorem topic_not_discovered : ∃ w,
    Run step Fits (start Bool 5) (secondDropped 1) w ∧
    ∃ b, w.pubs false = some b ∧ [47, 97] ∈ b.registered ∧ b.name = [114] ∧
      w.path [114] = some b.file ∧ w.reg.discover [47, 97] = [] := by
  obtain ⟨w, hrun, hpub⟩ := exists_run_of_exec step Fits (s := start Bool 5) (l := secondDropped 1)
    (p := fun w => ∃ b ∈ w.pubs false, [47, 97] ∈ b.registered ∧ b.name = [114] ∧
      w.path [114] = some b.file ∧ w.reg.discover [47, 97] = []) (by decide +kernel)
  exact ⟨w, hrun, hpub⟩

/-! ### When time goes by -/

/-- The clock does not go back. -/
theorem step_now {a : Act P} (hstep : step w a = some w') : w.now ≤ w'.now := by
  cases a with
  | tick d =>
    simp only [step, Option.ite_none_right_eq_some, Option.some.injEq] at hstep
    obtain ⟨-, rfl⟩ := hstep
    exact Nat.le_add_right ..
  | create p name cfg heartbeatInterval staleTimeout pid id inode =>
    simp only [step, Option.ite_none_right_eq_some, Option.some.injEq] at hstep
    obtain ⟨-, rfl⟩ := hstep
    exact le_refl w.now
  | «open» p name pid id =>
    simp only [step, Option.ite_none_right_eq_some, Option.some.injEq] at hstep
    obtain ⟨-, rfl⟩ := hstep
    rcases w.open_cases p name pid id with heq | ⟨i, f, -, -, heq⟩
    · rw [heq]
    · rw [heq, Host.put]
  | register p uri typeSize =>
    obtain ⟨b, f, -, -, rfl⟩ := withFile_inv hstep
    rcases w.registerInner_cases p b f uri typeSize with heq | ⟨-, heq⟩ | ⟨shm, t, -, -, heq⟩
    · rw [heq]
    · rw [heq, Host.put]
    · rw [heq, Host.put]
  | heartbeat | drop =>
    obtain ⟨b, f, -, -, rfl⟩ := withFile_inv hstep
    exact le_refl w.now
  | loan p publisherId =>
    obtain ⟨b, f, -, -, rfl⟩ := withFile_inv hstep
    rcases w.loan_cases p b f publisherId with heq | ⟨count, last, beat, heq⟩
    · rw [heq]
    · rw [heq, Host.put]
  | discover pattern =>
    simp only [step, Option.some.injEq] at hstep
    subst hstep
    exact le_refl w.now

/-- **Discovery of live publishers.** In every run, `crossbar::discover` finds a URI that a live
    publisher has registered if and only if the topic was claimed in a region of this name in the
    last 10 seconds, by a process that has dropped no publisher of the region since.  Heartbeats do
    not matter. -/
theorem live_publisher_discovered {now : Nat} (hnow : now < 2 ^ 64) {as : List (Act P)}
    (hrun : Run step Fits (start P now) as w) :
    ∀ p, ∀ b ∈ w.pubs p, ∀ uri ∈ b.registered,
      ((∃ d ∈ w.discover uri, d.region = b.name ∧ d.uri = uri) ↔
        w.ClaimedRecently b.name uri) := by
  have hinv : ∃ m, Inv (fun t => w.now ≤ t + discoverTimeout) w m := by
    refine hrun.invariant (I := fun w => ∃ m, Inv (fun t => w.now ≤ t + discoverTimeout) w m)
      ⟨_, start_inv hnow⟩ fun w a w' h hok hstep => ?_
    -- later, fewer claims are recent
    obtain ⟨m, h⟩ := inv_step h hok (fun _ _ _ ht => ht) hstep
    exact ⟨m, h.mono fun t ht => (step_now hstep).trans ht⟩
  obtain ⟨m, h⟩ := hinv
  have hprune := h.prune fun t ht => ht
  intro p b hb uri huri
  rw [Host.discover, discover_iff hprune.refines]
  constructor
  · rintro ⟨pid, ts, hts⟩
    -- the entry is that of a claim, and has not been pruned
    obtain ⟨i, f, hf, hname, ho⟩ := hprune.stored _ ts hts
    rw [BoundedMap.keep, Option.filter_eq_some_iff] at hts
    have hle := of_decide_eq_true hts.2
    exact ⟨i, f, hf, hname, (pid, ts), ho, by omega⟩
  · rintro ⟨i, f, hf, hname, o, ho, hrecent⟩
    obtain ⟨ts, hts, -⟩ := hprune.owned i f hf uri o ho hrecent
    rw [hname] at hts
    exact ⟨o.1, ts, hts⟩

/-- A publisher of region `r` with the topic `/a`, which it keeps alive after this time. -/
def keptAlive (d : Nat) : List (Act Bool) :=
  [.create false [114] oneSlot 100000 5000000 1 7 0, .register false [47, 97] 0, .tick d,
    .heartbeat false]

/-- After 5 seconds the topic is discovered. -/
theorem live_publisher_discovered_early : ∃ w,
    Run step Fits (start Bool 5) (keptAlive 5000000) w ∧
    ∃ b, w.pubs false = some b ∧ [47, 97] ∈ b.registered ∧
      ∃ d ∈ w.discover [47, 97], d.region = b.name ∧ d.uri = [47, 97] := by
  obtain ⟨w, hrun, b, hb, huri, f, hf, hname, o, ho, hrecent⟩ := exists_run_of_exec step Fits
    (s := start Bool 5) (l := keptAlive 5000000)
    (p := fun w => ∃ b ∈ w.pubs false, [47, 97] ∈ b.registered ∧ ∃ f ∈ w.files 0,
      f.name = b.name ∧ ∃ o ∈ f.owner [47, 97], w.now ≤ o.2 + discoverTimeout) (by decide +kernel)
  exact ⟨w, hrun, b, hb, huri, (live_publisher_discovered (by decide) hrun false b hb [47, 97]
    huri).mpr ⟨0, f, hf, hname, o, ho, hrecent⟩⟩

/-- **A live publisher is not discovered.** After 11 seconds the registry entry is pruned, though
    the heartbeat of the region is that of now. -/
theorem live_publisher_pruned : ∃ w,
    Run step Fits (start Bool 5) (keptAlive 11000000) w ∧
    ∃ b, w.pubs false = some b ∧ [47, 97] ∈ b.registered ∧
      (∃ f, w.files b.file = some f ∧ f.heartbeat = w.now) ∧ w.discover [47, 97] = [] := by
  obtain ⟨w, hrun, hpub⟩ := exists_run_of_exec step Fits
    (s := start Bool 5) (l := keptAlive 11000000)
    (p := fun w => ∃ b ∈ w.pubs false, [47, 97] ∈ b.registered ∧
      (∃ f ∈ w.files b.file, f.heartbeat = w.now) ∧ w.discover [47, 97] = []) (by decide +kernel)
  exact ⟨w, hrun, hpub⟩

end Crossbar.Discovery.Publishers
