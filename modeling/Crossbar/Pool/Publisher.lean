import Crossbar.Ring.Invariant
import Crossbar.Pool.Stack

namespace Crossbar.Pool

open Function Crossbar.Lib

/-!
# Pool — the creating publisher with its allocator

The ring of `Crossbar.Ring.Model` with one publisher, the one that created the region, and
the allocator of the code in place of the abstract one:

* `alloc` — `Publisher::alloc_cached`: `alloc_recycled` (a swap on `last_freed`), the local
  block cache, the refill loop over `alloc_block`;
* `publish` — `Loan::publish`, whose last step swaps the replaced block into `last_freed` and
  gives the block displaced from there to `free_block`;
* `free` — `free_block`, run by the publisher, by a stream that undoes a reference, or by the
  drop of a sample;
* `close` — `Drop for Publisher`.

`loan`, `write`, `dropLoan`, `subscribe`, `recv` and `dropSample` are those of the ring.  A
stream or a sample that holds an unreferenced block in the ring is here inside `free_block`,
and the CAS that pushes the block is the step in which the ring lets go of it.
-/

/-- Who can be inside `free_block`: the publisher, a stream, the drop of sample `k`. -/
inductive Freer (S : Type) where
  | owner
  | stream (s : S)
  | sample (k : Nat)
  deriving DecidableEq

variable (cfg : ValidConfig)

/-- What the publisher is doing with the allocator. -/
inductive OwnerPc where
  /-- nothing: the ring knows where it is -/
  | ready
  /-- about to take `last_freed` in `alloc_cached` -/
  | recycled (t : cfg.Topic)
  /-- in the refill loop of `alloc_cached` -/
  | refill (t : cfg.Topic) (pc : PopPc)
  /-- inside `free_block(b)`; `closing` when `Drop for Publisher` called it -/
  | free (b : Nat) (closing : Bool)
  /-- about to take `last_freed` in `Drop for Publisher` -/
  | closing
  | closed

/-- The ring and the allocator.  `cache` is `block_cache[0..cache_len)`. -/
structure State (S : Type) where
  ring : Ring.State cfg Unit S
  pool : FreeList
  lastFreed : Nat
  cache : List Nat
  owner : OwnerPc cfg
  push : Freer S → PushPc

/-- The length of `block_cache`. -/
def cacheSize : Nat := 8

/-- Take the top of the block cache. -/
def takeCache (cache : List Nat) : Option (Nat × List Nat) :=
  match cache.getLast? with
  | some b => some (b, cache.dropLast)
  | none => none

theorem takeCache_eq {cache rest : List Nat} {b : Nat} (h : takeCache cache = some (b, rest)) :
    cache = rest ++ [b] := by
  unfold takeCache at h
  split at h
  · rename_i b' hlast
    cases h
    exact (List.dropLast_append_getLast? b hlast).symm
  · cases h

theorem takeCache_eq_none {cache : List Nat} (h : takeCache cache = none) : cache = [] := by
  unfold takeCache at h
  split at h
  · cases h
  · rename_i hlast
    exact List.getLast?_eq_none_iff.mp hlast

/-- The content of a cell that may hold `NO_BLOCK`. -/
def cell (b : Nat) : List Nat := if b = noBlock then [] else [b]

/-- The next step of one agent, with the choices its environment makes. -/
inductive Act (S : Type) where
  | loan (t : cfg.Topic)
  | alloc (spurious : Bool)
  | write (bytes : Ring.Payload) (len : Nat)
  | dropLoan
  | publish
  | close
  | free (a : Freer S) (spurious : Bool)
  | subscribe (s : S) (t : cfg.Topic)
  | recv (s : S) (spurious : Bool)
  | dropSample (k : Nat)

variable {cfg}

/-- The creating publisher commits on the `single_publisher` path. -/
def isOwner : Unit → Bool := fun _ => true

/-- The block that a stream or a sample is freeing. -/
def Freer.inRing {S : Type} (ring : Ring.State cfg Unit S) : Freer S → Option Nat
  | .owner => none
  | .stream s =>
    match ring.str s with
    | some m =>
      match m.pc with
      | .freeing _ b => some b
      | _ => none
    | none => none
  | .sample k =>
    match ring.samples[k]? with
    | some (.freeing b) => some b
    | _ => none

namespace State

variable {S : Type} [DecidableEq S]

/-- The block an agent is freeing. -/
def freeing (st : State cfg S) : Freer S → Option Nat
  | .owner =>
    match st.owner with
    | .free b _ => some b
    | _ => none
  | a => a.inRing st.ring

/-- `alloc_cached` returns block `b`, and `loan` makes a `Loan` of it. -/
def grant (st : State cfg S) (t : cfg.Topic) (b : Nat) : State cfg S :=
  { st with
    ring := { st.ring with pub := update st.ring.pub () (.loaned ⟨t, b, 0⟩) }
    owner := .ready }

/-- The end of `alloc_cached`: the top of the cache, or `PoolExhausted`. -/
def serve (st : State cfg S) (t : cfg.Topic) : State cfg S :=
  match takeCache st.cache with
  | some (b, rest) => grant { st with cache := rest } t b
  | none => { st with owner := .ready }

/-- The refill loop after a step of `alloc_block`. -/
def refilled (st : State cfg S) (t : cfg.Topic) : PopPc → State cfg S
  | .done (.block b) =>
    if st.cache.length + 1 < cacheSize then
      { st with cache := st.cache ++ [b], owner := .refill t .load }
    else serve { st with cache := st.cache ++ [b] } t
  | .done .exhausted => serve st t
  -- `RegionCorrupted`
  | .done .corrupted => { st with owner := .ready }
  | pc => { st with owner := .refill t pc }

/-- The publisher calls `free_block(b)`. -/
def startFree (st : State cfg S) (b : Nat) (closing : Bool) : State cfg S :=
  { st with owner := .free b closing, push := update st.push .owner .load }

/-- The loop of `Drop for Publisher` over the cached blocks. -/
def closeNext (st : State cfg S) : State cfg S :=
  match st.cache with
  | b :: rest => startFree { st with cache := rest } b true
  | [] => { st with owner := .closed }

/-- `free_block` returns to its caller. -/
def freed [Fintype S] (st : State cfg S) : Freer S → Option (State cfg S)
  | .owner =>
    match st.owner with
    | .free _ true => some st.closeNext
    | _ => some { st with owner := .ready }
  | .stream s =>
    (Ring.step isOwner st.ring (.recv s false)).map fun r => { st with ring := r }
  | .sample k =>
    (Ring.step isOwner st.ring (.freedSample k)).map fun r => { st with ring := r }

end State

section

variable {S : Type} [Fintype S] [DecidableEq S]

/-- One step of the system. -/
def step (st : State cfg S) : Act cfg S → Option (State cfg S)
  | .loan t =>
    match st.owner, st.ring.pub () with
    | .ready, .idle => some { st with owner := .recycled t }
    | _, _ => none
  | .alloc spurious =>
    match st.owner with
    | .recycled t =>
      if st.lastFreed ≠ noBlock then
        some (State.grant { st with lastFreed := noBlock } t st.lastFreed)
      else
        match st.cache with
        | [] => some { st with owner := .refill t .load }
        | _ :: _ => some (st.serve t)
    | .refill t pc =>
      some (State.refilled { st with pool := (popStep cfg spurious st.pool pc).1 } t
        (popStep cfg spurious st.pool pc).2)
    | _ => none
  | .write bytes len =>
    (Ring.step isOwner st.ring (.write () bytes len)).map fun r => { st with ring := r }
  | .dropLoan =>
    match st.ring.pub () with
    | .loaned l =>
      -- the loan is gone, its block in the hands of `free_block`
      ((Ring.step isOwner st.ring (.dropLoan ())).bind
        (fun r => Ring.step isOwner r (.freed ()))).map
        fun r => State.startFree { st with ring := r } l.blockIdx false
    | _ => none
  | .publish =>
    match st.ring.pub () with
    | .commit _ (.recycle old) =>
      (Ring.step isOwner st.ring (.commit () false)).map fun r =>
        if st.lastFreed ≠ noBlock then
          State.startFree { st with ring := r, lastFreed := old } st.lastFreed false
        else { st with ring := r, lastFreed := old }
    | _ => (Ring.step isOwner st.ring (.commit () false)).map fun r => { st with ring := r }
  | .close =>
    match st.owner, st.ring.pub () with
    | .ready, .idle => some { st with owner := .closing }
    | .closing, _ =>
      if st.lastFreed ≠ noBlock then
        some (State.startFree { st with lastFreed := noBlock } st.lastFreed true)
      else some st.closeNext
    | _, _ => none
  | .free a spurious =>
    match st.freeing a with
    | some b =>
      let r := pushStep cfg spurious st.pool b (st.push a)
      let st' := { st with pool := r.1, push := update st.push a r.2 }
      if r.2 = .done then st'.freed a else some st'
    | none => none
  | .subscribe s t =>
    (Ring.step isOwner st.ring (.subscribe s t)).map fun r => { st with ring := r }
  | .recv s spurious =>
    match st.freeing (.stream s) with
    | some _ => none
    | none =>
      (Ring.step isOwner st.ring (.recv s spurious)).map fun r =>
        { st with ring := r, push := update st.push (.stream s) .load }
  | .dropSample k =>
    (Ring.step isOwner st.ring (.dropSample k)).map fun r =>
      { st with ring := r, push := update st.push (.sample k) .load }

variable (cfg S) in
/-- The region right after `Publisher::create`. -/
def init : State cfg S where
  ring := Ring.init cfg Unit S
  pool := initFreeList cfg
  lastFreed := noBlock
  cache := []
  owner := .ready
  push := fun _ => .load

/-- The counters of the claim the step makes or of the reference it takes do not overflow:
    the sequence number stays below `SEQ_WRITING`, the refcount below `2 ^ 32`. -/
def fits (st : State cfg S) : Act cfg S → Bool
  | .publish => Ring.claimFits st.ring (.commit () false)
  | .recv s spurious => Ring.bumpFits (P := Unit) st.ring (.recv s spurious)
  | _ => true

end

end Crossbar.Pool
