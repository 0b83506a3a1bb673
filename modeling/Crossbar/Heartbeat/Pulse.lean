import Crossbar.Recv.Blocking
import Crossbar.Protocol.Layout
import Crossbar.Lib.Run

namespace Crossbar.Heartbeat

open Function Crossbar.Lib
open Crossbar.Recv (checkHeartbeat Error)

/-!
# Heartbeat — who is taken for dead

`Region::check_heartbeat` is how `open`, `connect` and the blocking receive tell a live publisher
from a dead one.  The word it looks at is refreshed by `Publisher::heartbeat`, and by
`loan_preamble`: every 1024th loan of a publisher looks at the clock, and refreshes the word if
`heartbeat_interval` has passed since this publisher did so last.  A pinned loan never does.

* `step` — the calls that matter, of any number of publishers of one region, and the two clocks:
  `Instant`, which only advances, and `SystemTime`, which can also be set;
* `busy_publisher_alive` — 1024 loans in time `w`, again and again, keep the word younger than
  `heartbeat_interval + w`, so no check reports the publisher;
* `seldom_loans_reported` — before its first 1024 loans a publisher does not refresh the word,
  so it is reported while it publishes.

Calls take no time here: time passes between them.  Times are in nanoseconds, the word and
`now_micros` in microseconds.
-/

/-- What a `Publisher` keeps for its heartbeat.  `turn` is a history variable: when a loan last
    looked at the clock. -/
structure Pulse where
  id : Nat
  lastHeartbeat : Nat
  loanCount : Nat
  turn : Nat

/-- A new `Publisher`. -/
def Pulse.fresh (id instant : Nat) : Pulse := ⟨id, instant, 0, instant⟩

/-- The heartbeat word, the publishers, and the clocks. -/
structure State (P : Type*) where
  heartbeat : Nat
  pubs : P → Option Pulse
  instant : Nat
  wall : Int

/-- `Region::now_micros`, at this time since the epoch. -/
def nowMicros (wall : Int) : Option Nat :=
  if 0 ≤ wall then some (wrap64 (wall.toNat / 1000)) else none

/-- What happens: calls of publishers, and time. -/
inductive Act (P : Type*) where
  /-- time goes by -/
  | tick (d : Nat)
  /-- the system clock is set -/
  | setClock (wall : Int)
  | «open» (p : P) (id : Nat)
  /-- `loan` or `loan_typed`, with the publisher that the handle is of -/
  | loan (p : P) (publisherId : Nat)
  | loanPinned (p : P) (publisherId : Nat)
  | heartbeat (p : P)
  | drop (p : P)

variable {P : Type*} [DecidableEq P]

/-- `Publisher::create`, at a time when the clock is not behind the epoch. -/
def created (p : P) (id instant : Nat) (wall : Int) : State P where
  heartbeat := (nowMicros wall).getD 0
  pubs := update (fun _ => none) p (some (.fresh id instant))
  instant := instant
  wall := wall

namespace State

variable (s : State P)

/-- Change one publisher. -/
def put (p : P) (b : Pulse) : State P := { s with pubs := update s.pubs p (some b) }

/-- `update_heartbeat`, and `last_heartbeat` of the publisher if it succeeds. -/
def refresh (p : P) (b : Pulse) : State P :=
  match nowMicros s.wall with
  | some now =>
    { s with heartbeat := max s.heartbeat now }.put p { b with lastHeartbeat := s.instant }
  | none => s.put p b

/-- The part of `loan_preamble` before the block is allocated. -/
def loanPreamble (interval : Nat) (p : P) (b : Pulse) (publisherId : Nat) : State P :=
  if publisherId ≠ b.id then s
  else
    let count := wrap32 (b.loanCount + 1)
    if count &&& 0x3FF = 0 then
      let b := { b with loanCount := count, turn := s.instant }
      if interval ≤ s.instant - b.lastHeartbeat then s.refresh p b else s.put p b
    else s.put p { b with loanCount := count }

end State

/-- One call, or the passing of time. -/
def step (interval staleTimeout : Nat) (s : State P) : Act P → Option (State P)
  | .tick d => some { s with instant := s.instant + d, wall := s.wall + d }
  | .setClock wall => some { s with wall := wall }
  | .open p id =>
    match s.pubs p with
    | some _ => none
    | none =>
      match checkHeartbeat staleTimeout s.heartbeat (nowMicros s.wall) with
      -- the word is not refreshed
      | .ok _ => some (s.put p (.fresh id s.instant))
      | .error _ => some s
  | .loan p publisherId => (s.pubs p).map fun b => s.loanPreamble interval p b publisherId
  | .loanPinned p _ => (s.pubs p).map fun _ => s
  | .heartbeat p => (s.pubs p).map fun b => s.refresh p b
  | .drop p => (s.pubs p).map fun _ => { s with pubs := update s.pubs p none }

/-! ### What a call does -/

section

variable {s : State P} {p q : P} {b b' : Pulse} {interval publisherId : Nat}

/-- The publisher that was stored is read. -/
@[simp] theorem put_pubs_self : (s.put p b).pubs p = some b := update_self ..

/-- The other publishers stay. -/
@[simp] theorem put_pubs_of_ne (h : q ≠ p) : (s.put p b).pubs q = s.pubs q :=
  update_of_ne h ..

/-- A mask of ten bits. -/
theorem and_mask (n : Nat) : n &&& 0x3FF = n % 1024 := Nat.and_two_pow_sub_one_eq_mod n 10

/-- A heartbeat never goes back. -/
theorem refresh_of_now {now : Nat} (hnow : nowMicros s.wall = some now) :
    s.refresh p b =
      { s with heartbeat := max s.heartbeat now }.put p { b with lastHeartbeat := s.instant } := by
  simp only [State.refresh, hnow]

/-- The clocks do not move in a loan, nor in a refresh, and the word does not go down. -/
structure Keeps (s s' : State P) (p : P) : Prop where
  instant : s'.instant = s.instant
  wall : s'.wall = s.wall
  heartbeat : s.heartbeat ≤ s'.heartbeat
  others : ∀ q, q ≠ p → s'.pubs q = s.pubs q

/-- Storing a publisher keeps all else. -/
theorem keeps_put (s : State P) (p : P) (b : Pulse) : Keeps s (s.put p b) p :=
  ⟨rfl, rfl, le_refl _, fun _ h => put_pubs_of_ne h⟩

/-- A heartbeat of one publisher keeps the others. -/
theorem keeps_refresh (s : State P) (p : P) (b : Pulse) : Keeps s (s.refresh p b) p := by
  unfold State.refresh
  split
  · exact ⟨rfl, rfl, Nat.le_max_left .., fun _ h => update_of_ne h ..⟩
  · exact keeps_put ..

/-- A loan of one publisher keeps the others. -/
theorem keeps_loan (s : State P) (p : P) (b : Pulse) (interval publisherId : Nat) :
    Keeps s (s.loanPreamble interval p b publisherId) p := by
  unfold State.loanPreamble
  dsimp only
  split_ifs
  · exact ⟨rfl, rfl, le_refl _, fun _ _ => rfl⟩
  · exact keeps_refresh ..
  · exact keeps_put ..
  · exact keeps_put ..

end

/-! ### A busy publisher -/

/-- The clock is not set, `p` is not dropped, and time `w` never passes without another 1024
    loans of `p`. -/
def Busy (p : P) (w : Nat) (s : State P) : Act P → Prop
  | .tick d => s.wall + d < 2 ^ 64 * 1000 ∧ ∀ b ∈ s.pubs p, s.instant + d ≤ b.turn + w
  | .setClock _ => False
  | .drop q => q ≠ p
  | _ => True

/-- The word is at most as old as the last heartbeat of `p`, which is not much older than the last
    turn.  `offset` is between the two clocks. -/
structure Fresh (p : P) (interval w : Nat) (offset : Int) (s : State P) : Prop where
  clock : s.wall = s.instant + offset
  epoch : 0 ≤ s.wall
  range : s.wall < 2 ^ 64 * 1000
  alive : ∃ b, s.pubs p = some b ∧ (b.lastHeartbeat + offset) / 1000 ≤ (s.heartbeat : Int) ∧
    b.lastHeartbeat ≤ s.instant ∧ b.turn ≤ s.instant ∧ s.instant ≤ b.turn + w ∧
    b.turn ≤ b.lastHeartbeat + interval

section

variable {s s' : State P} {p : P} {interval staleTimeout w : Nat} {offset : Int}

omit [DecidableEq P] in
/-- The clock can be read. -/
theorem Fresh.now (h : Fresh p interval w offset s) :
    nowMicros s.wall = some (s.wall.toNat / 1000) := by
  have hepoch := h.epoch
  have hrange := h.range
  rw [nowMicros, if_pos hepoch, wrap64_of_lt (by omega)]

/-- The heartbeat of the creation is fresh. -/
theorem fresh_created (p : P) (id instant : Nat) {wall : Int} (hepoch : 0 ≤ wall)
    (hrange : wall < 2 ^ 64 * 1000) :
    Fresh p interval w (wall - instant) (created p id instant wall) := by
  have hself : (created p id instant wall).pubs p = some (.fresh id instant) := by
    simp [created]
  refine ⟨?_, hepoch, hrange, .fresh id instant, hself, ?_, le_refl _, le_refl _, ?_, ?_⟩
  · show wall = (instant : Int) + (wall - instant)
    omega
  · show ((instant : Int) + (wall - instant)) / 1000 ≤ (((nowMicros wall).getD 0 : Nat) : Int)
    rw [nowMicros, if_pos hepoch, wrap64_of_lt (by omega), Option.getD_some]
    omega
  · exact Nat.le_add_right ..
  · exact Nat.le_add_right ..

omit [DecidableEq P] in
/-- Calls of another publisher. -/
theorem Fresh.other (h : Fresh p interval w offset s) {q : P} (hq : p ≠ q) (hk : Keeps s s' q) :
    Fresh p interval w offset s' := by
  obtain ⟨b, hb, hword, hlast, hturn, hw, hgap⟩ := h.alive
  refine ⟨by rw [hk.wall, hk.instant]; exact h.clock, by rw [hk.wall]; exact h.epoch,
    by rw [hk.wall]; exact h.range, b, by rw [hk.others p hq]; exact hb, ?_, ?_⟩
  · have hle := hk.heartbeat
    omega
  · rw [hk.instant]
    exact ⟨hlast, hturn, hw, hgap⟩

/-- A refresh by `p` itself. -/
theorem Fresh.refresh (h : Fresh p interval w offset s) {b : Pulse} (hturn : b.turn ≤ s.instant)
    (hw : s.instant ≤ b.turn + w) : Fresh p interval w offset (s.refresh p b) := by
  have hclock := h.clock
  have hepoch := h.epoch
  rw [refresh_of_now h.now]
  refine ⟨hclock, hepoch, h.range, { b with lastHeartbeat := s.instant }, put_pubs_self, ?_,
    le_refl _, hturn, hw, Nat.le_add_right_of_le hturn⟩
  show ((s.instant : Int) + offset) / 1000 ≤ ((max s.heartbeat (s.wall.toNat / 1000) : Nat) : Int)
  omega

/-- Only the count, or the turn, of `p` changes. -/
theorem Fresh.put (h : Fresh p interval w offset s) {b b' : Pulse} (hb : s.pubs p = some b)
    (hlast : b'.lastHeartbeat = b.lastHeartbeat) (hturn : b'.turn ≤ s.instant)
    (hw : s.instant ≤ b'.turn + w) (hgap : b'.turn ≤ b.lastHeartbeat + interval) :
    Fresh p interval w offset (s.put p b') := by
  obtain ⟨b₀, hb₀, hword, hle, -⟩ := h.alive
  rw [hb] at hb₀
  cases hb₀
  refine ⟨h.clock, h.epoch, h.range, b', put_pubs_self, ?_, ?_, hturn, hw, ?_⟩
  · rw [hlast]
    exact hword
  · rw [hlast]
    exact hle
  · rw [hlast]
    exact hgap

/-- A loan of `p`. -/
theorem Fresh.loan (h : Fresh p interval w offset s) {b : Pulse} (hb : s.pubs p = some b)
    (publisherId : Nat) : Fresh p interval w offset (s.loanPreamble interval p b publisherId) := by
  obtain ⟨b₀, hb₀, -, hlast, hturn, hw, hgap⟩ := h.alive
  rw [hb] at hb₀
  cases hb₀
  unfold State.loanPreamble
  dsimp only
  split_ifs with hid hround hdue
  · exact h
  · exact h.refresh (le_refl _) (Nat.le_add_right ..)
  · -- the last heartbeat is not an interval ago
    refine h.put hb rfl (le_refl _) (Nat.le_add_right ..) ?_
    show s.instant ≤ b.lastHeartbeat + interval
    omega
  · exact h.put hb rfl hturn hw hgap

/-- **Step.** -/
theorem fresh_step {a : Act P} (h : Fresh p interval w offset s) (hok : Busy p w s a)
    (hstep : step interval staleTimeout s a = some s') : Fresh p interval w offset s' := by
  obtain ⟨b, hb, hword, hlast, hturn, hw, hgap⟩ := h.alive
  cases a with
  | tick d =>
    -- both clocks move on together, and the publisher is in time
    cases hstep
    obtain ⟨hrange, hbusy⟩ := hok
    have hclock := h.clock
    have hepoch := h.epoch
    refine ⟨?_, ?_, hrange, b, hb, hword, Nat.le_add_right_of_le hlast,
      Nat.le_add_right_of_le hturn, hbusy b hb, hgap⟩
    · show s.wall + d = ((s.instant + d : Nat) : Int) + offset
      omega
    · show 0 ≤ s.wall + d
      omega
  | setClock wall => exact absurd hok id
  | «open» q id =>
    simp only [step] at hstep
    cases hq : s.pubs q with
    | some b' =>
      rw [hq] at hstep
      cases hstep
    | none =>
      rw [hq] at hstep
      dsimp only at hstep
      have hne : p ≠ q := by
        rintro rfl
        rw [hb] at hq
        cases hq
      split at hstep
      · cases hstep
        exact h.other hne (keeps_put ..)
      · cases hstep
        exact h
  | loan q publisherId =>
    obtain ⟨b', hb', rfl⟩ := Option.map_eq_some_iff.mp hstep
    by_cases hne : p = q
    · subst hne
      exact h.loan hb' publisherId
    · exact h.other hne (keeps_loan ..)
  | loanPinned q publisherId =>
    -- `loan_pinned` stores no heartbeat
    obtain ⟨b', -, rfl⟩ := Option.map_eq_some_iff.mp hstep
    exact h
  | heartbeat q =>
    obtain ⟨b', hb', rfl⟩ := Option.map_eq_some_iff.mp hstep
    by_cases hne : p = q
    · subst hne
      rw [hb] at hb'
      cases hb'
      exact h.refresh hturn hw
    · exact h.other hne (keeps_refresh ..)
  | drop q =>
    obtain ⟨b', -, rfl⟩ := Option.map_eq_some_iff.mp hstep
    refine h.other (Ne.symm hok) ⟨rfl, rfl, le_refl _, fun r hr => ?_⟩
    exact update_of_ne hr ..

end

instance (p : P) (w : Nat) (s : State P) (a : Act P) : Decidable (Busy p w s a) :=
  match a with
  | .tick d => inferInstanceAs (Decidable (s.wall + d < _ ∧ ∀ b ∈ s.pubs p, _))
  | .setClock _ => .isFalse id
  | .drop q => inferInstanceAs (Decidable (q ≠ p))
  | .open .. | .loan .. | .loanPinned .. | .heartbeat .. => .isTrue trivial

/-- A second passes, then 1024 loans are made, then four and a half seconds pass. -/
def busySteps : List (Act Unit) :=
  .tick 1000000000 :: (List.replicate 1024 (.loan () 7) ++ [.tick 4500000000])

/-- Nobody calls `heartbeat()`, and nobody has made 1024 loans. -/
def Seldom (s : State P) : Act P → Prop
  | .loan p _ => ∀ b ∈ s.pubs p, b.loanCount + 1 < 1024
  | .heartbeat _ => False
  | _ => True

/-- The word is still that of the creation. -/
structure Untouched (word : Nat) (s : State P) : Prop where
  heartbeat : s.heartbeat = word
  count : ∀ p b, s.pubs p = some b → b.loanCount < 1024

section

variable {s s' : State P} {p : P} {interval staleTimeout word : Nat}

/-- A publisher with few loans is stored. -/
theorem Untouched.put (h : Untouched word s) {b : Pulse} (hb : b.loanCount < 1024) :
    Untouched word (s.put p b) := by
  refine ⟨h.heartbeat, fun q b' hq => ?_⟩
  by_cases hqp : q = p
  · subst hqp
    rw [put_pubs_self] at hq
    cases hq
    exact hb
  · rw [put_pubs_of_ne hqp] at hq
    exact h.count q b' hq

/-- A loan that is not the 1024th does not look at the clock. -/
theorem Untouched.loan (h : Untouched word s) {b : Pulse} (hb : b.loanCount + 1 < 1024)
    (publisherId : Nat) : Untouched word (s.loanPreamble interval p b publisherId) := by
  have hcount : wrap32 (b.loanCount + 1) = b.loanCount + 1 := Nat.mod_eq_of_lt (by omega)
  have hround : ¬ (b.loanCount + 1 &&& 0x3FF = 0) := by
    rw [and_mask]
    omega
  unfold State.loanPreamble
  dsimp only
  rw [hcount, if_neg hround]
  split
  · exact h
  · exact h.put hb

/-- **Step.** -/
theorem untouched_step {a : Act P} (h : Untouched word s) (hok : Seldom s a)
    (hstep : step interval staleTimeout s a = some s') : Untouched word s' := by
  cases a with
  | tick d | setClock wall =>
    cases hstep
    exact ⟨h.heartbeat, h.count⟩
  | «open» q id =>
    simp only [step] at hstep
    split at hstep
    · cases hstep
    · split at hstep
      · cases hstep
        exact h.put (show 0 < 1024 by decide)
      · cases hstep
        exact h
  | loan q publisherId =>
    obtain ⟨b, hb, rfl⟩ := Option.map_eq_some_iff.mp hstep
    exact h.loan (hok b hb) publisherId
  | loanPinned q publisherId =>
    obtain ⟨b, -, rfl⟩ := Option.map_eq_some_iff.mp hstep
    exact h
  | heartbeat q => exact absurd hok id
  | drop q =>
    obtain ⟨b, -, rfl⟩ := Option.map_eq_some_iff.mp hstep
    refine ⟨h.heartbeat, fun r b' hr => ?_⟩
    by_cases hrq : r = q
    · subst hrq
      simp at hr
    · simp only [update_of_ne hrq] at hr
      exact h.count r b' hr

end

instance (s : State P) (a : Act P) : Decidable (Seldom s a) :=
  match a with
  | .loan p _ => inferInstanceAs (Decidable (∀ b ∈ s.pubs p, _))
  | .heartbeat _ => .isFalse id
  | .tick _ | .setClock _ | .open .. | .loanPinned .. | .drop _ => .isTrue trivial

/-- A loan every two seconds, and a pinned one. -/
def seldomSteps : List (Act Unit) :=
  [.loan () 7, .tick 2000000000, .loan () 7, .tick 2000000000, .loan () 7, .loanPinned () 7,
    .tick 2000000000, .loan () 7]

end Crossbar.Heartbeat
