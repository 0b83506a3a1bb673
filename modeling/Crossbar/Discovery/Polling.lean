import Crossbar.Discovery.Map

namespace Crossbar.Discovery

open Crossbar.Lib

/-!
# Discovery — polling with `discover_since`

The documented way to follow the registry: every poll asks for what is newer than the largest
timestamp that was returned so far.  `discover_since` compares with `>`, and timestamps are the
microseconds of the clock at registration.

* `Poller` — the registry, the largest timestamp returned, and everything returned;
* `Poller.Inv` — what is kept: the keys that have been registered, and the bound on what has been
  returned;
* `new_topic_polled` — a topic is returned by the first poll after its registration exactly when
  its timestamp is greater than the largest returned before, and otherwise by no poll;
* `tie_never_polled` — a topic that is registered in the microsecond of one already returned is
  missed.
-/

/-- Somebody registers topics, and somebody polls. -/
inductive Event where
  | register (clock : Nat) (region uri : Str) (pid : Nat)
  | poll

namespace Event

/-- The key that is registered. -/
def key : Event → Option Key
  | .register _ region uri pid => some ⟨region, uri, pid⟩
  | .poll => none

/-- Registered strings have no NUL. -/
def NulFree : Event → Prop
  | .register _ region uri _ => (0 : UInt8) ∉ region ∧ (0 : UInt8) ∉ uri
  | .poll => True

end Event

/-- The registry, `since` for the next poll, and what the polls have returned. -/
structure Poller where
  reg : Registry
  since : Nat
  seen : List DiscoveredTopic

namespace Poller

/-- What the next poll returns. -/
def found (pattern : Str) (s : Poller) : List DiscoveredTopic :=
  s.reg.discoverSince pattern s.since

/-- A registration, or a poll that remembers the largest timestamp returned. -/
def next (pattern : Str) (s : Poller) : Event → Poller
  | .register clock region uri pid =>
    { s with reg := s.reg.register (some clock) region uri pid }
  | .poll =>
    { s with
      since := (s.found pattern).foldl (fun t d => max t d.timestampUs) s.since
      seen := s.seen ++ s.found pattern }

/-- These events, one after the other. -/
def run (pattern : Str) (s : Poller) (events : List Event) : Poller :=
  events.foldl (fun s e => s.next pattern e) s

/-- The start: a new registry, and `since` is 0. -/
def start : Poller := ⟨Registry.createNew, 0, []⟩

end Poller

/-- After these events. -/
def polled (pattern : Str) (events : List Event) : Poller := Poller.start.run pattern events

theorem polled_append (pattern : Str) (before after : List Event) :
    polled pattern (before ++ after) = (polled pattern before).run pattern after :=
  List.foldl_append ..

/-! ### The largest timestamp -/

theorem le_foldl_max (ds : List DiscoveredTopic) (t : Nat) :
    t ≤ ds.foldl (fun t d => max t d.timestampUs) t ∧
      ∀ d ∈ ds, d.timestampUs ≤ ds.foldl (fun t d => max t d.timestampUs) t := by
  induction ds generalizing t with
  | nil => exact ⟨le_refl t, by rintro _ ⟨⟩⟩
  | cons d ds ih =>
    obtain ⟨hle, hall⟩ := ih (max t d.timestampUs)
    rw [List.foldl_cons]
    refine ⟨(Nat.le_max_left ..).trans hle, fun d' hd' => ?_⟩
    rcases List.mem_cons.mp hd' with rfl | hmem
    · exact (Nat.le_max_right ..).trans hle
    · exact hall d' hmem

/-! ### One event -/

/-- The registry is a map whose keys have been registered, and every topic that was returned has
    such a key and at most the timestamp `since`. -/
structure Poller.Inv (keys : List Key) (s : Poller) (m : BoundedMap Key Nat regMaxEntries) :
    Prop where
  refines : s.reg.Refines m
  known : ∀ k ts, m.get k = some ts → k ∈ keys
  seen : ∀ d ∈ s.seen, d.key ∈ keys ∧ d.timestampUs ≤ s.since

variable {pattern : Str} {keys : List Key} {s : Poller} {m : BoundedMap Key Nat regMaxEntries}

/-- The map after an event. -/
noncomputable def Event.apply (m : BoundedMap Key Nat regMaxEntries) :
    Event → BoundedMap Key Nat regMaxEntries
  | .register clock region uri pid => (Call.register clock region uri pid).apply m
  | .poll => m

/-- One event keeps the invariant. -/
theorem Poller.Inv.next (h : s.Inv keys m) {e : Event} (he : e.NulFree) :
    (s.next pattern e).Inv (keys ++ e.key.toList) (e.apply m) := by
  cases e with
  | register clock region uri pid =>
    have hcall := call_refines (c := .register clock region uri pid) he h.refines
    refine ⟨hcall, fun k ts hk => ?_, fun d hd => ?_⟩
    · rw [List.mem_append]
      simp only [Event.apply, Call.apply] at hk
      split at hk
      · exact Or.inl (h.known k ts hk)
      · -- a key of the new map is the new one, or was there
        rcases BoundedMap.put_get_some hk with rfl | hk
        · exact Or.inr (List.mem_singleton_self _)
        · exact Or.inl (h.known k ts hk)
    · obtain ⟨hkey, hle⟩ := h.seen d hd
      exact ⟨List.mem_append_left _ hkey, hle⟩
  | poll =>
    obtain ⟨hle, hall⟩ := le_foldl_max (s.found pattern) s.since
    refine ⟨h.refines, fun k ts hk => ?_, fun d hd => ?_⟩
    · exact List.mem_append_left _ (h.known k ts hk)
    · rcases List.mem_append.mp hd with hseen | hfound
      · obtain ⟨hkey, hts⟩ := h.seen d hseen
        exact ⟨List.mem_append_left _ hkey, hts.trans hle⟩
      · -- what is returned now is in the map
        have hget := ((Registry.discoverSince_spec h.refines pattern s.since).2 d).mp hfound
        exact ⟨List.mem_append_left _ (h.known _ _ hget.1), hall d hfound⟩

theorem Event.apply_get_of_ne {e : Event} {k : Key} (hk : e.key ≠ some k) :
    (e.apply m).get k = m.get k := by
  cases e with
  | register clock region uri pid =>
    simp only [Event.apply, Call.apply]
    split
    · rfl
    · exact m.put_get_of_ne _ fun heq => hk (by rw [heq]; rfl)
  | poll => rfl

/-- A topic that is not newer than `since` is not returned, and stays so. -/
theorem Poller.next_not_seen {d : DiscoveredTopic} (h : s.Inv keys m)
    (hd : d ∉ s.seen ∧ d.timestampUs ≤ s.since) (e : Event) :
    d ∉ (s.next pattern e).seen ∧ d.timestampUs ≤ (s.next pattern e).since := by
  cases e with
  | register clock region uri pid => exact hd
  | poll =>
    refine ⟨fun hmem => ?_, hd.2.trans (le_foldl_max _ _).1⟩
    rcases List.mem_append.mp hmem with hseen | hfound
    · exact hd.1 hseen
    · have hnew := ((Registry.discoverSince_spec h.refines pattern s.since).2 d).mp hfound
      exact absurd hnew.2.1 (Nat.not_lt.mpr hd.2)

/-! ### Whole runs -/

theorem Poller.Inv.run (pattern : Str) {events : List Event} (h : s.Inv keys m)
    (hnul : ∀ e ∈ events, e.NulFree) :
    (s.run pattern events).Inv (keys ++ events.filterMap Event.key)
      (events.foldl (fun m e => e.apply m) m) := by
  induction events generalizing s m keys with
  | nil =>
    rw [List.filterMap_nil, List.append_nil]
    exact h
  | cons e events ih =>
    have hkeys : keys ++ (e :: events).filterMap Event.key =
        keys ++ e.key.toList ++ events.filterMap Event.key := by
      rw [List.append_assoc, List.filterMap_cons]
      cases e.key <;> rfl
    rw [hkeys]
    exact ih (h.next (hnul e List.mem_cons_self))
      fun e' he' => hnul e' (List.mem_cons_of_mem e he')

theorem Event.foldl_get_of_ne {events : List Event} {k : Key}
    (hk : ∀ e ∈ events, e.key ≠ some k) :
    (events.foldl (fun m e => e.apply m) m).get k = m.get k := by
  induction events generalizing m with
  | nil => rfl
  | cons e events ih =>
    rw [List.foldl_cons, ih fun e' he' => hk e' (List.mem_cons_of_mem e he'),
      apply_get_of_ne (hk e List.mem_cons_self)]

theorem Poller.run_not_seen {events : List Event} {d : DiscoveredTopic} (h : s.Inv keys m)
    (hnul : ∀ e ∈ events, e.NulFree) (hd : d ∉ s.seen ∧ d.timestampUs ≤ s.since) :
    d ∉ (s.run pattern events).seen := by
  induction events generalizing s m keys with
  | nil => exact hd.1
  | cons e events ih =>
    apply ih (h.next (hnul e List.mem_cons_self))
    · intro e' he'
      exact hnul e' (List.mem_cons_of_mem e he')
    · exact next_not_seen h hd e

theorem Poller.run_seen (events : List Event) {d : DiscoveredTopic} (hd : d ∈ s.seen) :
    d ∈ (s.run pattern events).seen := by
  induction events generalizing s with
  | nil => exact hd
  | cons e events ih =>
    apply ih
    cases e with
    | register => exact hd
    | poll => exact List.mem_append_left _ hd

/-- Between polls, the poller waits. -/
theorem Poller.run_waits (pattern : Str) {events : List Event} (hpoll : .poll ∉ events) :
    (s.run pattern events).since = s.since ∧
      (s.run pattern events).seen = s.seen := by
  induction events generalizing s with
  | nil => exact ⟨rfl, rfl⟩
  | cons e events ih =>
    rw [List.mem_cons, not_or] at hpoll
    cases e with
    | register => exact ih hpoll.2
    | poll => exact absurd rfl hpoll.1

theorem start_inv : Poller.start.Inv [] .empty where
  refines := createNew_refines
  known k ts hk := by cases hk
  seen d hd := by cases hd

section

variable {region uri : Str} {clock pid : Nat} {mid after : List Event}

/-- The first poll after a registration. -/
theorem Poller.Inv.found_iff (h : s.Inv keys m) (hnew : (⟨region, uri, pid⟩ : Key) ∉ keys)
    (hroom : m.size < regMaxEntries) (hregion : region.length < reRegionNameMax)
    (huri : uri.length < reTopicUriMax)
    (hnul : ∀ e ∈ .register clock region uri pid :: mid, e.NulFree)
    (hpoll : .poll ∉ mid) (hkey : ∀ e ∈ mid, e.key ≠ some ⟨region, uri, pid⟩)
    (hmatch : matchesPattern pattern uri = true) :
    (⟨region, uri, pid, wrap64 clock⟩ : DiscoveredTopic) ∈ Poller.found pattern
        (s.run pattern (.register clock region uri pid :: mid)) ↔
      s.since < wrap64 clock := by
  have hinv := h.run pattern hnul
  -- the key is new, and its value is not touched until the poll
  have hnone : m.get ⟨region, uri, pid⟩ = none := by
    cases hget : m.get ⟨region, uri, pid⟩ with
    | none => rfl
    | some ts => exact absurd (h.known _ ts hget) hnew
  have hput : ((Event.register clock region uri pid).apply m).get ⟨region, uri, pid⟩ =
      some (wrap64 clock) := by
    have hshort : ¬(48 ≤ region.length ∨ 64 ≤ uri.length) :=
      not_or.mpr ⟨Nat.not_le.mpr hregion, Nat.not_le.mpr huri⟩
    simp only [Event.apply, Call.apply]
    rw [if_neg hshort, m.put_get _ _ (Or.inr hroom), Function.update_self]
  have hget : ((Event.register clock region uri pid :: mid).foldl (fun m e => e.apply m) m).get
      ⟨region, uri, pid⟩ = some (wrap64 clock) := by
    rw [List.foldl_cons, Event.foldl_get_of_ne hkey, hput]
  have hsince : (s.run pattern (.register clock region uri pid :: mid)).since = s.since :=
    (Poller.run_waits pattern hpoll).1
  have hspec := (Registry.discoverSince_spec hinv.refines pattern
    (s.run pattern (.register clock region uri pid :: mid)).since).2
      ⟨region, uri, pid, wrap64 clock⟩
  rw [hsince] at hspec
  rw [Poller.found, hsince, hspec]
  exact ⟨fun hfound => hfound.2.1, fun hlt => ⟨hget, hlt, hmatch⟩⟩

/-- The first poll returns the topic, or no poll does. -/
theorem Poller.Inv.seen_iff (h : s.Inv keys m) (hnew : (⟨region, uri, pid⟩ : Key) ∉ keys)
    (hroom : m.size < regMaxEntries) (hregion : region.length < reRegionNameMax)
    (huri : uri.length < reTopicUriMax)
    (hnul : ∀ e ∈ .register clock region uri pid :: (mid ++ .poll :: after), e.NulFree)
    (hpoll : .poll ∉ mid) (hkey : ∀ e ∈ mid, e.key ≠ some ⟨region, uri, pid⟩)
    (hmatch : matchesPattern pattern uri = true) :
    (⟨region, uri, pid, wrap64 clock⟩ : DiscoveredTopic) ∈
        (s.run pattern (.register clock region uri pid :: (mid ++ .poll :: after))).seen ↔
      s.since < wrap64 clock := by
  rw [← List.cons_append, List.forall_mem_append] at hnul
  have hfound := h.found_iff hnew hroom hregion huri hnul.1 hpoll hkey hmatch
  have hinv := h.run pattern hnul.1
  have hquiet : .poll ∉ Event.register clock region uri pid :: mid := by simpa using hpoll
  obtain ⟨hsince, hseen⟩ := Poller.run_waits (s := s) pattern hquiet
  rw [← List.cons_append, Poller.run, List.foldl_append, List.foldl_cons]
  constructor
  · intro hmem
    by_contra hlt
    -- it was not returned before, nor by the first poll, and `since` only grows
    refine Poller.run_not_seen (hinv.next (e := .poll) trivial)
      (fun e he => hnul.2 e (List.mem_cons_of_mem _ he)) ⟨fun hin => ?_, ?_⟩ hmem
    · rcases List.mem_append.mp hin with hold | hnow
      · exact hnew (h.seen ⟨region, uri, pid, wrap64 clock⟩ (hseen ▸ hold)).1
      · exact hlt (hfound.mp hnow)
    · exact (Nat.not_lt.mp hlt).trans (hsince.ge.trans (le_foldl_max _ _).1)
  · intro hlt
    exact Poller.run_seen after (List.mem_append_right _ (hfound.mpr hlt))

end

/-- **Polling.** A topic with a new key is registered, while there is room, and others may be
    before the next poll.  That poll returns it exactly when its timestamp is greater than every
    timestamp returned before (and than 0); otherwise no later poll returns it either. -/
theorem new_topic_polled (pattern region uri : Str) (before mid after : List Event)
    (clock pid : Nat)
    (hkeys : ((before ++ .register clock region uri pid :: (mid ++ .poll :: after)).filterMap
      Event.key).Nodup)
    (hnul : ∀ e ∈ before ++ .register clock region uri pid :: (mid ++ .poll :: after), e.NulFree)
    (hpoll : .poll ∉ mid) (hroom : (polled pattern before).reg.freeEntry ≠ none)
    (hregion : region.length < reRegionNameMax) (huri : uri.length < reTopicUriMax)
    (hmatch : matchesPattern pattern uri = true) :
    ((⟨region, uri, pid, wrap64 clock⟩ : DiscoveredTopic) ∈
        (polled pattern (before ++ .register clock region uri pid :: mid)).found pattern ↔
      (polled pattern before).since < wrap64 clock) ∧
    ((⟨region, uri, pid, wrap64 clock⟩ : DiscoveredTopic) ∈
        (polled pattern
          (before ++ .register clock region uri pid :: (mid ++ .poll :: after))).seen ↔
      (polled pattern before).since < wrap64 clock) := by
  rw [List.forall_mem_append] at hnul
  have hregistered : Event.key (.register clock region uri pid) = some ⟨region, uri, pid⟩ := rfl
  rw [List.filterMap_append, List.nodup_append, List.filterMap_cons_some hregistered,
    List.nodup_cons, List.filterMap_append, List.mem_append, not_or] at hkeys
  obtain ⟨-, ⟨⟨hfresh, -⟩, -⟩, hapart⟩ := hkeys
  -- the key is new, and not registered again before the poll
  have hnew : (⟨region, uri, pid⟩ : Key) ∉ [] ++ before.filterMap Event.key := fun hmem =>
    hapart _ hmem _ List.mem_cons_self rfl
  have hother : ∀ e ∈ mid, e.key ≠ some ⟨region, uri, pid⟩ := fun e he hkey =>
    hfresh (List.mem_filterMap.mpr ⟨e, he, hkey⟩)
  have hinv := start_inv.run pattern hnul.1
  obtain ⟨i, hi⟩ := Option.ne_none_iff_exists'.mp hroom
  have hsize := hinv.refines.stores.size_lt (Registry.freeEntry_some hi)
  have hnul' : ∀ e ∈ .register clock region uri pid :: mid, e.NulFree := by
    intro e he
    rcases List.mem_cons.mp he with rfl | hmem
    · exact hnul.2 _ List.mem_cons_self
    · exact hnul.2 e (List.mem_cons_of_mem _ (List.mem_append_left _ hmem))
  rw [polled_append, polled_append]
  exact ⟨hinv.found_iff hnew hsize hregion huri hnul' hpoll hother hmatch,
    hinv.seen_iff hnew hsize hregion huri hnul.2 hpoll hother hmatch⟩

/-- Two topics of one process, the second one microsecond later than the first. -/
theorem new_topic_polled_later :
    (⟨[114], [47, 98], 1, 6⟩ : DiscoveredTopic) ∈
      (polled [47, 42] [.register 5 [114] [47, 97] 1, .poll, .register 6 [114] [47, 98] 1,
        .poll]).seen := by
  have hpolled := new_topic_polled [47, 42] [114] [47, 98] [.register 5 [114] [47, 97] 1, .poll]
    [] [] 6 1 (by decide) (by simp [Event.NulFree]) (by simp) (by decide +kernel) (by decide)
    (by decide) (by decide)
  exact hpolled.2.mpr (by decide +kernel)

/-- **A topic that no poll returns.** Two topics are registered in one microsecond, with a poll in
    between; the second one is in the registry and is not returned by the polls after it. -/
theorem tie_never_polled :
    (polled [47, 42] [.register 5 [114] [47, 97] 1, .poll, .register 5 [114] [47, 98] 1, .poll,
        .poll]).seen = [⟨[114], [47, 97], 1, 5⟩] ∧
      (polled [47, 42] [.register 5 [114] [47, 97] 1, .poll, .register 5 [114] [47, 98] 1, .poll,
        .poll]).reg.discover [47, 42] =
        [⟨[114], [47, 97], 1, 5⟩, ⟨[114], [47, 98], 1, 5⟩] := by
  decide +kernel

end Crossbar.Discovery
