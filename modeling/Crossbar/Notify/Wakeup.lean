import Crossbar.Ring.Delivery

namespace Crossbar.Notify

open Function Crossbar.Lib Crossbar.Ring

/-!
# Notify — sleeping streams and the smart wake

The OS phase of `Stream::blocking_recv` and the last step of `commit_to_ring`, on top of the
ring of `Crossbar.Ring`, for one publisher and any number of streams.  The futex word is the
low half of `write_seq`.  A stream loads it, tries once more, counts itself as a waiter and
waits in `wait_until_not`; a publisher that has closed its entry loads the number of waiters and
wakes them if there are any.

* `step` — a step of the ring, of a stream on its way to sleep and back, or of the wake;
* `Spent` — every message up to a number is out of the stream's reach;
* `Inv` — a stream that has tried in vain has spent everything up to the number it loaded, and
  a parked stream has missed no number, or a publish that will wake it is under way;
* `no_lost_wakeup` — under the condition `Ok`: the try after the load does not look at a number
  that is claimed and not closed.  `write_seq` changes at the claim, so a stream that loads it
  between claim and close waits for a change that has already happened:
  `publish_is_missed_in_sleep`.

`FUTEX_WAIT` parks the caller if the word has the expected value, in one step with the
comparison; `FUTEX_WAKE` unparks every waiter.  Publishes here are those of the ring, with
`wake = true`.
-/

variable {cfg : ValidConfig} {S : Type}

/-! ### The system -/

/-- The locals of a stream in the OS phase: the futex word is the low half of `topic`'s
    `write_seq`, `cur` the low half of `since`; the upper half of `since` is history. -/
structure Wait (cfg : ValidConfig) where
  topic : cfg.Topic
  since : Nat
  deriving DecidableEq

/-- Where a stream is in the OS phase of `blocking_recv`. -/
inductive Sleep (cfg : ValidConfig) where
  /-- not in the OS phase -/
  | awake
  /-- the futex word is loaded; `try_fn` is called -/
  | trying (w : Wait cfg)
  /-- `try_fn` returned `None`; `waiters.fetch_add` is next -/
  | register (w : Wait cfg)
  /-- `wait_until_not` loads the word -/
  | loop (w : Wait cfg)
  /-- `FUTEX_WAIT` is next -/
  | wait (w : Wait cfg)
  | parked (w : Wait cfg)
  /-- `wait_until_not` has returned; `waiters.fetch_sub` is next -/
  | leave (w : Wait cfg)
  deriving DecidableEq

/-- Where the publisher is in the smart wake of `commit_to_ring`. -/
inductive Waking (cfg : ValidConfig) where
  | none
  /-- the waiters of the topic are loaded -/
  | load (t : cfg.Topic)
  /-- `FUTEX_WAKE` is next -/
  | wake (t : cfg.Topic)
  deriving DecidableEq

/-- The ring with its publisher and its streams, the waiter counts, and who sleeps. -/
structure State (cfg : ValidConfig) (S : Type) where
  ring : Ring.State cfg Unit S
  waiters : cfg.Topic → Nat
  waking : Waking cfg
  sleep : S → Sleep cfg

/-- One atomic step of one agent. -/
inductive Act (cfg : ValidConfig) (S : Type) where
  /-- a step of the ring -/
  | ring (a : Ring.Act cfg Unit S)
  /-- the stream enters the OS phase and loads the futex word -/
  | load (r : S)
  /-- the next step of the stream, other than in `try_fn`; `expired` says whether the deadline
      of `wait_until_not` has passed -/
  | go (r : S) (expired : Bool)
  /-- `FUTEX_WAIT` returns without a wake -/
  | timeout (r : S)
  /-- the next step of the smart wake -/
  | notify

/-- Whether the stream may be inside `try_recv`. -/
def Sleep.tries : Sleep cfg → Bool
  | .awake | .trying _ => true
  | .register _ | .loop _ | .wait _ | .parked _ | .leave _ => false

/-- What the streams and the publisher may do in the ring: a stream on its way to sleep does
    not call `try_recv`, and `commit_to_ring` returns only after the smart wake. -/
def State.allows (s : State cfg S) : Ring.Act cfg Unit S → Bool
  | .recv r _ => (s.sleep r).tries
  | .loan .. | .write .. | .dropLoan _ | .freed _ | .commit .. => decide (s.waking = .none)
  | .pinned _ => false
  | .subscribe .. | .dropSample _ | .freedSample _ => true

/-- `commit_to_ring` goes on to the smart wake when it is done with the old block. -/
def State.wakingAfter (s : State cfg S) (ring : Ring.State cfg Unit S) : Waking cfg :=
  match s.ring.pub (), ring.pub () with
  | .commit c _, .idle => .load c.topic
  | _, _ => s.waking

/-- A `try_fn` that ends leads back to the caller of `blocking_recv`, or on to sleep. -/
def Sleep.afterTry (x : Sleep cfg) (o : Option (Stream cfg)) : Sleep cfg :=
  match x, o with
  | .trying w, some m =>
    if m.pc = .idle then (if m.emptied then .register w else .awake) else .trying w
  | _, _ => x

/-- `FUTEX_WAKE` on the word of topic `t`. -/
def Sleep.wakeOn (t : cfg.Topic) : Sleep cfg → Sleep cfg
  | .parked w => if w.topic = t then .loop w else .parked w
  | x => x

section

variable [Fintype S] [DecidableEq S]

/-- The streams after a step of the ring. -/
def State.sleepAfter (s : State cfg S) (ring : Ring.State cfg Unit S) :
    Ring.Act cfg Unit S → S → Sleep cfg
  | .recv r _ => update s.sleep r ((s.sleep r).afterTry (ring.str r))
  | _ => s.sleep

/-- The state after the ring has made the step `a`. -/
def State.afterRing (s : State cfg S) (ring : Ring.State cfg Unit S) (a : Ring.Act cfg Unit S) :
    State cfg S :=
  { s with ring := ring, waking := s.wakingAfter ring, sleep := s.sleepAfter ring a }

/-- Stream `r` goes on as `x`. -/
def State.setSleep (s : State cfg S) (r : S) (x : Sleep cfg) : State cfg S :=
  { s with sleep := update s.sleep r x }

/-- The number of waiters of a topic is stored. -/
def State.setWaiters (s : State cfg S) (t : cfg.Topic) (n : Nat) : State cfg S :=
  { s with waiters := update s.waiters t n }

/-- The futex word of a topic. -/
def State.word (s : State cfg S) (t : cfg.Topic) : Nat := wrap32 (s.ring.shm.writeSeq t)

/-- One action. -/
def step (single : Unit → Bool) (s : State cfg S) : Act cfg S → Option (State cfg S)
  | .ring a =>
    if s.allows a then (Ring.step single s.ring a).map fun ring => s.afterRing ring a else none
  | .load r =>
    match s.sleep r, s.ring.str r with
    | .awake, some m =>
      if m.pc = .idle then
        some (s.setSleep r (.trying ⟨m.topic, s.ring.shm.writeSeq m.topic⟩))
      else none
    | _, _ => none
  | .go r expired =>
    match s.sleep r with
    | .register w =>
      some ((s.setWaiters w.topic (wrap32 (s.waiters w.topic + 1))).setSleep r (.loop w))
    | .loop w =>
      if s.word w.topic ≠ wrap32 w.since then some (s.setSleep r (.leave w))
      else if expired then some (s.setSleep r (.leave w))
      else some (s.setSleep r (.wait w))
    | .wait w =>
      if s.word w.topic = wrap32 w.since then some (s.setSleep r (.parked w))
      else some (s.setSleep r (.loop w))
    | .leave w =>
      some ((s.setWaiters w.topic (dec32 (s.waiters w.topic))).setSleep r .awake)
    | .awake | .trying _ | .parked _ => none
  | .timeout r =>
    match s.sleep r with
    | .parked w => some (s.setSleep r (.loop w))
    | _ => none
  | .notify =>
    match s.waking with
    | .load t => some { s with waking := if 0 < s.waiters t then .wake t else .none }
    | .wake t => some { s with waking := .none, sleep := fun r => (s.sleep r).wakeOn t }
    | .none => none

variable (cfg S) in
/-- A new region, with nobody asleep. -/
def init : State cfg S where
  ring := Ring.init cfg Unit S
  waiters := fun _ => 0
  waking := .none
  sleep := fun _ => .awake

end

/-! ### Admissible steps -/

/-- The number that the step looks at in the try after a load, with the locals of the load. -/
def State.looks (s : State cfg S) : Ring.Act cfg Unit S → Option (Wait cfg × Nat)
  | .recv r _ =>
    match s.sleep r, s.ring.str r with
    | .trying w, some m => m.pc.scan.map fun sc => (w, sc.pos)
    | _, _ => none
  | _ => none

/-- The try does not look at a number, up to the loaded one, that is claimed and not closed. -/
def heedsOpen (s : State cfg S) (a : Ring.Act cfg Unit S) : Prop :=
  ∀ x ∈ s.looks a, x.2 ≤ x.1.since → s.ring.shm.isOpen x.1.topic x.2 = false

/-- The counters stay in range: there are fewer than `2 ^ 32` waiters, and fewer than `2 ^ 32`
    numbers are claimed between the load of the futex word and `FUTEX_WAIT`. -/
def waitFits (s : State cfg S) : Sleep cfg → Prop
  | .register w => s.waiters w.topic + 1 < 2 ^ 32
  | .wait w => s.ring.shm.writeSeq w.topic < w.since + 2 ^ 32
  | .awake | .trying _ | .loop _ | .parked _ | .leave _ => True

/-- An admissible step. -/
def Ok (s : State cfg S) : Act cfg S → Prop
  | .ring a => claimFits s.ring a = true ∧ bumpFits s.ring a = true ∧ heedsOpen s a
  | .go r _ => waitFits s (s.sleep r)
  | .load _ | .timeout _ | .notify => True

instance (s : State cfg S) (a : Ring.Act cfg Unit S) : Decidable (heedsOpen s a) :=
  inferInstanceAs (Decidable (∀ x ∈ s.looks a, _))

instance (s : State cfg S) (x : Sleep cfg) : Decidable (waitFits s x) :=
  match x with
  | .register w => inferInstanceAs (Decidable (s.waiters w.topic + 1 < 2 ^ 32))
  | .wait w => inferInstanceAs (Decidable (s.ring.shm.writeSeq w.topic < w.since + 2 ^ 32))
  | .awake | .trying _ | .loop _ | .parked _ | .leave _ => .isTrue trivial

instance (s : State cfg S) (a : Act cfg S) : Decidable (Ok s a) :=
  match a with
  | .ring a => inferInstanceAs (Decidable (_ ∧ _ ∧ heedsOpen s a))
  | .go r _ => inferInstanceAs (Decidable (waitFits s (s.sleep r)))
  | .load _ | .timeout _ | .notify => .isTrue trivial

/-- A message newer than the stream's `last_seq` is in the ring, where `try_recv` looks for
    it. -/
def Readable (st : Ring.State cfg Unit S) (m : Stream cfg) : Prop :=
  ∃ q, m.lastSeq < q ∧ q ≤ st.shm.writeSeq m.topic ∧
    st.shm.writeSeq m.topic < q + cfg.ringDepth ∧
    (st.shm.entry (m.topic, cfg.slotOf q)).seq = q

/-! ### One publisher -/

section

variable [Fintype S] [DecidableEq S] {st st' : Ring.State cfg Unit S} {single : Unit → Bool}
  {a : Ring.Act cfg Unit S}

omit [DecidableEq S] in
/-- A single publisher finds no entry marked: only itself could have marked it. -/
theorem marksClear_one (hI : Ring.Inv st) : marksClear single st a = true := by
  unfold marksClear
  split
  · rename_i e q hmarks
    obtain ⟨p, c, pc, hp, hwaiting, he, -⟩ := marks_commit hmarks
    rw [bne_iff_ne]
    intro hseq
    obtain ⟨p', c', pc', hp', hcrit, -⟩ := hI.writing e hseq
    rw [hp] at hp'
    cases hp'
    rw [(CommitPc.waiting_spec hwaiting c 0).2.2.1] at hcrit
    cases hcrit
  · rfl

omit [DecidableEq S] in
/-- A step that overflows no counter is admissible in the ring. -/
theorem ring_ok (hI : Ring.Inv st) (hclaim : claimFits st a = true)
    (hbump : bumpFits st a = true) : Ring.Ok single st a :=
  ⟨⟨marksClear_one hI, hbump⟩, hclaim⟩

end

/-! ### What a stream has spent -/

/-- Every message after `lastSeq` up to the loaded number is out of reach. -/
def Spent (sh : Shm cfg) (w : Wait cfg) (lastSeq : Nat) : Prop :=
  ∀ q, lastSeq < q → q ≤ w.since → (sh.claims w.topic q).isSome = true → Gone sh w.topic q

/-- A stream in the try after its load: the numbers its scan has passed are spent. -/
structure TryInv (sh : Shm cfg) (w : Wait cfg) (m : Stream cfg) : Prop where
  topic : m.topic = w.topic
  since_le : w.since ≤ sh.writeSeq w.topic
  cur : ∀ sc, m.pc.scan = some sc → w.since ≤ sc.cur
  emptied : ∀ sc, m.pc.scan = some sc → m.emptied = false
  passed : ∀ sc, m.pc.scan = some sc → ∀ q, m.lastSeq < q → q ≤ w.since → q < sc.pos →
    (sh.claims w.topic q).isSome = true → Gone sh w.topic q
  failed : ∀ pos, m.pc.failed = some pos → Gone sh w.topic pos

/-- A stream that has tried in vain. -/
structure Tried (sh : Shm cfg) (w : Wait cfg) (m : Stream cfg) : Prop where
  topic : m.topic = w.topic
  since_le : w.since ≤ sh.writeSeq w.topic
  spent : Spent sh w m.lastSeq

/-- What is true of a stream while it is at `x`. -/
def SleepInv (sh : Shm cfg) (o : Option (Stream cfg)) : Sleep cfg → Prop
  | .awake | .leave _ => True
  | .trying w => ∃ m, o = some m ∧ TryInv sh w m
  | .register w | .loop w | .wait w | .parked w => ∃ m, o = some m ∧ Tried sh w m

section

variable {sh sh' : Shm cfg} {w : Wait cfg} {m m' : Stream cfg}

/-- What is spent stays so. -/
theorem Tried.forward (h : Tried sh w m) (hF : Forward sh sh')
    (hlt : ∀ t, sh.writeSeq t < seqWriting)
    (hcl : ∀ t q, sh.closed t q = true → q ≤ sh.writeSeq t) : Tried sh' w m where
  topic := h.topic
  since_le := h.since_le.trans (hF.seq_le _)
  spent := by
    intro q hq hsince hclaim
    rw [hF.claims w.topic q (hsince.trans h.since_le)] at hclaim
    exact (h.spent q hq hsince hclaim).forward hF hlt hcl

theorem TryInv.forward (h : TryInv sh w m) (hF : Forward sh sh')
    (hlt : ∀ t, sh.writeSeq t < seqWriting)
    (hcl : ∀ t q, sh.closed t q = true → q ≤ sh.writeSeq t) : TryInv sh' w m where
  topic := h.topic
  since_le := h.since_le.trans (hF.seq_le _)
  cur := h.cur
  emptied := h.emptied
  passed := by
    intro sc hsc q hq hsince hpos hclaim
    rw [hF.claims w.topic q (hsince.trans h.since_le)] at hclaim
    exact (h.passed sc hsc q hq hsince hpos hclaim).forward hF hlt hcl
  failed := fun pos hpos => (h.failed pos hpos).forward hF hlt hcl

theorem SleepInv.forward {o : Option (Stream cfg)} {x : Sleep cfg} (h : SleepInv sh o x)
    (hF : Forward sh sh') (hlt : ∀ t, sh.writeSeq t < seqWriting)
    (hcl : ∀ t q, sh.closed t q = true → q ≤ sh.writeSeq t) : SleepInv sh' o x := by
  cases x with
  | awake | leave => trivial
  | trying w =>
    obtain ⟨m, hm, htry⟩ := h
    exact ⟨m, hm, htry.forward hF hlt hcl⟩
  | register w | loop w | wait w | parked w =>
    obtain ⟨m, hm, htried⟩ := h
    exact ⟨m, hm, htried.forward hF hlt hcl⟩

/-- A step of the try.  The slots it leaves behind are spent, and when it ends in vain,
    everything up to the loaded number is. -/
theorem tryInv_move (h : TryInv sh w m) (hmove : RecvMove sh m m')
    (hheed : ∀ sc, m.pc.scan = some sc → sc.pos ≤ w.since → sh.isOpen w.topic sc.pos = false) :
    SleepInv sh (some m') ((Sleep.trying w).afterTry (some m')) := by
  have htopic := h.topic
  have hle := h.since_le
  cases hmove with
  | empty hpc hws =>
    -- `write_seq` is not above `last_seq`, and so is not the loaded number
    simp only [Sleep.afterTry, hpc, if_true]
    refine ⟨_, rfl, htopic, hle, fun q hq hsince _ => ?_⟩
    simp only [htopic] at hws hq
    omega
  | start hpc hlt =>
    simp only [Sleep.afterTry, reduceCtorEq, if_false]
    refine ⟨_, rfl, htopic, hle, ?_, ?_, ?_, nofun⟩
    · intro sc hsc
      cases hsc
      rw [htopic]
      exact hle
    · exact fun _ _ => rfl
    · intro sc hsc q hq _ hpos _
      cases hsc
      have hout := window_of_lt_scanStart hq hpos
      rw [htopic] at hout
      exact Or.inr hout
  | @go sc pc' hsc hsc' hfailed =>
    -- the scan stays at its number
    have hpc' : pc' ≠ .idle := by
      rintro rfl
      cases hsc'
    simp only [Sleep.afterTry, hpc', if_false]
    refine ⟨_, rfl, htopic, hle, ?_, ?_, ?_, ?_⟩
    · intro sc₁ hsc₁
      rw [hsc'] at hsc₁
      cases hsc₁
      exact h.cur sc hsc
    · exact fun _ _ => h.emptied sc hsc
    · intro sc₁ hsc₁
      rw [hsc'] at hsc₁
      cases hsc₁
      exact h.passed sc hsc
    · intro pos hpos
      rw [← htopic]
      exact hfailed pos hpos
  | @skip sc opened hsc hpos hopen =>
    -- up to the loaded number, an entry that gave nothing has lost its number
    have hthis : ∀ q, q ≤ w.since → q = sc.pos → (sh.claims w.topic q).isSome = true →
        Gone sh w.topic q := by
      rintro q hsince rfl hclaim
      rw [← htopic] at hclaim ⊢
      refine hpos ?_ hclaim
      by_contra hne
      have hop := hopen (by simpa using hne)
      rw [htopic, hheed sc hsc hsince] at hop
      cases hop
    have hpassed := h.passed sc hsc
    have hcur := h.cur sc hsc
    unfold Stream.skip Scan.next
    by_cases hlt : sc.pos < sc.cur
    · simp only [if_pos hlt, Sleep.afterTry, reduceCtorEq, if_false]
      refine ⟨_, rfl, htopic, hle, ?_, ?_, ?_, nofun⟩
      · intro sc' hsc'
        cases hsc'
        exact hcur
      · intro _ _
        simp [hlt]
      · intro sc' hsc' q hq hsince hq' hclaim
        cases hsc'
        rcases Nat.lt_succ_iff_lt_or_eq.mp hq' with hbefore | heq
        · exact hpassed q hq hsince hbefore hclaim
        · exact hthis q hsince heq hclaim
    · -- the scan ends at `cur`, which is not below the loaded number
      simp only [Sleep.afterTry, if_true, hlt, decide_false, Bool.not_false]
      refine ⟨_, rfl, htopic, hle, fun q hq hsince hclaim => ?_⟩
      rcases Nat.lt_or_ge q sc.pos with hbefore | hafter
      · exact hpassed q hq hsince hbefore hclaim
      · exact hthis q hsince (by omega) hclaim
  | @ret sc b len hpc hseq =>
    -- `try_fn` returned a sample: the stream does not go to sleep
    have hem := h.emptied sc (by rw [hpc]; rfl)
    simp only [Sleep.afterTry, if_true, hem, Bool.false_eq_true, if_false]
    trivial

end

/-! ### The invariant -/

/-- The share of a stream in the waiter count of topic `t`. -/
def Sleep.waits (t : cfg.Topic) : Sleep cfg → Nat
  | .loop w | .wait w | .parked w | .leave w => if w.topic = t then 1 else 0
  | .awake | .trying _ | .register _ => 0

/-- A publish on topic `t` is under way and its smart wake is still to come. -/
def State.announces (s : State cfg S) (t : cfg.Topic) : Prop :=
  (∃ c pc, s.ring.pub () = .commit c pc ∧ c.topic = t) ∨ s.waking = .load t ∨ s.waking = .wake t

/-- The invariant. -/
structure Inv [Fintype S] (s : State cfg S) : Prop where
  ring : Ring.Inv s.ring
  streams : ∀ r, SleepInv s.ring.shm (s.ring.str r) (s.sleep r)
  waiters : ∀ t, s.waiters t = tally (Sleep.waits t) s.sleep
  waiters_lt : ∀ t, s.waiters t < 2 ^ 32
  parked : ∀ r w, s.sleep r = .parked w →
    s.ring.shm.writeSeq w.topic = w.since ∨ s.announces w.topic

section

variable [Fintype S] [DecidableEq S] {s s' : State cfg S} {r : S} {x : Sleep cfg}
  {single : Unit → Bool}

omit [DecidableEq S] in
theorem inv_init : Inv (init cfg S) where
  ring := Ring.inv_init cfg Unit S
  streams := fun _ => trivial
  waiters := fun _ => (tally_eq_zero _ _ (fun _ => rfl)).symm
  waiters_lt := fun _ => Nat.two_pow_pos 32
  parked := nofun

omit [DecidableEq S] in
/-- A stream that is counted makes the count positive. -/
theorem Inv.waiters_pos (h : Inv s) {t : cfg.Topic} (hr : (s.sleep r).waits t = 1) :
    0 < s.waiters t := by
  have hle := le_tally (Sleep.waits t) s.sleep r
  rw [h.waiters t]
  omega

/-- Stream `r` goes on as `x`, and the waiter counts by the difference of its shares. -/
theorem Inv.setSleep (h : Inv s) (hring : s'.ring = s.ring) (hwaking : s'.waking = s.waking)
    (hsleep : s'.sleep = update s.sleep r x)
    (hx : SleepInv s.ring.shm (s.ring.str r) x)
    (hwaits : ∀ t, s'.waiters t + (s.sleep r).waits t = s.waiters t + x.waits t)
    (hlt : ∀ t, s'.waiters t < 2 ^ 32)
    (hparked : ∀ w, x = .parked w → s.ring.shm.writeSeq w.topic = w.since) : Inv s' := by
  have hann : ∀ t, s.announces t → s'.announces t := by
    unfold State.announces
    rw [hring, hwaking]
    exact fun _ hann => hann
  refine ⟨hring ▸ h.ring, fun q => ?_, fun t => ?_, hlt, fun q w hq => ?_⟩
  · rw [hring, hsleep]
    by_cases hqr : q = r
    · subst hqr
      rw [update_self]
      exact hx
    · rw [update_of_ne hqr]
      exact h.streams q
  · have htally := tally_update (Sleep.waits t) s.sleep r x
    have hold := h.waiters t
    have hmove := hwaits t
    rw [hsleep]
    omega
  · rw [hring]
    rw [hsleep] at hq
    by_cases hqr : q = r
    · subst hqr
      rw [update_self] at hq
      exact Or.inl (hparked w hq)
    · rw [update_of_ne hqr] at hq
      exact (h.parked q w hq).imp_right (hann w.topic)

/-- A stream goes on without a change of the waiter counts. -/
theorem Inv.sameWaiters (h : Inv s) (hx : SleepInv s.ring.shm (s.ring.str r) x)
    (hwaits : ∀ t, x.waits t = (s.sleep r).waits t)
    (hparked : ∀ w, x = .parked w → s.ring.shm.writeSeq w.topic = w.since) :
    Inv (s.setSleep r x) :=
  h.setSleep rfl rfl rfl hx (fun t => by rw [hwaits]; rfl) h.waiters_lt hparked

/-- A stream goes on, and the waiter count of one topic with it. -/
theorem Inv.moveWaiter (h : Inv s) {t₀ : cfg.Topic} {n : Nat}
    (hx : SleepInv s.ring.shm (s.ring.str r) x)
    (hself : n + (s.sleep r).waits t₀ = s.waiters t₀ + x.waits t₀)
    (hother : ∀ t, t ≠ t₀ → (s.sleep r).waits t = 0 ∧ x.waits t = 0) (hn : n < 2 ^ 32)
    (hne : ∀ w, x ≠ .parked w) : Inv ((s.setWaiters t₀ n).setSleep r x) := by
  refine h.setSleep (r := r) (x := x) rfl rfl rfl hx (fun t => ?_) (fun t => ?_)
    (fun w hw => absurd hw (hne w))
  · change update s.waiters t₀ n t + _ = _
    by_cases ht : t = t₀
    · subst ht
      rw [update_self]
      exact hself
    · obtain ⟨hold, hnew⟩ := hother t ht
      rw [update_of_ne ht, hold, hnew]
  · change update s.waiters t₀ n t < _
    by_cases ht : t = t₀
    · subst ht
      rw [update_self]
      exact hn
    · rw [update_of_ne ht]
      exact h.waiters_lt t

/-- A step of a stream other than in `try_fn`. -/
theorem inv_go {expired : Bool} (h : Inv s) (hok : waitFits s (s.sleep r))
    (hstep : step single s (.go r expired) = some s') : Inv s' := by
  have hr := h.streams r
  simp only [step] at hstep
  cases hsleep : s.sleep r with
  | awake | trying w | parked w =>
    rw [hsleep] at hstep
    cases hstep
  | register w =>
    -- `fetch_add`: from here on the stream is counted
    rw [hsleep] at hstep hok hr
    cases hstep
    have hn : wrap32 (s.waiters w.topic + 1) = s.waiters w.topic + 1 := wrap32_of_lt hok
    refine h.moveWaiter (x := .loop w) hr ?_ (fun t ht => ?_) ?_ nofun
    · rw [hn, hsleep]
      change _ + 1 + 0 = _ + if w.topic = w.topic then 1 else 0
      rw [if_pos rfl]
    · rw [hsleep]
      exact ⟨rfl, if_neg (Ne.symm ht)⟩
    · rw [hn]
      exact hok
  | loop w =>
    -- it leaves when the word has changed or the deadline has passed, and is counted until then
    rw [hsleep] at hstep hr
    have hsame : ∀ {y : Sleep cfg}, SleepInv s.ring.shm (s.ring.str r) y →
        (∀ t, y.waits t = (Sleep.loop w).waits t) → (∀ v, y ≠ .parked v) →
        Inv (s.setSleep r y) := by
      intro y hy hwaits hne
      refine h.sameWaiters hy (fun t => ?_) (fun v hv => absurd hv (hne v))
      rw [hwaits, hsleep]
    have hstep : (if s.word w.topic ≠ wrap32 w.since then some (s.setSleep r (.leave w))
      else if expired then some (s.setSleep r (.leave w))
      else some (s.setSleep r (.wait w))) = some s' := hstep
    split at hstep
    · cases hstep
      exact hsame trivial (fun _ => rfl) nofun
    · split at hstep
      · cases hstep
        exact hsame trivial (fun _ => rfl) nofun
      · cases hstep
        exact hsame hr (fun _ => rfl) nofun
  | wait w =>
    rw [hsleep] at hstep hok hr
    have hstep : (if s.word w.topic = wrap32 w.since then some (s.setSleep r (.parked w))
      else some (s.setSleep r (.loop w))) = some s' := hstep
    split at hstep
    · -- the word is as loaded, so no number has been claimed since then
      rename_i hword
      cases hstep
      refine h.sameWaiters (x := .parked w) hr (fun t => by rw [hsleep]; rfl) ?_
      rintro v ⟨rfl⟩
      obtain ⟨m, -, htried⟩ := hr
      have hle := htried.since_le
      have hlt : s.ring.shm.writeSeq w.topic < w.since + 2 ^ 32 := hok
      unfold State.word wrap32 at hword
      omega
    · cases hstep
      exact h.sameWaiters (x := .loop w) hr (fun t => by rw [hsleep]; rfl) nofun
  | leave w =>
    -- the count includes the stream itself, so `fetch_sub` does not wrap
    rw [hsleep] at hstep
    cases hstep
    have hpos : 0 < s.waiters w.topic := by
      refine h.waiters_pos (r := r) ?_
      rw [hsleep]
      exact if_pos rfl
    have hn := dec32_of_pos hpos (h.waiters_lt w.topic)
    have hlt := h.waiters_lt w.topic
    refine h.moveWaiter (x := .awake) trivial ?_ (fun t ht => ?_) ?_ nofun
    · rw [hn, hsleep]
      change _ - 1 + (if w.topic = w.topic then 1 else 0) = _ + 0
      rw [if_pos rfl]
      omega
    · rw [hsleep]
      exact ⟨if_neg (Ne.symm ht), rfl⟩
    · rw [hn]
      omega

/-- A stream loads the futex word between two calls of `try_fn`. -/
theorem inv_load (h : Inv s) (hstep : step single s (.load r) = some s') : Inv s' := by
  simp only [step] at hstep
  split at hstep
  · rename_i m hsleep hm
    split at hstep
    · rename_i hpc
      cases hstep
      refine h.sameWaiters ⟨m, hm, rfl, le_rfl, ?_, ?_, ?_, ?_⟩ (fun t => by rw [hsleep]; rfl) nofun
      · rw [hpc]
        nofun
      · rw [hpc]
        nofun
      · rw [hpc]
        nofun
      · rw [hpc]
        nofun
    · cases hstep
  · cases hstep

/-- `FUTEX_WAIT` returns without a wake. -/
theorem inv_timeout (h : Inv s) (hstep : step single s (.timeout r) = some s') : Inv s' := by
  simp only [step] at hstep
  split at hstep
  · rename_i w hsleep
    cases hstep
    have hr := h.streams r
    rw [hsleep] at hr
    exact h.sameWaiters (x := .loop w) hr (fun t => by rw [hsleep]; rfl) nofun
  · cases hstep

/-- A wake changes neither what is known of a stream nor its share. -/
theorem wakeOn_spec (t : cfg.Topic) (x : Sleep cfg) :
    (∀ t', (x.wakeOn t).waits t' = x.waits t') ∧
    (∀ sh o, SleepInv sh o x → SleepInv sh o (x.wakeOn t)) ∧
    ∀ w, x.wakeOn t = .parked w → x = .parked w ∧ w.topic ≠ t := by
  cases x with
  | parked w =>
    by_cases ht : w.topic = t
    · rw [show (Sleep.parked w).wakeOn t = .loop w from if_pos ht]
      exact ⟨fun _ => rfl, fun _ _ h => h, nofun⟩
    · rw [show (Sleep.parked w).wakeOn t = .parked w from if_neg ht]
      refine ⟨fun _ => rfl, fun _ _ h => h, fun v hv => ?_⟩
      cases hv
      exact ⟨rfl, ht⟩
  | awake | trying | register | loop | wait | leave => exact ⟨fun _ => rfl, fun _ _ h => h, nofun⟩

/-- A step of the smart wake: it leaves a topic without a wake only if nobody waits there. -/
theorem inv_notify (h : Inv s) (hstep : step single s .notify = some s') : Inv s' := by
  simp only [step] at hstep
  split at hstep
  · rename_i t hwaking
    cases hstep
    refine ⟨h.ring, h.streams, h.waiters, h.waiters_lt, fun r w hr => ?_⟩
    refine (h.parked r w hr).imp_right ?_
    rintro (hcommit | hload | hwake)
    · exact Or.inl hcommit
    · -- a parked stream is counted, so the load finds a waiter
      rw [hwaking] at hload
      cases hload
      have hpos : 0 < s.waiters w.topic := by
        refine h.waiters_pos (r := r) ?_
        rw [hr]
        exact if_pos rfl
      exact Or.inr (Or.inr (if_pos hpos))
    · rw [hwaking] at hwake
      cases hwake
  · rename_i t hwaking
    cases hstep
    refine ⟨h.ring, fun r => (wakeOn_spec t _).2.1 _ _ (h.streams r), fun t' => ?_, h.waiters_lt,
      fun r w hr => ?_⟩
    · rw [h.waiters t']
      unfold tally
      exact Finset.sum_congr rfl (fun r _ => ((wakeOn_spec t _).1 t').symm)
    · obtain ⟨hr, hne⟩ := (wakeOn_spec t _).2.2 w hr
      refine (h.parked r w hr).imp_right ?_
      rintro (hcommit | hload | hwake)
      · exact Or.inl hcommit
      · rw [hwaking] at hload
        cases hload
      · -- the wake leaves nobody parked on its topic
        rw [hwaking] at hwake
        cases hwake
        exact absurd rfl hne
  · cases hstep

/-! ### Steps of the ring -/

omit [Fintype S] [DecidableEq S] in
/-- Outside publish calls nothing is announced. -/
theorem not_announces (hquiet : (s.ring.pub ()).quiet = true) (hwaking : s.waking = .none)
    (t : cfg.Topic) : ¬ s.announces t := by
  rintro (⟨c, pc, hp, -⟩ | hload | hwake)
  · rw [hp] at hquiet
    cases hquiet
  · rw [hwaking] at hload
    cases hload
  · rw [hwaking] at hwake
    cases hwake

omit [Fintype S] [DecidableEq S] in
/-- A move of `commit_to_ring` claims no further number and stays in the call until its end. -/
theorem commitMove_end {R : Prop} {sh sh' : Shm cfg} {c : Commit cfg} {pc : CommitPc}
    {y : PubPc cfg} (hmove : CommitMove R sh c pc sh' y) :
    sh'.writeSeq = sh.writeSeq ∧ (y = .idle ∨ ∃ pc', y = .commit c pc') := by
  cases hmove with
  | release hold =>
    refine ⟨rfl, ?_⟩
    split
    · exact Or.inr ⟨_, rfl⟩
    · exact Or.inl rfl
  | noOld | recycle => exact ⟨rfl, Or.inl rfl⟩
  | _ => exact ⟨rfl, Or.inr ⟨_, rfl⟩⟩

omit [Fintype S] in
/-- A step that is not the publisher's leaves the announcements as they are. -/
theorem announces_of_pub {ring : Ring.State cfg Unit S} (a : Ring.Act cfg Unit S)
    (hpub : ring.pub = s.ring.pub) (t : cfg.Topic) (hann : s.announces t) :
    (s.afterRing ring a).announces t := by
  have hsame : s.wakingAfter ring = s.waking := by
    unfold State.wakingAfter
    rw [hpub]
    cases s.ring.pub () <;> rfl
  unfold State.announces State.afterRing
  simp only [hsame, hpub]
  exact hann

/-- A step of the ring claims no number of topic `t` and leaves an announced publish announced,
    or it announces a publish on `t`. -/
theorem ring_announces {ring : Ring.State cfg Unit S} {a : Ring.Act cfg Unit S}
    (hallows : s.allows a = true) (hst : Ring.Step single s.ring a ring) (t : cfg.Topic) :
    (ring.shm.writeSeq t = s.ring.shm.writeSeq t ∧
      (s.announces t → (s.afterRing ring a).announces t)) ∨
    (s.afterRing ring a).announces t := by
  -- the publisher moves only when its last smart wake is done
  have hquiet : ∀ {y : PubPc cfg}, s.ring.pub () = y → y.quiet = true →
      decide (s.waking = .none) = true → ∀ {X : Prop}, s.announces t → X := by
    rintro y rfl hy hnone X hann
    exact absurd hann (not_announces hy (of_decide_eq_true hnone) t)
  cases hst with
  | loan t₁ hp | write bytes hp | dropLoan hp
  | freed hp => exact Or.inl ⟨rfl, hquiet hp rfl hallows⟩
  | @claim p l spurious hp =>
    -- the claim changes the word of its topic, and the publish is announced from here on
    by_cases ht : t = l.topic
    · refine Or.inr (Or.inl
        ⟨⟨l, wrap64 (s.ring.shm.writeSeq l.topic + 1)⟩, .acquire 0, ?_, ht.symm⟩)
      simp only [State.afterRing, update_self]
    · exact Or.inl ⟨update_of_ne ht .., hquiet hp rfl hallows⟩
  | @commit p c pc spurious hp =>
    obtain ⟨hseq, hend⟩ := commitMove_end
      (commitStep_move single spurious hp (R := True) (fun _ => trivial))
    refine Or.inl ⟨congrFun hseq t, ?_⟩
    have hnone : s.waking = .none := of_decide_eq_true hallows
    rintro (⟨c', pc', hp', htopic⟩ | hload | hwake)
    · have hp'' : s.ring.pub () = .commit c pc := hp
      rw [hp''] at hp'
      cases hp'
      rcases hend with hidle | ⟨pc', hcommit⟩
      · -- the call goes on to the smart wake
        refine Or.inr (Or.inl ?_)
        rw [← htopic]
        simp only [State.afterRing, State.wakingAfter, hp'', update_self, hidle]
      · refine Or.inl ⟨c, pc', ?_, htopic⟩
        simp only [State.afterRing, update_self, hcommit]
    · rw [hnone] at hload
      cases hload
    · rw [hnone] at hwake
      cases hwake
  | pinned t₁ => cases hallows
  | @subscribe q t₁ hs => exact Or.inl ⟨rfl, announces_of_pub (.subscribe q t₁) rfl t⟩
  | @recv q m spurious hm =>
    obtain ⟨rc, hrc⟩ := streamStep_shm spurious s.ring.shm m
    refine Or.inl ⟨?_, announces_of_pub (.recv q spurious) rfl t⟩
    simp only [hrc]
  | @dropSample k t₁ q b len hk =>
    exact Or.inl ⟨rfl, announces_of_pub (.dropSample k) rfl t⟩
  | @freedSample k b hk => exact Or.inl ⟨rfl, announces_of_pub (.freedSample k) rfl t⟩

omit [Fintype S] [DecidableEq S] in
/-- The end of a try parks nobody and changes no share. -/
theorem afterTry_spec (x : Sleep cfg) (o : Option (Stream cfg)) :
    (∀ t, (x.afterTry o).waits t = x.waits t) ∧
      ∀ w, x.afterTry o = .parked w → x = .parked w := by
  unfold Sleep.afterTry
  split
  · split
    · split
      · exact ⟨fun _ => rfl, nofun⟩
      · exact ⟨fun _ => rfl, nofun⟩
    · exact ⟨fun _ => rfl, nofun⟩
  · exact ⟨fun _ => rfl, fun _ h => h⟩

omit [Fintype S] in
/-- A step of the ring parks nobody and changes no share. -/
theorem sleepAfter_spec (ring : Ring.State cfg Unit S) (a : Ring.Act cfg Unit S) (q : S) :
    (∀ t, (s.sleepAfter ring a q).waits t = (s.sleep q).waits t) ∧
      ∀ w, s.sleepAfter ring a q = .parked w → s.sleep q = .parked w := by
  unfold State.sleepAfter
  split
  · rename_i r _
    by_cases hqr : q = r
    · subst hqr
      rw [update_self]
      exact afterTry_spec _ _
    · rw [update_of_ne hqr]
      exact ⟨fun _ => rfl, fun _ h => h⟩
  · exact ⟨fun _ => rfl, fun _ h => h⟩

omit [Fintype S] in
/-- Only its own `try_recv` steps move a stream on its way to sleep. -/
theorem sleepAfter_of_ne (ring : Ring.State cfg Unit S) {a : Ring.Act cfg Unit S} {q : S}
    (ha : ∀ spurious, a ≠ .recv q spurious) : s.sleepAfter ring a q = s.sleep q := by
  unfold State.sleepAfter
  split
  · rename_i r spurious
    refine update_of_ne ?_ ..
    rintro rfl
    exact ha spurious rfl
  · rfl

/-- What is true of a stream after a step of the ring. -/
theorem ring_streams {ring : Ring.State cfg Unit S} {a : Ring.Act cfg Unit S} (h : Inv s)
    (hok : Ring.Ok single s.ring a) (hheed : heedsOpen s a) (hallows : s.allows a = true)
    (hst : Ring.Step single s.ring a ring) (q : S) :
    SleepInv ring.shm (ring.str q) (s.sleepAfter ring a q) := by
  have hF := forward_step h.ring hok hst
  have hq := h.streams q
  rcases str_of_step hst q with ⟨hsame, hother⟩ | ⟨t, rfl, hnew⟩ | ⟨spurious, m, rfl, hm, hnew⟩
  · rw [hsame, sleepAfter_of_ne ring hother]
    exact hq.forward hF h.ring.seq_lt h.ring.closed_le
  · -- a stream that is only now made is in no try and does not sleep
    have hnone : s.ring.str q = none := by
      cases hst with
      | subscribe t hs => exact hs
    rw [hnone] at hq
    change SleepInv ring.shm (ring.str q) (s.sleep q)
    cases hsleep : s.sleep q with
    | awake | leave w => trivial
    | trying w | register w | loop w | wait w | parked w =>
      rw [hsleep] at hq
      obtain ⟨m, hm, -⟩ := hq
      cases hm
  · have hafter : s.sleepAfter ring (.recv q spurious) q = (s.sleep q).afterTry (ring.str q) :=
      update_self ..
    rw [hafter, hnew]
    have htries : (s.sleep q).tries = true := hallows
    cases hsleep : s.sleep q with
    | awake => trivial
    | trying w =>
      rw [hsleep, hm] at hq
      obtain ⟨m₁, hm₁, htry⟩ := hq
      cases hm₁
      have hmove := streamStep_move h.ring hm
        (fun pos hpos => htry.topic ▸ htry.failed pos hpos) spurious
      refine (tryInv_move htry hmove (fun sc hsc hle => ?_)).forward hF h.ring.seq_lt
        h.ring.closed_le
      refine hheed (w, sc.pos) ?_ hle
      simp only [State.looks, hsleep, hm, hsc, Option.map_some, Option.mem_def]
    | register w | loop w | wait w | parked w | leave w =>
      rw [hsleep] at htries
      cases htries

/-- **Step.** Every admissible step keeps the invariant. -/
theorem inv_step {a : Act cfg S} (h : Inv s) (hok : Ok s a) (hstep : step single s a = some s') :
    Inv s' := by
  cases a with
  | ring a =>
    obtain ⟨hclaim, hbump, hheed⟩ := hok
    simp only [step] at hstep
    split at hstep
    · rename_i hallows
      rw [Option.map_eq_some_iff] at hstep
      obtain ⟨ring, hring, rfl⟩ := hstep
      have hst := Ring.step_inv hring
      have hok : Ring.Ok single s.ring a := ring_ok h.ring hclaim hbump
      refine ⟨Ring.inv_step h.ring hok hst, ring_streams h hok hheed hallows hst, fun t => ?_,
        h.waiters_lt, fun r w hr => ?_⟩
      · change s.waiters t = _
        rw [h.waiters t]
        unfold tally
        exact Finset.sum_congr rfl (fun q _ => ((sleepAfter_spec ring a q).1 t).symm)
      · have hold := h.parked r w ((sleepAfter_spec ring a r).2 w hr)
        rcases ring_announces hallows hst w.topic with ⟨hseq, hann⟩ | hnew
        · refine hold.imp (fun heq => ?_) hann
          exact hseq.trans heq
        · exact Or.inr hnew
    · cases hstep
  | load r => exact inv_load h hstep
  | go r expired => exact inv_go h hok hstep
  | timeout r => exact inv_timeout h hstep
  | notify => exact inv_notify h hstep

/-- **No lost wakeup** under the condition `Ok`: while a stream is parked and the publisher is
    outside every publish call, no message newer than its `last_seq` can be read. -/
theorem no_lost_wakeup (single : Unit → Bool) {as : List (Act cfg S)}
    (hrun : Run (step single) Ok (init cfg S) as s) (r : S) (w : Wait cfg)
    (hparked : s.sleep r = .parked w) (hquiet : (s.ring.pub ()).quiet = true)
    (hwaking : s.waking = .none) :
    ∃ m, s.ring.str r = some m ∧ ¬ Readable s.ring m := by
  have h : Inv s := hrun.invariant inv_init (fun _ _ _ h hok hstep => inv_step h hok hstep)
  have hr := h.streams r
  rw [hparked] at hr
  obtain ⟨m, hm, htried⟩ := hr
  refine ⟨m, hm, ?_⟩
  rintro ⟨q, hlast, hle, hwindow, hentry⟩
  -- no number has been claimed since the load
  have hsince := (h.parked r w hparked).resolve_right (not_announces hquiet hwaking w.topic)
  rw [htried.topic] at hle hwindow hentry
  have hlt := h.ring.seq_lt w.topic
  -- an entry with number `q` would be a claim that the try has spent
  have hlog := h.ring.entries (w.topic, cfg.slotOf q)
  rw [EntryInv, hentry] at hlog
  obtain ⟨-, -, hclaim⟩ := hlog (by omega) (by omega)
  rcases htried.spent q hlast (by omega) (by rw [hclaim]; rfl) with ⟨-, hne⟩ | hout
  · exact hne hentry
  · omega

end

/-! ### A publish that is missed -/

/-- A message is published and received; then the stream loads the futex word, tries in vain,
    registers and parks. -/
def sleepSteps : List (Act oneSlot Unit) :=
  [.ring (.subscribe () oneSlot.topic0), .ring (.loan () oneSlot.topic0 0)] ++
  List.replicate 9 (.ring (.commit () false)) ++ .notify ::
  List.replicate 7 (.ring (.recv () false)) ++
  [.load (), .ring (.recv () false), .go () false, .go () false, .go () false]

theorem no_lost_wakeup_asleep :
    ∃ s w m, Run (step fun _ => false) Ok (init oneSlot Unit) sleepSteps s ∧
      s.sleep () = .parked w ∧ s.ring.str () = some m ∧ ¬ Readable s.ring m := by
  obtain ⟨s, hrun, hparked, hquiet, hwaking⟩ := exists_run_of_exec (step fun _ => false) Ok
    (s := init oneSlot Unit) (l := sleepSteps) (p := fun s =>
      s.sleep () = .parked ⟨oneSlot.topic0, 1⟩ ∧ (s.ring.pub ()).quiet = true ∧
      s.waking = .none) (by decide +kernel)
  obtain ⟨m, hm, hread⟩ :=
    no_lost_wakeup (fun _ => false) hrun () _ hparked hquiet hwaking
  exact ⟨s, _, m, hrun, hparked, hm, hread⟩

/-- The publisher claims number 1; the stream loads the futex word and tries in vain; the
    publisher closes the entry, sees no waiter and returns; the stream registers and parks. -/
def missedSteps : List (Act oneSlot Unit) :=
  [Act.ring (.subscribe () oneSlot.topic0), Act.ring (.loan () oneSlot.topic0 0),
    Act.ring (.commit () false), Act.load (), Act.ring (.recv () false),
    Act.ring (.recv () false)] ++
  List.replicate 8 (Act.ring (.commit () false)) ++
  [Act.notify, Act.go () false, Act.go () false, Act.go () false]

/-- **A publish is missed.** The stream is parked, the publisher has returned from its only
    publish, and `try_recv` called now returns the message. -/
theorem publish_is_missed_in_sleep :
    ∃ s w m st, Run (step fun _ => false) (fun _ _ => True) (init oneSlot Unit) missedSteps s ∧
      s.sleep () = .parked w ∧ (s.ring.pub ()).quiet = true ∧ s.waking = .none ∧
      s.ring.str () = some m ∧ Readable s.ring m ∧
      Run (Ring.step fun _ => false) (Ring.Ok fun _ => false) s.ring
        (List.replicate 7 (.recv () false)) st ∧
      st.samples = [.live oneSlot.topic0 1 0 0] := by
  obtain ⟨s, hrun, hparked, hquiet, hwaking, ⟨m, hm, hlast, hseq, hentry⟩, hrest⟩ :=
    exists_run_of_exec (step fun _ => false) (fun _ _ => True) (s := init oneSlot Unit)
      (l := missedSteps) (p := fun s => s.sleep () = .parked ⟨oneSlot.topic0, 1⟩ ∧
        (s.ring.pub ()).quiet = true ∧ s.waking = .none ∧
        (∃ m ∈ s.ring.str (), m.lastSeq < 1 ∧ s.ring.shm.writeSeq m.topic = 1 ∧
          (s.ring.shm.entry (m.topic, oneSlot.slotOf 1)).seq = 1) ∧
        (exec (Ring.step fun _ => false) (Ring.Ok fun _ => false) s.ring
          (List.replicate 7 (.recv () false))).any fun st : Ring.State oneSlot Unit Unit =>
            decide (st.samples = [.live oneSlot.topic0 1 0 0])) (by decide +kernel)
  obtain ⟨st, hrecv, hsamples⟩ := exists_run_of_exec _ _ hrest
  refine ⟨s, _, m, st, hrun, hparked, hquiet, hwaking, hm, ?_, hrecv, hsamples⟩
  refine ⟨1, hlast, hseq.ge, ?_, hentry⟩
  rw [hseq]
  decide

end Crossbar.Notify
