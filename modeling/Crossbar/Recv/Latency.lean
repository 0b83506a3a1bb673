import Crossbar.Recv.Blocking

namespace Crossbar.Recv

open Crossbar.Lib

/-!
# Recv — how long the blocking receive takes

Time bounds for `blocking_recv`, when every operation takes at most `lag` nanoseconds and
`futex_wait` at most its timeout more.  No wake is assumed: `futex_wait` may sleep through one.

* `Timely` — what is assumed of the time;
* `leaves_by` — `wait_until_not` returns at its deadline, or one chunk later;
* `polls_by` — wherever the loop is, it polls again within `poll_ms` and one chunk;
* `message_received_in_time` — so a message that is there is received within that time, with every
  strategy, also when its wakeup was lost, unless a check of the heartbeat fails before;
* `dead_publisher_reported` — with `Adaptive`, a publisher that has stopped is reported within that
  time after its heartbeat has become stale.
-/

variable {T : Type*} {strategy : WaitStrategy} {staleTimeout lag : Nat} {env : Env T} {n : ℕ}

/-- `chunk` of `wait_until_not`, in nanoseconds. -/
def chunkNanos (staleTimeout : Nat) : Nat := min (pollNanos staleTimeout) 10000000

/-- How long the operation may sleep. -/
def Pc.sleepNanos (staleTimeout : Nat) : Pc T → Nat
  | .park .. => chunkNanos staleTimeout
  | _ => 0

/-- Every operation takes some time, at most `lag` and what it sleeps. -/
structure Timely (strategy : WaitStrategy) (staleTimeout lag : Nat) (env : Env T) : Prop where
  forward : ∀ n, env.instant n < env.instant (n + 1)
  bounded : ∀ n, env.instant (n + 1) ≤
    env.instant n + lag + (blockingRecv strategy staleTimeout env n).sleepNanos staleTimeout

/-- Time does not run backwards. -/
theorem Timely.mono (h : Timely strategy staleTimeout lag env) {m : ℕ} (hm : n ≤ m) :
    env.instant n ≤ env.instant m :=
  monotone_nat_of_le_succ (fun k => (h.forward k).le) hm

/-- An operation that does not sleep. -/
theorem Timely.awake (h : Timely strategy staleTimeout lag env) {pc : Pc T}
    (hx : blockingRecv strategy staleTimeout env n = pc)
    (hpc : pc.sleepNanos staleTimeout = 0) : env.instant (n + 1) ≤ env.instant n + lag := by
  have hle := h.bounded n
  rw [hx, hpc] at hle
  exact hle

/-- The loop goes from `pc` to the next operation. -/
theorem next_of {pc : Pc T} (hx : blockingRecv strategy staleTimeout env n = pc) :
    blockingRecv strategy staleTimeout env (n + 1) = step strategy staleTimeout env n pc := by
  rw [blockingRecv_succ, hx]

/-! ### `wait_until_not` -/

/-- **`wait_until_not` ends.** From the head of its loop it reaches `fetch_sub` at the deadline, or
    one chunk later; without a timeout only if the word was seen to change. -/
theorem leaves_by (h : Timely strategy staleTimeout lag env) {iter cur deadline : Nat}
    (hx : blockingRecv strategy staleTimeout env n = .word iter cur deadline) :
    ReachesBy env.instant n
      (max (env.instant n) (deadline + chunkNanos staleTimeout + 2 * lag) + 2 * lag)
      fun m => ∃ expired, blockingRecv strategy staleTimeout env m = .leave iter expired ∧
        (expired = true ∨ ∃ k, env.word k ≠ cur) := by
  refine ReachesBy.loop (L := fun m => blockingRecv strategy staleTimeout env m =
    .word iter cur deadline) (fun m _ hm => ?_) hx
  have hm₁ := next_of hm
  have ht₁ := h.awake hm rfl
  rw [step] at hm₁
  by_cases hword : env.word m ≠ cur
  · rw [if_pos hword] at hm₁
    exact Or.inl ⟨m + 1, by omega, ⟨false, hm₁, Or.inr ⟨m, hword⟩⟩, by omega⟩
  · rw [if_neg hword] at hm₁
    have hm₂ := next_of hm₁
    have ht₂ : env.instant (m + 2) ≤ env.instant (m + 1) + lag := h.awake hm₁ rfl
    rw [step] at hm₂
    by_cases hdeadline : deadline ≤ env.instant (m + 1)
    · rw [if_pos hdeadline] at hm₂
      exact Or.inl ⟨m + 2, by omega, ⟨true, hm₂, Or.inl rfl⟩, by omega⟩
    · -- it sleeps for a chunk at most, and looks again
      rw [if_neg hdeadline] at hm₂
      have ht₃ : env.instant (m + 3) ≤ env.instant (m + 2) + lag + chunkNanos staleTimeout := by
        have hle := h.bounded (m + 2)
        rwa [hm₂] at hle
      have hlater := h.mono (n := m + 1) (m := m + 3) (by omega)
      have hfirst := h.forward m
      exact Or.inr ⟨m + 3, by omega, next_of hm₂, by omega, by omega⟩

/-- A deadline is not more than `poll_ms` away. -/
def Pc.DueBy (t : Nat) : Pc T → Prop
  | .word _ _ deadline | .time _ _ deadline | .park _ _ deadline => deadline ≤ t
  | _ => True

/-- A poll sets no deadline. -/
theorem Pc.DueBy.polled {next : Pc T} {t : Nat} (h : next.DueBy t) :
    (Recv.polled env n next).DueBy t := by
  unfold Recv.polled
  split
  · trivial
  · exact h

/-- No deadline is further away than the poll interval. -/
theorem dueBy (h : Timely strategy staleTimeout lag env) (n : ℕ) :
    (blockingRecv strategy staleTimeout env n).DueBy (env.instant n + pollNanos staleTimeout) := by
  induction n with
  | zero => trivial
  | succ n ih =>
    have hlt := h.forward n
    rw [blockingRecv_succ]
    generalize blockingRecv strategy staleTimeout env n = pc at ih
    cases pc with
    | enter iter cur =>
      show env.instant n + pollNanos staleTimeout ≤ _
      omega
    | word iter cur deadline =>
      rw [step]
      split
      · trivial
      · exact le_trans ih (by omega)
    | time iter cur deadline =>
      rw [step]
      split
      · trivial
      · exact le_trans ih (by omega)
    | park iter cur deadline => exact le_trans ih (by omega)
    | first | again => exact Pc.DueBy.polled trivial
    | top iter =>
      apply Pc.DueBy.polled
      split
      · trivial
      · trivial
    | hint | leave | clock =>
      rw [step]
      split
      · trivial
      · trivial
    | load | check | done => trivial

/-! ### The next poll -/

/-- The loop polls at step `n`, or has returned. -/
def Polls (x : ℕ → Pc T) (n : ℕ) : Prop := (x n).polls = true ∨ ∃ result, x n = .done result

section

variable (h : Timely strategy staleTimeout lag env)
include h

/-- From the clock to the next poll: one step. -/
theorem polls_by_clock {iter beat : Nat}
    (hx : blockingRecv strategy staleTimeout env n = .clock iter beat) :
    ReachesBy env.instant n (env.instant n + lag)
      (Polls (blockingRecv strategy staleTimeout env)) := by
  have hx₁ := next_of hx
  refine .next (.here ?_ (h.awake hx rfl))
  rw [step] at hx₁
  split at hx₁
  · exact Or.inl (by rw [hx₁]; rfl)
  · exact Or.inr ⟨_, hx₁⟩

/-- From the heartbeat check: two steps. -/
theorem polls_by_check {iter : Nat} (hx : blockingRecv strategy staleTimeout env n = .check iter) :
    ReachesBy env.instant n (env.instant n + 2 * lag)
      (Polls (blockingRecv strategy staleTimeout env)) := by
  have ht := h.awake hx rfl
  exact .next ((polls_by_clock h (next_of hx)).mono (by omega))

/-- From a step that goes back to the check or to the head of the loop: three steps. -/
theorem polls_by_back {i j : Nat} (ht : env.instant (n + 1) ≤ env.instant n + lag)
    (hx : blockingRecv strategy staleTimeout env (n + 1) = .check i ∨
      blockingRecv strategy staleTimeout env (n + 1) = .top j) :
    ReachesBy env.instant n (env.instant n + 3 * lag)
      (Polls (blockingRecv strategy staleTimeout env)) := by
  rcases hx with hcheck | htop
  · exact .next ((polls_by_check h hcheck).mono (by omega))
  · exact .next (.here (Or.inl (by rw [htop]; rfl)) (by omega))

/-- From the end of a wait: three steps. -/
theorem polls_by_leave {iter : Nat} {expired : Bool}
    (hx : blockingRecv strategy staleTimeout env n = .leave iter expired) :
    ReachesBy env.instant n (env.instant n + 3 * lag)
      (Polls (blockingRecv strategy staleTimeout env)) := by
  apply polls_by_back h (h.awake hx rfl)
  rw [next_of hx, step]
  split
  · exact Or.inl rfl
  · exact Or.inr rfl

/-- From a spin: three steps. -/
theorem polls_by_hint {iter : Nat} (hx : blockingRecv strategy staleTimeout env n = .hint iter) :
    ReachesBy env.instant n (env.instant n + 3 * lag)
      (Polls (blockingRecv strategy staleTimeout env)) := by
  apply polls_by_back h (h.awake hx rfl)
  rw [next_of hx, step]
  split
  · exact Or.inl rfl
  · exact Or.inr rfl

/-- From the look at the futex word: until the deadline at most. -/
theorem polls_by_word {iter cur deadline : Nat}
    (hx : blockingRecv strategy staleTimeout env n = .word iter cur deadline) :
    ReachesBy env.instant n
      (max (env.instant n) (deadline + chunkNanos staleTimeout + 2 * lag) + 5 * lag)
      (Polls (blockingRecv strategy staleTimeout env)) := by
  refine (leaves_by h hx).trans ?_
  rintro m - ⟨expired, hm, -⟩ hle
  exact (polls_by_leave h hm).mono (by omega)

/-- From the park: until its deadline, and the way back. -/
theorem polls_by_park {iter cur deadline : Nat}
    (hx : blockingRecv strategy staleTimeout env n = .park iter cur deadline) :
    ReachesBy env.instant n
      (max (env.instant n) deadline + chunkNanos staleTimeout + 7 * lag)
      (Polls (blockingRecv strategy staleTimeout env)) := by
  have ht : env.instant (n + 1) ≤ env.instant n + lag + chunkNanos staleTimeout := by
    have hle := h.bounded n
    rwa [hx] at hle
  exact .next ((polls_by_word h (next_of hx)).mono (by omega))

/-- **The next poll.** Wherever the loop is, it polls again within `poll_ms` and one chunk. -/
theorem polls_by (n : ℕ) : ReachesBy env.instant n
    (env.instant n + pollNanos staleTimeout + chunkNanos staleTimeout + 8 * lag)
    (Polls (blockingRecv strategy staleTimeout env)) := by
  have hdue := dueBy h n
  cases hx : blockingRecv strategy staleTimeout env n with
  | first | top | again => exact .here (Or.inl (by rw [hx]; rfl)) (by omega)
  | done result => exact .here (Or.inr ⟨result, hx⟩) (by omega)
  | load iter =>
    have ht := h.awake hx rfl
    exact .next (.here (Or.inl (by rw [next_of hx]; rfl)) (by omega))
  | hint iter => exact (polls_by_hint h hx).mono (by omega)
  | leave iter expired => exact (polls_by_leave h hx).mono (by omega)
  | check iter => exact (polls_by_check h hx).mono (by omega)
  | clock iter beat => exact (polls_by_clock h hx).mono (by omega)
  | enter iter cur =>
    have ht := h.awake hx rfl
    exact .next ((polls_by_word h (next_of hx)).mono (by omega))
  | word iter cur deadline =>
    rw [hx] at hdue
    have hle : deadline ≤ env.instant n + pollNanos staleTimeout := hdue
    exact (polls_by_word h hx).mono (by omega)
  | time iter cur deadline =>
    rw [hx] at hdue
    have hle : deadline ≤ env.instant n + pollNanos staleTimeout := hdue
    have ht := h.awake hx rfl
    have hx₁ := next_of hx
    rw [step] at hx₁
    split at hx₁
    · exact .next ((polls_by_leave h hx₁).mono (by omega))
    · exact .next ((polls_by_park h hx₁).mono (by omega))
  | park iter cur deadline =>
    rw [hx] at hdue
    have hle : deadline ≤ env.instant n + pollNanos staleTimeout := hdue
    exact (polls_by_park h hx).mono (by omega)

/-- A poll that finds something ends the loop. -/
theorem returns_of_polls (hn : Polls (blockingRecv strategy staleTimeout env) n)
    (hpoll : env.poll n ≠ none) : ReachesBy env.instant n (env.instant n + lag)
      fun m => ∃ result, blockingRecv strategy staleTimeout env m = .done result := by
  obtain ⟨g, hg⟩ := Option.ne_none_iff_exists'.mp hpoll
  rcases hn with hpolls | hdone
  · cases hx : blockingRecv strategy staleTimeout env n with
    | first | top | again =>
      refine .next (.here ⟨.ok g, ?_⟩ (h.awake hx rfl))
      rw [next_of hx]
      exact polled_of_some hg
    | _ =>
      rw [hx] at hpolls
      cases hpolls
  · exact .here hdone (Nat.le_add_right ..)

end

/-- The loop has returned a value, which one of its polls has found. -/
def Receives (x : ℕ → Pc T) (env : Env T) (n : ℕ) : Prop :=
  ∃ g, x n = .done (.ok g) ∧ ∃ k < n, Found x env k g

/-- The loop has returned the error of one of its checks of the heartbeat. -/
def Fails (x : ℕ → Pc T) (staleTimeout : Nat) (env : Env T) (n : ℕ) : Prop :=
  ∃ e, x n = .done (.error e) ∧ ∃ k, k + 1 < n ∧ Failed x staleTimeout env k e

/-- **A message is received in time.** With every strategy, from every point of the loop: when there
    is something to receive from step `n` on, `blocking_recv` returns within `poll_ms` (at most 50
    milliseconds), one chunk of `futex_wait` (at most 10) and nine operations.  It returns a message
    that a poll has found, unless a check of the heartbeat has failed before.  The futex word may
    do what it likes, so this also bounds the cost of a lost wakeup. -/
theorem message_received_in_time (h : Timely strategy staleTimeout lag env)
    (hmessage : ∀ m, n ≤ m → env.poll m ≠ none) :
    ReachesBy env.instant n
      (env.instant n + pollNanos staleTimeout + chunkNanos staleTimeout + 9 * lag)
      fun m => Receives (blockingRecv strategy staleTimeout env) env m ∨
        Fails (blockingRecv strategy staleTimeout env) staleTimeout env m := by
  refine (polls_by h n).trans fun m hm hpolls hle => ?_
  obtain ⟨k, hk, ⟨result, hdone⟩, ht⟩ := returns_of_polls h hpolls (hmessage m hm)
  refine ⟨k, hk, ?_, by omega⟩
  -- the loop has a reason for what it returns
  have hexplained := explained strategy staleTimeout env k
  rw [hdone] at hexplained
  cases result with
  | ok g =>
    obtain ⟨j, hj, hfound, -⟩ := hexplained
    exact Or.inl ⟨g, hdone, j, hj, hfound⟩
  | error e => exact Or.inr ⟨e, hdone, hexplained.1⟩

/-! ### A publisher that has stopped -/

/-- Nothing is published any more, and `now_micros` goes with `Instant::now`. -/
structure Stopped (env : Env T) (beat epoch : Nat) : Prop where
  poll : ∀ n, env.poll n = none
  word : ∀ n, env.word n = env.word 0
  beat : ∀ n, env.beat n = beat
  clock : ∀ n, env.clock n = some ((epoch + env.instant n) / 1000)

/-- The first instant at which the heartbeat is stale. -/
def staleFrom (staleTimeout beat epoch : Nat) : Nat :=
  (beat + staleTimeout / 1000 % 2 ^ 64 + 1) * 1000 - epoch

/-- The loop has reported the publisher. -/
def Reports (x : ℕ → Pc T) (n : ℕ) : Prop := x n = .done (.error .publisherDead)

section

variable {beat epoch : Nat} (h : Timely strategy staleTimeout lag env)
  (hstopped : Stopped env beat epoch)
include h hstopped

omit h in
/-- The check reports the publisher, or it was made before the heartbeat was stale. -/
theorem reports_of_clock {iter : Nat}
    (hx : blockingRecv strategy staleTimeout env n = .clock iter beat) :
    Reports (blockingRecv strategy staleTimeout env) (n + 1) ∨
      (blockingRecv strategy staleTimeout env (n + 1) = .top iter ∧
        env.instant n < staleFrom staleTimeout beat epoch) := by
  have hx₁ := next_of hx
  rw [step, hstopped.clock n, checkHeartbeat] at hx₁
  by_cases hstale : staleTimeout / 1000 % 2 ^ 64 < (epoch + env.instant n) / 1000 - beat
  · rw [if_pos hstale] at hx₁
    exact Or.inl hx₁
  · rw [if_neg hstale] at hx₁
    refine Or.inr ⟨hx₁, ?_⟩
    unfold staleFrom
    omega

/-- A round of the OS phase, up to the comparison of the heartbeat with the clock. -/
theorem sleep_round {iter : Nat} (hsleeps : strategy.sleeps iter = true)
    (hx : blockingRecv strategy staleTimeout env n = .top iter) :
    ReachesBy env.instant n
      (env.instant n + pollNanos staleTimeout + chunkNanos staleTimeout + 9 * lag)
      fun m => blockingRecv strategy staleTimeout env m = .clock iter beat ∧ n < m := by
  have hx₁ := next_of hx
  rw [step, polled_of_none (hstopped.poll n), if_pos hsleeps] at hx₁
  have hx₂ := next_of hx₁
  rw [step] at hx₂
  have hx₃ := next_of hx₂
  rw [step, polled_of_none (hstopped.poll _)] at hx₃
  have hx₄ := next_of hx₃
  rw [step] at hx₄
  have ht₁ := h.awake hx rfl
  have ht₂ := h.awake hx₁ rfl
  have ht₃ := h.awake hx₂ rfl
  have ht₄ := h.awake hx₃ rfl
  refine .next (.next (.next (.next ((leaves_by h hx₄).trans ?_))))
  rintro m hm ⟨expired, hleave, hexpired⟩ hle
  -- the word has not changed, so it was the deadline
  have htrue : expired = true := by
    rcases hexpired with htrue | ⟨k, hk⟩
    · exact htrue
    · rw [hstopped.word k, hstopped.word (n + 1)] at hk
      exact absurd rfl hk
  subst htrue
  have hcheck : blockingRecv strategy staleTimeout env (m + 1) = .check iter := next_of hleave
  have hclock : blockingRecv strategy staleTimeout env (m + 2) = .clock iter beat := by
    have hnext := next_of hcheck
    rwa [step, hstopped.beat] at hnext
  have ht₅ := h.awake hleave rfl
  have ht₆ : env.instant (m + 2) ≤ env.instant (m + 1) + lag := h.awake hcheck rfl
  exact ⟨m + 2, by omega, ⟨hclock, by omega⟩, by omega⟩

/-- The OS phase reports the publisher. -/
theorem reports_by_sleep {iter : Nat} (hsleeps : strategy.sleeps iter = true)
    (hx : blockingRecv strategy staleTimeout env n = .top iter) :
    ReachesBy env.instant n
      (max (env.instant n) (staleFrom staleTimeout beat epoch + lag) +
        (pollNanos staleTimeout + chunkNanos staleTimeout + 10 * lag))
      (Reports (blockingRecv strategy staleTimeout env)) := by
  refine ReachesBy.loop (L := fun m => blockingRecv strategy staleTimeout env m = .top iter)
    (fun m _ hm => ?_) hx
  obtain ⟨k, hk, ⟨hclock, hlt⟩, hle⟩ := sleep_round h hstopped hsleeps hm
  have ht := h.awake hclock rfl
  rcases reports_of_clock hstopped hclock with hreports | ⟨htop, hearly⟩
  · exact Or.inl ⟨k + 1, by omega, hreports, by omega⟩
  · have hlater := h.mono hk
    have hnext := h.forward k
    exact Or.inr ⟨k + 1, by omega, htop, by omega, by omega⟩

/-- An iteration before the OS phase. -/
theorem spin_round {iter : Nat} (hsleeps : strategy.sleeps iter = false) (hiter : iter < maxU32)
    (hx : blockingRecv strategy staleTimeout env n = .top iter) :
    ReachesBy env.instant n (env.instant n + 4 * lag) fun m =>
      blockingRecv strategy staleTimeout env m = .top (iter + 1) ∨
        Reports (blockingRecv strategy staleTimeout env) m := by
  have hadd : saturatingAdd iter 1 = iter + 1 := by
    unfold saturatingAdd
    omega
  have hx₁ := next_of hx
  rw [step, polled_of_none (hstopped.poll n), if_neg (by rw [hsleeps]; decide)] at hx₁
  have hx₂ := next_of hx₁
  rw [step, hadd] at hx₂
  have ht₁ := h.awake hx rfl
  have ht₂ : env.instant (n + 2) ≤ env.instant (n + 1) + lag := h.awake hx₁ rfl
  by_cases hmod : (iter + 1) % 1024 = 0
  · rw [if_pos hmod] at hx₂
    have hx₃ : blockingRecv strategy staleTimeout env (n + 3) = .clock (iter + 1) beat := by
      have hnext := next_of hx₂
      rwa [step, hstopped.beat] at hnext
    have ht₃ : env.instant (n + 3) ≤ env.instant (n + 2) + lag := h.awake hx₂ rfl
    have ht₄ : env.instant (n + 4) ≤ env.instant (n + 3) + lag := h.awake hx₃ rfl
    refine ⟨n + 4, by omega, ?_, by omega⟩
    exact (reports_of_clock hstopped hx₃).symm.imp And.left id
  · rw [if_neg hmod] at hx₂
    exact ⟨n + 2, by omega, Or.inl hx₂, by omega⟩

/-- The iterations before the OS phase, `left` of them. -/
theorem reaches_sleep {iter last left : Nat} (hlast : iter + left = last) (hmax : last ≤ maxU32)
    (hsleeps : ∀ i < last, strategy.sleeps i = false)
    (hx : blockingRecv strategy staleTimeout env n = .top iter) :
    ReachesBy env.instant n (env.instant n + 4 * left * lag) fun m =>
      blockingRecv strategy staleTimeout env m = .top last ∨
        Reports (blockingRecv strategy staleTimeout env) m := by
  induction left generalizing iter n with
  | zero =>
    obtain rfl : iter = last := hlast
    exact .here (Or.inl hx) (by omega)
  | succ left ih =>
    refine (spin_round h hstopped (hsleeps iter (by omega)) (by omega) hx).trans ?_
    have hmul : 4 * (left + 1) * lag = 4 * left * lag + 4 * lag := by
      rw [Nat.mul_succ, Nat.add_mul]
    rintro m - (htop | hreports) hle
    · exact (ih (by omega) htop).mono (by omega)
    · exact .here (Or.inr hreports) (by omega)

end

/-- Every operation takes one nanosecond, and `futex_wait` returns at once; the clock starts at
    `epoch` and the futex word never changes. -/
def ticking (poll : ℕ → Option Unit) (epoch : Nat) : Env Unit where
  poll := poll
  word _ := 0
  instant n := n
  beat _ := 0
  clock n := some ((epoch + n) / 1000)

/-- A clock that ticks once a step is timely. -/
theorem ticking_timely (strategy : WaitStrategy) (staleTimeout : Nat) (poll : ℕ → Option Unit)
    (epoch : Nat) : Timely strategy staleTimeout 1 (ticking poll epoch) where
  forward n := Nat.lt_succ_self n
  bounded _ := Nat.le_add_right ..

/-- A message that comes with the thousandth operation, and no wake: it is received, since no check
    of the heartbeat can fail by then. -/
theorem message_received_in_time_ticking :
    ReachesBy (ticking (fun n => if 1000 ≤ n then some () else none) 0).instant 1000 60001009
      (Receives (blockingRecv (.adaptive 100 10) 5000000000
        (ticking (fun n => if 1000 ≤ n then some () else none) 0))
        (ticking (fun n => if 1000 ≤ n then some () else none) 0)) := by
  obtain ⟨m, hm, hreturns, hle⟩ := message_received_in_time (n := 1000)
    (ticking_timely (.adaptive 100 10) 5000000000 (fun n => if 1000 ≤ n then some () else none) 0)
    fun m hm => by
      show (if 1000 ≤ m then some () else none) ≠ none
      rw [if_pos hm]
      exact Option.some_ne_none _
  have hbound : m ≤ 60001009 := hle.trans (by decide)
  refine ⟨m, hm, hreturns.resolve_right ?_, hbound⟩
  rintro ⟨e, -, k, hk, -, herror⟩
  have hfresh : ¬5000000000 / 1000 % 2 ^ 64 < (0 + (k + 1)) / 1000 - 0 := by omega
  rw [show (ticking _ 0).clock (k + 1) = some ((0 + (k + 1)) / 1000) from rfl, checkHeartbeat,
    show (ticking _ 0).beat k = 0 from rfl, if_neg hfresh] at herror
  cases herror

end Crossbar.Recv
