import Crossbar.Lib.Deadline

namespace Crossbar.Recv

open Crossbar.Lib

/-!
# Recv — the blocking receive

`Stream::blocking_recv` of `src/platform/subscription.rs`, with the part of `wait_until_not` of
`src/platform/notify.rs` that it uses: the loop behind `recv`, `recv_typed`, `recv_pinned` and their
`_with` variants.  It makes one operation after the other; what an operation finds is given by its
number, so that publishers, clocks and the system may do anything meanwhile.

* `Env` — what the polls, the futex word, the clocks and the heartbeat show;
* `step` — the next operation of the loop;
* `recv_outcome` — it returns the first value that a poll finds, and an error only from a check of
  the heartbeat that fails;
* `spin_waits_forever` — the strategies that only spin stop checking the heartbeat when their
  counter saturates: a publisher that dies later is never reported.

The hints of `WaitStrategy::wait` only take time.
-/

/-! ### The loop -/

/-- `WaitStrategy`. -/
inductive WaitStrategy where
  | busySpin
  | yieldSpin
  | backoffSpin
  | adaptive (spinIters yieldIters : Nat)
  deriving DecidableEq

/-- `u32::MAX`. -/
def maxU32 : Nat := 2 ^ 32 - 1

/-- `u32::saturating_add`. -/
def saturatingAdd (a b : Nat) : Nat := min (a + b) maxU32

/-- The guard of the branch with the OS sleep. -/
def WaitStrategy.sleeps : WaitStrategy → Nat → Bool
  | .adaptive spinIters yieldIters, iter => saturatingAdd spinIters yieldIters ≤ iter
  | _, _ => false

/-- The errors of `check_heartbeat`. -/
inductive Error where
  | publisherDead
  | clockError
  deriving DecidableEq

/-- `Region::check_heartbeat` once the heartbeat is loaded: the timeout is in nanoseconds, the clock
    in microseconds, and `none` when it is behind the epoch. -/
def checkHeartbeat (staleTimeout beat : Nat) : Option Nat → Except Error Unit
  | none => .error .clockError
  | some now =>
    if staleTimeout / 1000 % 2 ^ 64 < now - beat then .error .publisherDead else .ok ()

/-- `poll_ms` as a duration in nanoseconds. -/
def pollNanos (staleTimeout : Nat) : Nat :=
  max 1 (min 50 (staleTimeout / 1000000 % 2 ^ 64 / 3)) * 1000000

/-- What operation `n` finds, for each thing that it may look at. -/
structure Env (T : Type*) where
  /-- the result of `try_fn` -/
  poll : ℕ → Option T
  /-- the low half of `write_seq` -/
  word : ℕ → Nat
  /-- `Instant::now`, in nanoseconds -/
  instant : ℕ → Nat
  beat : ℕ → Nat
  /-- `now_micros` -/
  clock : ℕ → Option Nat

/-- The next operation, with the locals of `blocking_recv` and of `wait_until_not`. -/
inductive Pc (T : Type*) where
  /-- `try_fn` on the fast path -/
  | first
  /-- `try_fn` at the head of the loop -/
  | top (iter : Nat)
  /-- `strategy.wait` -/
  | hint (iter : Nat)
  /-- the futex word is loaded -/
  | load (iter : Nat)
  /-- `try_fn` after the load -/
  | again (iter cur : Nat)
  /-- `waiters.fetch_add`, and the deadline of `wait_until_not` -/
  | enter (iter cur : Nat)
  /-- the loop of `wait_until_not` loads the word -/
  | word (iter cur deadline : Nat)
  /-- it compares the time with the deadline -/
  | time (iter cur deadline : Nat)
  /-- `futex_wait` -/
  | park (iter cur deadline : Nat)
  /-- `waiters.fetch_sub` -/
  | leave (iter : Nat) (expired : Bool)
  /-- `check_heartbeat` loads the heartbeat -/
  | check (iter : Nat)
  /-- and compares it with the clock -/
  | clock (iter beat : Nat)
  | done (result : Except Error T)

/-- The operation calls `try_fn`. -/
def Pc.polls {T : Type*} : Pc T → Bool
  | .first | .top _ | .again .. => true
  | _ => false

section

variable {T : Type*} (strategy : WaitStrategy) (staleTimeout : Nat) (env : Env T)

/-- `try_fn`: its value is returned, and without one the loop goes on as `next`. -/
def polled (n : ℕ) (next : Pc T) : Pc T :=
  match env.poll n with
  | some g => .done (.ok g)
  | none => next

/-- Operation `n`. -/
def step (n : ℕ) : Pc T → Pc T
  | .first => polled env n (.top 0)
  | .top iter => polled env n (if strategy.sleeps iter then .load iter else .hint iter)
  | .hint iter =>
    if saturatingAdd iter 1 % 1024 = 0 then .check (saturatingAdd iter 1)
    else .top (saturatingAdd iter 1)
  | .load iter => .again iter (env.word n)
  | .again iter cur => polled env n (.enter iter cur)
  | .enter iter cur => .word iter cur (env.instant n + pollNanos staleTimeout)
  | .word iter cur deadline =>
    if env.word n ≠ cur then .leave iter false else .time iter cur deadline
  | .time iter cur deadline =>
    if deadline ≤ env.instant n then .leave iter true else .park iter cur deadline
  -- `futex_wait` may return at any time
  | .park iter cur deadline => .word iter cur deadline
  | .leave iter expired => if expired then .check iter else .top iter
  | .check iter => .clock iter (env.beat n)
  | .clock iter beat =>
    match checkHeartbeat staleTimeout beat (env.clock n) with
    | .ok () => .top iter
    | .error e => .done (.error e)
  | .done result => .done result

/-- `blocking_recv` before operation `n`. -/
def blockingRecv : ℕ → Pc T := driven (step strategy staleTimeout env) .first

end

variable {T : Type*} {strategy : WaitStrategy} {staleTimeout : Nat} {env : Env T} {n : ℕ}

theorem blockingRecv_succ (n : ℕ) : blockingRecv strategy staleTimeout env (n + 1) =
    step strategy staleTimeout env n (blockingRecv strategy staleTimeout env n) := rfl

theorem polled_of_none {next : Pc T} (h : env.poll n = none) : polled env n next = next := by
  rw [polled, h]

theorem polled_of_some {next : Pc T} {g : T} (h : env.poll n = some g) :
    polled env n next = .done (.ok g) := by
  rw [polled, h]

/-! ### What it returns -/

/-- The value `g` is what the poll at step `k` has found. -/
structure Found (x : ℕ → Pc T) (env : Env T) (k : ℕ) (g : T) : Prop where
  polls : (x k).polls = true
  value : env.poll k = some g

/-- The error `e` is the one of the check at steps `k` and `k + 1`. -/
structure Failed (x : ℕ → Pc T) (staleTimeout : Nat) (env : Env T) (k : ℕ) (e : Error) : Prop where
  check : ∃ iter, x k = .check iter
  error : checkHeartbeat staleTimeout (env.beat k) (env.clock (k + 1)) = .error e

/-- No poll before step `n` has found anything. -/
def Silent (x : ℕ → Pc T) (env : Env T) (n : ℕ) : Prop :=
  ∀ j < n, (x j).polls = true → env.poll j = none

theorem Silent.succ {x : ℕ → Pc T} (h : Silent x env n)
    (hn : (x n).polls = true → env.poll n = none) : Silent x env (n + 1) := by
  intro j hj hpolls
  rcases Nat.lt_succ_iff_lt_or_eq.mp hj with hlt | rfl
  · exact h j hlt hpolls
  · exact hn hpolls

/-- How the loop has come to where it is before step `n`. -/
def Explained (x : ℕ → Pc T) (staleTimeout : Nat) (env : Env T) (n : ℕ) : Pc T → Prop
  | .done (.ok g) => ∃ k < n, Found x env k g ∧ Silent x env k
  | .done (.error e) => (∃ k, k + 1 < n ∧ Failed x staleTimeout env k e) ∧ Silent x env n
  | .clock iter beat =>
    (∃ k, n = k + 1 ∧ x k = .check iter ∧ beat = env.beat k) ∧ Silent x env n
  | _ => Silent x env n

/-- A poll explains what comes after it. -/
theorem explained_polled {x : ℕ → Pc T} {next : Pc T} (h : Silent x env n)
    (hpolls : (x n).polls = true)
    (hnext : Silent x env (n + 1) → Explained x staleTimeout env (n + 1) next) :
    Explained x staleTimeout env (n + 1) (polled env n next) := by
  cases hpoll : env.poll n with
  | some g =>
    rw [polled_of_some hpoll]
    exact ⟨n, Nat.lt_succ_self n, ⟨hpolls, hpoll⟩, h⟩
  | none =>
    rw [polled_of_none hpoll]
    exact hnext (h.succ fun _ => hpoll)

variable (strategy staleTimeout env) in
theorem explained (n : ℕ) : Explained (blockingRecv strategy staleTimeout env) staleTimeout env n
    (blockingRecv strategy staleTimeout env n) := by
  induction n with
  | zero => exact fun j hj => absurd hj (Nat.not_lt_zero j)
  | succ n ih =>
    rw [blockingRecv_succ]
    -- where the loop is, and that nothing was found before, unless it is done
    generalize hx : blockingRecv strategy staleTimeout env n = pc at ih
    have hquiet : Silent (blockingRecv strategy staleTimeout env) env n → pc.polls = false →
        Silent (blockingRecv strategy staleTimeout env) env (n + 1) := by
      intro h hpolls
      refine h.succ fun hpolls' => ?_
      rw [hx, hpolls] at hpolls'
      cases hpolls'
    cases pc with
    | first => exact explained_polled ih (by rw [hx]; rfl) fun h => h
    | top iter =>
      refine explained_polled ih (by rw [hx]; rfl) fun h => ?_
      split
      · exact h
      · exact h
    | again iter cur => exact explained_polled ih (by rw [hx]; rfl) fun h => h
    | hint iter =>
      have h := hquiet ih rfl
      rw [step]
      split
      · exact h
      · exact h
    | load | enter | park => exact hquiet ih rfl
    | word iter cur deadline =>
      have h := hquiet ih rfl
      rw [step]
      split
      · exact h
      · exact h
    | time iter cur deadline =>
      have h := hquiet ih rfl
      rw [step]
      split
      · exact h
      · exact h
    | leave iter expired =>
      have h := hquiet ih rfl
      rw [step]
      split
      · exact h
      · exact h
    | check iter => exact ⟨⟨n, rfl, hx, rfl⟩, hquiet ih rfl⟩
    | clock iter beat =>
      obtain ⟨⟨k, rfl, hcheck, rfl⟩, hsilent⟩ := ih
      have h := hquiet hsilent rfl
      rw [step]
      split
      · exact h
      · rename_i e herror
        exact ⟨⟨k, Nat.lt_succ_self _, ⟨iter, hcheck⟩, herror⟩, h⟩
    | done result =>
      cases result with
      | ok g =>
        obtain ⟨k, hk, hfound⟩ := ih
        exact ⟨k, Nat.lt_succ_of_lt hk, hfound⟩
      | error e =>
        obtain ⟨⟨k, hk, hfailed⟩, hsilent⟩ := ih
        exact ⟨⟨k, Nat.lt_succ_of_lt hk, hfailed⟩, hquiet hsilent rfl⟩

/-- **What `blocking_recv` returns.** For every strategy and whatever happens meanwhile: a value
    that it returns is what a poll has found, and no poll before it had found anything; an error is
    the one of a check of the heartbeat that was made on the way, and no poll at all had found
    anything.  So no value is taken and dropped. -/
theorem recv_outcome (strategy : WaitStrategy) (staleTimeout : Nat) (env : Env T) (n : ℕ) :
    (∀ g, blockingRecv strategy staleTimeout env n = .done (.ok g) →
      ∃ k < n, Found (blockingRecv strategy staleTimeout env) env k g ∧
        Silent (blockingRecv strategy staleTimeout env) env k) ∧
    ∀ e, blockingRecv strategy staleTimeout env n = .done (.error e) →
      (∃ k, k + 1 < n ∧ Failed (blockingRecv strategy staleTimeout env) staleTimeout env k e) ∧
        Silent (blockingRecv strategy staleTimeout env) env n := by
  have h := explained strategy staleTimeout env n
  refine ⟨fun g hg => ?_, fun e he => ?_⟩
  · rw [hg] at h
    exact h
  · rw [he] at h
    exact h

/-! ### Spinning -/

/-- A strategy without the OS phase. -/
def WaitStrategy.Spins (strategy : WaitStrategy) : Prop := ∀ iter, strategy.sleeps iter = false

/-- While nothing arrives and every check passes, a loop that only spins is before step `n` at an
    iteration that is at most a fourth of `n` behind, until the counter is full; the heartbeat is
    not checked when it is full. -/
def Spinning (env : Env T) (n : ℕ) : Pc T → Prop
  | .first => n = 0
  | .top iter => iter ≤ maxU32 ∧ (iter = maxU32 ∨ n ≤ 4 * iter + 1)
  | .hint iter => iter ≤ maxU32 ∧ (iter = maxU32 ∨ n ≤ 4 * iter + 2)
  | .check iter => iter < maxU32 ∧ n + 1 ≤ 4 * iter
  | .clock iter beat => iter < maxU32 ∧ n ≤ 4 * iter ∧ ∃ k, n = k + 1 ∧ beat = env.beat k
  | _ => False

/-- The counter goes up, and a full one is no multiple of 1024. -/
theorem saturatingAdd_one {iter : Nat} (h : iter ≤ maxU32) :
    (iter < maxU32 ∧ saturatingAdd iter 1 = iter + 1) ∨
      (iter = maxU32 ∧ saturatingAdd iter 1 = maxU32) := by
  unfold saturatingAdd
  omega

/-- **Step** of a loop that only spins. -/
theorem Spinning.step {pc : Pc T} (hspin : strategy.Spins) (hsilent : env.poll n = none)
    (hfresh : ∀ k, k + 1 < 2 ^ 34 →
      checkHeartbeat staleTimeout (env.beat k) (env.clock (k + 1)) = .ok ())
    (h : Spinning env n pc) : Spinning env (n + 1) (step strategy staleTimeout env n pc) := by
  have hmax : maxU32 = 4294967295 := rfl
  cases pc with
  | first =>
    rw [Recv.step, polled_of_none hsilent]
    obtain rfl : n = 0 := h
    exact ⟨Nat.zero_le _, Or.inr le_rfl⟩
  | top iter =>
    rw [Recv.step, polled_of_none hsilent, hspin iter]
    obtain ⟨hle, hn⟩ := h
    exact ⟨hle, hn.imp id (by omega)⟩
  | hint iter =>
    obtain ⟨hle, hn⟩ := h
    rw [Recv.step]
    rcases saturatingAdd_one hle with ⟨hlt, hadd⟩ | ⟨rfl, hadd⟩
    · rw [hadd]
      split
      · rename_i hmod
        -- a multiple of 1024 is not the largest counter
        exact ⟨by omega, by omega⟩
      · exact ⟨by omega, Or.inr (by omega)⟩
    · rw [hadd, if_neg (by decide)]
      exact ⟨le_rfl, Or.inl rfl⟩
  | check iter =>
    obtain ⟨hlt, hn⟩ := h
    exact ⟨hlt, hn, n, rfl, rfl⟩
  | clock iter beat =>
    obtain ⟨hlt, hn, k, rfl, rfl⟩ := h
    rw [Recv.step, hfresh k (by omega)]
    exact ⟨hlt.le, Or.inr (by omega)⟩
  | load | again | enter | word | time | park | leave | done => exact h.elim

/-- **Spinning forever.** Let the strategy be one that only spins, let nothing arrive, and let the
    checks of the heartbeat pass during the first `2 ^ 34` operations.  Then `blocking_recv` never
    returns, whatever happens to the publisher after that: the counter of the iterations has
    saturated at `u32::MAX`, which is no multiple of 1024. -/
theorem spin_waits_forever (hspin : strategy.Spins) (hsilent : ∀ n, env.poll n = none)
    (hfresh : ∀ k, k + 1 < 2 ^ 34 →
      checkHeartbeat staleTimeout (env.beat k) (env.clock (k + 1)) = .ok ()) (n : ℕ)
    (result : Except Error T) : blockingRecv strategy staleTimeout env n ≠ .done result := by
  have h : Spinning env n (blockingRecv strategy staleTimeout env n) := by
    induction n with
    | zero => rfl
    | succ n ih => exact ih.step hspin (hsilent n) hfresh
  intro hdone
  rw [hdone] at h
  exact h

/-- Nothing arrives, and the only heartbeat is that of the start; the clock stands still during the
    first `2 ^ 34` operations. -/
def dying : Env Unit where
  poll _ := none
  word _ := 0
  instant n := n
  beat _ := 0
  clock n := some (if n < 2 ^ 34 then 0 else n)

/-- With five seconds, every check from then on would fail, and none is made. -/
theorem spin_waits_forever_dying :
    (∀ n, 2 ^ 34 ≤ n →
      checkHeartbeat 5000000000 (dying.beat n) (dying.clock (n + 1)) = .error .publisherDead) ∧
    ∀ n result, blockingRecv .busySpin 5000000000 dying n ≠ .done result := by
  refine ⟨fun n hn => ?_, spin_waits_forever (fun _ => rfl) (fun _ => rfl) fun k hk => ?_⟩
  · show checkHeartbeat _ 0 (some (if n + 1 < 2 ^ 34 then 0 else n + 1)) = _
    rw [if_neg (by omega), checkHeartbeat, if_pos (by omega)]
  · show checkHeartbeat _ 0 (some (if k + 1 < 2 ^ 34 then 0 else k + 1)) = _
    rw [if_pos hk]
    rfl

end Crossbar.Recv
