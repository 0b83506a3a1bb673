import Crossbar.Region.Delivery
import Crossbar.Region.Structured
import Crossbar.Lib.Fifo

namespace Crossbar.Channel

open Function Crossbar.Lib Crossbar.Region

/-!
# Channel — two endpoints over two regions

`src/platform/channel.rs`.  The server makes the region `{name}-srv` and reads `{name}-cli`, the
client does the reverse; each endpoint sends on the topic `/ch` of its own region and has one
`Stream` on the other one's.

* `Phase` — how far `listen` or `connect` has come: the region, the topic, the polling of
  `wait_for_peer`, the finished `Channel`;
* `Write`, `Read` — the calls of a `Channel`, each one call of `Region.step` on one of the two
  regions;
* `step` — one step of one endpoint, in any order between the two.  A call on a region is one step:
  no two calls overlap.

`events d` is a history variable: what went through the region of side `d`, as its users see it.
A `Sample` borrows the channel and a `Loan` borrows it mutably, so an endpoint sends only when it
has no sample, and receives only when it has no loan.  Two sides are alike, so everything is
indexed by the side.

`left d` is a region that an earlier endpoint has left at the path of side `d` when it was killed.
While its heartbeat is fresh `wait_for_peer` takes it for the peer's (`Phase.misled`): the endpoint
then receives what was sent to an earlier one, and nothing of what its peer sends.
-/

/-- The two endpoints; also the two regions, named by the endpoint that made them. -/
inductive Side where
  | server
  | client
  deriving DecidableEq

/-- The other endpoint. -/
def Side.peer : Side → Side
  | .server => .client
  | .client => .server

/-- The bytes of `/ch`. -/
def chUri : List UInt8 := [47, 99, 104]

/-- What an endpoint is doing. -/
inductive Phase where
  /-- `listen` or `connect` has not been called -/
  | absent
  /-- `Publisher::create` has returned -/
  | created
  /-- in the loop of `wait_for_peer` -/
  | waiting
  /-- the `Channel` exists -/
  | connected
  /-- the `Channel` exists, and receives from a region that an earlier endpoint has left; these are
      the messages in it that it has not received -/
  | misled (rest : List (List UInt8))
  /-- the call has failed, or the `Channel` was dropped -/
  | closed
  deriving DecidableEq

/-- The endpoint has its `Channel`. -/
def Phase.open : Phase → Bool
  | .connected | .misled _ => true
  | .absent | .created | .waiting | .closed => false

/-- The two endpoints and their regions.  `topic` is `tx_topic`; `left` are the messages of a region
    that was left at the path and has a fresh heartbeat. -/
structure State (cfg : Side → ValidConfig) where
  phase : Side → Phase
  left : Side → Option (List (List UInt8))
  topic : (d : Side) → Option (Handle (cfg d))
  region : (d : Side) → World (cfg d)
  events : Side → List (Event (List UInt8))

variable {cfg : Side → ValidConfig}

/-- Before either call; the regions are those that `create` will make, with these ids. -/
def init (cfg : Side → ValidConfig) (id : Side → Nat)
    (left : Side → Option (List (List UInt8))) : State cfg where
  phase := fun _ => .absent
  left := left
  topic := fun _ => none
  region := fun d => create (cfg d) (id d)
  events := fun _ => []

/-! ### The calls of a `Channel` -/

/-- A call on the endpoint's own region: `send`, `loan` and the calls of the loan. -/
inductive Write where
  | send (data : List UInt8)
  | loan
  | edit (e : Edit)
  | publishLoan
  | dropLoan

/-- A call on the region of the peer: `try_recv`, and dropping what it returned. -/
inductive Read where
  | tryRecv
  | dropSample (j : Nat)

section

variable {c : ValidConfig}

/-- The call on the region.  The endpoint has its first and only publisher. -/
def Write.act (h : Handle c) : Write → Region.Act c
  | .send data => .publish 0 h data
  | .loan => .loan 0 h
  | .edit e => .edit 0 e
  | .publishLoan => .publishLoan 0
  | .dropLoan => .dropLoan 0

/-- A message has been sent when `send` returns `Ok`, and when a loan is published. -/
def Write.events (h : Handle c) (w : World c) : Write → List (Event (List UInt8))
  | .send data =>
    match w.pubs[0]? with
    | some (some p) =>
      match (p.publish w.shm h data).2.2 with
      | .ok _ => [.sent data]
      | .error _ => []
    | _ => []
  | .publishLoan =>
    match w.pubs[0]? with
    | some (some p) =>
      match p.borrow with
      | some l => [.sent (w.shm.bytes ⟨l.blockIdx, l.len⟩)]
      | none => []
    | _ => []
  | _ => []

/-- The call on the region.  The endpoint has the only stream. -/
def Read.act : Read → Region.Act c
  | .tryRecv => .tryRecv 0
  | .dropSample j => .dropSample j

/-- What `try_recv` returns. -/
def Read.events (w : World c) : Read → List (Event (List UInt8))
  | .tryRecv =>
    match w.streams[0]? with
    | some s =>
      match s.tryRecv w.shm with
      | some (shm, _, sample) => [.received (shm.bytes sample)]
      | none => [.nothing]
    | none => []
  | .dropSample _ => []

/-- No sample of the region is alive. -/
def noSample (w : World c) : Bool := w.samples.all Option.isNone

/-- No loan of the region is alive. -/
def noLoan (w : World c) : Bool := w.pubs.all fun o => o.all fun p => p.borrow.isNone

/-- What `register("/ch")` returns to the publisher of a new region. -/
def registered (w : World c) : Option (Handle c) :=
  match w.pubs[0]? with
  | some (some p) => (w.shm.register p.id chUri).2.toOption
  | _ => none

end

/-! ### The steps -/

inductive Act where
  /-- `Publisher::create` of `listen` and `connect` -/
  | create (e : Side)
  /-- `register("/ch")` -/
  | register (e : Side)
  /-- one round of the loop of `wait_for_peer`; `found` says whether `Subscriber::connect`
      succeeded -/
  | attempt (e : Side) (found : Bool)
  /-- the deadline of `wait_for_peer` -/
  | giveUp (e : Side)
  | write (e : Side) (c : Write)
  | read (e : Side) (c : Read)
  /-- `Drop` of the `Channel` -/
  | close (e : Side)

namespace State

variable (s : State cfg)

/-- An endpoint goes on. -/
def goto (e : Side) (ph : Phase) : State cfg := { s with phase := update s.phase e ph }

/-- A call on one of the regions. -/
def call (d : Side) (a : Region.Act (cfg d)) (es : List (Event (List UInt8))) :
    Option (State cfg) :=
  (Region.step (s.region d) a).map fun w =>
    { s with
      region := update s.region d w
      events := update s.events d (s.events d ++ es) }

/-- The publisher is dropped with the endpoint. -/
def shut (e : Side) : Option (State cfg) :=
  (s.call e (.dropPublisher 0) []).map fun s => s.goto e .closed

/-- A reading call on a region that was left. -/
def readLeft (e : Side) : List (List UInt8) → Read → State cfg
  | m :: rest, .tryRecv =>
    { s.goto e (.misled rest) with
      events := update s.events e.peer (s.events e.peer ++ [.received m]) }
  | [], .tryRecv =>
    { s with events := update s.events e.peer (s.events e.peer ++ [.nothing]) }
  | _, .dropSample _ => s

end State

/-- One step of one endpoint. -/
def step (s : State cfg) : Act → Option (State cfg)
  | .create e =>
    -- `create` removes a region that was left
    if s.phase e = .absent then
      some { s.goto e .created with left := update s.left e none }
    else none
  | .register e =>
    if s.phase e = .created then
      match registered (s.region e) with
      | some h =>
        (s.call e (.register 0 chUri) []).map fun s =>
          { s.goto e .waiting with topic := update s.topic e (some h) }
      | none => s.shut e
    else none
  | .attempt e found =>
    if s.phase e = .waiting then
      match s.left e.peer with
      | some ms => if found = true then some (s.goto e (.misled ms)) else some s
      | none =>
        -- a region that nobody has created is not found
        if found = true ∧ s.phase e.peer ≠ .absent then
          match (s.region e.peer).shm.waitForPeer chUri with
          | .ok _ => (s.call e.peer (.waitForPeer chUri) []).map fun s => s.goto e .connected
          | .error _ => some s
        else some s
    else none
  | .giveUp e => if s.phase e = .waiting then s.shut e else none
  | .write e c =>
    if (s.phase e).open = true ∧ noSample (s.region e.peer) = true then
      match s.topic e with
      | some h => s.call e (c.act h) (c.events h (s.region e))
      | none => none
    else none
  | .read e c =>
    if noLoan (s.region e) = true then
      match s.phase e with
      | .connected => s.call e.peer c.act (c.events (s.region e.peer))
      | .misled rest => some (s.readLeft e rest c)
      | _ => none
    else none
  | .close e =>
    if (s.phase e).open = true ∧ noSample (s.region e.peer) = true then s.shut e else none

/-- No counter of a region overflows. -/
def InRange (s : State cfg) : Act → Prop
  | .write e c =>
    match s.topic e with
    | some h => Fits (s.region e) (c.act h)
    | none => True
  | .read e c => Fits (s.region e.peer) c.act
  | _ => True

/-- No message is sent on a region while `ring_depth` messages of it have not been received. -/
def Paced (s : State cfg) : Act → Prop
  | .write e c =>
    match s.topic e with
    | some h => c.events h (s.region e) ≠ [] →
        (Event.sends (s.events e)).length <
          (Event.receives (s.events e)).length + (cfg e).ringDepth
    | none => True
  | _ => True

instance (s : State cfg) (a : Act) : Decidable (InRange s a) :=
  match a with
  | .write e c =>
    match h : s.topic e with
    | some hd => decidable_of_iff (Fits (s.region e) (c.act hd)) (by simp only [InRange, h])
    | none => .isTrue (by simp only [InRange, h])
  | .read e c => inferInstanceAs (Decidable (Fits (s.region e.peer) c.act))
  | .create _ | .register _ | .attempt _ _ | .giveUp _ | .close _ => .isTrue trivial

end Crossbar.Channel
