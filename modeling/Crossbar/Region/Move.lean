import Crossbar.Region.Ledger
import Crossbar.Region.Calls

namespace Crossbar.Region

open Function Crossbar.Lib Crossbar.Pool

/-!
# Region — the moves of the world

`Move w a w'` lists what the basic calls can do, one constructor for each effect, with what
the call has checked.  `step_move` is the only place where the calls are unfolded for this;
an invariant is then proved by cases on the move.

`publish` and `publish_typed` are made of basic calls, and `step_rule` lifts what every basic
call keeps to them.
-/

variable {cfg : ValidConfig}

/-- The acts other than `publish` and `publish_typed`, which are made of them. -/
def Act.basic : Act cfg → Bool
  | .publish .. => false
  | .publishTyped .. => false
  | _ => true

/-- The free list after an allocation. -/
def Shm.withPool (shm : Shm cfg) (pool : FreeList) : Shm cfg := { shm with pool := pool }

/-- The publisher after an allocation. -/
def Publisher.withStock (p : Publisher cfg) (lastFreed : Nat) (cache : List Nat) : Publisher cfg :=
  { p with lastFreed := lastFreed, cache := cache }

/-- The topic entry that `register_inner` writes. -/
def TopicEntry.claimed (e : TopicEntry) (uri : List UInt8) (typeSize : Nat) : TopicEntry :=
  { e with
    active := true, uriHash := Region.uriHash uri, uri := uri, typeSize := typeSize,
    writeSeq := 0 }

/-- One effect of a basic call. -/
inductive Move (w : World cfg) : Act cfg → World cfg → Prop
  /-- the call has failed, or found nothing to do -/
  | stay (a : Act cfg) : Move w a w
  | «open» (id : Nat) : Move w (.open id) { w with pubs := w.pubs ++ [some (.fresh cfg id)] }
  | claim {a : Act cfg} {t : cfg.Topic} {uri : List UInt8} {typeSize : Nat}
      (hlen : uri.length ≤ teUriMax) (hnew : w.shm.findTopic uri = none)
      (hfree : w.shm.freeTopic = some t) :
      Move w a { w with shm := w.shm.setTopic t ((w.shm.topic t).claimed uri typeSize) }
  /-- an allocation that ends in `PoolExhausted` -/
  | exhaust {a : Act cfg} {k : Nat} {p : Publisher cfg} (pool : FreeList) (lastFreed : Nat)
      (cache : List Nat) (hp : w.pubs[k]? = some (some p)) (hborrow : p.borrow = none) :
      Move w a (w.withPub k (w.shm.withPool pool) (p.withStock lastFreed cache))
  | loan {a : Act cfg} {k : Nat} {p : Publisher cfg} {l : Loan cfg} (pool : FreeList)
      (lastFreed : Nat) (cache : List Nat) (hp : w.pubs[k]? = some (some p))
      (hborrow : p.borrow = none) (hkind : l.kind ≠ .pinned) (hlen : l.len ≤ cfg.dataCapacity)
      (hactive : (w.shm.topic l.topic).active = true) (hblock : l.blockIdx < cfg.blockCount) :
      Move w a (w.withPub k (w.shm.withPool pool)
        { p.withStock lastFreed cache with borrow := some l })
  /-- a new pinned block, with readers there -/
  | pinRefused {k : Nat} {h : Handle cfg} {p : Publisher cfg} (pool : FreeList) (lastFreed : Nat)
      (cache : List Nat) (b : Nat) (hp : w.pubs[k]? = some (some p)) (hborrow : p.borrow = none)
      (hb : b < cfg.blockCount) (hactive : (w.shm.topic h.topicIdx).active = true)
      (hnew : p.pinnedBlocks h.topicIdx = noBlock)
      (hreaders : (w.shm.topic h.topicIdx).pinnedReaders ≠ 0) :
      Move w (.loanPinned k h) (w.withPub k
        ((w.shm.withPool pool).setTopic h.topicIdx
          { w.shm.topic h.topicIdx with pinnedBlock := b })
        { p.withStock lastFreed cache with
          pinnedBlocks := update p.pinnedBlocks h.topicIdx b })
  /-- a new pinned block, and a loan of it -/
  | pinNew {k : Nat} {h : Handle cfg} {p : Publisher cfg} (pool : FreeList) (lastFreed : Nat)
      (cache : List Nat) (b : Nat) (hp : w.pubs[k]? = some (some p)) (hborrow : p.borrow = none)
      (hb : b < cfg.blockCount) (hactive : (w.shm.topic h.topicIdx).active = true)
      (hnew : p.pinnedBlocks h.topicIdx = noBlock)
      (hreaders : (w.shm.topic h.topicIdx).pinnedReaders = 0) :
      Move w (.loanPinned k h) (w.withPub k
        ((w.shm.withPool pool).setTopic h.topicIdx
          { w.shm.topic h.topicIdx with pinnedBlock := b, pinnedReaders := pinnedWriterActive })
        { p.withStock lastFreed cache with
          pinnedBlocks := update p.pinnedBlocks h.topicIdx b
          borrow := some ⟨.pinned, h.topicIdx, b, 0⟩ })
  /-- a loan of the block this publisher has pinned before -/
  | pinAgain {k : Nat} {h : Handle cfg} {p : Publisher cfg} (hp : w.pubs[k]? = some (some p))
      (hborrow : p.borrow = none) (hactive : (w.shm.topic h.topicIdx).active = true)
      (hold : p.pinnedBlocks h.topicIdx ≠ noBlock)
      (hreaders : (w.shm.topic h.topicIdx).pinnedReaders = 0) :
      Move w (.loanPinned k h) (w.withPub k (w.shm.setReaders h.topicIdx pinnedWriterActive)
        { p with borrow := some ⟨.pinned, h.topicIdx, p.pinnedBlocks h.topicIdx, 0⟩ })
  | edit {k : Nat} {e : Edit} {p : Publisher cfg} {l l' : Loan cfg} {shm : Shm cfg}
      (hp : w.pubs[k]? = some (some p)) (hborrow : p.borrow = some l)
      (hedit : l.edit w.shm e = some (shm, l')) :
      Move w (.edit k e) (w.withPub k shm { p with borrow := some l' })
  | publish {k : Nat} {p : Publisher cfg} {l : Loan cfg} (hp : w.pubs[k]? = some (some p))
      (hborrow : p.borrow = some l) (hkind : l.kind ≠ .pinned) :
      Move w (.publishLoan k) (w.withPub k
        (commitToRing w.shm { p with borrow := none } l.blockIdx l.len l.topic).1
        (commitToRing w.shm { p with borrow := none } l.blockIdx l.len l.topic).2)
  | publishPinned {k : Nat} {p : Publisher cfg} {l : Loan cfg} (hp : w.pubs[k]? = some (some p))
      (hborrow : p.borrow = some l) (hkind : l.kind = .pinned) :
      Move w (.publishLoan k) (w.withPub k (l.publishPinned w.shm) { p with borrow := none })
  | drop {k : Nat} {p : Publisher cfg} {l : Loan cfg} (hp : w.pubs[k]? = some (some p))
      (hborrow : p.borrow = some l) (hkind : l.kind ≠ .pinned) :
      Move w (.dropLoan k) (w.withPub k (w.shm.free l.blockIdx) { p with borrow := none })
  | dropPinned {k : Nat} {p : Publisher cfg} {l : Loan cfg} (hp : w.pubs[k]? = some (some p))
      (hborrow : p.borrow = some l) (hkind : l.kind = .pinned) :
      Move w (.dropLoan k) (w.withPub k (w.shm.setReaders l.topic 0) { p with borrow := none })
  | dropPublisher {k : Nat} {p : Publisher cfg} (hp : w.pubs[k]? = some (some p))
      (hborrow : p.borrow = none) :
      Move w (.dropPublisher k) { w with shm := p.drop w.shm, pubs := w.pubs.set k none }
  | stream {a : Act cfg} {uri : List UInt8} {t : cfg.Topic} (lastSeq : Nat)
      (hfind : w.shm.findTopic uri = some t) :
      Move w a { w with
        streams := w.streams ++ [⟨t, lastSeq, (w.shm.topic t).typeSize, []⟩] }
  | receive {a : Act cfg} {i : Nat} {s : Stream cfg} {q : Nat} (len : Nat)
      (hs : w.streams[i]? = some s) (hnext : s.Next w.shm q) :
      Move w a { w with
        shm := w.shm.addRef (w.shm.blockAt s.topic q)
        streams := w.streams.set i (s.advance q)
        samples := w.samples ++ [some ⟨w.shm.blockAt s.topic q, len⟩] }
  | dropSample {j : Nat} {s : Sample} (hs : w.samples[j]? = some (some s)) :
      Move w (.dropSample j)
        { w with shm := w.shm.release s.blockIdx, samples := w.samples.set j none }
  | receivePinned {i : Nat} {s s' : Stream cfg} {shm : Shm cfg} {g : PinnedGuard cfg}
      (hs : w.streams[i]? = some s) (hrecv : s.tryRecvPinned w.shm = some (shm, s', g)) :
      Move w (.tryRecvPinned i)
        { w with shm := shm, streams := w.streams.set i s', guards := w.guards ++ [some g] }
  | dropGuard {j : Nat} {g : PinnedGuard cfg} (hg : w.guards[j]? = some (some g)) :
      Move w (.dropGuard j)
        { w with
          shm := w.shm.setReaders g.topic (dec32 (w.shm.topic g.topic).pinnedReaders)
          guards := w.guards.set j none }

variable {w w' : World cfg} {k limit : Nat}

/-- Storing a publisher as it was changes nothing. -/
theorem withPub_self {p : Publisher cfg} (hp : w.pubs[k]? = some (some p)) :
    w.withPub k w.shm p = w := by
  obtain ⟨hlt, heq⟩ := List.getElem?_eq_some_iff.mp hp
  have hset : w.pubs.set k (some p) = w.pubs := by
    rw [← heq]
    exact List.set_getElem_self hlt
  unfold World.withPub
  rw [hset]

/-- `register` and `register_typed` claim an entry or change nothing. -/
theorem move_register (a : Act cfg) {p : Publisher cfg} (hp : w.pubs[k]? = some (some p))
    (uri : List UInt8) (typeSize : Nat) :
    Move w a (w.withPub k (w.shm.registerInner p.id uri typeSize).1 p) := by
  have hstay : Move w a (w.withPub k w.shm p) := by
    rw [withPub_self hp]
    exact .stay a
  unfold Shm.registerInner
  split
  · exact hstay
  · rename_i hlen
    split
    · exact hstay
    · rename_i hnew
      split
      · rename_i t hfree
        have hset : w.withPub k (w.shm.setTopic t ((w.shm.topic t).claimed uri typeSize)) p =
            { w with shm := w.shm.setTopic t ((w.shm.topic t).claimed uri typeSize) } := by
          rw [← withPub_self hp]
          simp only [World.withPub, List.set_set]
        show Move w a (w.withPub k (w.shm.setTopic t ((w.shm.topic t).claimed uri typeSize)) p)
        rw [hset]
        exact .claim (by omega) hnew hfree
      · exact hstay

/-- `loan` and `loan_typed`. -/
theorem move_loan (a : Act cfg) {p : Publisher cfg} (hI : w.Counts limit)
    (hp : w.pubs[k]? = some (some p)) (hborrow : p.borrow = none) {kind : LoanKind}
    (hkind : kind ≠ .pinned) {len : Nat} (hlen : len ≤ cfg.dataCapacity) {h : Handle cfg}
    (hactive : (w.shm.topic h.topicIdx).active = true) :
    Move w a { w with
      shm := (keepLoan (p.loanWith kind len w.shm h)).1
      pubs := w.pubs.set k (keepLoan (p.loanWith kind len w.shm h)).2 } := by
  unfold Publisher.loanWith
  split
  · exact .exhaust w.shm.pool p.lastFreed p.cache hp hborrow
  · obtain ⟨pool, lastFreed, cache, r, hobtain, rfl | ⟨b, hb, rfl⟩⟩ := obtainBlock_inv hI hp
    · simp only [hobtain, keepLoan]
      exact .exhaust pool lastFreed cache hp hborrow
    · simp only [hobtain, keepLoan]
      exact .loan (l := ⟨kind, h.topicIdx, b, len⟩) pool lastFreed cache hp hborrow hkind hlen
        hactive hb

/-- `loan_pinned`. -/
theorem move_loanPinned {p : Publisher cfg} (hI : w.Counts limit) (hp : w.pubs[k]? = some (some p))
    (hborrow : p.borrow = none) {h : Handle cfg}
    (hactive : (w.shm.topic h.topicIdx).active = true) :
    Move w (.loanPinned k h) { w with
      shm := (keepLoan (p.loanPinned w.shm h)).1
      pubs := w.pubs.set k (keepLoan (p.loanPinned w.shm h)).2 } := by
  have hstay : Move w (.loanPinned k h) (w.withPub k w.shm p) := by
    rw [withPub_self hp]
    exact .stay _
  unfold Publisher.loanPinned
  split
  · exact hstay
  · by_cases hnew : p.pinnedBlocks h.topicIdx = noBlock
    · obtain ⟨pool, lastFreed, cache, r, hobtain, rfl | ⟨b, hb, rfl⟩⟩ := obtainBlock_inv hI hp
      · have hpin : p.pinnedBlock w.shm h.topicIdx =
            (w.shm.withPool pool, p.withStock lastFreed cache, .error .poolExhausted) := by
          rw [Publisher.pinnedBlock, if_neg (not_not.mpr hnew), hobtain]
          rfl
        simp only [hpin]
        exact .exhaust pool lastFreed cache hp hborrow
      · have hpin : p.pinnedBlock w.shm h.topicIdx =
            ((w.shm.withPool pool).setTopic h.topicIdx
              { w.shm.topic h.topicIdx with pinnedBlock := b },
            { p.withStock lastFreed cache with
              pinnedBlocks := update p.pinnedBlocks h.topicIdx b }, .ok b) := by
          rw [Publisher.pinnedBlock, if_neg (not_not.mpr hnew), hobtain]
          rfl
        simp only [hpin, Shm.setTopic, update_self, update_idem]
        split
        · rename_i hreaders
          exact .pinNew (p := p) pool lastFreed cache b hp hborrow hb hactive hnew hreaders
        · rename_i hreaders
          exact .pinRefused (p := p) pool lastFreed cache b hp hborrow hb hactive hnew hreaders
    · have hpin : p.pinnedBlock w.shm h.topicIdx = (w.shm, p, .ok (p.pinnedBlocks h.topicIdx)) := by
        rw [Publisher.pinnedBlock, if_pos hnew]
      simp only [hpin]
      split
      · rename_i hreaders
        exact .pinAgain hp hborrow hactive hnew hreaders
      · exact hstay

theorem move_addStream (a : Act cfg) (uri : List UInt8) :
    Move w a (w.addStream (w.shm.subscribe uri)) ∧
      Move w a (w.addStream (w.shm.waitForPeer uri)) := by
  cases hfind : w.shm.findTopic uri with
  | none =>
    simp only [Shm.waitForPeer, Shm.subscribe, hfind]
    exact ⟨.stay a, .stay a⟩
  | some t =>
    simp only [Shm.waitForPeer, Shm.subscribe, hfind]
    exact ⟨.stream _ hfind, .stream _ hfind⟩

/-- **Inversion.** A basic call is one move. -/
theorem step_move {a : Act cfg} (hI : w.Counts limit) (ha : a.basic = true)
    (hstep : step w a = some w') : Move w a w' := by
  cases a with
  | «open» id =>
    cases hstep
    exact .open id
  | register k uri =>
    obtain ⟨p, hp, _, rfl⟩ := onPublisher_inv hstep
    exact move_register _ hp uri 0
  | registerTyped k uri size align =>
    obtain ⟨p, hp, _, rfl⟩ := onPublisher_inv hstep
    unfold Shm.registerTyped
    split
    · show Move w _ (w.withPub k w.shm p)
      rw [withPub_self hp]
      exact .stay _
    · exact move_register _ hp uri _
  | loan k h =>
    obtain ⟨hactive, hstep⟩ := withHandle_inv hstep
    obtain ⟨p, hp, hborrow, rfl⟩ := onPublisher_inv hstep
    exact move_loan _ hI hp hborrow (by decide) (Nat.zero_le _) hactive
  | loanTyped k h size =>
    obtain ⟨hsize, hstep⟩ := Option.ite_none_right_eq_some.mp hstep
    obtain ⟨hactive, hstep⟩ := withHandle_inv hstep
    obtain ⟨p, hp, hborrow, rfl⟩ := onPublisher_inv hstep
    exact move_loan _ hI hp hborrow (by decide) hsize hactive
  | loanPinned k h =>
    obtain ⟨hactive, hstep⟩ := withHandle_inv hstep
    obtain ⟨p, hp, hborrow, rfl⟩ := onPublisher_inv hstep
    exact move_loanPinned hI hp hborrow hactive
  | edit k e =>
    rw [step] at hstep
    obtain ⟨p, l, shm, p', hp, hborrow, hf, rfl⟩ := onLoan_inv hstep
    obtain ⟨⟨shm₁, l'⟩, hedit, heq⟩ := Option.map_eq_some_iff.mp hf
    cases heq
    exact .edit (p := p) hp hborrow hedit
  | publishLoan k =>
    rw [step] at hstep
    obtain ⟨p, l, shm, p', hp, hborrow, hf, rfl⟩ := onLoan_inv hstep
    by_cases hkind : l.kind = .pinned
    · simp only [Loan.publish, hkind, Option.some.injEq] at hf
      cases hf
      exact .publishPinned hp hborrow hkind
    · rw [Loan.publish_ring hkind, Option.some.injEq] at hf
      have hmove := Move.publish hp hborrow hkind
      rw [hf] at hmove
      exact hmove
  | dropLoan k =>
    rw [step] at hstep
    obtain ⟨p, l, shm, p', hp, hborrow, hf, rfl⟩ := onLoan_inv hstep
    cases hf
    by_cases hkind : l.kind = .pinned
    · have hmove := Move.dropPinned hp hborrow hkind
      simp only [Loan.drop, hkind]
      exact hmove
    · rw [Loan.drop_ring hkind]
      exact .drop hp hborrow hkind
  | publish | publishTyped => cases ha
  | dropPublisher k =>
    obtain ⟨p, hp, hborrow, rfl⟩ := onPublisher_inv hstep
    exact .dropPublisher hp hborrow
  | subscribe uri =>
    cases hstep
    exact (move_addStream _ uri).1
  | waitForPeer uri =>
    cases hstep
    exact (move_addStream _ uri).2
  | tryRecv i =>
    obtain ⟨s, hs, ⟨_, rfl⟩ | ⟨shm, s', sample, hsome, rfl⟩⟩ := receive_inv hstep
    · exact .stay _
    · obtain ⟨q, hnext, rfl, rfl, rfl⟩ := Stream.tryRecv_inv hsome
      exact .receive _ hs hnext
  | tryRecvTyped i size =>
    obtain ⟨s, hs, ⟨_, rfl⟩ | ⟨shm, s', sample, hsome, rfl⟩⟩ := receive_inv hstep
    · exact .stay _
    · obtain ⟨_, q, hnext, rfl, rfl, rfl⟩ := Stream.tryRecvTyped_inv hsome
      exact .receive _ hs hnext
  | dropSample j =>
    obtain ⟨s, hs, rfl⟩ := dropSample_inv hstep
    exact .dropSample hs
  | tryRecvPinned i =>
    obtain ⟨s, hs, rfl | ⟨shm, s', g, hrecv, rfl⟩⟩ := receivePinned_inv hstep
    · exact .stay _
    · exact .receivePinned hs hrecv
  | dropGuard j =>
    obtain ⟨g, hg, rfl⟩ := dropGuard_inv hstep
    exact .dropGuard hg

/-! ### From basic calls to all calls -/

/-- A condition on calls that passes from `publish` and `publish_typed` to their parts. -/
structure Expands (ok : World cfg → Act cfg → Prop) : Prop where
  loan : ∀ w k h data, ok w (.publish k h data) → ok w (.loan k h)
  loanTyped : ∀ w k h size value, ok w (.publishTyped k h size value) → ok w (.loanTyped k h size)
  edit : ∀ w k e, ok w (.edit k e)
  publish : ∀ w w₂ k h data, ok w (.publish k h data) → HasLoan w w₂ k .untyped h.topicIdx →
    ok w₂ (.publishLoan k)
  publishTyped : ∀ w w₂ k h size value, ok w (.publishTyped k h size value) →
    HasLoan w w₂ k .typed h.topicIdx → ok w₂ (.publishLoan k)
  drop : ∀ w w₂ k t, HasLoan w w₂ k .untyped t → ok w₂ (.dropLoan k)

section

variable {ok ok' : World cfg → Act cfg → Prop}

/-- A condition that asks nothing of the parts. -/
theorem Expands.of_parts (hloan : ∀ w k h, ok w (.loan k h))
    (htyped : ∀ w k h size, ok w (.loanTyped k h size)) (hedit : ∀ w k e, ok w (.edit k e))
    (hpublish : ∀ w k, ok w (.publishLoan k)) (hdrop : ∀ w k, ok w (.dropLoan k)) :
    Expands ok where
  loan w k h _ _ := hloan w k h
  loanTyped w k h size _ _ := htyped w k h size
  edit := hedit
  publish _ w₂ k _ _ _ _ := hpublish w₂ k
  publishTyped _ w₂ k _ _ _ _ _ := hpublish w₂ k
  drop _ w₂ k _ _ := hdrop w₂ k

/-- Two conditions at once. -/
theorem Expands.and (h : Expands ok) (h' : Expands ok') :
    Expands (fun w a => ok w a ∧ ok' w a) where
  loan w k hd data hok := ⟨h.loan w k hd data hok.1, h'.loan w k hd data hok.2⟩
  loanTyped w k hd size value hok :=
    ⟨h.loanTyped w k hd size value hok.1, h'.loanTyped w k hd size value hok.2⟩
  edit w k e := ⟨h.edit w k e, h'.edit w k e⟩
  publish w w₂ k hd data hok hthere :=
    ⟨h.publish w w₂ k hd data hok.1 hthere, h'.publish w w₂ k hd data hok.2 hthere⟩
  publishTyped w w₂ k hd size value hok hthere :=
    ⟨h.publishTyped w w₂ k hd size value hok.1 hthere,
      h'.publishTyped w w₂ k hd size value hok.2 hthere⟩
  drop w w₂ k t hthere := ⟨h.drop w w₂ k t hthere, h'.drop w w₂ k t hthere⟩

end

/-- No condition. -/
theorem always_expands : Expands (fun (_ : World cfg) (_ : Act cfg) => True) :=
  .of_parts (fun _ _ _ => trivial) (fun _ _ _ _ => trivial) (fun _ _ _ => trivial)
    (fun _ _ => trivial) (fun _ _ => trivial)

/-- **Rule for whole calls.** What every basic call keeps, every call keeps. -/
theorem step_rule {ok : World cfg → Act cfg → Prop} {I : World cfg → Prop} (hexp : Expands ok)
    (hbasic : ∀ {w a w'}, a.basic = true → I w → ok w a → step w a = some w' → I w')
    {a : Act cfg} (hI : I w) (hok : ok w a) (hstep : step w a = some w') : I w' := by
  by_cases ha : a.basic = true
  · exact hbasic ha hI hok hstep
  · cases a with
    | publish k h data =>
      have hloanOk := hexp.loan w k h data hok
      rcases publish_expand hstep with hloan | ⟨w₁, w₂, hloan, hedit, hthere, hend⟩
      · exact hbasic rfl hI hloanOk hloan
      · have hI₂ := hbasic rfl (hbasic rfl hI hloanOk hloan) (hexp.edit _ _ _) hedit
        rcases hend with hpub | hdrop
        · exact hbasic rfl hI₂ (hexp.publish w w₂ k h data hok hthere) hpub
        · exact hbasic rfl hI₂ (hexp.drop w w₂ k h.topicIdx hthere) hdrop
    | publishTyped k h size value =>
      have hloanOk := hexp.loanTyped w k h size value hok
      rcases publishTyped_expand hstep with hloan | ⟨w₁, w₂, hloan, hedit, hthere, hpub⟩
      · exact hbasic rfl hI hloanOk hloan
      · have hI₂ := hbasic rfl (hbasic rfl hI hloanOk hloan) (hexp.edit _ _ _) hedit
        exact hbasic rfl hI₂ (hexp.publishTyped w w₂ k h size value hok hthere) hpub
    | _ => exact absurd rfl ha

end Crossbar.Region
