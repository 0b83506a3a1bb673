import Crossbar.Region.Typed

namespace Crossbar.Region

open Crossbar.Lib Crossbar.Pool

/-!
# Region — what a typed sample shows

`try_recv_typed::<T>` compares the size of `T` with the type size of the topic and then takes the
next ring publish, whatever its length: the `data_len` that `try_read_slot_raw` has loaded is not
looked at.  A topic of `register` has type size 0, which lets every `T` pass, and a loan on a topic
of `register_typed` may be published with any length.

* `Shm.RingSized` — every ring entry holds a logged publish, of the least length of its topic;
* `typed_sample_initialised` — so a typed sample lies within the payload of the publish it was
  received from, when every publish keeps to a least length for its topic, and no type that is
  received there is larger;
* `typed_sample_uninitialised` — it does not, after a publish of one byte.
-/

variable {cfg : ValidConfig} {w w' : World cfg} {m : cfg.Topic → Nat}

/-! ### The condition -/

/-- The loan that borrows publisher `k`. -/
def World.loanOf (w : World cfg) (k : Nat) : Option (Loan cfg) :=
  w.pubs[k]?.join.bind (·.borrow)

/-- Ring publishes on `t` have at least `m t` bytes, `try_recv_typed` is called for types of at
    most that size (where the topic's type size lets them pass), and typed loans are of types that
    fit in a block. -/
def Sized (m : cfg.Topic → Nat) (w : World cfg) (a : Act cfg) : Prop :=
  match a with
  | .loanTyped _ _ size => size ≤ cfg.dataCapacity
  | .publishLoan k => ∀ l ∈ w.loanOf k, l.kind ≠ .pinned → m l.topic ≤ l.len
  | .publish _ h data => m h.topicIdx ≤ data.length
  | .publishTyped _ h size _ => m h.topicIdx ≤ size ∧ size ≤ cfg.dataCapacity
  | .tryRecvTyped i size =>
    ∀ s ∈ w.streams[i]?, s.typeSize = 0 ∨ s.typeSize = size → size ≤ m s.topic
  | _ => True

instance (m : cfg.Topic → Nat) (w : World cfg) (a : Act cfg) : Decidable (Sized m w a) :=
  match a with
  | .loanTyped .. => inferInstanceAs (Decidable (_ ≤ _))
  | .publishLoan k => inferInstanceAs (Decidable (∀ l ∈ w.loanOf k, _))
  | .publish .. => inferInstanceAs (Decidable (_ ≤ _))
  | .publishTyped .. => inferInstanceAs (Decidable (_ ∧ _))
  | .tryRecvTyped i _ => inferInstanceAs (Decidable (∀ s ∈ w.streams[i]?, _))
  | .open .. | .register .. | .registerTyped .. | .loan .. | .loanPinned .. => .isTrue trivial
  | .edit .. | .dropLoan .. | .dropPublisher .. | .subscribe .. | .waitForPeer .. => .isTrue trivial
  | .tryRecv .. | .dropSample .. | .tryRecvPinned .. | .dropGuard .. => .isTrue trivial

/-! ### The ring -/

/-- Every ring entry is where its number belongs and holds the publish that the log has under
    that number, which has at least the least length of the topic. -/
def Shm.RingSized (m : cfg.Topic → Nat) (shm : Shm cfg) : Prop :=
  ∀ t i, (shm.entry (t, i)).blockIdx ≠ noBlock →
    i = cfg.slotOf (shm.entry (t, i)).seq ∧
    ∃ c, shm.log t (shm.entry (t, i)).seq = some c ∧
      (shm.entry (t, i)).blockIdx = c.blockIdx ∧ (shm.entry (t, i)).dataLen = c.dataLen ∧
      m t ≤ c.dataLen

theorem Shm.RingSized.of_same {shm shm' : Shm cfg} (h : shm.RingSized m)
    (hsame : shm.SameRing shm') : shm'.RingSized m := by
  intro t i hne
  rw [hsame.1] at hne ⊢
  rw [hsame.2]
  exact h t i hne

/-- One publish. -/
theorem Shm.RingSized.storeEntry {shm : Shm cfg} (h : shm.RingSized m) {t : cfg.Topic} (b : Nat)
    {len : Nat} (hlen : m t ≤ len) : (shm.storeEntry t b len).RingSized m := by
  intro t' i hne
  by_cases he : (t', i) = (t, cfg.slotOf (shm.nextSeq t))
  · obtain ⟨rfl, rfl⟩ := Prod.mk.inj he
    rw [Shm.storeEntry_entry_self]
    exact ⟨rfl, _, Shm.storeEntry_log_self .., rfl, rfl, hlen⟩
  · rw [Shm.storeEntry_entry_of_ne _ _ _ he] at hne ⊢
    obtain ⟨hslot, c, hlog, hrest⟩ := h t' i hne
    refine ⟨hslot, c, ?_, hrest⟩
    -- another entry has another number: equal ones belong in the same place
    rw [Shm.storeEntry_log_of_ne, hlog]
    intro heq
    obtain ⟨ht, hq⟩ := Prod.mk.inj heq
    rw [hq] at hslot
    exact he (by rw [ht, hslot])

theorem commitToRing_sized {shm : Shm cfg} (h : shm.RingSized m) (p : Publisher cfg) (b : Nat)
    {len : Nat} {t : cfg.Topic} (hlen : m t ≤ len) :
    (commitToRing shm p b len t).1.RingSized m :=
  (h.storeEntry b hlen).of_same (commitToRing_shape shm p b len t).1.sameRing

/-- `publish` of a loan. -/
theorem Loan.publish_sized {shm : Shm cfg} (h : shm.RingSized m) (l : Loan cfg) (p : Publisher cfg)
    (hlen : l.kind ≠ .pinned → m l.topic ≤ l.len) : (l.publish shm p).1.RingSized m := by
  by_cases hkind : l.kind = .pinned
  · unfold Loan.publish
    rw [hkind]
    exact h.of_same ⟨rfl, rfl⟩
  · rw [Loan.publish_ring hkind]
    exact commitToRing_sized h _ _ (hlen hkind)

/-- `Publisher::publish`. -/
theorem publish_sized {shm : Shm cfg} (h : shm.RingSized m) (p : Publisher cfg) {hd : Handle cfg}
    {data : List UInt8} (hlen : m hd.topicIdx ≤ data.length) :
    (p.publish shm hd data).1.RingSized m := by
  obtain ⟨pool, lastFreed, cache, r, hloan, hkind⟩ := p.loanWith_shape shm .untyped 0 hd
  unfold Publisher.publish Publisher.loan
  rw [hloan]
  have hpool : Shm.RingSized m { shm with pool := pool } := h.of_same ⟨rfl, rfl⟩
  cases r with
  | error e => exact hpool
  | ok l =>
    obtain ⟨b, rfl⟩ := hkind l rfl
    dsimp only [Loan.setData]
    split
    · rename_i shm₁ l₁ e hset
      split at hset
      · cases hset
        exact hpool.of_same ⟨rfl, rfl⟩
      · cases hset
    · rename_i shm₁ l₁ u hset
      split at hset
      · cases hset
      · cases hset
        have hdata : (Shm.poke { shm with pool := pool } b 0 data).RingSized m :=
          hpool.of_same ⟨rfl, rfl⟩
        exact Loan.publish_sized hdata ⟨.untyped, hd.topicIdx, b, data.length⟩ _ fun _ => hlen

/-- `Publisher::publish_typed`. -/
theorem publishTyped_sized {shm : Shm cfg} (h : shm.RingSized m) (p : Publisher cfg)
    {hd : Handle cfg} {size : Nat} (value : Ring.Payload) (hlen : m hd.topicIdx ≤ size) :
    (p.publishTyped size shm hd value).1.RingSized m := by
  obtain ⟨pool, lastFreed, cache, r, hloan, hkind⟩ := p.loanWith_shape shm .typed size hd
  unfold Publisher.publishTyped Publisher.loanTyped
  rw [hloan]
  have hpool : Shm.RingSized m { shm with pool := pool } := h.of_same ⟨rfl, rfl⟩
  cases r with
  | error e => exact hpool
  | ok l =>
    obtain ⟨b, rfl⟩ := hkind l rfl
    have hfill : (Loan.fill ⟨.typed, hd.topicIdx, b, size⟩ { shm with pool := pool }
        value).RingSized m := hpool.of_same ⟨rfl, rfl⟩
    exact Loan.publish_sized hfill ⟨.typed, hd.topicIdx, b, size⟩ _ fun _ => hlen

/-- **Step.** -/
theorem ringSized_step {a : Act cfg} (hI : w.Counts (2 ^ 32)) (h : w.shm.RingSized m)
    (hok : Sized m w a) (hstep : step w a = some w') : w'.shm.RingSized m := by
  have hbasic (ha : a.basic = true) : w'.shm.RingSized m := by
    rcases ring_move (step_move hI ha hstep) with hsame | ⟨k, p, l, rfl, hp, hborrow, hkind, hstore⟩
    · exact h.of_same hsame
    · have hloan : l ∈ w.loanOf k := by
        rw [World.loanOf, hp]
        exact hborrow
      exact (h.storeEntry _ (hok l hloan hkind)).of_same hstore.sameRing
  cases a with
  | publish k hd data =>
    obtain ⟨_, hstep⟩ := withHandle_inv hstep
    obtain ⟨p, _, _, rfl⟩ := onPublisher_inv hstep
    exact publish_sized h p hok
  | publishTyped k hd size value =>
    obtain ⟨_, hstep⟩ := Option.ite_none_right_eq_some.mp hstep
    obtain ⟨_, hstep⟩ := withHandle_inv hstep
    obtain ⟨p, _, _, rfl⟩ := onPublisher_inv hstep
    exact publishTyped_sized h p value hok.1
  | _ => exact hbasic rfl

/-- **Run.** -/
theorem ringSized_run {id : Nat} {as : List (Act cfg)}
    (hrun : Run step (Sized m) (create cfg id) as w) : w.shm.RingSized m := by
  have hstart : (create cfg id).shm.RingSized m := fun t i hne => absurd rfl hne
  exact (hrun.invariant (I := fun w => w.Counts (2 ^ 32) ∧ w.shm.RingSized m)
    ⟨counts_create id (by norm_num), hstart⟩
    (fun _ _ _ h hok hstep => ⟨counts_step h.1 hstep, ringSized_step h.1 h.2 hok hstep⟩)).2

/-! ### Typed samples -/

/-- **A typed sample is within the payload.** In every run of whole calls in which the ring
    publishes of every topic have a least length and no larger type is received there, a sample of
    `try_recv_typed::<T>` is of a publish of at least `size_of::<T>()` bytes, so that it lies in
    the block and in the payload.  When no counter has overflowed, it shows the first bytes of
    that payload. -/
theorem typed_sample_initialised {id : Nat} {as : List (Act cfg)}
    (hrun : Run step (Sized m) (create cfg id) as w) {i : Nat} {s : Stream cfg}
    (hs : w.streams[i]? = some s) {size : Nat} (hok : Sized m w (.tryRecvTyped i size))
    {shm' : Shm cfg} {s' : Stream cfg} {sample : Sample}
    (hrecv : s.tryRecvTyped size w.shm = some (shm', s', sample)) :
    ∃ c, w.shm.log s.topic s'.lastSeq = some c ∧ sample = ⟨c.blockIdx, size⟩ ∧
      size ≤ c.dataLen ∧ c.dataLen ≤ cfg.dataCapacity ∧ c.blockIdx < cfg.blockCount ∧
      (Run step Fits (create cfg id) as w → shm'.bytes sample = (payload c).take size) := by
  have hring := ringSized_run hrun
  obtain ⟨htype, q, hnext, rfl, rfl, rfl⟩ := Stream.tryRecvTyped_inv hrecv
  obtain ⟨hlow, _, ⟨hseq, hne, hlt, hcap, _⟩, _⟩ := hnext
  obtain ⟨_, c, hlog, hblock, hlen, hmin⟩ := hring s.topic (cfg.slotOf q) hne
  rw [hseq] at hlog
  have hsize : size ≤ c.dataLen := (hok s hs htype).trans hmin
  refine ⟨c, hlog, ?_, hsize, hlen ▸ hcap, hblock ▸ hlt, fun hfits => ?_⟩
  · rw [Shm.blockAt, hblock]
  · -- the number is in the window, so the block still holds the bytes of the publish
    have hsound := sound_run hfits
    have hbehind : (w.shm.topic s.topic).writeSeq - cfg.ringDepth ≤ s.behind w.shm :=
      Nat.le_max_right ..
    have hdata := hsound.log.data_eq hlog (by omega)
    show (List.range size).map (w.shm.data (w.shm.blockAt s.topic q)) = _
    rw [Shm.blockAt, hblock, hdata, payload, ← List.map_take, List.take_range,
      Nat.min_eq_left hsize]

/-- A topic of a type of 4 bytes, with an untyped publish of 5 bytes and a typed one. -/
def sizedSteps : List (Act twoSlots) :=
  [.registerTyped 0 [47] 4 4, .subscribe [47], .publish 0 ⟨twoSlots.topic0, 5⟩ [1, 2, 3, 4, 5],
    .publishTyped 0 ⟨twoSlots.topic0, 5⟩ 4 fun _ => 9]

/-- The first four bytes of the untyped publish are received. -/
theorem typed_sample_initialised_mixed : ∃ (w : World twoSlots) (s : Stream twoSlots)
    (r : Shm twoSlots × Stream twoSlots × Sample),
    Run step (Sized fun _ => 4) (create twoSlots 5) sizedSteps w ∧ w.streams[0]? = some s ∧
    s.tryRecvTyped 4 w.shm = some r ∧
    ∃ c, w.shm.log s.topic r.2.1.lastSeq = some c ∧ 4 ≤ c.dataLen := by
  obtain ⟨w, hrun, s, hs, r, hr, -⟩ := exists_run_of_exec step (Sized fun _ => 4)
    (s := create twoSlots 5) (l := sizedSteps)
    (p := fun w => ∃ s ∈ w.streams[0]?, ∃ r ∈ s.tryRecvTyped 4 w.shm, True) (by decide +kernel)
  have hok : Sized (fun _ => 4) w (.tryRecvTyped 0 4) := fun _ _ _ => le_rfl
  obtain ⟨c, hlog, -, hlen, -⟩ := typed_sample_initialised hrun hs hok hr
  exact ⟨w, s, r, hrun, hs, hr, c, hlog, hlen⟩

/-- `try_recv_typed` for a type of this size returns a sample of a publish of `len` bytes. -/
def receivesShort (size len : Nat) (w : World oneSlot) : Bool :=
  w.streams[0]?.any fun s => (s.tryRecvTyped size w.shm).any fun (_, s', sample) =>
    sample.len == size && (w.shm.log s.topic s'.lastSeq).any fun c => c.dataLen == len

/-- **Bytes that nobody published.** On a topic of `register` one byte is published, and
    `try_recv_typed` for a type of 16 bytes returns a sample, which reaches past the block of 8
    payload bytes.  On a topic of `register_typed` for a type of 8 bytes a loan is published with
    a length of one, and `try_recv_typed` for that type returns it. -/
theorem typed_sample_uninitialised :
    oneSlot.dataCapacity = 8 ∧
    (∃ w, Run step (fun _ _ => True) (create oneSlot 5)
      [.register 0 [47], .subscribe [47], .publish 0 ⟨oneSlot.topic0, 5⟩ [1]] w ∧
      receivesShort 16 1 w = true) ∧
    ∃ w, Run step (fun _ _ => True) (create oneSlot 5)
      [.registerTyped 0 [47] 8 8, .subscribe [47], .loan 0 ⟨oneSlot.topic0, 5⟩,
        .edit 0 (.setLen 1), .publishLoan 0] w ∧
      receivesShort 8 1 w = true := by
  refine ⟨rfl, ?_, ?_⟩
  · exact exists_run_of_exec step (fun _ _ => True) (by decide +kernel)
  · exact exists_run_of_exec step (fun _ _ => True) (by decide +kernel)

end Crossbar.Region
