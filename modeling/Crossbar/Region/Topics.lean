import Mathlib.Data.Set.Card
import Crossbar.Region.Typed

namespace Crossbar.Region

open Crossbar.Lib Crossbar.Pool

/-!
# Region — the topic table is a map from URIs to indices

`register`, `register_typed` and `subscribe` by any publishers and subscribers, between any other
calls.  `History` records, beside the world, which URI every registration so far was for and which
index it returned; the table of the region stores that map (`Stores`):

* `step_table` — no call but a registration changes what the table says of an entry;
* `stores_register` — a registration finds the URI, claims a free entry, or fails;
* `topic_table_is_uri_map` — what the three calls return, in terms of the map.

Nothing depends on `uri_hash`: an entry that has another URI with the same hash is passed over.
-/

variable {cfg : ValidConfig} {w w' : World cfg} {k : Nat}

/-! ### Calls that leave the table alone -/

/-- `register` and `register_typed`. -/
def Act.registersTopic : Act cfg → Bool
  | .register .. => true
  | .registerTyped .. => true
  | _ => false

/-- The words of a topic entry that only `register_inner` writes. -/
def TopicEntry.key (e : TopicEntry) : Bool × UInt64 × List UInt8 × Nat :=
  (e.active, e.uriHash, e.uri, e.typeSize)

/-- The two regions have the same topic table. -/
def Shm.SameTable (shm shm' : Shm cfg) : Prop := ∀ t, (shm'.topic t).key = (shm.topic t).key

namespace Shm.SameTable

variable {shm shm' shm'' : Shm cfg}

/-- Nothing happens. -/
theorem refl (shm : Shm cfg) : shm.SameTable shm := fun _ => rfl

/-- One call after the other. -/
theorem trans (h : shm.SameTable shm') (h' : shm'.SameTable shm'') : shm.SameTable shm'' :=
  fun t => (h' t).trans (h t)

/-- An entry is written, with the words of the table as they were. -/
theorem setTopic (shm : Shm cfg) {t : cfg.Topic} {e : TopicEntry}
    (he : e.key = (shm.topic t).key) : shm.SameTable (shm.setTopic t e) := by
  intro t'
  by_cases ht : t' = t
  · subst ht
    rw [Shm.setTopic_self]
    exact he
  · rw [Shm.setTopic_of_ne _ _ ht]

/-- The reader count is not part of the table. -/
theorem setReaders (shm : Shm cfg) (t : cfg.Topic) (n : Nat) : shm.SameTable (shm.setReaders t n) :=
  .setTopic shm rfl

/-- The blocks are not part of the table. -/
theorem of_blocks (h : shm.SameButBlocks shm') : shm.SameTable shm' := by
  obtain ⟨pool, rc, rfl⟩ := h
  exact refl shm

end Shm.SameTable

/-- `loan_pinned` changes pinned words only. -/
theorem loanPinned_table (shm : Shm cfg) (p : Publisher cfg) (h : Handle cfg) :
    shm.SameTable (keepLoan (p.loanPinned shm h)).1 := by
  obtain ⟨pool, lastFreed, cache, r, hobtain⟩ := p.obtainBlock_shape shm
  have hpin : ∃ shm' p' r', p.pinnedBlock shm h.topicIdx = (shm', p', r') ∧
      shm.SameTable shm' := by
    unfold Publisher.pinnedBlock
    split
    · exact ⟨_, _, _, rfl, .refl shm⟩
    · rw [hobtain]
      cases r with
      | ok b => exact ⟨_, _, _, rfl, .setTopic _ rfl⟩
      | error e => exact ⟨_, _, _, rfl, .refl shm⟩
  obtain ⟨shm', p', r', heq, hsame⟩ := hpin
  unfold Publisher.loanPinned
  split
  · exact .refl shm
  · rw [heq]
    cases r' with
    | error e => exact hsame
    | ok b =>
      dsimp only
      split
      · exact hsame.trans (.setTopic _ rfl)
      · exact hsame

/-- A publish changes `write_seq` and the pinned words. -/
theorem publish_table (l : Loan cfg) (shm : Shm cfg) (p : Publisher cfg) :
    shm.SameTable (l.publish shm p).1 := by
  by_cases hkind : l.kind = .pinned
  · have hpub : (l.publish shm p).1 = l.publishPinned shm := by simp only [Loan.publish, hkind]
    intro t
    rw [hpub]
    by_cases ht : t = l.topic
    · rw [ht, l.publishPinned_topic shm]
      rfl
    · rw [l.publishPinned_topic_of_ne shm ht]
  · rw [Loan.publish_ring hkind]
    have hstore : shm.SameTable (shm.storeEntry l.topic l.blockIdx l.len) :=
      Shm.SameTable.setTopic shm (e := { shm.topic l.topic with writeSeq := shm.nextSeq l.topic })
        rfl
    exact hstore.trans (.of_blocks (commitToRing_shape ..).1)

/-- A dropped loan clears the sentinel at most. -/
theorem loanDrop_table (l : Loan cfg) (shm : Shm cfg) : shm.SameTable (l.drop shm) := by
  unfold Loan.drop
  split
  · exact .setReaders _ _ _
  · exact .refl shm

/-- **Step**, for the acts that are not made of others. -/
theorem basic_table {a : Act cfg} (ha : a.basic = true) (hreg : a.registersTopic = false)
    (hstep : step w a = some w') : w.shm.SameTable w'.shm := by
  have hreceive : ∀ {i f}, w.receive i f = some w' →
      (∀ s shm s' sample, f s = some (shm, s', sample) → ∃ b, shm = w.shm.addRef b) →
      w.shm.SameTable w'.shm := by
    intro i f hstep hf
    obtain ⟨s, _, ⟨_, rfl⟩ | ⟨shm, s', sample, hsome, rfl⟩⟩ := receive_inv hstep
    · exact .refl _
    · obtain ⟨b, rfl⟩ := hf s shm s' sample hsome
      exact .refl _
  cases a with
  | register | registerTyped => cases hreg
  | publish | publishTyped => cases ha
  | «open» id =>
    cases hstep
    exact .refl _
  | loan k h =>
    obtain ⟨_, hstep⟩ := withHandle_inv hstep
    obtain ⟨p, _, _, rfl⟩ := onPublisher_inv hstep
    obtain ⟨pool, lastFreed, cache, r, hloan, _⟩ := p.loanWith_shape w.shm .untyped 0 h
    rw [Publisher.loan, hloan]
    cases r <;> exact .refl _
  | loanTyped k h size =>
    obtain ⟨_, hstep⟩ := Option.ite_none_right_eq_some.mp hstep
    obtain ⟨_, hstep⟩ := withHandle_inv hstep
    obtain ⟨p, _, _, rfl⟩ := onPublisher_inv hstep
    obtain ⟨pool, lastFreed, cache, r, hloan, _⟩ := p.loanWith_shape w.shm .typed size h
    rw [Publisher.loanTyped, hloan]
    cases r <;> exact .refl _
  | loanPinned k h =>
    obtain ⟨_, hstep⟩ := withHandle_inv hstep
    obtain ⟨p, _, _, rfl⟩ := onPublisher_inv hstep
    exact loanPinned_table w.shm p h
  | edit k e =>
    rw [step] at hstep
    obtain ⟨p, l, shm, p', _, _, hf, rfl⟩ := onLoan_inv hstep
    obtain ⟨⟨shm₁, l'⟩, hedit, heq⟩ := Option.map_eq_some_iff.mp hf
    cases heq
    obtain ⟨⟨data, rfl⟩, _⟩ := Loan.edit_spec hedit
    exact .refl _
  | publishLoan k =>
    rw [step] at hstep
    obtain ⟨p, l, shm, p', _, _, hf, rfl⟩ := onLoan_inv hstep
    have hpub := publish_table l w.shm { p with borrow := none }
    rw [Option.some.inj hf] at hpub
    exact hpub
  | dropLoan k =>
    rw [step] at hstep
    obtain ⟨p, l, shm, p', _, _, hf, rfl⟩ := onLoan_inv hstep
    cases hf
    exact loanDrop_table l w.shm
  | dropPublisher k =>
    obtain ⟨p, _, _, rfl⟩ := onPublisher_inv hstep
    exact .of_blocks (.drop w.shm p)
  | subscribe uri =>
    cases hstep
    cases hsub : w.shm.subscribe uri <;> exact .refl _
  | waitForPeer uri =>
    cases hstep
    cases hsub : w.shm.waitForPeer uri <;> exact .refl _
  | tryRecv i =>
    refine hreceive hstep fun s shm s' sample h => ?_
    obtain ⟨q, _, hshm, _⟩ := Stream.tryRecv_inv h
    exact ⟨_, hshm⟩
  | tryRecvTyped i size =>
    refine hreceive hstep fun s shm s' sample h => ?_
    obtain ⟨_, q, _, hshm, _⟩ := Stream.tryRecvTyped_inv h
    exact ⟨_, hshm⟩
  | dropSample j =>
    obtain ⟨s, -, rfl⟩ := dropSample_inv hstep
    exact .of_blocks (.release w.shm _)
  | tryRecvPinned i =>
    obtain ⟨s, -, rfl | ⟨shm, s', g, hrecv, rfl⟩⟩ := receivePinned_inv hstep
    · exact .refl _
    · obtain ⟨_, rfl, _⟩ := Stream.tryRecvPinned_inv hrecv
      exact .setReaders _ _ _
  | dropGuard j =>
    obtain ⟨g, -, rfl⟩ := dropGuard_inv hstep
    exact .setReaders _ _ _

/-- A call is none of these exactly when its parts are not. -/
theorem notRegistering_expands :
    Expands (fun (_ : World cfg) (a : Act cfg) => a.registersTopic = false) :=
  .of_parts (fun _ _ _ => rfl) (fun _ _ _ _ => rfl) (fun _ _ _ => rfl)
    (fun _ _ => rfl) (fun _ _ => rfl)

/-- **Step.** No call but a registration changes what the table says of an entry. -/
theorem step_table {a : Act cfg} (hreg : a.registersTopic = false) (hstep : step w a = some w') :
    w.shm.SameTable w'.shm :=
  step_rule (I := fun w₁ => w.shm.SameTable w₁.shm) notRegistering_expands
    (fun ha h hreg hst => h.trans (basic_table ha hreg hst)) (.refl _) hreg hstep

/-! ### What has been registered -/

/-- A world with the registrations so far: the URI, and the index that was returned. -/
structure History (cfg : ValidConfig) where
  world : World cfg
  registered : List (List UInt8 × cfg.Topic)

/-- The index that a registration returns. -/
def returnedIndex (r : Except Error (Handle cfg)) : Option cfg.Topic :=
  match r with
  | .ok h => some h.topicIdx
  | .error _ => none

/-- The registration that a call makes, when it is one and succeeds. -/
def registration (w : World cfg) : Act cfg → Option (List UInt8 × cfg.Topic)
  | .register k uri =>
    (w.pubs[k]?.join).bind fun p => (returnedIndex (w.shm.register p.id uri).2).map (uri, ·)
  | .registerTyped k uri size align =>
    (w.pubs[k]?.join).bind fun p =>
      (returnedIndex (w.shm.registerTyped p.id uri size align).2).map (uri, ·)
  | _ => none

namespace History

/-- One call, recorded. -/
def step (s : History cfg) (a : Act cfg) : Option (History cfg) :=
  (Region.step s.world a).map fun w => ⟨w, s.registered ++ (registration s.world a).toList⟩

/-- A new region. -/
def start (cfg : ValidConfig) (id : Nat) : History cfg := ⟨create cfg id, []⟩

end History

/-- The table of the region stores the registrations: every active entry is one of them, with the
    hash of its URI, and no URI has two entries. -/
structure Shm.Stores (shm : Shm cfg) (registered : List (List UInt8 × cfg.Topic)) : Prop where
  entry : ∀ u t, (u, t) ∈ registered ↔ (shm.topic t).active = true ∧ (shm.topic t).uri = u
  hash : ∀ t, (shm.topic t).active = true → (shm.topic t).uriHash = uriHash (shm.topic t).uri
  once : ∀ t t', (shm.topic t).active = true → (shm.topic t').active = true →
    (shm.topic t).uri = (shm.topic t').uri → t = t'

namespace Shm.Stores

variable {shm shm' : Shm cfg} {registered : List (List UInt8 × cfg.Topic)} {uri : List UInt8}
  {t : cfg.Topic}

/-- The table is what counts. -/
theorem of_sameTable (h : shm.Stores registered) (hsame : shm.SameTable shm') :
    shm'.Stores registered := by
  have hactive : ∀ t, (shm'.topic t).active = (shm.topic t).active :=
    fun t => congrArg Prod.fst (hsame t)
  have hhash : ∀ t, (shm'.topic t).uriHash = (shm.topic t).uriHash :=
    fun t => congrArg (fun k => k.2.1) (hsame t)
  have huri : ∀ t, (shm'.topic t).uri = (shm.topic t).uri :=
    fun t => congrArg (fun k => k.2.2.1) (hsame t)
  constructor
  · intro u t
    rw [hactive, huri]
    exact h.entry u t
  · intro t
    rw [hactive, hhash, huri]
    exact h.hash t
  · intro t t'
    rw [hactive, hactive, huri, huri]
    exact h.once t t'

/-- The lookup finds what has been registered, whatever the hashes of other URIs are. -/
theorem findTopic_eq_some (h : shm.Stores registered) :
    shm.findTopic uri = some t ↔ (uri, t) ∈ registered := by
  rw [h.entry]
  constructor
  · exact findTopic_some
  · rintro ⟨hactive, rfl⟩
    cases hfind : shm.findTopic (shm.topic t).uri with
    | none =>
      have hno := List.find?_eq_none.mp hfind t (List.mem_finRange t)
      simp [hactive, h.hash t hactive] at hno
    | some t' =>
      obtain ⟨hactive', huri'⟩ := findTopic_some hfind
      rw [h.once t' t hactive' hactive huri']

/-- A URI is not found exactly when it was not registered. -/
theorem findTopic_eq_none (h : shm.Stores registered) :
    shm.findTopic uri = none ↔ ∀ t, (uri, t) ∉ registered := by
  rw [Option.eq_none_iff_forall_ne_some]
  exact forall_congr' fun t => not_congr h.findTopic_eq_some

/-- One index for a URI, and one URI for an index. -/
theorem injective (h : shm.Stores registered) {u v : List UInt8} {t t' : cfg.Topic}
    (hu : (u, t) ∈ registered) (hv : (v, t') ∈ registered) : u = v ↔ t = t' := by
  obtain ⟨hactive, rfl⟩ := (h.entry u t).mp hu
  obtain ⟨hactive', rfl⟩ := (h.entry v t').mp hv
  constructor
  · exact h.once t t' hactive hactive'
  · rintro rfl
    rfl

/-- As many URIs as there are entries have been registered exactly when no entry is free. -/
theorem full_iff (h : shm.Stores registered) :
    {u | ∃ t, (u, t) ∈ registered}.ncard = cfg.maxTopics ↔ shm.freeTopic = none := by
  have himage : {u | ∃ t, (u, t) ∈ registered} =
      (fun t => (shm.topic t).uri) '' {t | (shm.topic t).active = true} := by
    ext u
    constructor
    · rintro ⟨t, ht⟩
      exact ⟨t, (h.entry u t).mp ht⟩
    · rintro ⟨t, ht⟩
      exact ⟨t, (h.entry u t).mpr ht⟩
  have hinj : Set.InjOn (fun t => (shm.topic t).uri) {t | (shm.topic t).active = true} :=
    fun t ht t' ht' heq => h.once t t' ht ht' heq
  have hcard : Nat.card cfg.Topic = cfg.maxTopics := Nat.card_fin _
  rw [himage, hinj.ncard_image, ← hcard, ← Set.eq_univ_iff_ncard,
    Set.eq_univ_iff_forall]
  unfold Shm.freeTopic
  rw [List.find?_eq_none]
  simp

/-- The order of the registrations does not count, nor how often each was made. -/
theorem of_mem {registered' : List (List UInt8 × cfg.Topic)} (h : shm.Stores registered)
    (hmem : ∀ e, e ∈ registered' ↔ e ∈ registered) : shm.Stores registered' :=
  ⟨fun u t => (hmem (u, t)).trans (h.entry u t), h.hash, h.once⟩

/-- A new URI is put into a free entry. -/
theorem claim (h : shm.Stores registered) (hnew : ∀ t, (uri, t) ∉ registered)
    (hfree : (shm.topic t).active = false) (typeSize : Nat) :
    (shm.setTopic t ((shm.topic t).claimed uri typeSize)).Stores (registered ++ [(uri, t)]) := by
  -- the other active entries have other URIs
  have hother : ∀ t', (shm.topic t').active = true → t' ≠ t ∧ (shm.topic t').uri ≠ uri := by
    intro t' hactive
    constructor
    · rintro rfl
      rw [hfree] at hactive
      cases hactive
    · intro huri
      exact hnew t' ((h.entry uri t').mpr ⟨hactive, huri⟩)
  constructor
  · intro u t'
    rw [List.mem_append, List.mem_singleton]
    by_cases ht : t' = t
    · subst ht
      rw [Shm.setTopic_self, h.entry, hfree]
      simp [TopicEntry.claimed, eq_comm]
    · rw [Shm.setTopic_of_ne _ _ ht, h.entry]
      simp [ht]
  · intro t' hactive
    by_cases ht : t' = t
    · subst ht
      rw [Shm.setTopic_self]
      rfl
    · rw [Shm.setTopic_of_ne _ _ ht] at hactive ⊢
      exact h.hash t' hactive
  · intro t₁ t₂ h₁ h₂ huri
    by_cases ht₁ : t₁ = t
    · by_cases ht₂ : t₂ = t
      · rw [ht₁, ht₂]
      · rw [Shm.setTopic_of_ne _ _ ht₂] at h₂ huri
        rw [ht₁, Shm.setTopic_self] at huri
        exact absurd huri.symm (hother t₂ h₂).2
    · rw [Shm.setTopic_of_ne _ _ ht₁] at h₁ huri
      by_cases ht₂ : t₂ = t
      · rw [ht₂, Shm.setTopic_self] at huri
        exact absurd huri (hother t₁ h₁).2
      · rw [Shm.setTopic_of_ne _ _ ht₂] at h₂ huri
        exact h.once t₁ t₂ h₁ h₂ huri

end Shm.Stores

/-! ### Registrations -/

section

variable {shm : Shm cfg} {registered : List (List UInt8 × cfg.Topic)}

/-- What `register_inner` does with a table that stores `registered`. -/
inductive Registers (shm : Shm cfg) (registered : List (List UInt8 × cfg.Topic)) (id : Nat)
    (uri : List UInt8) (typeSize : Nat) : Shm cfg × Except Error (Handle cfg) → Prop
  | tooLong : teUriMax < uri.length →
      Registers shm registered id uri typeSize (shm, .error (.uriTooLong uri.length teUriMax))
  | found {t : cfg.Topic} : uri.length ≤ teUriMax → (uri, t) ∈ registered →
      Registers shm registered id uri typeSize (shm, .ok ⟨t, id⟩)
  | claimed {t : cfg.Topic} : uri.length ≤ teUriMax → (∀ t, (uri, t) ∉ registered) →
      shm.freeTopic = some t →
      Registers shm registered id uri typeSize
        (shm.setTopic t ((shm.topic t).claimed uri typeSize), .ok ⟨t, id⟩)
  | full : uri.length ≤ teUriMax → (∀ t, (uri, t) ∉ registered) → shm.freeTopic = none →
      Registers shm registered id uri typeSize (shm, .error .maxTopicsReached)

/-- `register_inner` does what `Registers` says. -/
theorem registers (h : shm.Stores registered) (id : Nat) (uri : List UInt8) (typeSize : Nat) :
    Registers shm registered id uri typeSize (shm.registerInner id uri typeSize) := by
  unfold Shm.registerInner
  split
  · exact .tooLong ‹_›
  · rename_i hlen
    have hle := Nat.le_of_not_lt hlen
    split
    · rename_i t hfind
      exact .found hle (h.findTopic_eq_some.mp hfind)
    · rename_i hfind
      have hnew := h.findTopic_eq_none.mp hfind
      split
      · rename_i t hfree
        exact .claimed hle hnew hfree
      · rename_i hfree
        exact .full hle hnew hfree

/-- A free entry is inactive. -/
theorem freeTopic_inactive {t : cfg.Topic} (hfree : shm.freeTopic = some t) :
    (shm.topic t).active = false := by
  have hfits := List.find?_some hfree
  simpa using hfits

/-- A registration is recorded as the table stores it. -/
theorem stores_register (h : shm.Stores registered) (id : Nat) (uri : List UInt8)
    (typeSize : Nat) :
    (shm.registerInner id uri typeSize).1.Stores (registered ++
      ((returnedIndex (shm.registerInner id uri typeSize).2).map (uri, ·)).toList) := by
  have hreg := registers h id uri typeSize
  generalize shm.registerInner id uri typeSize = r at hreg ⊢
  cases hreg with
  | tooLong | full => exact h.of_mem (by simp [returnedIndex])
  | found hlen hmem =>
    refine h.of_mem fun e => ?_
    simp only [returnedIndex, Option.map_some, Option.toList_some, List.mem_append,
      List.mem_singleton]
    constructor
    · rintro (hold | rfl)
      · exact hold
      · exact hmem
    · exact Or.inl
  | claimed hlen hnew hfree => exact h.claim hnew (freeTopic_inactive hfree) typeSize

end

/-- **Step.** -/
theorem stores_step {s s' : History cfg} {a : Act cfg} (h : s.world.shm.Stores s.registered)
    (hstep : s.step a = some s') : s'.world.shm.Stores s'.registered := by
  obtain ⟨w, hw, rfl⟩ := Option.map_eq_some_iff.mp hstep
  have hother : a.registersTopic = false → registration s.world a = none →
      w.shm.Stores (s.registered ++ (registration s.world a).toList) := by
    intro hreg hnone
    rw [hnone, Option.toList_none, List.append_nil]
    exact h.of_sameTable (step_table hreg hw)
  cases a with
  | register k uri =>
    obtain ⟨p, hp, _, rfl⟩ := onPublisher_inv hw
    have hstore := stores_register h p.id uri 0
    simp only [registration, hp, Option.join_some, Option.bind_some]
    exact hstore
  | registerTyped k uri size align =>
    obtain ⟨p, hp, _, rfl⟩ := onPublisher_inv hw
    simp only [registration, hp, Option.join_some, Option.bind_some, Shm.registerTyped]
    split
    · exact h.of_mem (by simp [returnedIndex])
    · exact stores_register h p.id uri (wrap32 size)
  | _ => exact hother rfl rfl

/-- **Run.** -/
theorem stores_run {id : Nat} {as : List (Act cfg)} {s : History cfg}
    (hrun : Run History.step (fun _ _ => True) (.start cfg id) as s) :
    s.world.shm.Stores s.registered := by
  refine hrun.invariant ⟨fun u t => ?_, nofun, nofun⟩ (fun _ _ _ h _ hstep => stores_step h hstep)
  refine iff_of_false List.not_mem_nil ?_
  rintro ⟨hactive, -⟩
  cases hactive

/-! ### What the calls return -/

/-- What the map says that a registration of `uri` returns. -/
structure RegistrationMeets (registered : List (List UInt8 × cfg.Topic)) (uri : List UInt8)
    (r : Except Error (Handle cfg)) : Prop where
  tooLong : r = .error (.uriTooLong uri.length teUriMax) ↔ teUriMax < uri.length
  full : r = .error .maxTopicsReached ↔ uri.length ≤ teUriMax ∧ (∀ t, (uri, t) ∉ registered) ∧
    {u | ∃ t, (u, t) ∈ registered}.ncard = cfg.maxTopics
  /-- otherwise an index that goes with this URI and no other -/
  index : uri.length ≤ teUriMax → ¬ ((∀ t, (uri, t) ∉ registered) ∧
      {u | ∃ t, (u, t) ∈ registered}.ncard = cfg.maxTopics) →
    ∃ h, r = .ok h ∧ ∀ v t, (v, t) ∈ registered → (uri = v ↔ h.topicIdx = t)

/-- Every answer of `register_inner` is the right one. -/
theorem registrationMeets {shm : Shm cfg} {registered : List (List UInt8 × cfg.Topic)}
    (h : shm.Stores registered) (id : Nat) (uri : List UInt8) (typeSize : Nat) :
    RegistrationMeets registered uri (shm.registerInner id uri typeSize).2 := by
  have hreg := registers h id uri typeSize
  generalize shm.registerInner id uri typeSize = r at hreg ⊢
  cases hreg with
  | tooLong hlen =>
    refine ⟨iff_of_true rfl hlen, iff_of_false (by simp) ?_, ?_⟩
    · rintro ⟨hle, -⟩
      omega
    · intro hle
      omega
  | found hlen hmem =>
    refine ⟨iff_of_false (by simp) (by omega), iff_of_false (by simp) ?_, fun _ _ => ?_⟩
    · rintro ⟨-, hnew, -⟩
      exact hnew _ hmem
    · exact ⟨_, rfl, fun v t hv => h.injective hmem hv⟩
  | @claimed t hlen hnew hfree =>
    have hroom : ¬ {u | ∃ t, (u, t) ∈ registered}.ncard = cfg.maxTopics := by
      rw [h.full_iff, hfree]
      exact Option.some_ne_none t
    refine ⟨iff_of_false (by simp) (by omega), iff_of_false (by simp) ?_, fun _ _ => ?_⟩
    · rintro ⟨-, -, hfull⟩
      exact hroom hfull
    · refine ⟨_, rfl, fun v t' hv => iff_of_false ?_ ?_⟩
      · rintro rfl
        exact hnew t' hv
      · -- the entry was free, so no URI had it
        rintro rfl
        have hactive := ((h.entry v t).mp hv).1
        rw [freeTopic_inactive hfree] at hactive
        cases hactive
  | full hlen hnew hfree =>
    have hfull := h.full_iff.mpr hfree
    refine ⟨iff_of_false (by simp) (by omega), iff_of_true rfl ⟨hlen, hnew, hfull⟩, ?_⟩
    intro _ hroom
    exact absurd ⟨hnew, hfull⟩ hroom

/-- A call of the topic table. -/
inductive TableCall where
  | register (id : Nat) (uri : List UInt8)
  | registerTyped (id : Nat) (uri : List UInt8) (size align : Nat)
  | subscribe (uri : List UInt8)

/-- The region after the call, and whether it has failed. -/
def Shm.tableCall (shm : Shm cfg) : TableCall → Shm cfg × Bool
  | .register id uri => ((shm.register id uri).1, (returnedIndex (shm.register id uri).2).isNone)
  | .registerTyped id uri size align =>
    ((shm.registerTyped id uri size align).1,
      (returnedIndex (shm.registerTyped id uri size align).2).isNone)
  | .subscribe uri => (shm, !(shm.subscribe uri).isOk)

/-- A call that fails leaves the region as it is, and any call the entries in use. -/
theorem tableCall_frame {shm : Shm cfg} {registered : List (List UInt8 × cfg.Topic)}
    (h : shm.Stores registered) (c : TableCall) :
    ((shm.tableCall c).2 = true → (shm.tableCall c).1 = shm) ∧
      ∀ t, (shm.topic t).active = true → (shm.tableCall c).1.topic t = shm.topic t := by
  have hreg : ∀ id uri typeSize,
      ((returnedIndex (shm.registerInner id uri typeSize).2).isNone = true →
        (shm.registerInner id uri typeSize).1 = shm) ∧
      ∀ t, (shm.topic t).active = true →
        (shm.registerInner id uri typeSize).1.topic t = shm.topic t := by
    intro id uri typeSize
    have hreg := registers h id uri typeSize
    generalize shm.registerInner id uri typeSize = r at hreg ⊢
    cases hreg with
    | tooLong | found | full => exact ⟨fun _ => rfl, fun _ _ => rfl⟩
    | @claimed t hlen hnew hfree =>
      refine ⟨fun hfail => (by cases hfail), fun t' hactive => Shm.setTopic_of_ne _ _ ?_⟩
      rintro rfl
      rw [freeTopic_inactive hfree] at hactive
      cases hactive
  cases c with
  | register id uri => exact hreg id uri 0
  | registerTyped id uri size align =>
    simp only [Shm.tableCall, Shm.registerTyped]
    split
    · exact ⟨fun _ => rfl, fun _ _ => rfl⟩
    · exact hreg id uri (wrap32 size)
  | subscribe uri => exact ⟨fun _ => rfl, fun _ _ => rfl⟩

/-- **The topic table is an injective map from URIs to indices.** After any calls on the region:
    a URI has had one index and an index one URI; `register` fails for URIs of more than 64 bytes
    and for a new one when `max_topics` others have been registered, and otherwise returns an
    index that goes with this URI and no other, and so does `register_typed` for a type that needs
    no more than 8 bytes of alignment; `subscribe` succeeds for registered URIs, on their index;
    a call that fails changes nothing, and no call changes URI, type size or `write_seq` of an
    entry in use. -/
theorem topic_table_is_uri_map {id : Nat} {as : List (Act cfg)} {s : History cfg}
    (hrun : Run History.step (fun _ _ => True) (.start cfg id) as s) :
    (∀ u t v t', (u, t) ∈ s.registered → (v, t') ∈ s.registered → (u = v ↔ t = t')) ∧
    (∀ p uri, RegistrationMeets s.registered uri (s.world.shm.register p uri).2) ∧
    (∀ p uri size align, align ≤ 8 →
      RegistrationMeets s.registered uri (s.world.shm.registerTyped p uri size align).2) ∧
    (∀ p uri size align, 8 < align →
      (s.world.shm.registerTyped p uri size align).2 = .error (.alignmentError align 8)) ∧
    (∀ uri t, (uri, t) ∈ s.registered ↔
      ∃ stream, s.world.shm.subscribe uri = .ok stream ∧ stream.topic = t) ∧
    ∀ c, ((s.world.shm.tableCall c).2 = true →
        (s.world.shm.tableCall c).1.topic = s.world.shm.topic) ∧
      ∀ t, (s.world.shm.topic t).active = true →
        ((s.world.shm.tableCall c).1.topic t).uri = (s.world.shm.topic t).uri ∧
        ((s.world.shm.tableCall c).1.topic t).typeSize = (s.world.shm.topic t).typeSize ∧
        ((s.world.shm.tableCall c).1.topic t).writeSeq = (s.world.shm.topic t).writeSeq := by
  have h := stores_run hrun
  refine ⟨fun u t v t' hu hv => h.injective hu hv, fun p uri => registrationMeets h p uri 0,
    fun p uri size align halign => ?_, fun p uri size align halign => ?_, fun uri t => ?_,
    fun c => ⟨fun hfail => ?_, fun t hactive => ?_⟩⟩
  · rw [Shm.registerTyped, if_neg (by omega)]
    exact registrationMeets h p uri (wrap32 size)
  · rw [Shm.registerTyped, if_pos halign]
  · rw [← h.findTopic_eq_some]
    unfold Shm.subscribe
    cases s.world.shm.findTopic uri with
    | none | some => simp
  · rw [(tableCall_frame h c).1 hfail]
  · rw [(tableCall_frame h c).2 t hactive]
    exact ⟨rfl, rfl, rfl⟩

/-- A region with one topic: the URI that has it is found again, and another one is refused. -/
theorem topic_table_is_uri_map_full : ∃ s : History oneSlot,
    Run History.step (fun _ _ => True) (.start oneSlot 5)
      [.register 0 [47], .open 6, .registerTyped 1 [47] 4 4] s ∧
    (∃ h, (s.world.shm.register 6 [47]).2 = .ok h ∧ h.topicIdx = oneSlot.topic0) ∧
    (s.world.shm.register 6 [48]).2 = .error .maxTopicsReached := by
  obtain ⟨s, hrun, hreg⟩ := exists_run_of_exec History.step (fun _ _ => True)
    (s := History.start oneSlot 5) (l := [.register 0 [47], .open 6, .registerTyped 1 [47] 4 4])
    (p := fun s => s.registered = [([47], oneSlot.topic0), ([47], oneSlot.topic0)])
    (by decide +kernel)
  obtain ⟨-, hmeets, -⟩ := topic_table_is_uri_map hrun
  have hcard : {u | ∃ t, (u, t) ∈ s.registered}.ncard = oneSlot.maxTopics := by
    have hset : {u | ∃ t, (u, t) ∈ s.registered} = {[47]} := by
      ext u
      simp [hreg]
    rw [hset, Set.ncard_singleton]
    rfl
  refine ⟨s, hrun, ?_, ?_⟩
  · obtain ⟨h, hok, hindex⟩ := (hmeets 6 [47]).index (by decide) (by simp [hreg])
    refine ⟨h, hok, (hindex [47] oneSlot.topic0 ?_).mp rfl⟩
    simp [hreg]
  · exact (hmeets 6 [48]).full.mpr ⟨by decide, by simp [hreg], hcard⟩

end Crossbar.Region
