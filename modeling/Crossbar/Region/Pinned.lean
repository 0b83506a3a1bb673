import Crossbar.Region.Delivery

namespace Crossbar.Region

open Function Crossbar.Lib Crossbar.Pool

/-!
# Region — who owns a topic's pinned block

A pinned block belongs to the publisher that allocated it (`pinned_blocks`), and a topic entry
has one word for the block that streams read (`TE_PINNED_BLOCK`).  Nothing keeps the two
together: every publisher stores its own block there on first use, and dropping a publisher
frees its pinned blocks whether or not a stream can still read them.

* `PinMove` — the effects of a call on these words, by cases on the moves of the world;
* `pinned_block_not_reused` — as long as a publisher is dropped only when nobody can come to
  read its pinned blocks, a readable pinned block is nowhere else;
  `dropped_publisher_frees_readable_block` is what happens otherwise;
* `publishers_agree` — as long as one publisher alone pins a topic, its block is the word of
  the topic, and a stream reads what it publishes; `second_publisher_moves_word` is what
  happens otherwise.
-/

variable {cfg : ValidConfig} {w w' : World cfg} {k : Nat}

/-! ### The effects of a call on the pinned words -/

/-- The pinned blocks of every publisher. -/
def World.pins (w : World cfg) : List (Option (cfg.Topic → Nat)) :=
  w.pubs.map (Option.map Publisher.pinnedBlocks)

/-- The words of the topic entries that say which block to read and that there is one. -/
structure SameWords (shm shm' : Shm cfg) : Prop where
  block : ∀ t, (shm'.topic t).pinnedBlock = (shm.topic t).pinnedBlock
  seq : ∀ t, (shm'.topic t).pinnedSeq = (shm.topic t).pinnedSeq

/-- A topic entry changes, but not in its packed word. -/
theorem setTopic_pinnedSeq {shm : Shm cfg} {t : cfg.Topic} {e : TopicEntry}
    (he : e.pinnedSeq = (shm.topic t).pinnedSeq) (t' : cfg.Topic) :
    ((shm.setTopic t e).topic t').pinnedSeq = (shm.topic t').pinnedSeq := by
  by_cases ht : t' = t
  · rw [ht, shm.setTopic_self, he]
  · rw [shm.setTopic_of_ne e ht]

namespace SameWords

variable {shm shm' : Shm cfg}

theorem of_topic (h : shm'.topic = shm.topic) : SameWords shm shm' :=
  ⟨fun t => by rw [h], fun t => by rw [h]⟩

/-- An entry whose other words change. -/
theorem setTopic {t : cfg.Topic} {e : TopicEntry}
    (hblock : e.pinnedBlock = (shm.topic t).pinnedBlock)
    (hseq : e.pinnedSeq = (shm.topic t).pinnedSeq) : SameWords shm (shm.setTopic t e) := by
  refine ⟨fun t' => ?_, setTopic_pinnedSeq hseq⟩
  by_cases ht : t' = t
  · rw [ht, shm.setTopic_self, hblock]
  · rw [shm.setTopic_of_ne e ht]

end SameWords

/-- A publisher that keeps its pinned blocks. -/
theorem pins_set {p p' : Publisher cfg} {w' : World cfg} (hp : w.pubs[k]? = some (some p))
    (hpubs : w'.pubs = w.pubs.set k (some p')) (hpins : p'.pinnedBlocks = p.pinnedBlocks) :
    w'.pins = w.pins := by
  unfold World.pins
  apply List.ext_getElem?
  intro i
  rw [hpubs, List.getElem?_map, List.getElem?_map]
  by_cases hi : k = i
  · subst hi
    obtain ⟨hlt, _⟩ := List.getElem?_eq_some_iff.mp hp
    rw [List.getElem?_set_self hlt, hp]
    simp only [Option.map_some, hpins]
  · rw [List.getElem?_set_ne hi]

/-- One effect of a basic call on the pinned words. -/
inductive PinMove (w : World cfg) (a : Act cfg) (w' : World cfg) : Prop
  /-- nothing changes; guards may have gone -/
  | same (hpins : w'.pins = w.pins) (hwords : SameWords w.shm w'.shm)
      (hguards : ∀ g, some g ∈ w'.guards → some g ∈ w.guards)
  | «open» (hpins : w'.pins = w.pins ++ [some fun _ => noBlock]) (hwords : SameWords w.shm w'.shm)
      (hguards : w'.guards = w.guards)
  /-- a publisher pins a block and makes it the word of the topic -/
  | pin (k : Nat) (h : Handle cfg) (f : cfg.Topic → Nat) (b : Nat) (ha : a = .loanPinned k h)
      (hf : w.pins[k]? = some (some f)) (hnew : f h.topicIdx = noBlock) (hb : b < cfg.blockCount)
      (hpins : w'.pins = w.pins.set k (some (update f h.topicIdx b)))
      (hblock : ∀ t, (w'.shm.topic t).pinnedBlock =
        if t = h.topicIdx then b else (w.shm.topic t).pinnedBlock)
      (hseq : ∀ t, (w'.shm.topic t).pinnedSeq = (w.shm.topic t).pinnedSeq)
      (hguards : w'.guards = w.guards)
  /-- a publisher that has pinned a block of the topic publishes -/
  | publish (t : cfg.Topic) (f : cfg.Topic → Nat) (hf : some f ∈ w.pins) (hpinned : f t ≠ noBlock)
      (hpins : w'.pins = w.pins)
      (hblock : ∀ t', (w'.shm.topic t').pinnedBlock = (w.shm.topic t').pinnedBlock)
      (hseq : ∀ t', t' ≠ t → (w'.shm.topic t').pinnedSeq = (w.shm.topic t').pinnedSeq)
      (hguards : w'.guards = w.guards)
  | drop (k : Nat) (f : cfg.Topic → Nat) (ha : a = .dropPublisher k)
      (hf : w.pins[k]? = some (some f)) (hpins : w'.pins = w.pins.set k none)
      (hwords : SameWords w.shm w'.shm) (hguards : w'.guards = w.guards)
  /-- a stream gets a guard for the word of a topic -/
  | guard (t : cfg.Topic) (g : PinnedGuard cfg) (hpublished : (w.shm.topic t).pinnedSeq ≠ 0)
      (hg : g.blockIdx = (w.shm.topic t).pinnedBlock) (hpins : w'.pins = w.pins)
      (hwords : SameWords w.shm w'.shm) (hguards : w'.guards = w.guards ++ [some g])

theorem pins_getElem {p : Publisher cfg} (hp : w.pubs[k]? = some (some p)) :
    w.pins[k]? = some (some p.pinnedBlocks) := by
  unfold World.pins
  rw [List.getElem?_map, hp]
  rfl

/-- The calls of `Move` that pin a new block. -/
theorem pinMove_pin {h : Handle cfg} {p p' : Publisher cfg} {b : Nat} {e : TopicEntry}
    {pool : FreeList} (hp : w.pubs[k]? = some (some p)) (hb : b < cfg.blockCount)
    (hnew : p.pinnedBlocks h.topicIdx = noBlock)
    (hpins : p'.pinnedBlocks = update p.pinnedBlocks h.topicIdx b)
    (hblock : e.pinnedBlock = b) (hseq : e.pinnedSeq = (w.shm.topic h.topicIdx).pinnedSeq) :
    PinMove w (.loanPinned k h)
      (w.withPub k ((w.shm.withPool pool).setTopic h.topicIdx e) p') := by
  refine .pin k h p.pinnedBlocks b rfl (pins_getElem hp) hnew hb ?_ (fun t => ?_)
    (setTopic_pinnedSeq hseq) rfl
  · show (w.pubs.set k (some p')).map _ = _
    rw [List.map_set, Option.map_some, hpins]
    rfl
  · -- only the word of this topic is stored
    show (((w.shm.withPool pool).setTopic h.topicIdx e).topic t).pinnedBlock = _
    split
    · rename_i ht
      rw [ht, Shm.setTopic_self, hblock]
    · rename_i ht
      rw [Shm.setTopic_of_ne _ e ht]
      rfl

/-- Every basic call has one of these effects. -/
theorem pinMove_move {a : Act cfg} (hL : w.LoansOk) (hmove : Move w a w') : PinMove w a w' := by
  cases hmove with
  | stay | stream | receive => exact .same rfl (.of_topic rfl) (fun _ hg => hg)
  | «open» id => exact .open (List.map_append ..) (.of_topic rfl) rfl
  | claim hlen hnew hfree => exact .same rfl (.setTopic rfl rfl) (fun _ hg => hg)
  | exhaust pool lastFreed cache hp | loan pool lastFreed cache hp =>
    exact .same (pins_set hp rfl rfl) (.of_topic rfl) (fun _ hg => hg)
  | pinRefused pool lastFreed cache b hp hborrow hb hactive hnew
  | pinNew pool lastFreed cache b hp hborrow hb hactive hnew =>
    exact pinMove_pin hp hb hnew rfl rfl rfl
  | pinAgain hp | dropPinned hp =>
    exact .same (pins_set hp rfl rfl) (.setTopic rfl rfl) (fun _ hg => hg)
  | edit hp hborrow hedit =>
    obtain ⟨⟨data, rfl⟩, _⟩ := Loan.edit_spec hedit
    exact .same (pins_set hp rfl rfl) (.of_topic rfl) (fun _ hg => hg)
  | publish hp hborrow hkind =>
    rename_i p l
    obtain ⟨⟨pool, rc, hshm⟩, lastFreed, hpub⟩ :=
      commitToRing_shape w.shm { p with borrow := none } l.blockIdx l.len l.topic
    have hentry : SameWords w.shm (w.shm.setTopic l.topic
        { w.shm.topic l.topic with writeSeq := w.shm.nextSeq l.topic }) := .setTopic rfl rfl
    refine .same (pins_set hp rfl (by rw [hpub])) ?_ (fun _ hg => hg)
    show SameWords w.shm (commitToRing _ _ _ _ _).1
    rw [hshm]
    exact ⟨hentry.block, hentry.seq⟩
  | publishPinned hp hborrow hkind =>
    rename_i p l
    -- the block of a pinned loan is the one its publisher has for the topic
    obtain ⟨hne, hpinned⟩ := (hL p l (List.mem_of_getElem? hp) hborrow).pinned hkind
    refine .publish l.topic p.pinnedBlocks (List.mem_of_getElem? (pins_getElem hp))
      (hpinned ▸ hne) (pins_set hp rfl rfl) (fun t' => ?_) (fun t' ht => ?_) rfl
    · show ((l.publishPinned w.shm).topic t').pinnedBlock = _
      by_cases ht : t' = l.topic
      · rw [ht, l.publishPinned_topic]
      · rw [l.publishPinned_topic_of_ne _ ht]
    · show ((l.publishPinned w.shm).topic t').pinnedSeq = _
      rw [l.publishPinned_topic_of_ne _ ht]
  | drop hp hborrow hkind => exact .same (pins_set hp rfl rfl) (.of_topic rfl) (fun _ hg => hg)
  | dropPublisher hp hborrow =>
    rename_i p
    refine .drop _ p.pinnedBlocks rfl (pins_getElem hp) (List.map_set ..) ?_ rfl
    exact .of_topic (Shm.SameButBlocks.drop w.shm p).topic_eq
  | dropSample hs =>
    exact .same rfl (.of_topic (Shm.SameButBlocks.release _ _).topic_eq) (fun _ hg => hg)
  | receivePinned hs hrecv =>
    obtain ⟨hnext, rfl, rfl, rfl⟩ := Stream.tryRecvPinned_inv hrecv
    exact .guard _ _ hnext.published rfl rfl (.setTopic rfl rfl) rfl
  | dropGuard hg =>
    refine .same rfl (.setTopic rfl rfl) (fun g hmem => ?_)
    rcases List.mem_or_eq_of_mem_set hmem with hold | hnew
    · exact hold
    · cases hnew

/-! ### A pinned block has one place -/

/-- A live publisher has pinned block `b`. -/
def PinHeld (w : World cfg) (b : Nat) : Prop := ∃ f t, some f ∈ w.pins ∧ f t = b ∧ b ≠ noBlock

/-- The block is in the account of pinned blocks. -/
theorem PinHeld.pinned_pos {b : Nat} (h : PinHeld w b) : 0 < w.pinned b := by
  obtain ⟨f, t, hf, hb, hne⟩ := h
  obtain ⟨o, ho, hmap⟩ := List.mem_map.mp hf
  obtain ⟨p, rfl, rfl⟩ := Option.map_eq_some_iff.mp hmap
  obtain ⟨k, hk⟩ := List.mem_iff_getElem?.mp ho
  have hle := le_listTally (fun o : Option (Publisher cfg) => o.elim 0 (·.pinned b)) hk
  have htally := le_tally (fun x => (cell x).count b) p.pinnedBlocks t
  rw [hb, count_cell hne, if_pos rfl] at htally
  have hpos : 0 < p.pinned b := htally
  exact Nat.lt_of_lt_of_le hpos hle

/-- A pinned block is nowhere else. -/
theorem PinHeld.alone {b limit : Nat} (hI : w.Counts limit) (h : PinHeld w b) :
    (∃ l, w.shm.pool.Chain l ∧ b ∉ l) ∧ w.cached b = 0 ∧ w.recycled b = 0 ∧ w.loaned b = 0 ∧
      w.shm.inRing b = 0 := by
  have hpos := h.pinned_pos
  have hheld : 0 < w.held b := by
    rw [w.held_eq b]
    omega
  obtain ⟨l, hl, hplaces⟩ := hI.chain
  have hb := hplaces b
  have hlt := Shm.Counted.lt_of_held hI hheld
  have hrefs := Shm.Counted.referenced_of_held hI hheld
  rw [if_pos hlt, w.held_eq b] at hb
  rw [Shm.referenced_of_ne _ _ (ne_noBlock hlt)] at hrefs
  -- the places of a block add up to one, and the pinned account has it
  refine ⟨⟨l, hl, fun hmem => ?_⟩, by omega, by omega, by omega, by omega⟩
  have hcount := List.count_pos_iff.mpr hmem
  omega

/-- Pinned blocks stay pinned, unless their publisher is dropped. -/
theorem PinHeld.move {a : Act cfg} {b : Nat} (h : PinHeld w b) (hmove : PinMove w a w')
    (hdrop : ∀ k f, a = .dropPublisher k → w.pins[k]? = some (some f) →
      w'.pins = w.pins.set k none → ∀ t, f t ≠ b) : PinHeld w' b := by
  obtain ⟨f, t, hf, hb, hne⟩ := h
  cases hmove with
  | same hpins | publish t' f' hf' hpinned hpins
  | guard t' g hpublished hg hpins => exact ⟨f, t, hpins ▸ hf, hb, hne⟩
  | «open» hpins hwords hguards =>
    exact ⟨f, t, by rw [hpins]; exact List.mem_append_left _ hf, hb, hne⟩
  | pin k h f' b' ha hf' hnew hlt hpins hblock hseq hguards =>
    obtain ⟨i, hi⟩ := List.mem_iff_getElem?.mp hf
    by_cases hik : k = i
    · -- the publisher that pins another block keeps this one
      subst hik
      cases Option.some.inj (Option.some.inj (hi.symm.trans hf'))
      obtain ⟨hlen, _⟩ := List.getElem?_eq_some_iff.mp hf'
      refine ⟨update f h.topicIdx b', t, ?_, ?_, hne⟩
      · rw [hpins]
        exact List.mem_of_getElem? (List.getElem?_set_self hlen)
      · rw [update_of_ne]
        · exact hb
        · rintro rfl
          exact hne (hb.symm.trans hnew)
    · refine ⟨f, t, ?_, hb, hne⟩
      rw [hpins]
      exact List.mem_of_getElem? ((List.getElem?_set_ne hik).trans hi)
  | drop k f' ha hf' hpins hwords hguards =>
    -- the dropped publisher is another one than the one that holds the block
    obtain ⟨i, hi⟩ := List.mem_iff_getElem?.mp hf
    refine ⟨f, t, ?_, hb, hne⟩
    rw [hpins]
    refine List.mem_of_getElem? ((List.getElem?_set_ne ?_).trans hi)
    rintro rfl
    cases Option.some.inj (Option.some.inj (hi.symm.trans hf'))
    exact hdrop k f ha hf' hpins t hb

/-- Streams may come to read the word of topic `t`: it has a pinned publish, or one of the
    publishers that `pins` is about has pinned it and can give it one. -/
def Shm.Offered (shm : Shm cfg) (pins : List (Option (cfg.Topic → Nat))) (t : cfg.Topic) : Prop :=
  (shm.topic t).pinnedSeq ≠ 0 ∨ ∃ o ∈ pins, ∃ f ∈ o, f t ≠ noBlock

instance (shm : Shm cfg) (pins : List (Option (cfg.Topic → Nat))) (t : cfg.Topic) :
    Decidable (shm.Offered pins t) :=
  inferInstanceAs (Decidable (_ ∨ _))

/-- The blocks that streams read are pinned by a live publisher. -/
structure World.PinInv (w : World cfg) : Prop where
  word : ∀ t, w.shm.Offered w.pins t → PinHeld w (w.shm.topic t).pinnedBlock
  guard : ∀ g, some g ∈ w.guards → PinHeld w g.blockIdx

/-- None of the pinned blocks of `p`, publisher `k`, is in a live guard or the word of a topic
    that streams may come to read without it. -/
def Publisher.Unread (w : World cfg) (k : Nat) (p : Publisher cfg) : Prop :=
  ∀ t, p.pinnedBlocks t ≠ noBlock →
    (∀ t', w.shm.Offered (w.pins.set k none) t' →
      (w.shm.topic t').pinnedBlock ≠ p.pinnedBlocks t) ∧
    ∀ o ∈ w.guards, ∀ g ∈ o, g.blockIdx ≠ p.pinnedBlocks t

instance (w : World cfg) (p : Publisher cfg) : Decidable (p.Unread w k) :=
  inferInstanceAs (Decidable (∀ _ : cfg.Topic, _))

/-- A publisher is dropped only when nobody can read its pinned blocks. -/
def DropsUnread (w : World cfg) (a : Act cfg) : Prop :=
  match a with
  | .dropPublisher k => ∀ o ∈ w.pubs[k]?, ∀ p ∈ o, p.Unread w k
  | _ => True

instance (w : World cfg) (a : Act cfg) : Decidable (DropsUnread w a) :=
  match a with
  | .dropPublisher k => inferInstanceAs (Decidable (∀ o ∈ w.pubs[k]?, _))
  | .open .. | .register .. | .registerTyped .. => .isTrue trivial
  | .loan .. | .loanTyped .. | .loanPinned .. => .isTrue trivial
  | .edit .. | .publishLoan .. | .dropLoan .. | .publish .. | .publishTyped .. => .isTrue trivial
  | .subscribe .. | .waitForPeer .. | .tryRecv .. | .tryRecvTyped .. => .isTrue trivial
  | .dropSample .. | .tryRecvPinned .. | .dropGuard .. => .isTrue trivial

/-- Block `b` is in a live guard or the word of a topic that streams may read, with `pins` the
    pinned blocks of the publishers. -/
def PinReadable (w : World cfg) (pins : List (Option (cfg.Topic → Nat))) (b : Nat) : Prop :=
  (∃ t, w.shm.Offered pins t ∧ (w.shm.topic t).pinnedBlock = b) ∨
    ∃ g, some g ∈ w.guards ∧ g.blockIdx = b

/-- What streams may still read after the call stays pinned. -/
theorem PinHeld.kept {a : Act cfg} {b : Nat} (h : PinHeld w b)
    (hread : PinReadable w w'.pins b) (hok : DropsUnread w a) (hmove : PinMove w a w') :
    PinHeld w' b := by
  refine h.move hmove (fun k f ha hf hpins t hb => ?_)
  subst ha
  rw [hpins] at hread
  unfold World.pins at hf
  rw [List.getElem?_map] at hf
  obtain ⟨o, ho, hmap⟩ := Option.map_eq_some_iff.mp hf
  obtain ⟨p, rfl, rfl⟩ := Option.map_eq_some_iff.mp hmap
  obtain ⟨_, _, _, _, hne⟩ := h
  obtain ⟨hword, hguard⟩ := hok (some p) ho p rfl t (hb ▸ hne)
  rcases hread with ⟨t', hoffered, ht'⟩ | ⟨g, hg, hgb⟩
  · exact hword t' hoffered (ht'.trans hb.symm)
  · exact hguard (some g) hg g rfl (hgb.trans hb.symm)

/-- **Step** of the words. -/
theorem pinInv_word {a : Act cfg} (h : w.PinInv) (hok : DropsUnread w a) (hmove : PinMove w a w')
    (t : cfg.Topic) (ht : w'.shm.Offered w'.pins t) :
    PinHeld w' (w'.shm.topic t).pinnedBlock := by
  have hkept : w.shm.Offered w.pins t → w.shm.Offered w'.pins t →
      PinHeld w' (w.shm.topic t).pinnedBlock := fun hbefore hafter =>
    (h.word t hbefore).kept (Or.inl ⟨t, hafter, rfl⟩) hok hmove
  cases hmove with
  | same hpins hwords | guard t' g hpublished hg hpins hwords =>
    rw [Shm.Offered, hwords.seq] at ht
    rw [hwords.block]
    exact hkept (hpins ▸ ht) ht
  | «open» hpins hwords hguards =>
    -- a new publisher has pinned nothing
    rw [hwords.block]
    rw [Shm.Offered, hwords.seq] at ht
    refine hkept (ht.imp_right fun ⟨o, ho, f, hf, hne⟩ => ⟨o, ?_, f, hf, hne⟩) ht
    rw [hpins] at ho
    rcases List.mem_append.mp ho with hold | hnew
    · exact hold
    · cases List.mem_singleton.mp hnew
      cases hf
      exact absurd rfl hne
  | pin k h f b ha hf hnew hlt hpins hblock hseq hguards =>
    obtain ⟨hlen, _⟩ := List.getElem?_eq_some_iff.mp hf
    rw [hblock]
    split
    · -- the word of the topic is the new block, which the publisher has pinned
      refine ⟨update f h.topicIdx b, h.topicIdx, ?_, update_self ..,
        ne_noBlock hlt⟩
      rw [hpins]
      exact List.mem_of_getElem? (List.getElem?_set_self hlen)
    · rename_i hother
      rw [Shm.Offered, hseq] at ht
      refine hkept (ht.imp_right fun ⟨o, ho, f', hf', hne⟩ => ?_) ht
      rw [hpins] at ho
      rcases List.mem_or_eq_of_mem_set ho with hold | heq
      · exact ⟨o, hold, f', hf', hne⟩
      · cases heq
        cases hf'
        rw [update_of_ne hother] at hne
        exact ⟨some f, List.mem_of_getElem? hf, f, rfl, hne⟩
  | publish t' f hf hpinned hpins hblock hseq hguards =>
    -- the topic that gets its first pinned number had a pinned block already
    have hbefore : w.shm.Offered w.pins t := by
      by_cases htt : t = t'
      · exact Or.inr ⟨some f, hf, f, rfl, htt ▸ hpinned⟩
      · rw [Shm.Offered, hseq t htt, hpins] at ht
        exact ht
    rw [hblock]
    exact hkept hbefore (hpins ▸ hbefore)
  | drop k f ha hf hpins hwords hguards =>
    rw [hwords.block]
    rw [Shm.Offered, hwords.seq] at ht
    refine hkept (ht.imp_right fun ⟨o, ho, f', hf', hne⟩ => ⟨o, ?_, f', hf', hne⟩) ht
    rw [hpins] at ho
    rcases List.mem_or_eq_of_mem_set ho with hold | rfl
    · exact hold
    · cases hf'

/-- **Step.** -/
theorem pinInv_move {a : Act cfg} (h : w.PinInv) (hok : DropsUnread w a)
    (hmove : PinMove w a w') : w'.PinInv := by
  refine ⟨pinInv_word h hok hmove, ?_⟩
  have hkept : ∀ g, some g ∈ w.guards → PinHeld w' g.blockIdx := fun g hg =>
    (h.guard g hg).kept (Or.inr ⟨g, hg, rfl⟩) hok hmove
  cases hmove with
  | same hpins hwords hguards => exact fun g hg => hkept g (hguards g hg)
  | «open» hpins hwords hguards | pin k h f b ha hf hnew hlt hpins hblock hseq hguards
  | publish t f hf hpinned hpins hblock hseq hguards
  | drop k f ha hf hpins hwords hguards => exact fun g hg => hkept g (hguards ▸ hg)
  | guard t g hpublished hg hpins hwords hguards =>
    intro g' hg'
    rw [hguards] at hg'
    rcases List.mem_append.mp hg' with hold | hnew
    · exact hkept g' hold
    · cases Option.some.inj (List.mem_singleton.mp hnew)
      rw [hg]
      exact (h.word t (Or.inl hpublished)).kept (Or.inl ⟨t, Or.inl hpublished, rfl⟩) hok
        (.guard t g hpublished hg hpins hwords hguards)

theorem dropsUnread_expands : Expands (DropsUnread : World cfg → Act cfg → Prop) :=
  .of_parts (fun _ _ _ => trivial) (fun _ _ _ _ => trivial) (fun _ _ _ => trivial)
    (fun _ _ => trivial) (fun _ _ => trivial)

/-- **Run.** -/
theorem pinInv_run {id : Nat} {as : List (Act cfg)}
    (hrun : Run step DropsUnread (create cfg id) as w) : w.Counts (2 ^ 32) ∧ w.PinInv := by
  have hstart : (create cfg id).PinInv := by
    refine ⟨fun t ht => ?_, nofun⟩
    rcases ht with hseq | ⟨o, ho, f, hf, hne⟩
    · exact absurd rfl hseq
    · cases List.mem_singleton.mp ho
      cases hf
      exact absurd rfl hne
  obtain ⟨hI, -, hP⟩ := books_run dropsUnread_expands
    (fun _ hL hP hok _ hmove => pinInv_move hP hok (pinMove_move hL hmove)) hrun hstart
  exact ⟨hI, hP⟩

/-- **A readable pinned block is not reused.** In every state that whole calls can reach, as
    long as a publisher is dropped only when none of its pinned blocks is in a live guard or the
    word of a topic that has a pinned publish or that another publisher has pinned: a block of a
    live `PinnedGuard`, or of one that `try_recv_pinned` of a stream would return, is not on the
    free list, in a cache, in `last_freed`, in a live loan or in a ring entry. -/
theorem pinned_block_not_reused {id : Nat} {as : List (Act cfg)}
    (hrun : Run step DropsUnread (create cfg id) as w) {b : Nat}
    (hread : (∃ g, some g ∈ w.guards ∧ g.blockIdx = b) ∨
      ∃ s shm s' g, s ∈ w.streams ∧ s.tryRecvPinned w.shm = some (shm, s', g) ∧
        g.blockIdx = b) :
    (∃ l, w.shm.pool.Chain l ∧ b ∉ l) ∧ w.cached b = 0 ∧ w.recycled b = 0 ∧ w.loaned b = 0 ∧
      w.shm.inRing b = 0 := by
  obtain ⟨hI, hP⟩ := pinInv_run hrun
  refine PinHeld.alone hI ?_
  rcases hread with ⟨g, hg, rfl⟩ | ⟨s, shm, s', g, _, hrecv, rfl⟩
  · exact hP.guard g hg
  · obtain ⟨hnext, _, _, rfl⟩ := Stream.tryRecvPinned_inv hrecv
    exact hP.word s.topic (Or.inl hnext.published)

/-- Publisher 1 pins block 3 of a topic, publishes nothing and is dropped; then publisher 0
    pins the block and publishes, and a stream reads it. -/
def pinnedSteps : List (Act oneSlot) :=
  [.register 0 [47], .waitForPeer [47], .open 6, .register 1 [47],
    .loanPinned 1 ⟨oneSlot.topic0, 6⟩, .dropLoan 1, .dropPublisher 1,
    .loanPinned 0 ⟨oneSlot.topic0, 5⟩, .edit 0 (.setData [1, 2]), .publishLoan 0,
    .tryRecvPinned 0]

/-- Dropping the publisher whose block is the word of the topic is harmless as long as nobody
    has published there. -/
theorem pinned_block_not_reused_read : ∃ w : World oneSlot,
    Run step DropsUnread (create oneSlot 5) pinnedSteps w ∧
    (∃ g, some g ∈ w.guards ∧ g.blockIdx = 3) ∧
    (∃ l, w.shm.pool.Chain l ∧ 3 ∉ l) ∧ w.cached 3 = 0 ∧ w.recycled 3 = 0 ∧ w.loaned 3 = 0 ∧
      w.shm.inRing 3 = 0 := by
  obtain ⟨w, hrun, _, ho, g, rfl, hblock⟩ := exists_run_of_exec step DropsUnread
    (s := create oneSlot 5) (l := pinnedSteps)
    (p := fun w => ∃ o ∈ w.guards, ∃ g ∈ o, g.blockIdx = 3) (by decide +kernel)
  exact ⟨w, hrun, ⟨g, ho, hblock⟩, pinned_block_not_reused hrun (Or.inl ⟨g, ho, hblock⟩)⟩

/-- The publisher of the block is dropped instead, and another one takes a block. -/
def droppedSteps : List (Act oneSlot) :=
  [.register 0 [47], .waitForPeer [47], .loanPinned 0 ⟨oneSlot.topic0, 5⟩,
    .edit 0 (.setData [1, 2]),
    .publishLoan 0, .open 6, .dropPublisher 0, .loan 1 ⟨oneSlot.topic0, 6⟩]

/-- **A dropped publisher frees a readable block.** The publisher of block 3 is dropped before
    the stream has read it, and another publisher takes the block for a loan: the stream's
    `try_recv_pinned` returns a guard for it. -/
theorem dropped_publisher_frees_readable_block : ∃ (w : World oneSlot) (s : Stream oneSlot)
    (shm : Shm oneSlot) (s' : Stream oneSlot) (g : PinnedGuard oneSlot),
    Run step (fun _ _ => True) (create oneSlot 5) droppedSteps w ∧ s ∈ w.streams ∧
      s.tryRecvPinned w.shm = some (shm, s', g) ∧ g.blockIdx = 3 ∧ w.loaned 3 = 1 := by
  obtain ⟨w, hrun, hloan, s, hs, r, hrecv, hblock⟩ := exists_run_of_exec step (fun _ _ => True)
    (s := create oneSlot 5) (l := droppedSteps) (p := fun w => w.loaned 3 = 1 ∧
      ∃ s ∈ w.streams, ∃ r ∈ s.tryRecvPinned w.shm, r.2.2.blockIdx = 3) (by decide +kernel)
  exact ⟨w, s, r.1, r.2.1, r.2.2, hrun, hs, hrecv, hblock, hloan⟩

/-! ### One block for a topic -/

/-- The pinned blocks of every publisher are those of the topic entries. -/
def World.Agree (w : World cfg) : Prop :=
  ∀ f t, some f ∈ w.pins → f t ≠ noBlock → f t = (w.shm.topic t).pinnedBlock

/-- A publisher pins a topic only when no other live publisher has. -/
def PinsAlone (w : World cfg) (a : Act cfg) : Prop :=
  match a with
  | .loanPinned k h => ∀ i < w.pubs.length, i ≠ k →
      ∀ o ∈ w.pubs[i]?, ∀ p ∈ o, p.pinnedBlocks h.topicIdx = noBlock
  | _ => True

instance (w : World cfg) (a : Act cfg) : Decidable (PinsAlone w a) :=
  match a with
  | .loanPinned .. => inferInstanceAs (Decidable (∀ i < w.pubs.length, _))
  | .open .. | .register .. | .registerTyped .. => .isTrue trivial
  | .loan .. | .loanTyped .. | .dropPublisher .. => .isTrue trivial
  | .edit .. | .publishLoan .. | .dropLoan .. | .publish .. | .publishTyped .. => .isTrue trivial
  | .subscribe .. | .waitForPeer .. | .tryRecv .. | .tryRecvTyped .. => .isTrue trivial
  | .dropSample .. | .tryRecvPinned .. | .dropGuard .. => .isTrue trivial

/-- **Step.** -/
theorem agree_move {a : Act cfg} (h : w.Agree) (hok : PinsAlone w a) (hmove : PinMove w a w') :
    w'.Agree := by
  intro f t hf hne
  cases hmove with
  | same hpins hwords | guard t' g hpublished hg hpins hwords =>
    rw [hwords.block]
    exact h f t (hpins ▸ hf) hne
  | «open» hpins hwords hguards =>
    rw [hpins] at hf
    rw [hwords.block]
    rcases List.mem_append.mp hf with hold | hnew
    · exact h f t hold hne
    · cases Option.some.inj (List.mem_singleton.mp hnew)
      exact absurd rfl hne
  | pin k hd f₀ b ha hf₀ hnew hlt hpins hblock hseq hguards =>
    subst ha
    rw [hpins] at hf
    rw [hblock]
    obtain ⟨i, hi⟩ := List.mem_iff_getElem?.mp hf
    by_cases hik : k = i
    · -- the publisher that pins: its new block is the new word
      subst hik
      rw [List.getElem?_set_self (List.getElem?_eq_some_iff.mp hf₀).1] at hi
      cases Option.some.inj (Option.some.inj hi)
      split
      · rename_i ht
        rw [ht, update_self]
      · rename_i ht
        rw [update_of_ne ht] at hne ⊢
        exact h f₀ t (List.mem_of_getElem? hf₀) hne
    · -- the others have not pinned this topic
      rw [List.getElem?_set_ne hik] at hi
      split
      · rename_i ht
        unfold World.pins at hi
        rw [List.getElem?_map] at hi
        obtain ⟨o, ho, hmap⟩ := Option.map_eq_some_iff.mp hi
        obtain ⟨p, rfl, rfl⟩ := Option.map_eq_some_iff.mp hmap
        have hlen := (List.getElem?_eq_some_iff.mp ho).1
        exact absurd (ht ▸ hok i hlen (Ne.symm hik) (some p) ho p rfl) hne
      · exact h f t (List.mem_of_getElem? hi) hne
  | publish t' f' hf' hpinned hpins hblock hseq hguards =>
    rw [hblock]
    exact h f t (hpins ▸ hf) hne
  | drop k f' ha hf' hpins hwords hguards =>
    rw [hpins] at hf
    rw [hwords.block]
    rcases List.mem_or_eq_of_mem_set hf with hold | heq
    · exact h f t hold hne
    · cases heq

theorem pinsAlone_expands : Expands (PinsAlone : World cfg → Act cfg → Prop) :=
  .of_parts (fun _ _ _ => trivial) (fun _ _ _ _ => trivial) (fun _ _ _ => trivial)
    (fun _ _ => trivial) (fun _ _ => trivial)

theorem agree_create (id : Nat) : (create cfg id).Agree := by
  intro f t hf hne
  cases Option.some.inj (List.mem_singleton.mp hf)
  exact absurd rfl hne

/-- **Run.** -/
theorem agree_run {id : Nat} {as : List (Act cfg)}
    (hrun : Run step PinsAlone (create cfg id) as w) :
    w.Counts (2 ^ 32) ∧ w.LoansOk ∧ w.Agree :=
  books_run pinsAlone_expands
    (fun _ hL hA hok _ hmove => agree_move hA hok (pinMove_move hL hmove)) hrun (agree_create id)

/-- The packed word of `commit_pinned`: the number modulo `2 ^ 32` above, the length below. -/
theorem packed_eq (q : Nat) {len : Nat} (hlen : len < 2 ^ 32) :
    ((q &&& 0xFFFFFFFF) <<< 32) ||| len = (q % 2 ^ 32) * 2 ^ 32 + len := by
  have hmask : q &&& 0xFFFFFFFF = q % 2 ^ 32 := Nat.and_two_pow_sub_one_eq_mod q 32
  rw [hmask, ← Nat.shiftLeft_add_eq_or_of_lt hlen, Nat.shiftLeft_eq]

theorem packed_seq (q : Nat) {len : Nat} (hlen : len < 2 ^ 32) :
    (((q &&& 0xFFFFFFFF) <<< 32) ||| len) >>> 32 = q % 2 ^ 32 := by
  rw [packed_eq q hlen, Nat.shiftRight_eq_div_pow]
  omega

theorem packed_len (q : Nat) {len : Nat} (hlen : len < 2 ^ 32) :
    wrap32 (((q &&& 0xFFFFFFFF) <<< 32) ||| len) = len := by
  rw [packed_eq q hlen]
  unfold wrap32
  omega

/-- What a stream of the topic gets after a pinned publish, when the word of the topic is the block
    of the loan: the position of the stream is compared with the low 32 bits of the number. -/
theorem publishPinned_recv {l : Loan cfg} {shm : Shm cfg} {s : Stream cfg}
    (hlen : l.len ≤ cfg.dataCapacity) (hblock : (shm.topic l.topic).pinnedBlock = l.blockIdx)
    (hb : l.blockIdx < cfg.blockCount) (hs : s.topic = l.topic) :
    s.tryRecvPinned (l.publishPinned shm) =
      if s.lastSeq < shm.nextSeq l.topic % 2 ^ 32 then
        some ((l.publishPinned shm).setReaders l.topic 1,
          { s with lastSeq := shm.nextSeq l.topic % 2 ^ 32 },
          ⟨l.topic, shm.nextSeq l.topic % 2 ^ 32, l.blockIdx, l.len⟩)
      else none := by
  have hword := packed_eq (shm.nextSeq l.topic) (len_lt hlen)
  have hupper := packed_seq (shm.nextSeq l.topic) (len_lt hlen)
  have hlower := packed_len (shm.nextSeq l.topic) (len_lt hlen)
  unfold Stream.tryRecvPinned
  dsimp only
  rw [hs, l.publishPinned_topic]
  simp only [hblock, hupper, hlower]
  by_cases hlt : s.lastSeq < shm.nextSeq l.topic % 2 ^ 32
  · rw [if_pos hlt, if_neg (by omega), if_neg (by omega), if_neg (ne_noBlock hb),
      if_neg (by omega), if_neg (by decide)]
    rfl
  · rw [if_neg hlt]
    split
    · rfl
    · exact if_pos (Nat.le_of_not_lt hlt)

/-- A stream that is not ahead of the topic reads a pinned publish next, when its number fits in
    32 bits and the word of the topic is the block of the loan. -/
theorem publishPinned_read {l : Loan cfg} {shm : Shm cfg} {s : Stream cfg}
    (hlen : l.len ≤ cfg.dataCapacity) (hblock : (shm.topic l.topic).pinnedBlock = l.blockIdx)
    (hb : l.blockIdx < cfg.blockCount) (hs : s.topic = l.topic)
    (hseq : s.lastSeq ≤ (shm.topic l.topic).writeSeq)
    (hfit : (shm.topic l.topic).writeSeq + 1 < 2 ^ 32) :
    ∃ shm' s' g, s.tryRecvPinned (l.publishPinned shm) = some (shm', s', g) ∧
      g.blockIdx = l.blockIdx ∧ g.len = l.len ∧
      shm'.data g.blockIdx = shm.data l.blockIdx := by
  have hnext : shm.nextSeq l.topic = (shm.topic l.topic).writeSeq + 1 := wrap64_of_lt (by omega)
  have hlt : s.lastSeq < shm.nextSeq l.topic % 2 ^ 32 := by
    rw [hnext, Nat.mod_eq_of_lt hfit]
    omega
  rw [publishPinned_recv hlen hblock hb hs, if_pos hlt]
  exact ⟨_, _, _, rfl, rfl, rfl, rfl⟩

/-- **Publishers agree on the pinned block.** In every state that whole calls can reach, as
    long as a publisher pins a topic only when no other live publisher has: a pinned block of
    a publisher is the word of its topic, and what a publisher publishes in a `PinnedLoan`,
    with a number below `2 ^ 32`, is what a stream of the topic reads next. -/
theorem publishers_agree {id : Nat} {as : List (Act cfg)}
    (hrun : Run step PinsAlone (create cfg id) as w) :
    (∀ p t, some p ∈ w.pubs → p.pinnedBlocks t ≠ noBlock →
      p.pinnedBlocks t = (w.shm.topic t).pinnedBlock) ∧
    ∀ (k : Nat) (p : Publisher cfg) (l : Loan cfg) (w' : World cfg) (s : Stream cfg),
      w.pubs[k]? = some (some p) → p.borrow = some l → l.kind = .pinned →
      step w (.publishLoan k) = some w' → s.topic = l.topic →
      s.lastSeq ≤ (w.shm.topic l.topic).writeSeq → (w.shm.topic l.topic).writeSeq + 1 < 2 ^ 32 →
      ∃ shm s' g, s.tryRecvPinned w'.shm = some (shm, s', g) ∧ g.blockIdx = l.blockIdx ∧
        g.len = l.len ∧ shm.data g.blockIdx = w.shm.data l.blockIdx := by
  obtain ⟨hI, hL, hA⟩ := agree_run hrun
  have hagree : ∀ p t, some p ∈ w.pubs → p.pinnedBlocks t ≠ noBlock →
      p.pinnedBlocks t = (w.shm.topic t).pinnedBlock := fun p t hp hne =>
    hA p.pinnedBlocks t (List.mem_map.mpr ⟨some p, hp, rfl⟩) hne
  refine ⟨hagree, fun k p l w' s hp hborrow hkind hstep hs hseq hfit => ?_⟩
  have hloan := hL p l (List.mem_of_getElem? hp) hborrow
  obtain ⟨hne, hpinned⟩ := hloan.pinned hkind
  have hword := hagree p l.topic (List.mem_of_getElem? hp) (hpinned ▸ hne)
  have hpublish : l.publish w.shm { p with borrow := none } =
      (l.publishPinned w.shm, { p with borrow := none }) := by
    simp only [Loan.publish, hkind]
  rw [step_publishLoan hp hborrow, hpublish] at hstep
  cases hstep
  exact publishPinned_read hloan.len (hword.symm.trans hpinned)
    (hI.lt_of_held (held_of_loan hL hp hborrow)) hs hseq hfit

/-- The second topic. -/
def topic1 : twoTopics.Topic := ⟨1, Nat.lt_succ_self 1⟩

/-- Two publishers pin a topic each: the second one has published in block 3, the first one has a
    pinned loan of block 2. -/
def loanedSteps : List (Act twoTopics) :=
  [.register 0 [47], .register 0 [48], .waitForPeer [47], .loan 0 ⟨twoTopics.topic0, 5⟩,
    .dropLoan 0, .open 6, .loanPinned 1 ⟨topic1, 6⟩, .edit 1 (.setData [9]), .publishLoan 1,
    .loanPinned 0 ⟨twoTopics.topic0, 5⟩, .edit 0 (.setData [1, 2])]

/-- The publish of the first one is what a stream reads. -/
theorem publishers_agree_loaned : ∃ w w' : World twoTopics,
    Run step PinsAlone (create twoTopics 5) loanedSteps w ∧ step w (.publishLoan 0) = some w' ∧
    (w.shm.topic twoTopics.topic0).pinnedBlock = 2 ∧ (w.shm.topic topic1).pinnedBlock = 3 ∧
    ∃ shm s' g, Stream.tryRecvPinned ⟨twoTopics.topic0, 0, 0, []⟩ w'.shm = some (shm, s', g) ∧
      g.blockIdx = 2 ∧ g.len = 2 ∧ shm.data g.blockIdx = w.shm.data 2 := by
  obtain ⟨w, hrun, hword, hother, hseq, _, hp, p, rfl, hborrow⟩ := exists_run_of_exec step
    PinsAlone (s := create twoTopics 5) (l := loanedSteps)
    (p := fun w => (w.shm.topic twoTopics.topic0).pinnedBlock = 2 ∧
      (w.shm.topic topic1).pinnedBlock = 3 ∧ (w.shm.topic twoTopics.topic0).writeSeq = 0 ∧
      ∃ o ∈ w.pubs[0]?, ∃ p ∈ o, p.borrow = some ⟨.pinned, twoTopics.topic0, 2, 2⟩)
    (by decide +kernel)
  have hstep := step_publishLoan hp hborrow
  obtain ⟨_, hread⟩ := publishers_agree hrun
  exact ⟨w, _, hrun, hstep, hword, hother, hread 0 p _ _ ⟨twoTopics.topic0, 0, 0, []⟩ hp hborrow rfl
    hstep rfl (Nat.zero_le _) (by rw [hseq]; norm_num)⟩

/-- Two publishers pin the topic: the second publishes in block 3, then the first pins block 2
    and publishes, then the second publishes again. -/
def twoPinSteps : List (Act oneSlot) :=
  [.register 0 [47], .waitForPeer [47], .loan 0 ⟨oneSlot.topic0, 5⟩, .dropLoan 0, .open 6,
    .loanPinned 1 ⟨oneSlot.topic0, 6⟩, .edit 1 (.setData [7]), .publishLoan 1,
    .loanPinned 0 ⟨oneSlot.topic0, 5⟩, .edit 0 (.setData [8]), .publishLoan 0,
    .loanPinned 1 ⟨oneSlot.topic0, 6⟩, .edit 1 (.setData [9]), .publishLoan 1]

/-- **The second publisher moves the word.** After these calls a publisher has pinned block 3
    while the word of the topic is block 2, and a stream that reads the last pinned publish,
    the byte 9 in block 3, gets the byte 8 of block 2. -/
theorem second_publisher_moves_word : ∃ (w : World oneSlot) (p : Publisher oneSlot)
    (shm : Shm oneSlot) (s' : Stream oneSlot) (g : PinnedGuard oneSlot),
    Run step (fun _ _ => True) (create oneSlot 5) twoPinSteps w ∧ some p ∈ w.pubs ∧
      p.pinnedBlocks oneSlot.topic0 = 3 ∧ (w.shm.topic oneSlot.topic0).pinnedBlock = 2 ∧
      (w.shm.lastPinned oneSlot.topic0).map (fun x => (x.1, payload x.2)) = some (3, [9]) ∧
      Stream.tryRecvPinned ⟨oneSlot.topic0, 0, 0, []⟩ w.shm = some (shm, s', g) ∧ g.seq = 3 ∧
      g.blockIdx = 2 ∧ shm.data g.blockIdx 0 = 8 := by
  obtain ⟨w, hrun, hword, hlast, ⟨_, ho, p, rfl, hpin⟩, r, hr, hseq, hblock, hdata⟩ :=
    exists_run_of_exec step (fun _ _ => True) (s := create oneSlot 5) (l := twoPinSteps)
      (p := fun w => (w.shm.topic oneSlot.topic0).pinnedBlock = 2 ∧
        (w.shm.lastPinned oneSlot.topic0).map (fun x => (x.1, payload x.2)) = some (3, [9]) ∧
        (∃ o ∈ w.pubs, ∃ p ∈ o, p.pinnedBlocks oneSlot.topic0 = 3) ∧
        ∃ r ∈ Stream.tryRecvPinned ⟨oneSlot.topic0, 0, 0, []⟩ w.shm, r.2.2.seq = 3 ∧
          r.2.2.blockIdx = 2 ∧ r.1.data r.2.2.blockIdx 0 = 8) (by decide +kernel)
  exact ⟨w, p, r.1, r.2.1, r.2.2, hrun, ho, hpin, hword, hlast, hr, hseq, hblock, hdata⟩

end Crossbar.Region
