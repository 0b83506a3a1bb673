import Crossbar.Bus.Seqlock

namespace Crossbar.Bus

open Function Crossbar.Lib

/-!
# Bus — who owns a subscriber slot

A subscriber holds its slot from the CAS of its claim to the `FREE` store of its drop.  The
stores in between are unconditional, so nothing in the slot protects the holder from the
publisher's two prune branches.

* `Sub.held` — the slot a subscriber holds, with how far it has come;
* `SlotMove` — what a step of a subscriber does to the slots, in these terms;
* `OwnInv` — every live holder is the only one, its slot says what it stored, and the publisher
  is not about to free it.  Kept by every step that is `Prompt`;
* `live_claim_pruned` / `stale_pid_frees_new_owner` — the publisher takes the slot from a live
  claimer that is slow, or from one that has just taken it over.
-/

variable {cfg : BusConfig} {W : Type}

/-! ### Stores into a slot -/

section

variable (slots : SlotIdx → SubSlot) (i : SlotIdx)

/-- A store of the word is seen in its slot. -/
@[simp] theorem setWordAt_self (w : SlotWord) :
    setWordAt slots i w i = { slots i with word := w } := update_self _ _ _

/-- A store of the pid is seen in its slot. -/
@[simp] theorem setPidAt_self (p : Nat) : setPidAt slots i p i = { slots i with pid := p } :=
  update_self _ _ _

/-- A store of the word is not seen in another slot. -/
theorem setWordAt_of_ne (w : SlotWord) {j : SlotIdx} (h : j ≠ i) :
    setWordAt slots i w j = slots j := update_of_ne h _ _

/-- A store of a pid leaves all words as they are. -/
theorem setPidAt_word (p : Nat) (j : SlotIdx) : (setPidAt slots i p j).word = (slots j).word := by
  by_cases hj : j = i
  · subst hj
    rw [setPidAt_self]
  · rw [setPidAt, update_of_ne hj]

/-- A store of a word leaves all pids as they are. -/
theorem setWordAt_pid (w : SlotWord) (j : SlotIdx) :
    (setWordAt slots i w j).pid = (slots j).pid := by
  by_cases hj : j = i
  · subst hj
    rw [setWordAt_self]
  · rw [setWordAt, update_of_ne hj]

/-- A store of the pid is not seen in another slot. -/
theorem setPidAt_of_ne (p : Nat) {j : SlotIdx} (h : j ≠ i) : setPidAt slots i p j = slots j :=
  update_of_ne h _ _

end

/-! ### Holding a slot -/

/-- `connect` has returned, and `drop` has not stored `FREE` yet. -/
def SubPc.connected : SubPc cfg W → Bool
  | .rest | .stamp | .read _ _ _ | .restamp _ _ | .update _ _ | .release _ => true
  | _ => false

/-- The clock a running claim has read. -/
def SubPc.claimTime : SubPc cfg W → Option Nat
  | .claim _ ts | .storePid _ ts | .activate _ ts => some ts
  | _ => none

/-- How far a holder has come: the claim, at clock `ts`, with or without its pid stored, or
    `ACTIVE`. -/
inductive Phase where
  | claimed (ts : Nat) (pidStored : Bool)
  | joined

/-- The slot that a subscriber holds. -/
def Sub.held (m : Sub cfg W) : Option (SlotIdx × Phase) :=
  match m.pc with
  | .storePid i ts => some (i, .claimed ts false)
  | .activate i ts => some (i, .claimed ts true)
  | pc => if pc.connected then m.slotIndex.map (fun i => (i, .joined)) else none

/-- What the slot of a holder contains.  The pid may have been cleared by somebody who freed
    the slot earlier. -/
def Phase.Owns (slots : SlotIdx → SubSlot) (pid cursor : Nat) (i : SlotIdx) : Phase → Prop
  | .claimed ts stored => (slots i).word = .claiming (value62 ts) ∧
      (stored = true → (slots i).pid = pid ∨ (slots i).pid = 0)
  | .joined => (∃ v, (slots i).word = .active v ∧ v ≤ cursor) ∧
      ((slots i).pid = pid ∨ (slots i).pid = 0)

/-- `slot_index` is set when `connect` returns. -/
def SubPc.SlotLocal (slot : Option SlotIdx) : SubPc cfg W → Prop
  | .connect | .clock _ | .claim _ _ | .storePid _ _ | .activate _ _ => slot = none
  | .update i _ | .release i => slot = some i
  | _ => True

/-- A connected subscriber has joined its slot. -/
theorem Sub.held_connected {m : Sub cfg W} {i : SlotIdx} (hc : m.pc.connected = true)
    (hi : m.slotIndex = some i) : m.held = some (i, .joined) := by
  unfold Sub.held
  rw [hi]
  split
  · rename_i h
    rw [h] at hc
    cases hc
  · rename_i h
    rw [h] at hc
    cases hc
  · rw [if_pos hc]
    rfl

/-- Who holds a claim remembers its time. -/
theorem Sub.held_claimed {m : Sub cfg W} {i : SlotIdx} {ts : Nat} {stored : Bool}
    (h : m.held = some (i, .claimed ts stored)) : m.pc.claimTime = some ts := by
  unfold Sub.held at h
  split at h
  · rename_i hpc
    cases h
    rw [hpc]
    rfl
  · rename_i hpc
    cases h
    rw [hpc]
    rfl
  · split at h
    · rw [Option.map_eq_some_iff] at h
      obtain ⟨_, _, heq⟩ := h
      cases heq
    · cases h

/-- Who holds a slot is not gone. -/
theorem Sub.held_present {m : Sub cfg W} {x : SlotIdx × Phase} (h : m.held = some x) :
    m.pc.present = true := by
  unfold Sub.held at h
  cases hpc : m.pc <;> rw [hpc] at h <;> first | rfl | cases h

/-- Only a connected subscriber has joined a slot. -/
theorem Sub.held_joined {m : Sub cfg W} {i : SlotIdx} (h : m.held = some (i, .joined)) :
    m.pc.connected = true ∧ m.slotIndex = some i := by
  unfold Sub.held at h
  split at h
  · cases h
  · cases h
  · split at h
    · rename_i hc
      rw [Option.map_eq_some_iff] at h
      obtain ⟨_, hi, heq⟩ := h
      cases heq
      exact ⟨hc, hi⟩
    · cases h

/-- A subscriber that is not claiming holds what its `slot_index` says. -/
theorem Sub.held_of_connected {m m' : Sub cfg W} (hc : m.pc.connected = true)
    (hslot : m'.slotIndex = m.slotIndex) (hclaim : m'.pc.claimTime = none)
    {x : SlotIdx × Phase} (h : m'.held = some x) : m.held = some x := by
  obtain ⟨i, ph⟩ := x
  cases ph with
  | claimed ts stored =>
    rw [Sub.held_claimed h] at hclaim
    cases hclaim
  | joined =>
    refine Sub.held_connected hc ?_
    rw [← hslot]
    exact (Sub.held_joined h).2

/-- A slot that nobody touches stays owned, while the cursor grows. -/
theorem Phase.Owns.frame {slots slots' : SlotIdx → SubSlot} {pid c c' : Nat} {i : SlotIdx}
    {ph : Phase} (h : ph.Owns slots pid c i) (hi : slots' i = slots i) (hc : c ≤ c') :
    ph.Owns slots' pid c' i := by
  cases ph with
  | claimed ts stored =>
    unfold Phase.Owns at h ⊢
    rw [hi]
    exact h
  | joined =>
    obtain ⟨⟨v, hv, hle⟩, hpid⟩ := h
    refine ⟨⟨v, ?_, le_trans hle hc⟩, ?_⟩
    · rw [hi]
      exact hv
    · rw [hi]
      exact hpid

/-- A late clear of the pid. -/
theorem Phase.Owns.clear {slots : SlotIdx → SubSlot} {pid c : Nat} {i : SlotIdx} {ph : Phase}
    (h : ph.Owns slots pid c i) (j : SlotIdx) : ph.Owns (setPidAt slots j 0) pid c i := by
  by_cases hij : i = j
  · subst hij
    cases ph with
    | claimed ts stored =>
      refine ⟨?_, fun _ => Or.inr ?_⟩
      · rw [setPidAt_self]
        exact h.1
      · rw [setPidAt_self]
    | joined =>
      refine ⟨?_, Or.inr ?_⟩
      · rw [setPidAt_self]
        exact h.1
      · rw [setPidAt_self]
  · exact h.frame (setPidAt_of_ne _ _ _ hij) le_rfl

/-! ### What a subscriber does to the slots -/

/-- A step of a subscriber, by what it does to the slot that it holds. -/
inductive SlotMove (pid : Nat) (slots : SlotIdx → SubSlot) (m m' : Sub cfg W) :
    (SlotIdx → SubSlot) → Prop
  /-- nothing is stored; the slot, if any, stays held -/
  | keep : (∀ x, m'.held = some x → m.held = some x ∧ m.cursor ≤ m'.cursor) →
      (∀ i, m'.pc ≠ .clearPid i) → SlotMove pid slots m m' slots
  | claim {i : SlotIdx} {ts : Nat} : m.pc = .claim i ts → (slots i).word = .free →
      m'.held = some (i, .claimed ts false) →
      SlotMove pid slots m m' (setWordAt slots i (.claiming (value62 ts)))
  | storePid {i : SlotIdx} {ts : Nat} : m.held = some (i, .claimed ts false) →
      m'.held = some (i, .claimed ts true) → SlotMove pid slots m m' (setPidAt slots i pid)
  /-- the last step of `connect`, or the cursor update of `try_recv` -/
  | active {i : SlotIdx} {ph : Phase} : m.held = some (i, ph) → (∀ ts, ph ≠ .claimed ts false) →
      m'.held = some (i, .joined) →
      SlotMove pid slots m m' (setWordAt slots i (.active (value62 m'.cursor)))
  | release {i : SlotIdx} : m.held = some (i, .joined) → m'.pc = .clearPid i →
      SlotMove pid slots m m' (setWordAt slots i .free)
  | clearPid {i : SlotIdx} : m.pc = .clearPid i → m'.pc = .gone →
      SlotMove pid slots m m' (setPidAt slots i 0)

/-- A step of `try_recv` that stores nothing into the slots. -/
structure Quiet (m m' : Sub cfg W) : Prop where
  slot : m'.slotIndex = m.slotIndex
  pc : m'.pc.connected = true ∨ m'.pc = .fault
  here : m'.pc.SlotLocal m'.slotIndex
  cursor : m.cursor ≤ m'.cursor

/-- No claim is pending after such a step. -/
theorem Quiet.claim {m m' : Sub cfg W} (h : Quiet m m') : m'.pc.claimTime = none := by
  rcases h.pc with hc | hf
  · cases hpc : m'.pc <;> rw [hpc] at hc <;> first | rfl | cases hc
  · rw [hf]
    rfl

/-- No pid is about to be cleared after such a step. -/
theorem Quiet.clear {m m' : Sub cfg W} (h : Quiet m m') (i : SlotIdx) : m'.pc ≠ .clearPid i := by
  intro hpc
  rcases h.pc with hc | hf
  · rw [hpc] at hc
    cases hc
  · rw [hpc] at hf
    cases hf

/-- Such a step keeps the slot. -/
theorem Quiet.move {m m' : Sub cfg W} (h : Quiet m m') (hc : m.pc.connected = true) (pid : Nat)
    (slots : SlotIdx → SubSlot) : SlotMove pid slots m m' slots :=
  .keep (fun _ hx => ⟨Sub.held_of_connected hc h.slot h.claim hx, h.cursor⟩) h.clear

/-- `try_recv` returns. -/
theorem ret_quiet (m : Sub cfg W) (r : Option (cfg.Value W)) : Quiet m (m.ret r) :=
  ⟨rfl, Or.inl rfl, trivial, le_rfl⟩

/-- `try_recv` goes on to the next word, or to the second load of the stamp. -/
theorem readNext_quiet (m : Sub cfg W) (s k : Nat) (buf : cfg.Value W) :
    Quiet m (m.readNext s k buf) := by
  unfold Sub.readNext
  split <;> exact ⟨rfl, Or.inl rfl, trivial, le_rfl⟩

/-- `checked_sub` succeeds only without underflow. -/
theorem checkedSub_eq_some {a b c : Nat} (h : checkedSub a b = some c) : b ≤ a := by
  unfold checkedSub at h
  split at h
  · assumption
  · cases h

/-- The first step of `try_recv`: a lagging cursor moves forward only. -/
theorem recvStart_quiet (mem : Mem cfg W) (m : Sub cfg W) : Quiet m (recvStart mem m) := by
  have hfault : ∀ x, Quiet m { m with pc := .fault, call := x } :=
    fun x => ⟨rfl, Or.inr rfl, trivial, le_rfl⟩
  unfold recvStart
  simp only
  split
  · exact ⟨rfl, Or.inl rfl, trivial, le_rfl⟩
  · split
    · exact hfault _
    · split
      · split
        · exact hfault _
        · split
          · exact hfault _
          · rename_i hskip
            exact ⟨rfl, Or.inl rfl, trivial, checkedSub_eq_some hskip⟩
      · exact ⟨rfl, Or.inl rfl, trivial, le_rfl⟩

/-- The last step of `try_recv`, below the largest cursor. -/
theorem recvEnd_quiet {m : Sub cfg W} (hlt : m.cursor + 1 < 2 ^ 64) (s : Nat)
    (buf : cfg.Value W) : Quiet m (recvEnd m s buf) := by
  have hfault : Quiet m { m with pc := .fault } := ⟨rfl, Or.inr rfl, trivial, le_rfl⟩
  have hnext : m.cursor ≤ wrap64 (m.cursor + 1) := by
    rw [wrap64_of_lt hlt]
    exact Nat.le_succ _
  unfold recvEnd
  split
  · simp only
    split
    · rename_i i hi
      exact ⟨rfl, Or.inl rfl, hi, hnext⟩
    · exact ⟨rfl, Or.inl rfl, trivial, hnext⟩
  · split
    · exact hfault
    · split
      · exact hfault
      · rename_i hskip
        exact ⟨rfl, Or.inl rfl, trivial, checkedSub_eq_some hskip⟩

/-- A step to a program counter that holds nothing. -/
theorem SlotMove.none {pid : Nat} {slots : SlotIdx → SubSlot} {m m' : Sub cfg W}
    (hheld : m'.held = none) (hclear : ∀ i, m'.pc ≠ .clearPid i) :
    SlotMove pid slots m m' slots := by
  refine .keep (fun x hx => ?_) hclear
  rw [hheld] at hx
  cases hx

/-- **Slots.** Every step of a subscriber is one of the moves. -/
theorem SubStep.slotMove [Inhabited W] {S : Type} {pid : Nat} {st : State cfg W S}
    {m m' : Sub cfg W} {slots : SlotIdx → SubSlot} (h : SubStep pid st m slots m')
    (hlt : m.cursor + 1 < 2 ^ 64)
    (hloc : m.pc.SlotLocal m.slotIndex) :
    SlotMove pid st.slots m m' slots ∧ m'.pc.SlotLocal m'.slotIndex := by
  cases h with
  | load hpc =>
    rw [hpc] at hloc
    have hslot : m.slotIndex = none := hloc
    cases hw : cfg.watermark.isSome with
    | true => exact ⟨.none rfl nofun, hslot⟩
    | false =>
      refine ⟨.none ?_ nofun, trivial⟩
      simp only [Sub.held, hslot]
      rfl
  | clock hpc =>
    rw [hpc] at hloc
    exact ⟨.none rfl nofun, hloc⟩
  | claim hpc hfree =>
    rw [hpc] at hloc
    exact ⟨.claim hpc hfree rfl, hloc⟩
  | taken hpc _ =>
    rw [hpc] at hloc
    unfold Sub.claimNext
    split
    · exact ⟨.none rfl nofun, hloc⟩
    · exact ⟨.none rfl nofun, trivial⟩
  | @storePid i ts hpc =>
    rw [hpc] at hloc
    have hheld : m.held = some (i, .claimed ts false) := by simp only [Sub.held, hpc]
    exact ⟨.storePid hheld rfl, hloc⟩
  | @activate i ts hpc =>
    have hheld : m.held = some (i, .claimed ts true) := by simp only [Sub.held, hpc]
    exact ⟨.active hheld nofun rfl, trivial⟩
  | recv hpc =>
    have hq := recvStart_quiet st.mem m
    exact ⟨hq.move (by rw [hpc]; rfl) _ _, hq.here⟩
  | busy hpc | torn hpc =>
    have hq := ret_quiet m none
    exact ⟨hq.move (by rw [hpc]; rfl) _ _, hq.here⟩
  | stamp hpc _ _ =>
    have hq := readNext_quiet m (st.mem.ring (cfg.slotOf m.cursor)).stamp 0 default
    exact ⟨hq.move (by rw [hpc]; rfl) _ _, hq.here⟩
  | @read s k buf hpc =>
    have hq := readNext_quiet m s (k + 1)
      (Function.update buf k ((st.mem.ring (cfg.slotOf m.cursor)).data k))
    exact ⟨hq.move (by rw [hpc]; rfl) _ _, hq.here⟩
  | @whole s buf hpc _ =>
    have hq := recvEnd_quiet hlt s buf
    exact ⟨hq.move (by rw [hpc]; rfl) _ _, hq.here⟩
  | @update i v hpc =>
    rw [hpc] at hloc
    have hheld : m.held = some (i, .joined) := Sub.held_connected (by rw [hpc]; rfl) hloc
    exact ⟨.active hheld nofun (Sub.held_connected rfl hloc), trivial⟩
  | @leave i hpc hslot =>
    have hq : Quiet m { m with pc := .release i } := ⟨rfl, Or.inl rfl, hslot, le_rfl⟩
    exact ⟨hq.move (by rw [hpc]; rfl) _ _, hslot⟩
  | leaveOpen hpc _ => exact ⟨.none rfl nofun, trivial⟩
  | @release i hpc =>
    rw [hpc] at hloc
    exact ⟨.release (Sub.held_connected (by rw [hpc]; rfl) hloc) rfl, trivial⟩
  | clearPid hpc => exact ⟨.clearPid hpc rfl, trivial⟩

/-- A claim's clock stays, or is read by this step. -/
theorem SubStep.claimTime [Inhabited W] {S : Type} {pid : Nat} {st : State cfg W S}
    {m m' : Sub cfg W} {slots : SlotIdx → SubSlot} (h : SubStep pid st m slots m') {ts : Nat}
    (hts : m'.pc.claimTime = some ts) :
    m.pc.claimTime = some ts ∨ (∃ i, m.pc = .clock i) ∧ ts = st.now := by
  have hquiet : ∀ {x : Sub cfg W}, Quiet m x → x.pc.claimTime = some ts → False := by
    intro x hq hx
    rw [hq.claim] at hx
    cases hx
  cases h with
  | load hpc =>
    cases hw : cfg.watermark.isSome <;> simp only [hw] at hts <;> cases hts
  | clock hpc =>
    cases hts
    exact Or.inr ⟨⟨_, hpc⟩, rfl⟩
  | claim hpc | storePid hpc =>
    rw [hpc]
    exact Or.inl hts
  | taken hpc _ =>
    unfold Sub.claimNext at hts
    split at hts <;> cases hts
  | recv hpc => exact absurd hts (hquiet (recvStart_quiet st.mem m))
  | stamp | read => exact absurd hts (hquiet (readNext_quiet _ _ _ _))
  | @whole s buf hpc _ =>
    unfold recvEnd at hts
    split at hts
    · simp only at hts
      split at hts <;> cases hts
    · split at hts
      · cases hts
      · split at hts <;> cases hts
  | _ => cases hts

/-- Only a subscriber that is not gone makes a step. -/
theorem SubStep.present [Inhabited W] {S : Type} {pid : Nat} {st : State cfg W S}
    {m m' : Sub cfg W} {slots : SlotIdx → SubSlot} (h : SubStep pid st m slots m') :
    m.pc.present = true := by
  cases h <;> simp only [*, SubPc.present]

/-! ### Owners -/

section

variable {S : Type}

/-- The live subscriber `s` holds slot `i`. -/
def State.Holds (st : State cfg W S) (s : S) (i : SlotIdx) (ph : Phase) : Prop :=
  (st.sub s).crashed = false ∧ (st.sub s).held = some (i, ph)

/-- What the publisher may rely on between its load of a slot's word and its last store
    there. -/
def VisitPc.Ok (pid : S → Nat) (st : State cfg W S) (i : SlotIdx) : VisitPc → Prop
  | .pruneClaim ts => st.now - ts > claimTimeout
  | .loadPid _ => ∀ s ph, st.Holds s i ph → ph = .joined
  | .checkPid _ p => ∀ s ph, st.Holds s i ph → ph = .joined ∧ (p = 0 ∨ p = pid s)
  | .pruneActive => ∀ s ph, ¬ st.Holds s i ph
  | _ => True

/-- The same of the whole publisher. -/
def PubPc.Ok (pid : S → Nat) (st : State cfg W S) : PubPc cfg W → Prop
  | .scan _ sc pc => pc.Ok pid st sc.i
  | _ => True

/-- The publisher has loaded an `ACTIVE` word from slot `i` and may still store `FREE`. -/
def PubPc.pruning (i : SlotIdx) : PubPc cfg W → Bool
  | .scan _ sc (.loadPid _) | .scan _ sc (.checkPid _ _) | .scan _ sc .pruneActive => sc.i == i
  | _ => false

/-- Every live holder of a slot is the only one, and safe from the publisher. -/
structure OwnInv (pid : S → Nat) (st : State cfg W S) : Prop where
  seq : SeqInv st
  here : ∀ s, (st.sub s).crashed = false → (st.sub s).pc.SlotLocal (st.sub s).slotIndex
  alive : ∀ s, (st.sub s).pc.present = true → (st.sub s).crashed = false →
    st.alive (pid s) = true
  young : ∀ s ts, (st.sub s).crashed = false → (st.sub s).pc.claimTime = some ts →
    ts < 2 ^ 62 ∧ st.now ≤ ts + claimTimeout
  owns : ∀ s i ph, st.Holds s i ph → ph.Owns st.slots (pid s) (st.sub s).cursor i
  one : ∀ s s' i ph ph', st.Holds s i ph → st.Holds s' i ph' → s = s'
  visit : st.pub.Ok pid st

/-- An owned slot is not free. -/
theorem Phase.Owns.ne_free {slots : SlotIdx → SubSlot} {pid c : Nat} {i : SlotIdx} {ph : Phase}
    (h : ph.Owns slots pid c i) : (slots i).word ≠ .free := by
  intro hfree
  cases ph with
  | claimed ts stored =>
    rw [h.1] at hfree
    cases hfree
  | joined =>
    obtain ⟨⟨v, hv, _⟩, _⟩ := h
    rw [hv] at hfree
    cases hfree

/-! ### A step of the publisher -/

variable {pid : S → Nat} {st st' : State cfg W S}

/-- A claim that the publisher finds too old has no live claimer. -/
theorem OwnInv.old_claim (h : OwnInv pid st) {i : SlotIdx} {ts : Nat}
    (hw : (st.slots i).word = .claiming ts) (hold : st.now - ts > claimTimeout) (s : S)
    (ph : Phase) : ¬ st.Holds s i ph := by
  intro hs
  have howns := h.owns s i ph hs
  cases ph with
  | claimed ts' stored =>
    obtain ⟨hlt, hyoung⟩ := h.young s ts' hs.1 (Sub.held_claimed hs.2)
    have heq : SlotWord.claiming ts = .claiming (value62 ts') := by rw [← hw, howns.1]
    cases heq
    rw [value62, Nat.mod_eq_of_lt hlt] at hold
    omega
  | joined =>
    obtain ⟨⟨v, hv, _⟩, _⟩ := howns
    rw [hw] at hv
    cases hv

/-- A slot without a live holder is freed. -/
theorem OwnInv.owns_free (h : OwnInv pid st) {j : SlotIdx} (hj : ∀ s ph, ¬ st.Holds s j ph)
    {s : S} {i : SlotIdx} {ph : Phase} (hs : st.Holds s i ph) :
    ph.Owns (setWordAt st.slots j .free) (pid s) (st.sub s).cursor i := by
  have hne : i ≠ j := by
    rintro rfl
    exact hj s ph hs
  exact (h.owns s i ph hs).frame (setWordAt_of_ne _ _ _ hne) le_rfl

/-- One operation of the scan: live holders keep their slots. -/
theorem OwnInv.visit_step (h : OwnInv pid st) {v : cfg.Value W} {sc : Scan} {pc : VisitPc}
    {slots : SlotIdx → SubSlot} {next : VisitNext} (hp : st.pub = .scan v sc pc)
    (hvisit : Visit st.slots st.now st.alive sc pc slots next) :
    (∀ s i ph, st.Holds s i ph → ph.Owns slots (pid s) (st.sub s).cursor i) ∧
      ∀ pc', next = .stay pc' → pc'.Ok pid st sc.i := by
  have hok := h.visit
  rw [hp] at hok
  cases hvisit with
  | free | young | moved | count => exact ⟨h.owns, nofun⟩
  | claiming hw =>
    refine ⟨h.owns, ?_⟩
    rintro _ ⟨⟩
    trivial
  | active hw =>
    refine ⟨h.owns, ?_⟩
    rintro _ ⟨⟩ s ph hs
    have howns := h.owns s _ ph hs
    cases ph with
    | claimed ts stored =>
      have hclaim := howns.1
      rw [hw] at hclaim
      cases hclaim
    | joined => rfl
  | old hold =>
    refine ⟨h.owns, ?_⟩
    rintro _ ⟨⟩
    exact hold
  | prune hw =>
    refine ⟨fun s i ph hs => h.owns_free (h.old_claim hw hok) hs, ?_⟩
    rintro _ ⟨⟩
    trivial
  | pid c =>
    refine ⟨h.owns, ?_⟩
    rintro _ ⟨⟩ s ph hs
    have hjoined := hok s ph hs
    subst hjoined
    exact ⟨rfl, (h.owns s _ _ hs).2.symm⟩
  | @dead c p h0 hdead =>
    refine ⟨h.owns, ?_⟩
    rintro _ ⟨⟩ s ph hs
    -- a live holder's process is alive
    rcases (hok s ph hs).2 with hp0 | hpid
    · exact h0 hp0
    · have halive := h.alive s (Sub.held_present hs.2) hs.1
      rw [← hpid, hdead] at halive
      cases halive
  | pruneActive =>
    refine ⟨fun s i ph hs => h.owns_free hok hs, ?_⟩
    rintro _ ⟨⟩
    trivial
  | clearPid => exact ⟨fun s i ph hs => (h.owns s i ph hs).clear _, nofun⟩

/-- The publisher moves on without touching the subscribers. -/
theorem OwnInv.of_pub (h : OwnInv pid st) {mem : Mem cfg W} {slots : SlotIdx → SubSlot}
    {cached : Nat} {pub : PubPc cfg W}
    (hseq : SeqInv { st with mem := mem, slots := slots, cachedSlowest := cached, pub := pub })
    (howns : ∀ s i ph, st.Holds s i ph → ph.Owns slots (pid s) (st.sub s).cursor i)
    (hpub : pub.Ok pid st) :
    OwnInv pid { st with mem := mem, slots := slots, cachedSlowest := cached, pub := pub } where
  seq := hseq
  here := h.here
  alive := h.alive
  young := h.young
  owns := howns
  one := h.one
  visit := by
    cases pub with
    | scan v sc pc => cases pc <;> exact hpub
    | _ => trivial

/-- **Step** of the publisher. -/
theorem ownInv_pub (h : OwnInv pid st) (hseq : SeqInv st') (hst : PubStep st st') :
    OwnInv pid st' := by
  cases hst with
  | slow | fast => exact h.of_pub hseq h.owns trivial
  | stay hp hvisit =>
    obtain ⟨howns, hnext⟩ := h.visit_step hp hvisit
    exact h.of_pub hseq howns (hnext _ rfl)
  | next _ hp hvisit | full _ _ hp hvisit | room _ _ hp hvisit
  | nobody _ hp hvisit => exact h.of_pub hseq (h.visit_step hp hvisit).1 trivial
  | @write v pc hp =>
    refine h.of_pub hseq h.owns ?_
    cases (writeStep st.mem v pc).2 <;> trivial

/-! ### A step of a subscriber -/

section

variable {s : S} {m : Sub cfg W} {slots : SlotIdx → SubSlot}

/-- A slot that is held after the step was held before it, or is claimed by it. -/
theorem State.Holds.back [DecidableEq S] (hs : (st.sub s).crashed = false)
    (hmove : SlotMove (pid s) st.slots (st.sub s) m slots) {s' : S} {i : SlotIdx} {ph : Phase}
    (h : (st.setSub s (slots, m)).Holds s' i ph) :
    (∃ ph', st.Holds s' i ph' ∧ (ph' = .joined → ph = .joined)) ∨
      (s' = s ∧ ∃ ts, (st.sub s).pc = .claim i ts ∧ (st.slots i).word = .free) := by
  obtain ⟨hlive, hheld⟩ := h
  by_cases hne : s' = s
  · subst hne
    simp only [State.setSub, update_self] at hheld
    cases hmove with
    | keep hkeep _ => exact Or.inl ⟨ph, ⟨hs, (hkeep _ hheld).1⟩, fun hph => hph⟩
    | claim hpc hfree hnew =>
      rw [hnew] at hheld
      cases hheld
      exact Or.inr ⟨rfl, _, hpc, hfree⟩
    | storePid hold hnew =>
      rw [hnew] at hheld
      cases hheld
      exact Or.inl ⟨_, ⟨hs, hold⟩, by rintro ⟨⟩⟩
    | active hold _ hnew =>
      rw [hnew] at hheld
      cases hheld
      exact Or.inl ⟨_, ⟨hs, hold⟩, fun _ => rfl⟩
    | release _ hpc | clearPid _ hpc =>
      simp only [Sub.held, hpc] at hheld
      cases hheld
  · simp only [State.setSub, update_of_ne hne] at hlive hheld
    exact Or.inl ⟨ph, ⟨hlive, hheld⟩, fun hph => hph⟩

/-- A step of `s` leaves the slots of the others alone, but for a late clear of the pid. -/
theorem OwnInv.owns_other (h : OwnInv pid st) (hs : (st.sub s).crashed = false)
    (hmove : SlotMove (pid s) st.slots (st.sub s) m slots) {s' : S} (hne : s' ≠ s) {i : SlotIdx}
    {ph : Phase} (hold : st.Holds s' i ph) : ph.Owns slots (pid s') (st.sub s').cursor i := by
  have howns := h.owns s' i ph hold
  have hother : ∀ {j ph'}, (st.sub s).held = some (j, ph') → i ≠ j := by
    rintro j ph' hj rfl
    exact hne (h.one s' s i ph ph' hold ⟨hs, hj⟩)
  cases hmove with
  | keep _ _ => exact howns
  | @claim j ts _ hfree _ =>
    have hij : i ≠ j := by
      rintro rfl
      exact howns.ne_free hfree
    exact howns.frame (setWordAt_of_ne _ _ _ hij) le_rfl
  | storePid hj _ => exact howns.frame (setPidAt_of_ne _ _ _ (hother hj)) le_rfl
  | active hj | release hj => exact howns.frame (setWordAt_of_ne _ _ _ (hother hj)) le_rfl
  | clearPid _ _ => exact howns.clear _

/-- The slot of `s` itself. -/
theorem OwnInv.owns_self (h : OwnInv pid st) (hs : (st.sub s).crashed = false)
    (hmove : SlotMove (pid s) st.slots (st.sub s) m slots) {i : SlotIdx} {ph : Phase}
    (hnew : m.held = some (i, ph)) : ph.Owns slots (pid s) m.cursor i := by
  cases hmove with
  | keep hkeep _ =>
    obtain ⟨hold, hle⟩ := hkeep _ hnew
    exact (h.owns s i ph ⟨hs, hold⟩).frame rfl hle
  | claim _ _ hm =>
    rw [hm] at hnew
    cases hnew
    refine ⟨?_, nofun⟩
    rw [setWordAt_self]
  | storePid hold hm =>
    rw [hm] at hnew
    cases hnew
    refine ⟨?_, fun _ => Or.inl ?_⟩
    · rw [setPidAt_self]
      exact (h.owns s _ _ ⟨hs, hold⟩).1
    · rw [setPidAt_self]
  | @active j ph' hold hstored hm =>
    rw [hm] at hnew
    cases hnew
    refine ⟨⟨value62 m.cursor, ?_, Nat.mod_le _ _⟩, ?_⟩
    · rw [setWordAt_self]
    · rw [setWordAt_self]
      have howns := h.owns s _ _ ⟨hs, hold⟩
      cases ph' with
      | claimed ts stored =>
        cases stored with
        | false => exact absurd rfl (hstored ts)
        | true => exact howns.2 rfl
      | joined => exact howns.2
  | release _ hpc | clearPid _ hpc =>
    simp only [Sub.held, hpc] at hnew
    cases hnew

/-- A step of a subscriber, by what it does to its slot. -/
theorem OwnInv.slotMove [Inhabited W] (h : OwnInv pid st) (hs : (st.sub s).crashed = false)
    (hsub : SubStep (pid s) st (st.sub s) slots m) :
    SlotMove (pid s) st.slots (st.sub s) m slots ∧ m.pc.SlotLocal m.slotIndex := by
  have hcur := (h.seq.subs s).cursor_le
  have hlt := h.seq.mem.lt
  exact hsub.slotMove (by omega) (h.here s hs)

/-- A step of a subscriber that claims no slot which the publisher may be freeing. -/
theorem ownInv_sub [DecidableEq S] [Inhabited W] (h : OwnInv pid st)
    (hseq : SeqInv (st.setSub s (slots, m)))
    (hs : (st.sub s).crashed = false) (hsub : SubStep (pid s) st (st.sub s) slots m)
    (hclock : ∀ i, (st.sub s).pc = .clock i → st.now < 2 ^ 62)
    (hclaim : ∀ i ts, (st.sub s).pc = .claim i ts → (st.slots i).word = .free →
      st.pub.pruning i = false) : OwnInv pid (st.setSub s (slots, m)) := by
  obtain ⟨hmove, hhere⟩ := h.slotMove hs hsub
  refine ⟨hseq, fun s' => ?_, fun s' => ?_, fun s' ts => ?_, fun s' i ph hold => ?_, ?_, ?_⟩
  · by_cases hne : s' = s
    · subst hne
      simp only [State.setSub, update_self]
      exact fun _ => hhere
    · simp only [State.setSub, update_of_ne hne]
      exact h.here s'
  · by_cases hne : s' = s
    · subst hne
      exact fun _ _ => h.alive s' hsub.present hs
    · simp only [State.setSub, update_of_ne hne]
      exact h.alive s'
  · by_cases hne : s' = s
    · subst hne
      simp only [State.setSub, update_self]
      intro _ hts
      rcases hsub.claimTime hts with hold | ⟨⟨i, hpc⟩, rfl⟩
      · exact h.young s' ts hs hold
      · exact ⟨hclock i hpc, Nat.le_add_right _ _⟩
    · simp only [State.setSub, update_of_ne hne]
      exact h.young s' ts
  · by_cases hne : s' = s
    · subst hne
      obtain ⟨_, hheld⟩ := hold
      simp only [State.setSub, update_self] at hheld ⊢
      exact h.owns_self hs hmove hheld
    · obtain ⟨hlive, hheld⟩ := hold
      simp only [State.setSub, update_of_ne hne] at hlive hheld ⊢
      exact h.owns_other hs hmove hne ⟨hlive, hheld⟩
  · -- a claimed slot was free, so nobody held it
    intro s₁ s₂ i ph₁ ph₂ h₁ h₂
    rcases h₁.back hs hmove with ⟨_, hold₁, _⟩ | ⟨rfl, _, _, hfree⟩
    · rcases h₂.back hs hmove with ⟨_, hold₂, _⟩ | ⟨_, _, _, hfree⟩
      · exact h.one s₁ s₂ i _ _ hold₁ hold₂
      · exact absurd hfree (h.owns s₁ i _ hold₁).ne_free
    · rcases h₂.back hs hmove with ⟨_, hold₂, _⟩ | ⟨rfl, _⟩
      · exact absurd hfree (h.owns s₂ i _ hold₂).ne_free
      · rfl
  · have hok := h.visit
    show st.pub.Ok pid (st.setSub s (slots, m))
    cases hp : st.pub with
    | scan v sc pc =>
      rw [hp] at hok
      -- the slot under scrutiny gets no new holder
      have hback : st.pub.pruning sc.i = true → ∀ s' ph,
          (st.setSub s (slots, m)).Holds s' sc.i ph →
            ∃ ph', st.Holds s' sc.i ph' ∧ (ph' = .joined → ph = .joined) := by
        intro hprune s' ph hnew
        rcases hnew.back hs hmove with hold | ⟨_, ts, hpc, hfree⟩
        · exact hold
        · have hno := hclaim sc.i ts hpc hfree
          rw [hprune] at hno
          cases hno
      rw [hp] at hback
      cases pc with
      | loadPid c =>
        intro s' ph hnew
        obtain ⟨ph', hold, hph⟩ := hback (by simp [PubPc.pruning]) s' ph hnew
        exact hph (hok s' ph' hold)
      | checkPid c p =>
        intro s' ph hnew
        obtain ⟨ph', hold, hph⟩ := hback (by simp [PubPc.pruning]) s' ph hnew
        exact ⟨hph (hok s' ph' hold).1, (hok s' ph' hold).2⟩
      | pruneActive =>
        intro s' ph hnew
        obtain ⟨ph', hold, _⟩ := hback (by simp [PubPc.pruning]) s' ph hnew
        exact hok s' ph' hold
      | _ => exact hok
    | _ => trivial

end

/-! ### Runs -/

/-- The clock fits the 62 bits of a claim, and no slot is claimed while the publisher may
    still store `FREE` there. -/
def SubPc.ClaimOk (st : State cfg W S) : SubPc cfg W → Prop
  | .clock _ => st.now < 2 ^ 62
  | .claim i _ => (st.slots i).word = .free → st.pub.pruning i = false
  | _ => True

/-- The conditions under which holders keep their slots.  The first one says that no live
    claim gets older than five seconds. -/
def OwnOk (st : State cfg W S) : Act cfg W S → Prop
  | .tick n => ∀ s, (st.sub s).crashed = false → ∀ ts ∈ (st.sub s).pc.claimTime,
      st.now + n ≤ ts + claimTimeout
  | a => ∀ s ∈ a.subject, (st.sub s).crashed = false → (st.sub s).pc.ClaimOk st

/-- The same, with fewer than `2 ^ 62` publishes. -/
def Prompt (st : State cfg W S) (a : Act cfg W S) : Prop := Fits st a ∧ OwnOk st a

instance (st : State cfg W S) : ∀ pc : SubPc cfg W, Decidable (pc.ClaimOk st)
  | .clock _ => inferInstanceAs (Decidable (_ < _))
  | .claim _ _ => inferInstanceAs (Decidable (_ → _))
  | .absent | .connect | .storePid _ _ | .activate _ _ | .rest | .stamp | .read _ _ _
  | .restamp _ _ | .update _ _ | .release _ | .clearPid _ | .gone | .fault => .isTrue trivial

instance [Fintype S] (st : State cfg W S) : ∀ a : Act cfg W S, Decidable (OwnOk st a)
  | .tick _ => inferInstanceAs (Decidable (∀ _, _))
  | .join s | .recv s | .read s | .drop s =>
    inferInstanceAs (Decidable (∀ s' ∈ some s,
      (st.sub s').crashed = false → (st.sub s').pc.ClaimOk st))
  | .publish _ | .pub | .connect _ | .exit _ | .spawn _ => .isTrue nofun

instance [Fintype S] (st : State cfg W S) (a : Act cfg W S) : Decidable (Prompt st a) :=
  inferInstanceAs (Decidable (_ ∧ _))

/-- The subscribers change, and hold no more than before. -/
theorem OwnInv.of_subs (h : OwnInv pid st) (hseq : SeqInv st') (hslots : st'.slots = st.slots)
    (hnow : st'.now = st.now) (hpub : st'.pub = st.pub)
    (hhere : ∀ s, (st'.sub s).crashed = false →
      (st'.sub s).pc.SlotLocal (st'.sub s).slotIndex)
    (halive : ∀ s, (st'.sub s).pc.present = true → (st'.sub s).crashed = false →
      st'.alive (pid s) = true)
    (hclaim : ∀ s ts, (st'.sub s).crashed = false → (st'.sub s).pc.claimTime = some ts →
      (st.sub s).crashed = false ∧ (st.sub s).pc.claimTime = some ts)
    (hholds : ∀ s i ph, st'.Holds s i ph →
      st.Holds s i ph ∧ (st'.sub s).cursor = (st.sub s).cursor) : OwnInv pid st' := by
  refine ⟨hseq, hhere, halive, fun s ts hlive hts => ?_, fun s i ph hs => ?_, ?_, ?_⟩
  · obtain ⟨hlive', hts'⟩ := hclaim s ts hlive hts
    rw [hnow]
    exact h.young s ts hlive' hts'
  · obtain ⟨hold, hcur⟩ := hholds s i ph hs
    rw [hslots, hcur]
    exact h.owns s i ph hold
  · intro s s' i ph ph' hs hs'
    exact h.one s s' i ph ph' (hholds s i ph hs).1 (hholds s' i ph' hs').1
  · have hok := h.visit
    rw [hpub]
    cases hp : st.pub with
    | scan v sc pc =>
      rw [hp] at hok
      cases pc with
      | pruneClaim ts =>
        show st'.now - ts > claimTimeout
        rw [hnow]
        exact hok
      | loadPid c => exact fun s ph hs => hok s ph (hholds s _ ph hs).1
      | checkPid c p => exact fun s ph hs => hok s ph (hholds s _ ph hs).1
      | pruneActive => exact fun s ph hs => hok s ph (hholds s _ ph hs).1
      | _ => trivial
    | _ => trivial

variable [Inhabited W] [DecidableEq S]

omit [Inhabited W] in
/-- A subscriber whose `connect` begins holds nothing. -/
theorem State.Holds.of_connect {s s' : S} {i : SlotIdx} {ph : Phase}
    (h : { st with sub := update st.sub s newSub }.Holds s' i ph) :
    st.Holds s' i ph ∧ s' ≠ s := by
  obtain ⟨hlive, hheld⟩ := h
  by_cases hne : s' = s
  · subst hne
    simp only [update_self] at hheld
    cases hheld
  · simp only [update_of_ne hne] at hlive hheld
    exact ⟨⟨hlive, hheld⟩, hne⟩

omit [Inhabited W] [DecidableEq S] in
/-- The subscribers of a process that has ended are not live. -/
theorem State.Holds.of_exit {p : Nat} {alive : Nat → Bool} {s : S} {i : SlotIdx} {ph : Phase}
    (h : { st with
      alive := alive
      sub := fun s =>
        if pid s = p ∧ (st.sub s).pc.present = true then { st.sub s with crashed := true }
        else st.sub s }.Holds s i ph) :
    st.Holds s i ph ∧ ¬ (pid s = p ∧ (st.sub s).pc.present = true) := by
  obtain ⟨hlive, hheld⟩ := h
  simp only at hlive hheld
  split at hlive
  · cases hlive
  · rename_i hno
    rw [if_neg hno] at hheld
    exact ⟨⟨hlive, hheld⟩, hno⟩

/-- **Step.** -/
theorem ownInv_step {a : Act cfg W S} (h : OwnInv pid st) (hok : Prompt st a)
    (hst : Step pid st a st') : OwnInv pid st' := by
  have hseq := seqInv_step h.seq hok.1 hst
  have hown := hok.2
  cases hst with
  | publish hp =>
    refine h.of_pub hseq h.owns ?_
    split <;> trivial
  | pub hpub => exact ownInv_pub h hseq hpub
  | @connect s hpres hlive halive =>
    -- the new subscriber holds nothing yet
    refine h.of_subs hseq rfl rfl rfl (fun s' => ?_) (fun s' => ?_) (fun s' ts => ?_)
      (fun s' i ph hs => ⟨hs.of_connect.1, ?_⟩)
    case refine_4 => simp only [update_of_ne hs.of_connect.2]
    all_goals by_cases hne : s' = s
    · subst hne
      simp only [update_self]
      exact fun _ => rfl
    · simp only [update_of_ne hne]
      exact h.here s'
    · subst hne
      exact fun _ _ => halive
    · simp only [update_of_ne hne]
      exact h.alive s'
    · subst hne
      simp only [update_self]
      exact nofun
    · simp only [update_of_ne hne]
      exact fun hlive' hts => ⟨hlive', hts⟩
  | @sub _ s slots m ha hlive hsub =>
    have hclaim : (st.sub s).pc.ClaimOk st := by
      cases a <;> first | exact hown s ha hlive | cases ha
    refine ownInv_sub h hseq hlive hsub (fun i hpc => ?_) (fun i ts hpc => ?_)
    · rw [hpc] at hclaim
      exact hclaim
    · rw [hpc] at hclaim
      exact hclaim
  | tick n =>
    refine ⟨hseq, h.here, h.alive, fun s ts hlive hts => ?_, h.owns, h.one, ?_⟩
    · exact ⟨(h.young s ts hlive hts).1, hown s hlive ts hts⟩
    · have hvisit := h.visit
      show st.pub.Ok pid { st with now := st.now + n }
      cases hp : st.pub with
      | scan v sc pc =>
        rw [hp] at hvisit
        cases pc with
        | pruneClaim ts =>
          have hold : st.now - ts > claimTimeout := hvisit
          show st.now + n - ts > claimTimeout
          omega
        | _ => exact hvisit
      | _ => trivial
  | exit p =>
    refine h.of_subs hseq rfl rfl rfl (fun s => ?_) (fun s => ?_) (fun s ts => ?_)
      (fun s i ph hs => ⟨hs.of_exit.1, ?_⟩)
    · simp only
      split
      · exact fun hlive => absurd hlive (by simp)
      · exact h.here s
    · simp only
      split
      · exact fun _ hlive => absurd hlive (by simp)
      · rename_i hno
        intro hpres hlive
        have hne : pid s ≠ p := fun heq => hno ⟨heq, hpres⟩
        rw [update_of_ne hne]
        exact h.alive s hpres hlive
    · simp only
      split
      · exact fun hlive => absurd hlive (by simp)
      · exact fun hlive hts => ⟨hlive, hts⟩
    · simp only [if_neg hs.of_exit.2]
  | spawn p =>
    refine h.of_subs hseq rfl rfl rfl h.here (fun s hpres hlive => ?_)
      (fun s ts hlive hts => ⟨hlive, hts⟩) (fun s i ph hs => ⟨hs, rfl⟩)
    by_cases hp : pid s = p
    · subst hp
      exact update_self _ _ _
    · show update st.alive p true (pid s) = true
      rw [update_of_ne hp]
      exact h.alive s hpres hlive

omit [DecidableEq S] in
/-- A fresh bus. -/
theorem ownInv_init : OwnInv pid (init cfg W S) :=
  ⟨seqInv_init cfg W S, fun _ _ => trivial, nofun, nofun, fun _ _ _ h => absurd h.2 nofun,
    fun _ _ _ _ _ h => absurd h.2 nofun, trivial⟩

/-- **Run.** -/
theorem ownInv_run {as : List (Act cfg W S)}
    (hrun : Run (step pid) Prompt (init cfg W S) as st) : OwnInv pid st :=
  hrun.invariant ownInv_init (fun _ _ _ h hok hst => ownInv_step h hok (step_inv hst))

/-- **A subscriber slot has one owner.** In every run with fewer than `2 ^ 62` publishes in
    which no live claim gets older than five seconds, and no slot is claimed while the
    publisher, having found it `ACTIVE`, may still free it: no two live connected subscribers
    have the same `slot_index`, and the slot of each is `ACTIVE` with a value not beyond its
    cursor. -/
theorem slot_has_one_owner {as : List (Act cfg W S)}
    (hrun : Run (step pid) Prompt (init cfg W S) as st) :
    (∀ s s' i, (st.sub s).crashed = false → (st.sub s).pc.connected = true →
      (st.sub s).slotIndex = some i → (st.sub s').crashed = false →
      (st.sub s').pc.connected = true → (st.sub s').slotIndex = some i → s = s') ∧
    ∀ s i, (st.sub s).crashed = false → (st.sub s).pc.connected = true →
      (st.sub s).slotIndex = some i →
      ∃ v, (st.slots i).word = .active v ∧ v ≤ (st.sub s).cursor := by
  have h := ownInv_run hrun
  refine ⟨fun s s' i hlive hconn hslot hlive' hconn' hslot' => ?_, fun s i hlive hconn hslot => ?_⟩
  · exact h.one s s' i _ _ ⟨hlive, Sub.held_connected hconn hslot⟩
      ⟨hlive', Sub.held_connected hconn' hslot'⟩
  · exact (h.owns s i _ ⟨hlive, Sub.held_connected hconn hslot⟩).1

end

/-! ### Two subscribers -/

instance : NeZero maxSubscriberSlots := ⟨by decide⟩

/-- No `publish` is under way. -/
def PubPc.isIdle : PubPc cfg W → Bool
  | .idle => true
  | _ => false

/-- The test is exact. -/
theorem PubPc.eq_idle {pc : PubPc cfg W} (h : pc.isIdle = true) : pc = .idle := by
  cases pc with
  | idle => rfl
  | start | scan | write => cases h

/-- A bounded bus with one slot. -/
def tightBus : BusConfig where
  ringSize := 1
  watermark := some 0
  words := 1
  ringSize_lt := lossyBus.ringSize_lt
  ringSize_pow := lossyBus.ringSize_pow
  watermark_lt := by
    rintro w ⟨⟩
    decide

/-- Two processes, one subscriber in each. -/
def twoPids : Bool → Nat
  | false => 7
  | true => 8

/-- Two subscribers join, the first one with a pause of a second within its claim. -/
def promptSteps : List (Act tightBus Nat Bool) :=
  Act.spawn 7 :: Act.spawn 8 :: Act.connect false :: List.replicate 3 (Act.join false) ++
    Act.tick 1000000 :: List.replicate 2 (Act.join false) ++
    Act.connect true :: List.replicate 7 (Act.join true)

/-- They get slots 0 and 1. -/
theorem slot_has_one_owner_prompt : ∃ st : State tightBus Nat Bool,
    Run (step twoPids) Prompt (init tightBus Nat Bool) promptSteps st ∧
    (st.sub false).slotIndex = some 0 ∧ (st.sub true).slotIndex = some 1 ∧
    ∃ v, (st.slots 1).word = .active v ∧ v ≤ (st.sub true).cursor := by
  obtain ⟨st, hrun, h₀, h₁, hlive, hconn⟩ := exists_run_of_exec (step twoPids) Prompt
    (s := init tightBus Nat Bool) (l := promptSteps)
    (p := fun st => (st.sub false).slotIndex = some 0 ∧ (st.sub true).slotIndex = some 1 ∧
      (st.sub true).crashed = false ∧ (st.sub true).pc.connected = true) (by decide +kernel)
  exact ⟨st, hrun, h₀, h₁, (slot_has_one_owner hrun).2 true 1 hlive hconn h₁⟩

/-- The first subscriber is delayed for more than five seconds after its CAS.  The publisher
    prunes its claim, the second subscriber takes the slot, and then the first one goes on. -/
def slowClaimSteps : List (Act tightBus Nat Bool) :=
  Act.spawn 7 :: Act.spawn 8 :: Act.connect false :: List.replicate 3 (Act.join false) ++
    Act.tick 5000001 :: Act.publish (fun _ => 1) :: List.replicate 6 Act.pub ++
    Act.publish (fun _ => 2) :: List.replicate 4 Act.pub ++
    Act.connect true :: List.replicate 5 (Act.join true) ++ List.replicate 2 (Act.join false)

/-- **A live claim is pruned.** Two live connected subscribers hold slot 0. -/
theorem live_claim_pruned : ∃ st : State tightBus Nat Bool,
    Run (step twoPids) Fits (init tightBus Nat Bool) slowClaimSteps st ∧
    ∀ s, (st.sub s).crashed = false ∧ (st.sub s).pc.connected = true ∧
      (st.sub s).slotIndex = some 0 :=
  exists_run_of_exec _ _ (by decide +kernel)

/-- The publisher has loaded the word and the pid of the first subscriber, which then drops and
    exits; the second subscriber takes the slot before the publisher goes on. -/
def stalePidSteps : List (Act tightBus Nat Bool) :=
  Act.spawn 7 :: Act.spawn 8 :: Act.connect false :: List.replicate 5 (Act.join false) ++
    Act.publish (fun _ => 1) :: List.replicate 6 Act.pub ++
    Act.publish (fun _ => 2) :: List.replicate 3 Act.pub ++
    List.replicate 3 (Act.drop false) ++ Act.exit 7 :: Act.connect true ::
    List.replicate 5 (Act.join true) ++ List.replicate 2 Act.pub

/-- **A stale pid.** The publisher frees the slot of a live connected subscriber, although no
    claim has taken any time. -/
theorem stale_pid_frees_new_owner : ∃ st : State tightBus Nat Bool,
    Run (step twoPids) Fits (init tightBus Nat Bool) stalePidSteps st ∧
    (st.sub true).crashed = false ∧ (st.sub true).pc.connected = true ∧
    (st.sub true).slotIndex = some 0 ∧ (st.slots 0).word = .free :=
  exists_run_of_exec _ _ (by decide +kernel)

end Crossbar.Bus
