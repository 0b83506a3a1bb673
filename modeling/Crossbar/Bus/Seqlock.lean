import Mathlib.Data.Fintype.Basic
import Crossbar.Bus.Step

namespace Crossbar.Bus

open Function Crossbar.Lib

/-!
# Bus — reads are never torn and never misnumbered

The stamps of the ring and what a reader may conclude from them.  `MemInv` says what a slot of
the ring holds: the value of its stamp, unless the publisher is inside it.  `Evolves` says once
what any step does to the memory: stamps only grow, and a slot whose even stamp comes out
unchanged has not been written.  `ReadInv` is what a subscriber knows, from `connect` to
`drop`; it survives `Evolves`, so a reader's words belong to its stamp as long as the stamp
stands.
-/

variable {cfg : BusConfig} {W : Type}

/-! ### Memory -/

/-- The publisher is inside the slot of the next sequence number. -/
def WritePc.inSlot : WritePc cfg → Bool
  | .word _ _ | .markEven _ | .advance _ => true
  | _ => false

/-- The same of the whole publisher. -/
def PubPc.inSlot : PubPc cfg W → Bool
  | .write _ pc => pc.inSlot
  | _ => false

/-- What a running `publish_unchecked(v)` has done to its slot. -/
def WritePc.Local (m : Mem cfg W) (v : cfg.Value W) : WritePc cfg → Prop
  | .load => True
  | .markOdd ws => ws = m.writeSeq
  | .word ws k => ws = m.writeSeq ∧ (m.ring (cfg.slotOf ws)).stamp = 2 * ws + 1 ∧
      ∀ k' < k, (m.ring (cfg.slotOf ws)).data k' = v k'
  | .markEven ws => ws = m.writeSeq ∧ (m.ring (cfg.slotOf ws)).stamp = 2 * ws + 1 ∧
      (m.ring (cfg.slotOf ws)).data = v
  | .advance ws => ws = m.writeSeq ∧ (m.ring (cfg.slotOf ws)).stamp = 2 * ws + 2 ∧
      (m.ring (cfg.slotOf ws)).data = v

/-- The same of the whole publisher. -/
def PubPc.Local (m : Mem cfg W) : PubPc cfg W → Prop
  | .write v pc => pc.Local m v
  | _ => True

/-- The slot was never written, or holds the published value of its even stamp. -/
def Committed (m : Mem cfg W) (j : Fin cfg.ringSize) : Prop :=
  (m.ring j).stamp = 0 ∨ ∃ q, (m.ring j).stamp = 2 * q + 2 ∧ cfg.slotOf q = j ∧
    m.log[q]? = some (m.ring j).data

/-- The ring: every published number has reached its slot, and every slot is committed or
    the one the publisher is in. -/
structure MemInv (m : Mem cfg W) (pub : PubPc cfg W) : Prop where
  len : m.log.length = m.writeSeq
  lt : m.writeSeq < 2 ^ 62
  low : ∀ q < m.writeSeq, 2 * q + 2 ≤ (m.ring (cfg.slotOf q)).stamp
  cells : ∀ j, Committed m j ∨
    (pub.inSlot = true ∧ j = cfg.slotOf m.writeSeq ∧ 2 * m.writeSeq < (m.ring j).stamp)
  here : pub.Local m

/-- The memory moves forward. -/
structure Evolves (m m' : Mem cfg W) : Prop where
  seq_le : m.writeSeq ≤ m'.writeSeq
  log : ∀ (q : Nat) v, m.log[q]? = some v → m'.log[q]? = some v
  stamp_le : ∀ j, (m.ring j).stamp ≤ (m'.ring j).stamp
  data : ∀ j s, s % 2 = 0 → s ≤ (m.ring j).stamp → (m'.ring j).stamp = s →
    (m.ring j).stamp = s ∧ (m'.ring j).data = (m.ring j).data

theorem Evolves.refl (m : Mem cfg W) : Evolves m m :=
  ⟨le_rfl, fun _ _ h => h, fun _ => le_rfl, fun _ _ _ _ h => ⟨h, rfl⟩⟩

/-- A stamp of a committed slot is even and below the publisher. -/
theorem Committed.stamp_le {m : Mem cfg W} {pub : PubPc cfg W} (h : MemInv m pub)
    {j : Fin cfg.ringSize} (hj : Committed m j) : (m.ring j).stamp ≤ 2 * m.writeSeq := by
  rcases hj with h0 | ⟨q, hq, _, hlog⟩
  · omega
  · have hlt := (List.getElem?_eq_some_iff.mp hlog).1
    rw [h.len] at hlt
    omega

/-- The publisher's slot is committed before it enters. -/
theorem MemInv.stamp_le {m : Mem cfg W} {pub : PubPc cfg W} (h : MemInv m pub)
    (hout : pub.inSlot = false) (j : Fin cfg.ringSize) :
    Committed m j ∧ (m.ring j).stamp ≤ 2 * m.writeSeq := by
  rcases h.cells j with hj | ⟨hin, _⟩
  · exact ⟨hj, hj.stamp_le h⟩
  · rw [hout] at hin
    cases hin

/-- No stamp is beyond the one the publisher is about to commit. -/
theorem MemInv.stamp_top {m : Mem cfg W} {pub : PubPc cfg W} (h : MemInv m pub)
    (j : Fin cfg.ringSize) : (m.ring j).stamp ≤ 2 * m.writeSeq + 2 := by
  rcases h.cells j with hcom | ⟨hin, hj, _⟩
  · have hle := hcom.stamp_le h
    omega
  · have hhere := h.here
    cases pub with
    | write v pc =>
      cases pc with
      | load => cases hin
      | markOdd ws => cases hin
      | word ws k =>
        obtain ⟨rfl, hst, _⟩ := hhere
        rw [← hj] at hst
        omega
      | markEven ws =>
        obtain ⟨rfl, hst, _⟩ := hhere
        rw [← hj] at hst
        omega
      | advance ws =>
        obtain ⟨rfl, hst, _⟩ := hhere
        rw [← hj] at hst
        omega
    | _ => cases hin

section

variable {m : Mem cfg W} {v : cfg.Value W}

/-- A committed slot that the step leaves alone stays committed. -/
theorem Committed.frame {m' : Mem cfg W} {j : Fin cfg.ringSize} (h : Committed m j)
    (hring : m'.ring j = m.ring j)
    (hlog : ∀ (q : Nat) x, m.log[q]? = some x → m'.log[q]? = some x) : Committed m' j := by
  rcases h with h0 | ⟨q, hq, hslot, hval⟩
  · exact Or.inl (by rw [hring]; exact h0)
  · refine Or.inr ⟨q, by rw [hring]; exact hq, hslot, ?_⟩
    rw [hring]
    exact hlog q _ hval

/-- The next word of the value is in the slot. -/
theorem WritePc.next_local {ws k : Nat} (hws : ws = m.writeSeq)
    (hstamp : (m.ring (cfg.slotOf ws)).stamp = 2 * ws + 1)
    (hdata : ∀ k' : Fin cfg.words, k'.val < k → (m.ring (cfg.slotOf ws)).data k' = v k') :
    (WritePc.next ws k : WritePc cfg).Local m v ∧
      (WritePc.next ws k : WritePc cfg).inSlot = true := by
  unfold WritePc.next
  split
  · rename_i hk
    exact ⟨⟨hws, hstamp, fun k' hk' => hdata k' hk'⟩, rfl⟩
  · rename_i hk
    refine ⟨⟨hws, hstamp, ?_⟩, rfl⟩
    funext k'
    exact hdata k' (by omega)

/-! ### The publisher -/

/-- A store into the slot of the next sequence number. -/
def Mem.store (m : Mem cfg W) (x : RingSlot cfg W) : Mem cfg W :=
  { m with ring := update m.ring (cfg.slotOf m.writeSeq) x }

@[simp] theorem store_self (x : RingSlot cfg W) :
    (m.store x).ring (cfg.slotOf m.writeSeq) = x := update_self _ _ _

theorem store_of_ne (x : RingSlot cfg W) {j : Fin cfg.ringSize} (h : j ≠ cfg.slotOf m.writeSeq) :
    (m.store x).ring j = m.ring j := update_of_ne h _ _

/-- The publisher stores into its slot: the stamp grows past every published one and comes out
    at no even stamp that a reader may have seen. -/
theorem MemInv.store {pub pub' : PubPc cfg W} (h : MemInv m pub) (x : RingSlot cfg W)
    (hnew : 2 * m.writeSeq < x.stamp)
    (hgrow : (m.ring (cfg.slotOf m.writeSeq)).stamp ≤ x.stamp)
    (hfresh : ∀ s, s % 2 = 0 → s ≤ (m.ring (cfg.slotOf m.writeSeq)).stamp → x.stamp ≠ s)
    (hin : pub'.inSlot = true) (hloc : pub'.Local (m.store x)) :
    MemInv (m.store x) pub' ∧ Evolves m (m.store x) := by
  refine ⟨⟨h.len, h.lt, ?_, ?_, hloc⟩, ⟨le_rfl, fun _ _ hq => hq, ?_, ?_⟩⟩
  · intro q hq
    have hlt : q < m.writeSeq := hq
    by_cases hslot : cfg.slotOf q = cfg.slotOf m.writeSeq
    · rw [hslot, store_self]
      omega
    · rw [store_of_ne x hslot]
      exact h.low q hlt
  · intro j
    by_cases hj : j = cfg.slotOf m.writeSeq
    · subst hj
      exact Or.inr ⟨hin, rfl, by rw [store_self]; exact hnew⟩
    · rcases h.cells j with hcom | ⟨_, heq, _⟩
      · exact Or.inl (hcom.frame (store_of_ne x hj) (fun _ _ hq => hq))
      · exact absurd heq hj
  · intro j
    by_cases hj : j = cfg.slotOf m.writeSeq
    · subst hj
      rw [store_self]
      exact hgrow
    · rw [store_of_ne x hj]
  · intro j s heven hs heq
    by_cases hj : j = cfg.slotOf m.writeSeq
    · subst hj
      rw [store_self] at heq
      exact absurd heq (hfresh s heven hs)
    · rw [store_of_ne x hj] at heq ⊢
      exact ⟨heq, rfl⟩

/-- **Write.** Every step of `publish_unchecked` keeps the ring in order. -/
theorem writeStep_spec {pc : WritePc cfg} (h : MemInv m (.write v pc))
    (hfit : ∀ ws, pc = .advance ws → ws + 1 < 2 ^ 62) :
    MemInv (writeStep m v pc).1 (.after v (writeStep m v pc).2) ∧
      Evolves m (writeStep m v pc).1 := by
  have hlt := h.lt
  have hhere := h.here
  cases pc with
  | load =>
    refine ⟨⟨h.len, h.lt, h.low, ?_, rfl⟩, .refl m⟩
    intro j
    exact Or.inl (h.stamp_le rfl j).1
  | markOdd ws =>
    have hws : ws = m.writeSeq := hhere
    subst hws
    have hstamp : wrap64 (m.writeSeq * 2 + 1) = 2 * m.writeSeq + 1 := by
      rw [wrap64_of_lt (by omega)]
      omega
    have hle := (h.stamp_le rfl (cfg.slotOf m.writeSeq)).2
    obtain ⟨hloc, hin⟩ := WritePc.next_local (v := v) (k := 0)
      (m := m.setStamp (cfg.slotOf m.writeSeq) (2 * m.writeSeq + 1)) rfl
      (by simp [Mem.setStamp]) (fun _ hk => absurd hk (Nat.not_lt_zero _))
    simp only [writeStep, hstamp]
    refine h.store { m.ring (cfg.slotOf m.writeSeq) with stamp := 2 * m.writeSeq + 1 }
      (Nat.lt_succ_self _) (le_trans hle (Nat.le_succ _)) ?_ hin hloc
    intro s heven _ heq
    have hodd : 2 * m.writeSeq + 1 = s := heq
    omega
  | word ws k =>
    obtain ⟨hws, hstamp, hdata⟩ := hhere
    subst hws
    obtain ⟨hloc, hin⟩ := WritePc.next_local (v := v) (k := k + 1)
      (m := m.setWord (cfg.slotOf m.writeSeq) k (v k)) rfl
      (by simpa [Mem.setWord] using hstamp) (by
        intro k' hk'
        by_cases hkk : k' = k
        · simp [Mem.setWord, hkk]
        · have hlt' : k' < k := by
            rw [Fin.lt_def]
            have hne : k'.val ≠ k.val := fun heq => hkk (Fin.ext heq)
            omega
          simpa [Mem.setWord, update_of_ne hkk] using hdata k' hlt')
    refine h.store { m.ring (cfg.slotOf m.writeSeq) with
      data := update (m.ring (cfg.slotOf m.writeSeq)).data k (v k) } ?_ le_rfl ?_ hin hloc
    · show 2 * m.writeSeq < (m.ring (cfg.slotOf m.writeSeq)).stamp
      omega
    · intro s heven _ heq
      have hodd : (m.ring (cfg.slotOf m.writeSeq)).stamp = s := heq
      omega
  | markEven ws =>
    obtain ⟨hws, hstamp, hdata⟩ := hhere
    subst hws
    have heq : wrap64 (m.writeSeq * 2 + 2) = 2 * m.writeSeq + 2 := by
      rw [wrap64_of_lt (by omega)]
      omega
    simp only [writeStep, heq]
    refine h.store { m.ring (cfg.slotOf m.writeSeq) with stamp := 2 * m.writeSeq + 2 }
      ?_ ?_ ?_ rfl ?_
    · show 2 * m.writeSeq < 2 * m.writeSeq + 2
      omega
    · rw [hstamp]
      exact Nat.le_succ _
    · -- a reader has seen at most the odd stamp
      intro s heven hs hnew
      have heq' : 2 * m.writeSeq + 2 = s := hnew
      omega
    · refine ⟨rfl, ?_, ?_⟩
      · rw [store_self]
      · rw [store_self]
        exact hdata
  | advance ws =>
    obtain ⟨hws, hstamp, hdata⟩ := hhere
    subst hws
    have hfit' := hfit _ rfl
    have heq : wrap64 (m.writeSeq + 1) = m.writeSeq + 1 := wrap64_of_lt (by omega)
    have hlog : ∀ (q : Nat) x, m.log[q]? = some x → (m.log ++ [v])[q]? = some x := by
      intro q x hq
      rw [List.getElem?_append_left (List.getElem?_eq_some_iff.mp hq).1]
      exact hq
    simp only [writeStep, heq]
    refine ⟨⟨?_, hfit', ?_, ?_, trivial⟩,
      ⟨Nat.le_succ _, hlog, fun _ => le_rfl, fun _ _ _ _ hs => ⟨hs, rfl⟩⟩⟩
    · rw [List.length_append, h.len]
      rfl
    · intro q hq
      have hq' : q < m.writeSeq + 1 := hq
      by_cases hlast : q = m.writeSeq
      · subst hlast
        exact le_of_eq hstamp.symm
      · exact h.low q (by omega)
    · intro j
      rcases h.cells j with hcom | ⟨_, hj, _⟩
      · exact Or.inl (hcom.frame rfl hlog)
      · -- the value just written is number `write_seq`
        refine Or.inl (Or.inr ⟨m.writeSeq, ?_, hj.symm, ?_⟩)
        · rw [hj]
          exact hstamp
        · show (m.log ++ [v])[m.writeSeq]? = some (m.ring j).data
          rw [hj, hdata, ← h.len, List.getElem?_concat_length]

end

/-! ### Readers -/

/-- The value that a `try_recv` is about to return. -/
def SubPc.pending : SubPc cfg W → List (cfg.Value W)
  | .update _ v => [v]
  | _ => []

/-- A reader after number `c` has seen the even stamp `s`, not older than that number. -/
structure Seen (m : Mem cfg W) (c s : Nat) : Prop where
  lt : c < m.writeSeq
  even : s % 2 = 0
  ge : 2 * c + 2 ≤ s
  le : s ≤ (m.ring (cfg.slotOf c)).stamp

/-- What a subscriber knows at its program counter: a number it reads is published, and the
    words it has read belong to the stamp, if that still stands. -/
def SubPc.Local (m : Mem cfg W) (x : Sub cfg W) : SubPc cfg W → Prop
  | .connect => x.received = [] ∧ x.totalLagged = 0
  | .stamp => x.cursor < m.writeSeq
  | .read s k buf => Seen m x.cursor s ∧ ((m.ring (cfg.slotOf x.cursor)).stamp = s →
      ∀ k' < k, buf k' = (m.ring (cfg.slotOf x.cursor)).data k')
  | .restamp s buf => Seen m x.cursor s ∧ ((m.ring (cfg.slotOf x.cursor)).stamp = s →
      buf = (m.ring (cfg.slotOf x.cursor)).data)
  | .fault => False
  | _ => True

/-- A subscriber against the published values. -/
structure ReadInv (m : Mem cfg W) (x : Sub cfg W) : Prop where
  cursor_le : x.cursor ≤ m.writeSeq + 1
  count : x.cursor = x.init + x.received.length + x.totalLagged
  values : ∀ p ∈ x.received, p.1 < x.cursor ∧ m.log[p.1]? = some p.2
  order : x.received.Pairwise (fun p p' => p.1 < p'.1)
  returned : x.calls.filterMap (fun r => r.2.2) ++ x.pc.pending = x.received.map Prod.snd
  here : x.pc.Local m x

section

variable {m m' : Mem cfg W} {x : Sub cfg W}

theorem Seen.evolve {c s : Nat} (h : Seen m c s) (hE : Evolves m m') : Seen m' c s :=
  ⟨lt_of_lt_of_le h.lt hE.seq_le, h.even, h.ge, le_trans h.le (hE.stamp_le _)⟩

/-- **Frame.** A subscriber keeps what it knows while the memory moves forward. -/
theorem ReadInv.evolve (h : ReadInv m x) (hE : Evolves m m') : ReadInv m' x where
  cursor_le := le_trans h.cursor_le (Nat.add_le_add_right hE.seq_le 1)
  count := h.count
  values := fun p hp => ⟨(h.values p hp).1, hE.log _ _ (h.values p hp).2⟩
  order := h.order
  returned := h.returned
  here := by
    have hloc := h.here
    cases hpc : x.pc with
    | stamp =>
      rw [hpc] at hloc
      exact lt_of_lt_of_le hloc hE.seq_le
    | read s k buf =>
      rw [hpc] at hloc
      refine ⟨hloc.1.evolve hE, fun heq k' hk' => ?_⟩
      -- the stamp came out unchanged, so the slot was not written meanwhile
      obtain ⟨hold, hdata⟩ := hE.data _ s hloc.1.even hloc.1.le heq
      rw [hdata]
      exact hloc.2 hold k' hk'
    | restamp s buf =>
      rw [hpc] at hloc
      refine ⟨hloc.1.evolve hE, fun heq => ?_⟩
      obtain ⟨hold, hdata⟩ := hE.data _ s hloc.1.even hloc.1.le heq
      rw [hdata]
      exact hloc.2 hold
    | _ =>
      rw [hpc] at hloc
      exact hloc

/-- A step that only moves the program counter. -/
theorem ReadInv.of_pc (h : ReadInv m x) (pc' : SubPc cfg W) (slot' : Option SlotIdx)
    (call' : Nat × Nat) (hpend : pc'.pending = x.pc.pending)
    (hloc : pc'.Local m x) :
    ReadInv m { x with pc := pc', slotIndex := slot', call := call' } where
  cursor_le := h.cursor_le
  count := h.count
  values := h.values
  order := h.order
  returned := by
    rw [show ({ x with pc := pc', slotIndex := slot', call := call' } : Sub cfg W).pc.pending
      = x.pc.pending from hpend]
    exact h.returned
  here := by
    show SubPc.Local m _ pc'
    cases pc' <;> exact hloc

/-- A call returns `r`, which is the value it still owed. -/
theorem ReadInv.ret (h : ReadInv m x) (r : Option (cfg.Value W))
    (hr : x.pc.pending = r.toList) : ReadInv m (x.ret r) where
  cursor_le := h.cursor_le
  count := h.count
  values := h.values
  order := h.order
  returned := by
    have hret := h.returned
    rw [hr] at hret
    simp only [Sub.ret, SubPc.pending, List.append_nil, List.filterMap_append]
    rw [← hret]
    cases r <;> rfl
  here := trivial

/-- The cursor skips `skipped` values. -/
theorem ReadInv.skip {pub : PubPc cfg W} (hm : MemInv m pub) (h : ReadInv m x)
    (hpend : x.pc.pending = []) {c' : Nat} (hle : x.cursor ≤ c') (hc : c' ≤ m.writeSeq + 1)
    (pc' : SubPc cfg W) (call' : Nat × Nat) (hpc : pc'.pending = [])
    (hloc : pc'.Local m
      { x with totalLagged := wrap64 (x.totalLagged + (c' - x.cursor)), cursor := c' }) :
    ReadInv m { x with
      totalLagged := wrap64 (x.totalLagged + (c' - x.cursor)), cursor := c'
      pc := pc', call := call' } := by
  have hlt := hm.lt
  have hcount := h.count
  have hcur := h.cursor_le
  have hlag : wrap64 (x.totalLagged + (c' - x.cursor)) = x.totalLagged + (c' - x.cursor) :=
    wrap64_of_lt (by omega)
  refine ⟨hc, ?_, ?_, h.order, ?_, ?_⟩
  · show c' = x.init + x.received.length + wrap64 (x.totalLagged + (c' - x.cursor))
    rw [hlag]
    omega
  · intro p hp
    exact ⟨lt_of_lt_of_le (h.values p hp).1 hle, (h.values p hp).2⟩
  · have hret := h.returned
    rw [hpend] at hret
    show _ ++ pc'.pending = _
    rw [hpc]
    exact hret
  · show SubPc.Local m _ pc'
    cases pc' <;> exact hloc

/-- The head load of `try_recv`. -/
theorem recvStart_read {pub : PubPc cfg W} (hm : MemInv m pub) (h : ReadInv m x)
    (hrest : x.pc = .rest) : ReadInv m (recvStart m x) := by
  have hpend : x.pc.pending = [] := by rw [hrest]; rfl
  unfold recvStart
  by_cases hge : x.cursor ≥ m.writeSeq
  · simp only [if_pos hge]
    exact (h.of_pc x.pc x.slotIndex (x.cursor, m.writeSeq) rfl h.here).ret none hpend
  · have hlt : x.cursor < m.writeSeq := Nat.lt_of_not_le hge
    simp only [if_neg hge, checkedSub_of_le (le_of_lt hlt)]
    by_cases hfar : m.writeSeq - x.cursor > cfg.ringSize
    · have hpos := cfg.ringSize_pos
      have hskip : x.cursor ≤ m.writeSeq - cfg.ringSize := by omega
      have hR : cfg.ringSize ≤ m.writeSeq := by omega
      simp only [if_pos hfar, checkedSub_of_le hR, checkedSub_of_le hskip]
      exact h.skip hm hpend hskip (by omega) .stamp (x.cursor, m.writeSeq) rfl
        (show m.writeSeq - cfg.ringSize < m.writeSeq by omega)
    · simp only [if_neg hfar]
      exact h.of_pc .stamp x.slotIndex (x.cursor, m.writeSeq) hpend.symm hlt

/-- Reading on. -/
theorem readNext_read {s k : Nat} {buf : cfg.Value W} (h : ReadInv m x)
    (hpend : x.pc.pending = []) (hseen : Seen m x.cursor s)
    (hbuf : (m.ring (cfg.slotOf x.cursor)).stamp = s → ∀ k' : Fin cfg.words, k'.val < k →
      buf k' = (m.ring (cfg.slotOf x.cursor)).data k') : ReadInv m (x.readNext s k buf) := by
  unfold Sub.readNext
  split
  · rename_i hk
    exact h.of_pc (.read s ⟨k, hk⟩ buf) x.slotIndex x.call hpend.symm
      ⟨hseen, fun heq k' hk' => hbuf heq k' hk'⟩
  · rename_i hk
    refine h.of_pc (.restamp s buf) x.slotIndex x.call hpend.symm ⟨hseen, fun heq => ?_⟩
    funext k'
    exact hbuf heq k' (by omega)

/-- A slot's even stamp that a reader after `c` loads is not older than `c`. -/
theorem MemInv.seen {pub : PubPc cfg W} (hm : MemInv m pub) {c : Nat} (hc : c < m.writeSeq)
    (heven : (m.ring (cfg.slotOf c)).stamp % 2 = 0) :
    Seen m c (m.ring (cfg.slotOf c)).stamp :=
  ⟨hc, heven, hm.low c hc, le_rfl⟩

/-- The second stamp agrees: the value is the one of the stamp. -/
theorem recvEnd_read {pub : PubPc cfg W} (hm : MemInv m pub) (h : ReadInv m x) {s : Nat}
    {buf : cfg.Value W} (hpc : x.pc = .restamp s buf)
    (hstamp : (m.ring (cfg.slotOf x.cursor)).stamp = s) : ReadInv m (recvEnd x s buf) := by
  have hlt := hm.lt
  have hpend : x.pc.pending = [] := by rw [hpc]; rfl
  have hloc := h.here
  rw [hpc] at hloc
  obtain ⟨hseen, hbuf⟩ := hloc
  have hcur := hseen.lt
  have hge := hseen.ge
  have hexp : wrap64 (x.cursor * 2 + 2) = 2 * x.cursor + 2 := by
    rw [wrap64_of_lt (by omega)]
    omega
  have hnext : wrap64 (x.cursor + 1) = x.cursor + 1 := wrap64_of_lt (by omega)
  unfold recvEnd
  rw [hexp]
  by_cases hmine : s = 2 * x.cursor + 2
  · -- the slot is committed under this very number
    have hval : m.log[x.cursor]? = some buf := by
      rcases hm.cells (cfg.slotOf x.cursor) with hcom | ⟨_, _, hbig⟩
      · rcases hcom with h0 | ⟨q, hq, _, hlog⟩
        · omega
        · have heq : q = x.cursor := by omega
          rw [heq] at hlog
          rw [hbuf hstamp]
          exact hlog
      · omega
    rw [if_pos hmine]
    simp only [hnext]
    have hnew : ReadInv m { x with
        cursor := x.cursor + 1, received := x.received ++ [(x.cursor, buf)]
        pc := .update ⟨0, by decide⟩ buf } := by
      refine ⟨?_, ?_, ?_, ?_, ?_, trivial⟩
      · show x.cursor + 1 ≤ m.writeSeq + 1
        omega
      · have hcount := h.count
        show x.cursor + 1 = x.init + (x.received ++ [(x.cursor, buf)]).length + x.totalLagged
        rw [List.length_append, List.length_singleton]
        omega
      · intro p hp
        rcases List.mem_append.mp hp with hold | hlast
        · exact ⟨lt_trans (h.values p hold).1 (Nat.lt_succ_self _), (h.values p hold).2⟩
        · rw [List.mem_singleton] at hlast
          subst hlast
          exact ⟨Nat.lt_succ_self _, hval⟩
      · refine List.pairwise_append.mpr ⟨h.order, List.pairwise_singleton _ _, ?_⟩
        intro p hp p' hp'
        rw [List.mem_singleton] at hp'
        subst hp'
        exact (h.values p hp).1
      · have hret := h.returned
        rw [hpend, List.append_nil] at hret
        simp only [SubPc.pending, List.map_append, List.map_cons, List.map_nil]
        rw [hret]
    split
    · rename_i i _
      exact hnew.of_pc (.update i buf) x.slotIndex x.call rfl trivial
    · exact hnew.ret (some buf) rfl
  · -- a newer number: the cursor moves past it
    rw [if_neg hmine]
    have heven := hseen.even
    have hs : s ≤ 2 * m.writeSeq + 2 := le_trans hseen.le (hm.stamp_top _)
    have hw : wrap64 (s / 2 - 1 + 1) = s / 2 := by
      rw [wrap64_of_lt (by omega)]
      omega
    have h1 : 1 ≤ s / 2 := by omega
    have h2 : x.cursor ≤ s / 2 := by omega
    simp only [checkedSub_of_le h1, hw, checkedSub_of_le h2]
    exact (h.skip hm hpend h2 (by omega) .rest x.call rfl trivial).ret none rfl

/-- A step of a subscriber. -/
theorem ReadInv.step [Inhabited W] {S : Type} {st : State cfg W S} {pub : PubPc cfg W} {pid : Nat}
    {slots : SlotIdx → SubSlot} {x' : Sub cfg W} (hm : MemInv st.mem pub) (h : ReadInv st.mem x)
    (hstep : SubStep pid st x slots x') : ReadInv st.mem x' := by
  cases hstep with
  | load hpc =>
    have hloc := h.here
    have hret := h.returned
    rw [hpc] at hloc hret
    obtain ⟨hrec, hlag⟩ := hloc
    refine ⟨Nat.le_succ _, ?_, ?_, ?_, ?_, ?_⟩
    · show st.mem.writeSeq = st.mem.writeSeq + x.received.length + x.totalLagged
      rw [hrec, hlag]
      rfl
    · intro p hp
      have hnil : p ∈ x.received := hp
      rw [hrec] at hnil
      cases hnil
    · exact h.order
    · split <;> exact hret
    · split <;> trivial
  | @clock i hpc =>
    exact h.of_pc (.claim i st.now) x.slotIndex x.call (by rw [hpc]; rfl) trivial
  | @claim i ts hpc hfree =>
    exact h.of_pc (.storePid i ts) x.slotIndex x.call (by rw [hpc]; rfl) trivial
  | @taken i ts hpc hfree =>
    unfold Sub.claimNext
    split
    · rename_i hi
      exact h.of_pc (.clock ⟨i.val + 1, hi⟩) x.slotIndex x.call (by rw [hpc]; rfl) trivial
    · exact h.of_pc .gone x.slotIndex x.call (by rw [hpc]; rfl) trivial
  | @storePid i ts hpc =>
    exact h.of_pc (.activate i ts) x.slotIndex x.call (by rw [hpc]; rfl) trivial
  | @activate i ts hpc => exact h.of_pc .rest (some i) x.call (by rw [hpc]; rfl) trivial
  | recv hpc => exact recvStart_read hm h hpc
  | busy hpc | torn hpc => exact h.ret none (by rw [hpc]; rfl)
  | stamp hpc heven _ =>
    have hlt := h.here
    rw [hpc] at hlt
    rw [Nat.and_one_is_mod] at heven
    exact readNext_read h (by rw [hpc]; rfl) (hm.seen hlt heven)
      (fun _ _ hk => absurd hk (Nat.not_lt_zero _))
  | @read s k buf hpc =>
    have hloc := h.here
    rw [hpc] at hloc
    refine readNext_read h (by rw [hpc]; rfl) hloc.1 (fun heq k' hk' => ?_)
    by_cases hkk : k' = k
    · rw [hkk, update_self]
    · rw [update_of_ne hkk]
      refine hloc.2 heq k' ?_
      rw [Fin.lt_def]
      have hne : k'.val ≠ k.val := fun he => hkk (Fin.ext he)
      omega
  | whole hpc hs => exact recvEnd_read hm h hpc hs
  | update hpc => exact h.ret _ (by rw [hpc]; rfl)
  | @leave i hpc _ => exact h.of_pc (.release i) x.slotIndex x.call (by rw [hpc]; rfl) trivial
  | leaveOpen hpc
  | clearPid hpc => exact h.of_pc .gone x.slotIndex x.call (by rw [hpc]; rfl) trivial
  | @release i hpc => exact h.of_pc (.clearPid i) x.slotIndex x.call (by rw [hpc]; rfl) trivial

end

/-! ### Runs -/

section

variable {S : Type}

/-- The step publishes at most the `2 ^ 62 - 1`st value. -/
def publishFits (st : State cfg W S) : Act cfg W S → Bool
  | .pub =>
    match st.pub with
    | .write _ (.advance ws) => decide (ws + 1 < 2 ^ 62)
    | _ => true
  | _ => true

/-- The ring and every subscriber. -/
structure SeqInv (st : State cfg W S) : Prop where
  mem : MemInv st.mem st.pub
  subs : ∀ s, ReadInv st.mem (st.sub s)

/-- A publisher that is not in a slot may go anywhere but into one. -/
theorem MemInv.of_pub {m : Mem cfg W} {pub pub' : PubPc cfg W} (h : MemInv m pub)
    (hout : pub.inSlot = false) (hloc : pub'.Local m) : MemInv m pub' :=
  ⟨h.len, h.lt, h.low, fun j => Or.inl (h.stamp_le hout j).1, hloc⟩

/-- A step of the publisher. -/
theorem seqInv_pub {st st' : State cfg W S} (h : SeqInv st) (hfit : publishFits st .pub = true)
    (hst : PubStep st st') : SeqInv st' ∧ Evolves st.mem st'.mem := by
  cases hst with
  | slow hp _ _ =>
    exact ⟨⟨h.mem.of_pub (by rw [hp]; rfl) trivial, h.subs⟩, .refl _⟩
  | fast hp | stay hp | next _ hp | full _ _ hp | room _ _ hp
  | nobody _ hp => exact ⟨⟨h.mem.of_pub (by rw [hp]; rfl) trivial, h.subs⟩, .refl _⟩
  | @write v pc hp =>
    have hmem := h.mem
    rw [hp] at hmem
    obtain ⟨hinv, hE⟩ := writeStep_spec hmem (by
      rintro ws rfl
      simp only [publishFits, hp, decide_eq_true_eq] at hfit
      exact hfit)
    exact ⟨⟨hinv, fun s => (h.subs s).evolve hE⟩, hE⟩

variable [Inhabited W] [DecidableEq S] {pid : S → Nat}

/-- **Step.** -/
theorem seqInv_step {st st' : State cfg W S} {a : Act cfg W S} (h : SeqInv st)
    (hfit : publishFits st a = true) (hst : Step pid st a st') : SeqInv st' := by
  cases hst with
  | publish hp =>
    refine ⟨h.mem.of_pub (by rw [hp]; rfl) ?_, h.subs⟩
    split <;> trivial
  | pub hpub => exact (seqInv_pub h hfit hpub).1
  | @connect s _ _ _ =>
    refine ⟨h.mem, fun s' => ?_⟩
    by_cases hs : s' = s
    · subst hs
      simp only [update_self]
      exact ⟨Nat.zero_le _, rfl, nofun, List.Pairwise.nil, rfl, rfl, rfl⟩
    · simp only [update_of_ne hs]
      exact h.subs s'
  | @sub _ s slots m _ _ hsub =>
    refine ⟨h.mem, fun s' => ?_⟩
    by_cases hs : s' = s
    · subst hs
      simp only [State.setSub, update_self]
      exact (h.subs s').step h.mem hsub
    · simp only [State.setSub, update_of_ne hs]
      exact h.subs s'
  | tick | spawn => exact ⟨h.mem, h.subs⟩
  | exit p =>
    refine ⟨h.mem, fun s => ?_⟩
    have hs := h.subs s
    simp only
    split
    · refine ⟨hs.cursor_le, hs.count, hs.values, hs.order, hs.returned, ?_⟩
      have hloc := hs.here
      show SubPc.Local st.mem _ (st.sub s).pc
      cases hpc : (st.sub s).pc <;> rw [hpc] at hloc <;> exact hloc
    · exact hs

omit [DecidableEq S] in
variable (cfg W S) in
/-- A fresh bus. -/
theorem seqInv_init : SeqInv (init cfg W S) := by
  refine ⟨⟨rfl, Nat.two_pow_pos 62, nofun, fun _ => Or.inl (Or.inl rfl), trivial⟩, fun s => ?_⟩
  exact ⟨Nat.zero_le _, rfl, nofun, List.Pairwise.nil, rfl, trivial⟩

/-- Fewer than `2 ^ 62` publishes. -/
def Fits (st : State cfg W S) (a : Act cfg W S) : Prop := publishFits st a = true

instance (st : State cfg W S) (a : Act cfg W S) : Decidable (Fits st a) :=
  inferInstanceAs (Decidable (_ = true))

/-- **Run.** -/
theorem seqInv_run {as : List (Act cfg W S)} {st : State cfg W S}
    (hrun : Run (step pid) Fits (init cfg W S) as st) : SeqInv st :=
  hrun.invariant (seqInv_init cfg W S) (fun _ _ _ h hfit hst => seqInv_step h hfit (step_inv hst))

/-- **Reads are never torn and never misnumbered.** In every run with fewer than `2 ^ 62`
    publishes, for every subscriber: a value received at cursor `c` is the `c`-th value
    published; the numbers received increase strictly; what the calls of `try_recv` have
    returned is exactly what was received (apart from a value about to be returned); no
    unsigned subtraction has underflowed; and the cursor has advanced by the values received
    and the values counted as lagged. -/
theorem reads_whole_and_numbered {as : List (Act cfg W S)} {st : State cfg W S}
    (hrun : Run (step pid) Fits (init cfg W S) as st) (s : S) :
    (∀ p ∈ (st.sub s).received, st.mem.log[p.1]? = some p.2) ∧
    (st.sub s).received.Pairwise (fun p p' => p.1 < p'.1) ∧
    (st.sub s).calls.filterMap (fun r => r.2.2) ++ (st.sub s).pc.pending =
      (st.sub s).received.map Prod.snd ∧
    (st.sub s).pc ≠ .fault ∧
    (st.sub s).cursor = (st.sub s).init + (st.sub s).received.length + (st.sub s).totalLagged := by
  have h := (seqInv_run hrun).subs s
  refine ⟨fun p hp => (h.values p hp).2, h.order, h.returned, ?_, h.count⟩
  intro hpc
  have hloc := h.here
  rw [hpc] at hloc
  exact hloc

end

/-- An unbounded bus with one slot, for values of two words. -/
def lossyBus : BusConfig where
  ringSize := 1
  watermark := none
  words := 2
  ringSize_lt := oneSlot.ringDepth_lt
  ringSize_pow := by decide
  watermark_lt := nofun

/-- The publisher laps a subscriber, which then reads. -/
def lagSteps : List (Act lossyBus Nat Unit) :=
  Act.spawn 7 :: Act.connect () :: Act.join () ::
    (Act.publish (fun _ => 1) :: List.replicate 6 Act.pub ++
      Act.publish (fun _ => 2) :: List.replicate 6 Act.pub) ++
    Act.recv () :: List.replicate 4 (Act.read ())

/-- The lapped subscriber receives value number 1, and number 0 is counted as lagged. -/
theorem reads_whole_and_numbered_after_lag : ∃ st : State lossyBus Nat Unit,
    Run (step (fun _ => 7)) Fits (init lossyBus Nat Unit) lagSteps st ∧
    (st.sub ()).received = [(1, fun _ => 2)] ∧ (st.sub ()).totalLagged = 1 ∧
    (∀ p ∈ (st.sub ()).received, st.mem.log[p.1]? = some p.2) ∧ (st.sub ()).pc ≠ .fault := by
  obtain ⟨st, hrun, hreceived, hlag⟩ := exists_run_of_exec (step (fun _ => 7)) Fits
    (s := init lossyBus Nat Unit) (l := lagSteps) (p := fun st =>
      (st.sub ()).received = [(1, fun _ => 2)] ∧ (st.sub ()).totalLagged = 1) (by decide +kernel)
  obtain ⟨hvalues, _, _, hfault, _⟩ := reads_whole_and_numbered hrun ()
  exact ⟨st, hrun, hreceived, hlag, hvalues, hfault⟩

end Crossbar.Bus
