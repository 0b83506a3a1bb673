import Crossbar.Ring.Invariant

namespace Crossbar.Ring

open Function Crossbar.Lib

/-!
# Ring — inversion of the steps

What a step can do, said once.  `Step` lists the enabled actions with their guards and
results, and `CommitMove` the moves inside `commit_to_ring`, with the ways to wait for an
entry and the ways to mark it folded into one constructor each.  Every invariant below is
proved by cases on these two.
-/

variable {cfg : ValidConfig} {P S : Type}

/-! ### `commit_to_ring` -/

/-- The commit is still trying to mark its entry. -/
def CommitPc.waiting : CommitPc → Bool
  | .acquire _ | .cas _ _ | .force => true
  | _ => false

/-- A move of a running `commit_to_ring`.  `R` is what is known when it marks its entry. -/
inductive CommitMove (R : Prop) (sh : Shm cfg) (c : Commit cfg) :
    CommitPc → Shm cfg → PubPc cfg → Prop
  | wait {pc pc' : CommitPc} : pc.waiting = true → pc'.waiting = true →
      pc'.locals c (sh.entry c.idx) → CommitMove R sh c pc sh (.commit c pc')
  | mark {pc : CommitPc} : pc.waiting = true → R →
      CommitMove R sh c pc (sh.mark c.idx) (.commit c .loadOld)
  | loadOld : CommitMove R sh c .loadOld sh (.commit c (.setRc (sh.entry c.idx).blockIdx))
  | setRc (old : Nat) :
      CommitMove R sh c (.setRc old) (sh.setRc c.blockIdx 1) (.commit c (.storeBlock old))
  | storeBlock (old : Nat) :
      CommitMove R sh c (.storeBlock old) (sh.storeBlock c.idx c.blockIdx)
        (.commit c (.storeLen old))
  | storeLen (old : Nat) :
      CommitMove R sh c (.storeLen old) (sh.storeLen c.idx c.len) (.commit c (.close old))
  | close (old : Nat) :
      CommitMove R sh c (.close old) (sh.close c.idx c.seq) (.commit c (.release old))
  | release {old : Nat} : old < cfg.blockCount →
      CommitMove R sh c (.release old) (sh.release old)
        (if sh.refcount old = 1 then .commit c (.recycle old) else .idle)
  | noOld {old : Nat} : ¬ old < cfg.blockCount → CommitMove R sh c (.release old) sh .idle
  | recycle (old : Nat) : CommitMove R sh c (.recycle old) sh .idle

/-- Every step of a running commit is such a move. -/
theorem commitStep_move (single : P → Bool) {st : State cfg P S} {p : P} {c : Commit cfg}
    {pc : CommitPc} (spurious : Bool) (hp : st.pub p = .commit c pc) {R : Prop}
    (hR : marks single st (.commit p spurious) = some (c.idx, c.seq) → R) :
    CommitMove R st.shm c pc (commitStep (single p) spurious st.shm c pc).1
      (commitStep (single p) spurious st.shm c pc).2 := by
  simp only [marks, hp] at hR
  cases pc with
  | acquire spins =>
    by_cases hs : single p = true
    · simp only [commitStep, hs, if_true] at hR ⊢
      exact .mark rfl (hR trivial)
    · by_cases hw : (st.shm.entry c.idx).seq = seqWriting
      · by_cases hspin : spins + 1 > spinLimit
        · simp only [commitStep, hs, hw, hspin, if_true, Bool.false_eq_true, if_false]
          exact .wait rfl rfl trivial
        · simp only [commitStep, hs, hw, hspin, if_true, Bool.false_eq_true, if_false]
          exact .wait rfl rfl trivial
      · -- the loaded number is not the marker, which the CAS relies on
        simp only [commitStep, hs, hw, Bool.false_eq_true, if_false]
        exact .wait rfl rfl hw
  | cas spins current =>
    by_cases hcas : spurious = false ∧ (st.shm.entry c.idx).seq = current
    · simp only [commitStep, if_pos hcas] at hR ⊢
      exact .mark rfl (hR trivial)
    · simp only [commitStep, if_neg hcas]
      exact .wait rfl rfl trivial
  | force => exact .mark rfl (hR rfl)
  | loadOld => exact .loadOld
  | setRc old => exact .setRc old
  | storeBlock old => exact .storeBlock old
  | storeLen old => exact .storeLen old
  | close old => exact .close old
  | release old =>
    by_cases hold : old < cfg.blockCount
    · simp only [commitStep, if_pos (And.intro (ne_noBlock hold) hold)]
      exact .release hold
    · have hneg : ¬ (old ≠ noBlock ∧ old < cfg.blockCount) := fun h => hold h.2
      simp only [commitStep, if_neg hneg]
      exact .noOld hold
  | recycle old => exact .recycle old

/-- A waiting commit refers to nothing, holds its block, and has no entry marked. -/
theorem CommitPc.waiting_spec {pc : CommitPc} (h : pc.waiting = true) (c : Commit cfg) (b : Nat) :
    (PubPc.commit c pc).refs b = 0 ∧
      (PubPc.commit c pc).holds b = (if c.blockIdx = b then 1 else 0) ∧
      pc.inCrit = false ∧ pc.isOpen = true := by
  cases pc with
  | acquire | cas | force => exact ⟨rfl, rfl, rfl, rfl⟩
  | _ => cases h

/-- A step that marks an entry is a step of a waiting commit on that entry. -/
theorem marks_commit {single : P → Bool} {st : State cfg P S} {a : Act cfg P S}
    {e : cfg.EntryIdx} {q : Nat} (hm : marks single st a = some (e, q)) :
    ∃ p c pc, st.pub p = .commit c pc ∧ pc.waiting = true ∧ e = c.idx ∧ q = c.seq := by
  cases a with
  | commit p spurious =>
    simp only [marks] at hm
    split at hm
    · rename_i c spins hp
      split at hm
      · cases hm
        exact ⟨p, c, _, hp, rfl, rfl, rfl⟩
      · cases hm
    · rename_i c spins current hp
      split at hm
      · cases hm
        exact ⟨p, c, _, hp, rfl, rfl, rfl⟩
      · cases hm
    · rename_i c hp
      cases hm
      exact ⟨p, c, _, hp, rfl, rfl, rfl⟩
    · cases hm
  | _ => cases hm

/-! ### The system -/

section

variable [Fintype P] [Fintype S] [DecidableEq P] [DecidableEq S]

/-- The enabled steps, with their guards. -/
inductive Step (single : P → Bool) (st : State cfg P S) : Act cfg P S → State cfg P S → Prop
  | loan {p : P} (t : cfg.Topic) {b : Nat} : st.pub p = .idle → b < cfg.blockCount →
      st.isFree b → Step single st (.loan p t b)
        { st with pub := update st.pub p (.loaned ⟨t, b, 0⟩) }
  | write {p : P} {l : Loan cfg} (bytes : Payload) {len : Nat} : st.pub p = .loaned l →
      len ≤ cfg.dataCapacity → Step single st (.write p bytes len)
        { st with
          shm := { st.shm with data := update st.shm.data l.blockIdx bytes }
          pub := update st.pub p (.loaned { l with len := len }) }
  | dropLoan {p : P} {l : Loan cfg} : st.pub p = .loaned l → Step single st (.dropLoan p)
      { st with pub := update st.pub p (.dropping l.blockIdx) }
  | freed {p : P} {b : Nat} : st.pub p = .dropping b → Step single st (.freed p)
      { st with pub := update st.pub p .idle }
  | claim {p : P} {l : Loan cfg} (spurious : Bool) : st.pub p = .loaned l →
      Step single st (.commit p spurious)
        { st with
          shm := st.shm.claim l
          pub := update st.pub p
            (.commit ⟨l, wrap64 (st.shm.writeSeq l.topic + 1)⟩ (.acquire 0)) }
  | commit {p : P} {c : Commit cfg} {pc : CommitPc} (spurious : Bool) :
      st.pub p = .commit c pc → Step single st (.commit p spurious)
        { st with
          shm := (commitStep (single p) spurious st.shm c pc).1
          pub := update st.pub p (commitStep (single p) spurious st.shm c pc).2 }
  | pinned (t : cfg.Topic) : Step single st (.pinned t) { st with shm := st.shm.claimPinned t }
  | subscribe {s : S} (t : cfg.Topic) : st.str s = none → Step single st (.subscribe s t)
      { st with
        str := update st.str s
          (some ⟨t, st.shm.writeSeq t, .idle, st.shm.writeSeq t, [], false⟩) }
  | recv {s : S} {m : Stream cfg} (spurious : Bool) : st.str s = some m →
      Step single st (.recv s spurious)
        { st with
          shm := (streamStep spurious st.shm m).1
          str := update st.str s (some (streamStep spurious st.shm m).2.1)
          samples := st.samples ++ (streamStep spurious st.shm m).2.2.toList }
  | dropSample {k : Nat} {t : cfg.Topic} {q b len : Nat} :
      st.samples[k]? = some (.live t q b len) → Step single st (.dropSample k)
        { st with
          shm := st.shm.setRc b (dec32 (st.shm.refcount b))
          samples := st.samples.set k (if st.shm.refcount b = 1 then .freeing b else .gone) }
  | freedSample {k b : Nat} : st.samples[k]? = some (.freeing b) →
      Step single st (.freedSample k) { st with samples := st.samples.set k .gone }

/-- `step` performs these and nothing else. -/
theorem step_inv {single : P → Bool} {st st' : State cfg P S} {a : Act cfg P S}
    (h : step single st a = some st') : Step single st a st' := by
  cases a with
  | loan p t b =>
    simp only [step] at h
    split at h
    · rename_i hp
      split at h
      · rename_i hfree
        cases h
        exact .loan t hp hfree.1 hfree.2
      · cases h
    · cases h
  | write p bytes len =>
    simp only [step] at h
    split at h
    · rename_i l hp
      split at h
      · rename_i hlen
        cases h
        exact .write bytes hp hlen
      · cases h
    · cases h
  | dropLoan p =>
    simp only [step] at h
    split at h
    · rename_i l hp
      cases h
      exact .dropLoan hp
    · cases h
  | freed p =>
    simp only [step] at h
    split at h
    · rename_i b hp
      cases h
      exact .freed hp
    · cases h
  | commit p spurious =>
    simp only [step] at h
    split at h
    · rename_i l hp
      cases h
      exact .claim spurious hp
    · rename_i c pc hp
      cases h
      exact .commit spurious hp
    · cases h
  | pinned t =>
    cases h
    exact .pinned t
  | subscribe s t =>
    simp only [step] at h
    split at h
    · rename_i hs
      cases h
      exact .subscribe t hs
    · cases h
  | recv s spurious =>
    simp only [step] at h
    split at h
    · rename_i m hm
      cases h
      exact .recv spurious hm
    · cases h
  | dropSample k =>
    simp only [step] at h
    split at h
    · rename_i t q b len hk
      cases h
      exact .dropSample hk
    · cases h
  | freedSample k =>
    simp only [step] at h
    split at h
    · rename_i b hk
      cases h
      exact .freedSample hk
    · cases h

end

end Crossbar.Ring
