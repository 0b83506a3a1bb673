import Crossbar.Pool.Custody

namespace Crossbar.Pool

open Function Crossbar.Lib

/-!
# Pool — reads are safe with one publisher

The invariant along a run of the creating publisher, its allocator and any number of
streams, and what follows for a sample: while it is alive it is exactly what the publish that
claimed its sequence number was called with, and its block is in none of the allocator's
places and in no loan.
-/

variable {cfg : ValidConfig} {S : Type} [Fintype S] [DecidableEq S] {st st' : State cfg S}

/-! ### Steps -/

/-- `Publisher::loan` up to its `Loan`. -/
theorem inv_alloc (h : Inv st) {spurious : Bool} (hst : step st (.alloc spurious) = some st') :
    Follows st st' := by
  obtain ⟨l, hs, hown⟩ := h.shelf
  simp only [step] at hst
  split at hst
  · rename_i t howner
    have hidle := hown.idle (by simp [howner])
    rw [howner] at hs
    split at hst
    · rename_i hne
      cases hst
      obtain ⟨hinv, hring⟩ := inv_grant (hs.takeLast hne) h.ring hidle t
      exact ⟨hinv, hring⟩
    · split at hst
      · cases hst
        refine .of_same ⟨h.ring, l, hs.next _, fun _ => hidle, ?_, by rintro _ _ ⟨⟩⟩ rfl
        intro t' pc' heq
        cases heq
        exact ⟨trivial, by rintro _ ⟨⟩⟩
      · cases hst
        exact inv_serve hs h.ring hidle t
  · rename_i t pc howner
    have hidle := hown.idle (by simp [howner])
    rw [howner] at hs
    cases hst
    exact inv_refilled hs h.ring hidle t (hown.pop t pc howner) spurious
  · cases hst

/-- `Drop for Loan`, up to its call of `free_block`. -/
theorem inv_dropLoan (h : Inv st) (hst : step st .dropLoan = some st') : Follows st st' := by
  obtain ⟨l, hs, hown⟩ := h.shelf
  simp only [step] at hst
  split at hst
  · rename_i loan hp
    have hready := h.ready (by simp [hp])
    rw [hready] at hs
    rw [Option.map_eq_some_iff] at hst
    obtain ⟨r₂, hring, rfl⟩ := hst
    rw [Option.bind_eq_some_iff] at hring
    obtain ⟨r₁, h₁, h₂⟩ := hring
    have hst₁ := Ring.step_inv h₁
    have hst₂ := Ring.step_inv h₂
    have hok₁ : Ring.Ok isOwner st.ring (.dropLoan ()) := ⟨⟨rfl, rfl⟩, rfl⟩
    have hok₂ : Ring.Ok isOwner r₁ (.freed ()) := ⟨⟨rfl, rfl⟩, rfl⟩
    have hI₁ := Ring.inv_step h.ring hok₁ hst₁
    have hI₂ := Ring.inv_step hI₁ hok₂ hst₂
    -- the block is the loan's until `free_block` has it
    have hp₁ : r₁.pub () = .dropping loan.blockIdx := by
      cases hst₁ with
      | dropLoan hp' =>
        rw [hp] at hp'
        cases hp'
        simp
    have hidle : r₂.pub () = .idle := by
      cases hst₂ with
      | freed _ => simp
    have hstr : r₂.str = st.ring.str ∧ r₂.samples = st.ring.samples := by
      cases hst₂ with
      | freed _ =>
        cases hst₁ with
        | dropLoan _ => exact ⟨rfl, rfl⟩
    obtain ⟨hb, hfree⟩ := Ring.isFree_freed hI₁.toCore hp₁ hst₂
    have hused : ¬ st.ring.isFree loan.blockIdx := by
      apply Ring.not_isFree_of_holders
      have hle := Ring.le_holders_of_pub (b := loan.blockIdx) st.ring ()
      rw [hp] at hle
      simp only [Ring.PubPc.holds, if_true] at hle
      exact hle
    have hshelf : Shelf { st with ring := r₂ } l [loan.blockIdx] := by
      refine ⟨hs.chain, Custody.cons ?_ hb hfree (hs.custody.notMem hused), ?_⟩
      · refine hs.custody.keep ?_
        intro b' _ hb' hf
        have hf₁ := Ring.isFree_step h.ring.toCore hok₁.toClear hst₁ hb' hf (by rintro _ _ ⟨⟩)
        exact Ring.isFree_step hI₁.toCore hok₂.toClear hst₂ hb' hf₁ (by rintro _ _ ⟨⟩)
      · intro x b' hx
        rw [Freer.inRing_congr hstr.1 hstr.2] at hx
        exact hs.push x b' hx
    exact ⟨inv_startFree hshelf hI₂ hidle false, [.dropLoan (), .freed ()],
      .cons hok₁ h₁ (.single hok₂ h₂)⟩
  · cases hst

/-- The last step of `commit_to_ring`: the replaced block goes into `last_freed`. -/
theorem inv_recycle (h : Inv st) {c : Ring.Commit cfg} {old : Nat}
    (hp : st.ring.pub () = .commit c (.recycle old)) {r : Ring.State cfg Unit S}
    (hring : Ring.Step isOwner st.ring (.commit () false) r) :
    Inv (if st.lastFreed ≠ noBlock then
      State.startFree { st with ring := r, lastFreed := old } st.lastFreed false
      else { st with ring := r, lastFreed := old }) := by
  obtain ⟨l, hs, hown⟩ := h.shelf
  have hready := h.ready (by simp [hp])
  rw [hready] at hs
  have hok : Ring.Ok isOwner st.ring (.commit () false) :=
    ring_ok h.ring (by simp only [Ring.claimFits, hp]) rfl
  have hI := Ring.inv_step h.ring hok hring
  obtain ⟨hb, hfree⟩ := Ring.isFree_recycle h.ring.toCore hp hring
  have hused : ¬ st.ring.isFree old := by
    apply Ring.not_isFree_of_holders
    have hle := Ring.le_holders_of_pub (b := old) st.ring ()
    rw [hp] at hle
    simp only [Ring.PubPc.holds, if_true] at hle
    exact hle
  have hsame : r.pub () = .idle ∧ r.str = st.ring.str ∧ r.samples = st.ring.samples := by
    cases hring with
    | claim _ hp' => rw [hp] at hp'; cases hp'
    | commit _ hp' =>
      rw [hp] at hp'
      cases hp'
      refine ⟨?_, rfl, rfl⟩
      show update st.ring.pub () .idle () = .idle
      rw [update_self]
  have hkeep : Custody r (old :: st.shelf l) := by
    refine Custody.cons (hs.custody.keep ?_) hb hfree (hs.custody.notMem hused)
    intro b' _ hb' hf
    exact Ring.isFree_step h.ring.toCore hok.toClear hring hb' hf (by rintro _ _ ⟨⟩)
  have hpush : ∀ x b', Freer.inRing r x = some b' → Pushing st.pool b' (st.push x) := by
    intro x b' hx
    rw [Freer.inRing_congr hsame.2.1 hsame.2.2] at hx
    exact hs.push x b' hx
  have hcell : cell old = [old] := if_neg (ne_noBlock hb)
  split
  · rename_i hne
    -- the block that was in `last_freed` is displaced
    have hshelf : Shelf { st with ring := r, lastFreed := old } l [st.lastFreed] := by
      have hlast : cell st.lastFreed = [st.lastFreed] := if_neg hne
      refine ⟨hs.chain, hkeep.perm ?_, hpush⟩
      rw [List.perm_iff_count]
      intro x
      simp only [State.shelf, hcell, hlast, List.count_append, List.count_cons, List.count_nil]
      omega
    exact inv_startFree hshelf hI hsame.1 false
  · rename_i hnone
    rw [not_not] at hnone
    have hshelf : Shelf { st with ring := r, lastFreed := old } l [] := by
      have hlast : cell st.lastFreed = [] := if_pos hnone
      refine ⟨hs.chain, hkeep.perm ?_, hpush⟩
      rw [List.perm_iff_count]
      intro x
      simp only [State.shelf, hcell, hlast, List.count_append, List.count_cons, List.count_nil]
      omega
    have hinv := inv_ready hshelf hI
    rw [← hready] at hinv
    exact hinv

/-- `try_recv`, outside `free_block`. -/
theorem inv_recv (h : Inv st) {s : S} {spurious : Bool}
    (hfit : fits st (.recv s spurious) = true) (hst : step st (.recv s spurious) = some st') :
    Follows st st' := by
  simp only [step] at hst
  split at hst
  · cases hst
  rw [Option.map_eq_some_iff] at hst
  obtain ⟨r, hring, rfl⟩ := hst
  have hstep := Ring.step_inv hring
  have hbump : Ring.bumpFits (P := Unit) st.ring (.recv s spurious) = true := hfit
  have hok := ring_ok h.ring rfl hbump
  refine .of_step (inv_reader h hok hstep (by rintro _ _ _ ⟨⟩) ?_ _ ?_ ?_) hok hring
  · cases hstep with
    | recv _ _ => rfl
  · exact update_of_ne (by simp) _ _
  · intro x b hx
    cases hstep with
    | @recv _ m _ hm =>
      cases x with
      | owner => cases hx
      | stream s' =>
        by_cases hs : s' = s
        · subst hs
          exact Or.inl (update_self _ _ _)
        · refine Or.inr ⟨update_of_ne (fun heq => hs (by cases heq; rfl)) _ _, ?_⟩
          simp only [Freer.inRing, update_of_ne hs] at hx ⊢
          exact hx
      | sample k =>
        refine Or.inr ⟨update_of_ne (by simp) _ _, ?_⟩
        have hk := Freer.inRing_sample hx
        simp only [List.getElem?_append] at hk
        split at hk
        · simp only [Freer.inRing, hk]
        · -- the sample the step returns is alive
          obtain ⟨t, q, b', len, heq⟩ := Ring.streamStep_live spurious st.ring.shm m
            (Option.mem_toList.mp (List.mem_of_getElem? hk))
          cases heq

/-- `Drop for Sample`, up to its call of `free_block`. -/
theorem inv_dropSample (h : Inv st) {k : Nat} (hst : step st (.dropSample k) = some st') :
    Follows st st' := by
  simp only [step] at hst
  rw [Option.map_eq_some_iff] at hst
  obtain ⟨r, hring, rfl⟩ := hst
  have hstep := Ring.step_inv hring
  have hok : Ring.Ok isOwner st.ring (.dropSample k) := ring_ok h.ring rfl rfl
  refine .of_step (inv_reader h hok hstep nofun ?_ _ ?_ ?_) hok hring
  · cases hstep with
    | dropSample _ => rfl
  · exact update_of_ne (by nofun) _ _
  · intro x b hx
    cases hstep with
    | dropSample hk =>
      cases x with
      | owner => cases hx
      | stream s => exact Or.inr ⟨update_of_ne (by nofun) _ _, hx⟩
      | sample k' =>
        by_cases hkk : k' = k
        · subst hkk
          exact Or.inl (update_self _ _ _)
        · refine Or.inr ⟨update_of_ne (fun heq => hkk (by cases heq; rfl)) _ _, ?_⟩
          simp only [Freer.inRing, List.getElem?_set_ne (Ne.symm hkk)] at hx ⊢
          exact hx

/-- A stream's `free_block` has pushed its block. -/
theorem inv_streamFreed (h : Inv st) {s : S} {b : Nat}
    (hin : (Freer.stream s).inRing st.ring = some b) {spurious : Bool} {pool' : FreeList}
    (hpush : pushStep cfg spurious st.pool b (st.push (.stream s)) = (pool', .done))
    {r : Ring.State cfg Unit S} (hring : Ring.step isOwner st.ring (.recv s false) = some r) :
    Follows st { st with ring := r, pool := pool',
                         push := update st.push (.stream s) .done } := by
  have hstep := Ring.step_inv hring
  obtain ⟨m, sc, hm, hpc⟩ := Freer.inRing_stream hin
  have hfit : Ring.bumpFits (P := Unit) st.ring (.recv s false) = true := by
    simp only [Ring.bumpFits, hm, hpc]
  have hok := ring_ok h.ring rfl hfit
  refine .of_step (inv_ringFreed h hin hpush hok hstep (by rintro _ _ _ ⟨⟩) ?_
    (Ring.isFree_recv h.ring.toCore hm hpc hstep) ?_) hok hring
  · cases hstep with
    | recv _ _ => rfl
  · intro x b' hx
    cases hstep with
    | @recv _ m' _ hm' =>
      rw [hm, Option.some.injEq] at hm'
      subst hm'
      have hnew : Ring.streamStep false st.ring.shm m
          = (st.ring.shm, m.skip sc false, none) := by
        simp only [Ring.streamStep, hpc]
      simp only [hnew, Option.toList_none, List.append_nil] at hx
      cases x with
      | owner => cases hx
      | stream s' =>
        by_cases hs : s' = s
        · -- the stream itself goes on with its scan
          subst hs
          obtain ⟨m₂, sc₂, hm₂, hpc₂⟩ := Freer.inRing_stream hx
          simp only [update_self, Option.some.injEq] at hm₂
          have hholds := (Ring.skip_pc m sc false).2.1 b'
          rw [hm₂, hpc₂] at hholds
          simp [Ring.StreamPc.holds] at hholds
        · refine ⟨fun heq => hs (by cases heq; rfl), ?_⟩
          simp only [Freer.inRing, update_of_ne hs] at hx ⊢
          exact hx
      | sample k => exact ⟨by simp, hx⟩

/-- A sample's `free_block` has pushed its block. -/
theorem inv_sampleFreed (h : Inv st) {k b : Nat}
    (hin : (Freer.sample k : Freer S).inRing st.ring = some b) {spurious : Bool}
    {pool' : FreeList}
    (hpush : pushStep cfg spurious st.pool b (st.push (.sample k)) = (pool', .done))
    {r : Ring.State cfg Unit S} (hring : Ring.step isOwner st.ring (.freedSample k) = some r) :
    Follows st { st with ring := r, pool := pool',
                         push := update st.push (.sample k) .done } := by
  have hstep := Ring.step_inv hring
  have hk := Freer.inRing_sample hin
  have hok : Ring.Ok isOwner st.ring (.freedSample k) := ring_ok h.ring rfl rfl
  refine .of_step (inv_ringFreed h hin hpush hok hstep nofun ?_
    (Ring.isFree_freedSample h.ring.toCore hk hstep) ?_) hok hring
  · cases hstep with
    | freedSample _ => rfl
  · intro x b' hx
    cases hstep with
    | freedSample _ =>
      cases x with
      | owner => cases hx
      | stream s => exact ⟨nofun, hx⟩
      | sample k' =>
        by_cases hkk : k' = k
        · subst hkk
          have hgone := Freer.inRing_sample hx
          simp only [List.getElem?_set_self (List.getElem?_eq_some_iff.mp hk).1,
            Option.some.injEq, reduceCtorEq] at hgone
        · refine ⟨fun heq => hkk (by cases heq; rfl), ?_⟩
          simp only [Freer.inRing, List.getElem?_set_ne (Ne.symm hkk)] at hx ⊢
          exact hx

/-- `free_block`, whoever runs it. -/
theorem inv_free (h : Inv st) {a : Freer S} {spurious : Bool}
    (hst : step st (.free a spurious) = some st') : Follows st st' := by
  simp only [step] at hst
  split at hst
  · rename_i b hf
    obtain ⟨⟨pool', pc'⟩, hpush⟩ : ∃ r, pushStep cfg spurious st.pool b (st.push a) = r := ⟨_, rfl⟩
    rw [hpush] at hst
    split at hst
    · rename_i hdone
      simp only at hdone hst
      subst hdone
      rcases State.freeing_cases hf with ⟨rfl, closing, howner⟩ | hin
      · exact inv_ownerFreed h howner hpush hst
      · cases a with
        | owner => cases hin
        | stream s =>
          simp only [State.freed, Option.map_eq_some_iff] at hst
          obtain ⟨r, hring, rfl⟩ := hst
          exact inv_streamFreed h hin hpush hring
        | sample k =>
          simp only [State.freed, Option.map_eq_some_iff] at hst
          obtain ⟨r, hring, rfl⟩ := hst
          exact inv_sampleFreed h hin hpush hring
    · rename_i hrun
      cases hst
      exact .of_same (inv_push h hf hpush hrun) rfl
  · cases hst

/-- `Loan::publish`. -/
theorem inv_publish (h : Inv st) (hfit : fits st .publish = true)
    (hst : step st .publish = some st') : Follows st st' := by
  have hclaim : Ring.claimFits st.ring (.commit () false) = true := hfit
  have hok := ring_ok h.ring hclaim rfl
  simp only [step] at hst
  split at hst
  · rename_i c old hp
    rw [Option.map_eq_some_iff] at hst
    obtain ⟨r, hring, rfl⟩ := hst
    have hinv := inv_recycle h hp (Ring.step_inv hring)
    refine .of_step hinv hok ?_
    split <;> exact hring
  · rw [Option.map_eq_some_iff] at hst
    obtain ⟨r, hring, rfl⟩ := hst
    have hstep := Ring.step_inv hring
    have hsame : st.ring.pub () ≠ .idle ∧ r.str = st.ring.str ∧ r.samples = st.ring.samples := by
      cases hstep with
      | claim _ hp | commit _ hp => exact ⟨by simp [hp], rfl, rfl⟩
    exact .of_step (inv_pub h hok hstep (by rintro _ _ _ ⟨⟩) hsame.1 hsame.2.1 hsame.2.2) hok hring

/-- `Drop for Publisher`. -/
theorem inv_close (h : Inv st) (hst : step st .close = some st') : Follows st st' := by
  obtain ⟨l, hs, hown⟩ := h.shelf
  simp only [step] at hst
  split at hst
  · rename_i howner hp
    rw [howner] at hs
    cases hst
    exact .of_same ⟨h.ring, l, hs.next _, fun _ => hp, by rintro _ _ ⟨⟩, by rintro _ _ ⟨⟩⟩ rfl
  · rename_i howner
    have hidle := hown.idle (by simp [howner])
    rw [howner] at hs
    split at hst
    · rename_i hne
      cases hst
      exact .of_same (inv_startFree (hs.takeLast hne) h.ring hidle true) rfl
    · cases hst
      exact .of_same (inv_closeNext hs h.ring hidle) (State.closeNext_ring st)
  · cases hst

/-- **Step.** Every step keeps the invariant and is matched by steps of the ring. -/
theorem follows_step (h : Inv st) {a : Act cfg S} (hfit : fits st a = true)
    (hst : step st a = some st') : Follows st st' := by
  cases a with
  | loan t =>
    -- the allocator starts; the ring does nothing yet
    obtain ⟨l, hs, hown⟩ := h.shelf
    simp only [step] at hst
    split at hst
    · rename_i howner hp
      rw [howner] at hs
      cases hst
      exact .of_same ⟨h.ring, l, hs.next _, fun _ => hp, by rintro _ _ ⟨⟩, by rintro _ _ ⟨⟩⟩ rfl
    · cases hst
  | alloc spurious => exact inv_alloc h hst
  | write bytes len =>
    simp only [step] at hst
    rw [Option.map_eq_some_iff] at hst
    obtain ⟨r, hring, rfl⟩ := hst
    have hstep := Ring.step_inv hring
    have hok : Ring.Ok isOwner st.ring (.write () bytes len) := ring_ok h.ring rfl rfl
    have hsame : st.ring.pub () ≠ .idle ∧ r.str = st.ring.str ∧ r.samples = st.ring.samples := by
      cases hstep with
      | write _ hp _ => exact ⟨by simp [hp], rfl, rfl⟩
    exact .of_step (inv_pub h hok hstep (by rintro _ _ _ ⟨⟩) hsame.1 hsame.2.1 hsame.2.2) hok hring
  | dropLoan => exact inv_dropLoan h hst
  | publish => exact inv_publish h hfit hst
  | close => exact inv_close h hst
  | free a spurious => exact inv_free h hst
  | subscribe s t =>
    simp only [step] at hst
    rw [Option.map_eq_some_iff] at hst
    obtain ⟨r, hring, rfl⟩ := hst
    have hstep := Ring.step_inv hring
    have hok : Ring.Ok isOwner st.ring (.subscribe s t) := ring_ok h.ring rfl rfl
    -- a new stream frees no block
    refine .of_step (inv_reader h hok hstep (by rintro _ _ _ ⟨⟩) ?_ st.push rfl ?_) hok hring
    · cases hstep with
      | subscribe _ _ => rfl
    · intro x b hx
      cases hstep with
      | subscribe _ hs =>
        refine Or.inr ⟨rfl, ?_⟩
        cases x with
        | owner => cases hx
        | stream s' =>
          by_cases hss : s' = s
          · subst hss
            obtain ⟨m, sc, hm, hpc⟩ := Freer.inRing_stream hx
            simp only [update_self, Option.some.injEq] at hm
            rw [← hm] at hpc
            cases hpc
          · simp only [Freer.inRing, update_of_ne hss] at hx ⊢
            exact hx
        | sample k => exact hx
  | recv s spurious => exact inv_recv h hfit hst
  | dropSample k => exact inv_dropSample h hst

/-! ### Runs -/

/-- The counters fit in every step. -/
def Fits (st : State cfg S) (a : Act cfg S) : Prop := fits st a = true

instance (st : State cfg S) (a : Act cfg S) : Decidable (Fits st a) :=
  inferInstanceAs (Decidable (_ = true))

omit [DecidableEq S] in
variable (cfg S) in
/-- A fresh region has all blocks on the free list. -/
theorem inv_init : Inv (init cfg S) := by
  refine ⟨Ring.inv_init cfg Unit S, List.range cfg.blockCount,
    ⟨initFreeList_chain cfg, ⟨?_, ?_⟩, ?_⟩, fun hne => absurd rfl hne, nofun, nofun⟩
  · simp [State.shelf, init, OwnerPc.hand, cell, List.nodup_range]
  · intro b hb
    simp only [State.shelf, init, OwnerPc.hand, cell, if_true, List.append_nil, List.nil_append,
      List.mem_range] at hb
    refine ⟨hb, rfl, ?_⟩
    simp [Ring.State.holders, init, Ring.init, tally, Ring.PubPc.holds, Ring.streamHolds]
  · intro a b hab
    cases a <;> cases hab

/-- **Run.** The invariant holds in every state of every run. -/
theorem inv_run {as : List (Act cfg S)} (hrun : Run step Fits (init cfg S) as st) : Inv st :=
  hrun.invariant (inv_init cfg S) (fun _ _ _ h hfit hst => (follows_step h hfit hst).inv)

/-- **Refinement.** Every run of the publisher with its allocator is, seen from the ring, an
    admissible run of the ring with the abstract allocator. -/
theorem ring_run {as : List (Act cfg S)} (h : Inv st) (hrun : Run step Fits st as st') :
    ∃ bs, Run (Ring.step isOwner) (Ring.Ok isOwner) st.ring bs st'.ring := by
  induction hrun with
  | nil s => exact ⟨[], .nil _⟩
  | cons hfit hst _ ih =>
    obtain ⟨hinv, bs, hbs⟩ := follows_step h hfit hst
    obtain ⟨cs, hcs⟩ := ih hinv
    exact ⟨bs ++ cs, hbs.append hcs⟩

/-! ### Samples -/

/-- Block `b` is in none of the places from which it could be handed out again, and no loan
    gives write access to it. -/
structure OutOfReach (st : State cfg S) (b : Nat) : Prop where
  freeList : ∃ l, st.pool.Chain l ∧ b ∉ l
  cache : b ∉ st.cache
  lastFreed : st.lastFreed ≠ b
  loan : ∀ l, st.ring.pub () = .loaned l → l.blockIdx ≠ b

omit [DecidableEq S] in
/-- The block of a live sample is out of the publisher's reach. -/
theorem Inv.outOfReach (h : Inv st) {k : Nat} {t : cfg.Topic} {q b len : Nat}
    (hk : st.ring.samples[k]? = some (.live t q b len)) : OutOfReach st b := by
  obtain ⟨l, hs, _⟩ := h.shelf
  have hb : b < cfg.blockCount := h.ring.samRange _ (List.mem_of_getElem? hk)
  have hR := h.ring.blocks b hb
  -- the sample is a reference, so the count is positive and nobody holds the block
  have hpos : 0 < st.ring.shm.refcount b := by
    have hle := Ring.le_refs_of_sample (b := b) st.ring hk
    simp only [Ring.Sample.refs, if_true] at hle
    rw [hR.count]
    exact hle
  have hused : ¬ st.ring.isFree b := by
    intro hfree
    rw [hfree.1] at hpos
    exact Nat.lt_irrefl 0 hpos
  have hnot := hs.custody.notMem hused
  simp only [State.shelf, List.mem_append, not_or] at hnot
  refine ⟨⟨l, hs.chain, hnot.2.1.1⟩, hnot.2.1.2, ?_, ?_⟩
  · rintro rfl
    have hcell : cell st.lastFreed = [st.lastFreed] := if_neg (ne_noBlock hb)
    rw [hcell] at hnot
    exact hnot.2.2 (List.mem_singleton_self _)
  · rintro loan hp rfl
    have hle := Ring.le_holders_of_pub (b := loan.blockIdx) st.ring ()
    have howner := hR.owner
    simp only [hp, Ring.PubPc.holds, if_true] at hle
    simp only [Ring.live, if_pos hpos] at howner
    omega

/-- **Read safety with one publisher.** Take any run of the creating publisher and its
    streams, in which `try_recv` returns a sample for number `q` of topic `t`.  The sample is
    what the publish that claimed `q` was called with and has committed; and at every later
    moment at which the sample is alive, its block is out of the publisher's reach and its
    bytes are those of that publish. -/
theorem read_safety {as bs : List (Act cfg S)} {st₁ st₂ : State cfg S} {s : S} {spurious : Bool}
    {t : cfg.Topic} {q b len : Nat} (hrun : Run step Fits (init cfg S) as st)
    (hfit : Fits st (.recv s spurious)) (hread : step st (.recv s spurious) = some st₁)
    (hnew : st₁.ring.samples = st.ring.samples ++ [.live t q b len])
    (hrest : Run step Fits st₁ bs st₂)
    (halive : st₂.ring.samples[st.ring.samples.length]? = some (.live t q b len)) :
    ∃ bytes, st₁.ring.shm.claims t q = some ⟨b, len, bytes⟩ ∧ st₁.ring.shm.closed t q = true ∧
      OutOfReach st₂ b ∧ ∀ i < len, st₂.ring.shm.data b i = bytes i := by
  have h₁ : Inv st₁ := (follows_step (inv_run hrun) hfit hread).inv
  have h₂ : Inv st₂ := hrest.invariant h₁ (fun _ _ _ h hf hst => (follows_step h hf hst).inv)
  have hmem : Ring.Sample.live t q b len ∈ st₁.ring.samples := by simp [hnew]
  obtain ⟨hclaim₁, hclosed₁⟩ := h₁.ring.samples _ hmem
  obtain ⟨hclaim₂, _⟩ := h₂.ring.samples _ (List.mem_of_getElem? halive)
  refine ⟨_, hclaim₁, hclosed₁, h₂.outOfReach halive, ?_⟩
  -- the log keeps the claim, so both moments see the same bytes
  obtain ⟨cs, hcs⟩ := ring_run h₁ hrest
  have hkept := (Ring.forward_run h₁.ring hcs).claims t q (h₁.ring.closed_le t q hclosed₁)
  rw [hclaim₁, hclaim₂, Option.some.injEq, Ring.Claim.mk.injEq] at hkept
  intro i _
  rw [hkept.2.2]

/-- A stream subscribes, and a message of three bytes is published and read up to the
    re-check: the refill empties the free list of four blocks into the cache. -/
def readSteps : List (Act oneSlot Unit) :=
  Act.subscribe () oneSlot.topic0 :: Act.loan oneSlot.topic0 ::
    List.replicate 14 (Act.alloc false) ++
    Act.write (fun _ => 7) 3 :: List.replicate 8 Act.publish ++ List.replicate 6 (Act.recv () false)

/-- The next message replaces the one that has been read. -/
def overwriteSteps : List (Act oneSlot Unit) :=
  .loan oneSlot.topic0 :: .alloc false :: .write (fun _ => 9) 2 :: List.replicate 8 .publish

/-- A sample survives the overwrite of its ring entry. -/
theorem read_safety_after_overwrite : ∃ st₁ st₂ : State oneSlot Unit,
    Run step Fits (init oneSlot Unit) (readSteps ++ [.recv () false]) st₁ ∧
    Run step Fits st₁ overwriteSteps st₂ ∧
    ∃ bytes, st₁.ring.shm.claims oneSlot.topic0 1 = some ⟨3, 3, bytes⟩ ∧
      st₁.ring.shm.closed oneSlot.topic0 1 = true ∧ OutOfReach st₂ 3 ∧
      ∀ i < 3, st₂.ring.shm.data 3 i = bytes i := by
  obtain ⟨st, hrun, htest⟩ := exists_run_of_exec step Fits (s := init oneSlot Unit)
    (l := readSteps)
    (p := fun st => (exec step Fits st [.recv () false]).any fun st₁ : State oneSlot Unit =>
      decide (st₁.ring.samples = st.ring.samples ++ [.live oneSlot.topic0 1 3 3]) &&
      (exec step Fits st₁ overwriteSteps).any fun st₂ : State oneSlot Unit =>
        decide (st₂.ring.samples[st.ring.samples.length]? = some (.live oneSlot.topic0 1 3 3)))
    (by decide +kernel)
  obtain ⟨st₁, hexec, htest⟩ := (Option.any_eq_true _ _).mp htest
  obtain ⟨hsample, htest⟩ := Bool.and_eq_true_iff.mp htest
  obtain ⟨st₂, hrest, halive⟩ := exists_run_of_exec step Fits htest
  have hread := exec_run step Fits hexec
  refine ⟨st₁, st₂, hrun.append hread, hrest, ?_⟩
  cases hread with
  | cons hfit hstep hnil =>
    cases hnil
    exact read_safety hrun hfit hstep (of_decide_eq_true hsample) hrest halive

end Crossbar.Pool
