import Crossbar.Lib.Run

namespace Crossbar.Mapping.Lifetime

open Function Crossbar.Lib

/-!
# Mapping — who keeps it alive

A `Subscriber` owns the mapping of its region and unmaps it when it is dropped.  A `Stream` has an
`Arc<Region>`, and a `Region` has the address of the mapping, not the mapping; a `Sample` borrows
from its stream.  So the types keep a stream alive as long as its samples, but nothing keeps a
subscriber alive as long as its streams.

* `step` — the calls of one process that make, use and drop subscribers, streams and samples, as
  far as the mapping is concerned;
* `Borrows` — what the borrow checker asks of the calls; the C interface has no such rule;
* `Act.access` — the address that a call uses, and the region it was meant for;
* `scoped_streams_reach_mapping` — in safe Rust, when every stream is dropped before its subscriber,
  as a `Channel` does by the order of its fields, every access is to the mapping of its own region;
* `streams_outlive_mapping` — otherwise the address may be unmapped, or be that of another region.

A mapping is named by its address; the kernel puts a new one anywhere nothing is mapped.
-/

/-- A `Stream`: the base address in its `Region`.  The subscriber it comes from and the region it
    is of are history variables. -/
structure StreamRef (N A F : Type*) where
  base : A
  sub : N
  file : F

/-- A `Sample`, or a `CrossbarSample` of the C interface. -/
structure SampleRef (N A F : Type*) where
  base : A
  stream : N
  file : F

/-- The mappings of a process, and its subscribers, streams and samples by name. -/
structure State (N A F : Type*) where
  space : A → Option F
  subs : N → Option A
  streams : N → Option (StreamRef N A F)
  samples : N → Option (SampleRef N A F)

/-- A process that has mapped nothing. -/
def start (N A F : Type*) : State N A F := ⟨fun _ => none, fun _ => none, fun _ => none,
  fun _ => none⟩

/-- A call of the process. -/
inductive Act (N A F : Type*) where
  /-- `Subscriber::connect`; the region `f` is mapped at `a` -/
  | connect (i : N) (a : A) (f : F)
  | subscribe (i j : N)
  /-- `Drop` of the subscriber, which unmaps -/
  | dropSub (i : N)
  /-- `try_recv`; a message becomes the sample `k` -/
  | tryRecv (j : N) (k : Option N)
  /-- `Drop for Stream`, which decrements the subscriber count -/
  | dropStream (j : N)
  /-- reading a sample -/
  | read (k : N)
  /-- `Drop for Sample`, which releases the block -/
  | dropSample (k : N)

variable {N A F : Type*} [DecidableEq N] [DecidableEq A]

/-- One call.  `none` when a name is not, or already, in use. -/
def step (s : State N A F) : Act N A F → Option (State N A F)
  | .connect i a f =>
    match s.subs i, s.space a with
    | none, none =>
      some { s with
        space := update s.space a (some f), subs := update s.subs i (some a) }
    | _, _ => none
  | .subscribe i j =>
    match s.subs i, s.streams j with
    | some a, none =>
      (s.space a).map fun f => { s with streams := update s.streams j (some ⟨a, i, f⟩) }
    | _, _ => none
  | .dropSub i =>
    (s.subs i).map fun a =>
      { s with
        space := update s.space a none, subs := update s.subs i none }
  | .tryRecv j k =>
    match s.streams j, k with
    | none, _ => none
    | some _, none => some s
    | some x, some k =>
      match s.samples k with
      | none => some { s with samples := update s.samples k (some ⟨x.base, j, x.file⟩) }
      | some _ => none
  | .dropStream j =>
    (s.streams j).map fun _ => { s with streams := update s.streams j none }
  | .read k => (s.samples k).map fun _ => s
  | .dropSample k =>
    (s.samples k).map fun _ => { s with samples := update s.samples k none }

/-- The address that a call uses, with the region it is meant to be of. -/
def Act.access (s : State N A F) : Act N A F → Option (A × F)
  | .tryRecv j _ => (s.streams j).map fun x => (x.base, x.file)
  | .dropStream j => (s.streams j).map fun x => (x.base, x.file)
  | .read k => (s.samples k).map fun y => (y.base, y.file)
  | .dropSample k => (s.samples k).map fun y => (y.base, y.file)
  | .connect .. | .subscribe .. | .dropSub _ => none

/-- The borrow checker: a stream is not dropped while a sample borrows from it. -/
def Borrows (s : State N A F) : Act N A F → Prop
  | .dropStream j => ∀ k y, s.samples k = some y → y.stream ≠ j
  | _ => True

/-- A subscriber is dropped after its streams. -/
def Scoped (s : State N A F) : Act N A F → Prop
  | .dropSub i => ∀ j x, s.streams j = some x → x.sub ≠ i
  | _ => True

/-! ### Streams that are dropped in time -/

/-- Every reference is to a mapping of its own region. -/
structure Inv (s : State N A F) : Prop where
  subs : ∀ i a, s.subs i = some a → s.space a ≠ none
  apart : ∀ i i' a, s.subs i = some a → s.subs i' = some a → i = i'
  streams : ∀ j x, s.streams j = some x →
    s.subs x.sub = some x.base ∧ s.space x.base = some x.file
  samples : ∀ k y, s.samples k = some y →
    ∃ x, s.streams y.stream = some x ∧ x.base = y.base ∧ x.file = y.file

section

variable {s s' : State N A F}

omit [DecidableEq N] [DecidableEq A] in
theorem inv_start : Inv (start N A F) := ⟨nofun, nofun, nofun, nofun⟩

theorem Inv.connect (h : Inv s) {i : N} {a : A} (f : F) (hi : s.subs i = none)
    (ha : s.space a = none) :
    Inv { s with
      space := update s.space a (some f)
      subs := update s.subs i (some a) } := by
  -- no reference is to the new address
  have hsub : ∀ i' a', s.subs i' = some a' → i' ≠ i ∧ a' ≠ a := by
    intro i' a' hi'
    constructor
    · rintro rfl
      rw [hi] at hi'
      cases hi'
    · rintro rfl
      exact h.subs i' a' hi' ha
  refine ⟨fun i' a' hi' => ?_, fun i₁ i₂ a' h₁ h₂ => ?_, fun j x hx => ?_, h.samples⟩
  · by_cases haa : a' = a
    · subst haa
      simp
    · simp only [update_of_ne haa]
      by_cases hii : i' = i
      · subst hii
        simp only [update_self, Option.some.injEq] at hi'
        exact absurd hi'.symm haa
      · simp only [update_of_ne hii] at hi'
        exact h.subs i' a' hi'
  · by_cases h₁i : i₁ = i <;> by_cases h₂i : i₂ = i
    · rw [h₁i, h₂i]
    · subst h₁i
      simp only [update_self, Option.some.injEq, update_of_ne h₂i] at h₁ h₂
      exact absurd h₁.symm (hsub i₂ a' h₂).2
    · subst h₂i
      simp only [update_self, Option.some.injEq, update_of_ne h₁i] at h₁ h₂
      exact absurd h₂.symm (hsub i₁ a' h₁).2
    · simp only [update_of_ne h₁i, update_of_ne h₂i] at h₁ h₂
      exact h.apart i₁ i₂ a' h₁ h₂
  · obtain ⟨hxs, hxf⟩ := h.streams j x hx
    obtain ⟨hne, hae⟩ := hsub x.sub x.base hxs
    simp only [update_of_ne hne, update_of_ne hae]
    exact ⟨hxs, hxf⟩

theorem Inv.dropSub (h : Inv s) {i : N} {a : A} (hi : s.subs i = some a)
    (hscoped : ∀ j x, s.streams j = some x → x.sub ≠ i) :
    Inv { s with
      space := update s.space a none, subs := update s.subs i none } := by
  have hold : ∀ i' a', update s.subs i none i' = some a' →
      i' ≠ i ∧ s.subs i' = some a' ∧ a' ≠ a := by
    intro i' a' hi'
    by_cases hii : i' = i
    · subst hii
      simp at hi'
    · rw [update_of_ne hii] at hi'
      refine ⟨hii, hi', ?_⟩
      rintro rfl
      exact hii (h.apart i' i a' hi' hi)
  refine ⟨fun i' a' hi' => ?_, fun i₁ i₂ a' h₁ h₂ => ?_, fun j x hx => ?_, h.samples⟩
  · obtain ⟨-, hsub, hne⟩ := hold i' a' hi'
    simp only [update_of_ne hne]
    exact h.subs i' a' hsub
  · exact h.apart i₁ i₂ a' (hold i₁ a' h₁).2.1 (hold i₂ a' h₂).2.1
  · obtain ⟨hxs, hxf⟩ := h.streams j x hx
    have hne := hscoped j x hx
    have hbase : x.base ≠ a := by
      intro heq
      rw [heq] at hxs
      exact hne (h.apart x.sub i a hxs hi)
    simp only [update_of_ne hne, update_of_ne hbase]
    exact ⟨hxs, hxf⟩

omit [DecidableEq A] in
/-- A new stream, or the end of one that no sample borrows from. -/
theorem Inv.stream (h : Inv s) {j : N} {o : Option (StreamRef N A F)}
    (hnew : ∀ x, o = some x → s.subs x.sub = some x.base ∧ s.space x.base = some x.file)
    (hfree : ∀ k y, s.samples k = some y → y.stream ≠ j) :
    Inv { s with streams := update s.streams j o } := by
  refine ⟨h.subs, h.apart, fun j' x hx => ?_, fun k y hy => ?_⟩
  · by_cases hj : j' = j
    · subst hj
      simp only [update_self] at hx
      exact hnew x hx
    · simp only [update_of_ne hj] at hx
      exact h.streams j' x hx
  · simp only [update_of_ne (hfree k y hy)]
    exact h.samples k y hy

omit [DecidableEq A] in
/-- A new sample, or the end of one. -/
theorem Inv.sample (h : Inv s) {k : N} {o : Option (SampleRef N A F)}
    (hnew : ∀ y, o = some y → ∃ x, s.streams y.stream = some x ∧ x.base = y.base ∧
      x.file = y.file) :
    Inv { s with samples := update s.samples k o } := by
  refine ⟨h.subs, h.apart, h.streams, fun k' y hy => ?_⟩
  by_cases hk : k' = k
  · subst hk
    simp only [update_self] at hy
    exact hnew y hy
  · simp only [update_of_ne hk] at hy
    exact h.samples k' y hy

/-- **Step.** -/
theorem inv_step {a : Act N A F} (h : Inv s) (hok : Borrows s a ∧ Scoped s a)
    (hstep : step s a = some s') : Inv s' := by
  cases a with
  | connect i a f =>
    simp only [step] at hstep
    split at hstep
    · rename_i hi ha
      cases hstep
      exact h.connect f hi ha
    · cases hstep
  | subscribe i j =>
    simp only [step] at hstep
    split at hstep
    · rename_i a hi hj
      obtain ⟨f, hf, rfl⟩ := Option.map_eq_some_iff.mp hstep
      refine h.stream (fun x hx => ?_) (fun k y hy heq => ?_)
      · cases hx
        exact ⟨hi, hf⟩
      · -- a sample of `j` has a stream
        obtain ⟨x, hx, -⟩ := h.samples k y hy
        rw [heq, hj] at hx
        cases hx
    · cases hstep
  | dropSub i =>
    obtain ⟨a, hi, rfl⟩ := Option.map_eq_some_iff.mp hstep
    exact h.dropSub hi hok.2
  | tryRecv j k =>
    simp only [step] at hstep
    split at hstep
    · cases hstep
    · cases hstep
      exact h
    · rename_i x k hx
      split at hstep
      · cases hstep
        refine h.sample fun y hy => ?_
        cases hy
        exact ⟨x, hx, rfl, rfl⟩
      · cases hstep
  | dropStream j =>
    obtain ⟨x, -, rfl⟩ := Option.map_eq_some_iff.mp hstep
    exact h.stream nofun hok.1
  | read k =>
    obtain ⟨y, -, rfl⟩ := Option.map_eq_some_iff.mp hstep
    exact h
  | dropSample k =>
    obtain ⟨y, -, rfl⟩ := Option.map_eq_some_iff.mp hstep
    exact h.sample nofun

omit [DecidableEq N] [DecidableEq A] in
/-- Every call uses the mapping it is meant to use. -/
theorem Inv.access (h : Inv s) (c : Act N A F) {a : A} {f : F}
    (hc : c.access s = some (a, f)) : s.space a = some f := by
  cases c with
  | tryRecv j k | dropStream j =>
    obtain ⟨x, hx, heq⟩ := Option.map_eq_some_iff.mp hc
    cases heq
    exact (h.streams j x hx).2
  | read k | dropSample k =>
    obtain ⟨y, hy, heq⟩ := Option.map_eq_some_iff.mp hc
    cases heq
    obtain ⟨x, hx, hbase, hfile⟩ := h.samples k y hy
    rw [← hbase, ← hfile]
    exact (h.streams y.stream x hx).2
  | connect i a f | subscribe i j | dropSub i => cases hc

/-- **Streams dropped before their subscriber use its mapping.** In safe Rust, when every subscriber
    is dropped after its streams, then in every state that calls can reach, however many regions
    are mapped and unmapped and wherever the kernel puts them, whatever a stream or a sample does
    next, including its own drop, uses an address at which its own region is mapped. -/
theorem scoped_streams_reach_mapping {as : List (Act N A F)}
    (hrun : Run step (fun s a => Borrows s a ∧ Scoped s a) (start N A F) as s)
    (c : Act N A F) {a : A} {f : F} (hc : c.access s = some (a, f)) : s.space a = some f :=
  (hrun.invariant inv_start fun _ _ _ h hok hst => inv_step h hok hst).access c hc

end

/-- The region is mapped, and has a stream. -/
def subscribed (i j : N) (a : A) (f : F) : State N A F where
  space := update (fun _ => none) a (some f)
  subs := update (fun _ => none) i (some a)
  streams := update (fun _ => none) j (some ⟨a, i, f⟩)
  samples := fun _ => none

theorem subscribed_run (i j : N) (a : A) (f : F) :
    Run step (fun s a => Borrows s a ∧ Scoped s a) (start N A F)
      [.connect i a f, .subscribe i j] (subscribed i j a f) := by
  refine .cons ⟨trivial, trivial⟩ rfl (.single ⟨trivial, trivial⟩ ?_)
  simp [step, start, subscribed]

/-- A sample is received; then a second region is mapped, subscribed to and unmapped. -/
def sampleSteps : List (Act Nat Bool Nat) :=
  [.connect 0 true 7, .subscribe 0 0] ++ [.tryRecv 0 (some 0), .connect 1 false 8,
    .subscribe 1 1, .dropStream 1, .dropSub 1]

/-- The drop of the sample reaches the first region. -/
theorem scoped_streams_reach_mapping_sample : ∃ s : State Nat Bool Nat,
    Run step (fun s a => Borrows s a ∧ Scoped s a) (start Nat Bool Nat) sampleSteps s ∧
    (Act.dropSample 0).access s = some (true, 7) ∧ s.space true = some 7 := by
  have hall : ∃ s : State Nat Bool Nat,
      Run step (fun s a => Borrows s a ∧ Scoped s a) (start Nat Bool Nat) sampleSteps s ∧
      (Act.dropSample 0).access s = some (true, 7) := by
    refine ⟨_, (subscribed_run 0 0 true 7).append (.cons ⟨trivial, trivial⟩ rfl
      (.cons ⟨trivial, trivial⟩ rfl (.cons ⟨trivial, trivial⟩ rfl
        (.cons ⟨fun k y hy => ?_, trivial⟩ rfl
          (.single ⟨trivial, fun j x hx => ?_⟩ rfl))))), rfl⟩
    · -- the only sample is of the first stream
      by_cases hk : k = 0
      · subst hk
        cases hy
        decide
      · simp [subscribed, hk] at hy
    · by_cases hj : j = 1
      · subst hj
        simp at hx
      · by_cases hj₀ : j = 0
        · subst hj₀
          cases hx
          decide
        · simp [subscribed, hj, hj₀] at hx
  obtain ⟨s, hrun, haccess⟩ := hall
  exact ⟨s, hrun, haccess, scoped_streams_reach_mapping hrun (.dropSample 0) haccess⟩

/-! ### Streams that are not -/

section

variable {s : State N A F}

/-- The subscriber `i`, which had its region at `a`, is gone. -/
def State.unmap (s : State N A F) (i : N) (a : A) : State N A F :=
  { s with space := update s.space a none, subs := update s.subs i none }

theorem step_dropSub {i : N} {a : A} (hi : s.subs i = some a) :
    step s (.dropSub i) = some (s.unmap i a) := by
  simp [step, hi, State.unmap]

/-- The streams `js` are dropped. -/
theorem dropStreams_run {js : List N} (hnodup : js.Nodup)
    (hjs : ∀ j ∈ js, s.streams j ≠ none) : Run step Scoped s (js.map .dropStream)
      { s with streams := fun j => if j ∈ js then none else s.streams j } := by
  induction js generalizing s with
  | nil =>
    simp only [List.not_mem_nil, if_false]
    exact .nil s
  | cons j js ih =>
    obtain ⟨hj, hnodup⟩ := List.nodup_cons.mp hnodup
    obtain ⟨x, hx⟩ := Option.ne_none_iff_exists'.mp (hjs j (List.mem_cons_self ..))
    have hfree : step s (.dropStream j) = some { s with streams := update s.streams j none } := by
      simp [step, hx]
    have hrest := ih (s := { s with streams := update s.streams j none }) hnodup fun j' hj' => by
      have hne : j' ≠ j := by
        rintro rfl
        exact hj hj'
      simp only [update_of_ne hne]
      exact hjs j' (List.mem_cons_of_mem _ hj')
    have hsame : (fun j' => if j' ∈ js then none else update s.streams j none j') =
        fun j' => if j' ∈ j :: js then none else s.streams j' := by
      funext j'
      by_cases hjj : j' = j
      · simp [hjj]
      · simp [hjj]
    rw [hsame] at hrest
    exact .cons trivial hfree hrest

/-- **A stream can outlive the mapping it uses.** Take any state that calls can reach with every
    subscriber dropped after its streams until then, and a stream in it.  The borrow checker accepts
    that the subscriber of this stream is dropped now.  Then nothing is mapped at the address of the
    stream, and what the stream does next, even its own drop, is an access to unmapped memory; and
    any other region can be mapped there first, which the stream then uses, and its drop changes.
    In the C interface, with all subscriptions `js` of the subscriber freed before it as it asks
    for, the same is true of their samples. -/
theorem streams_outlive_mapping {as : List (Act N A F)}
    (hrun : Run step (fun s a => Borrows s a ∧ Scoped s a) (start N A F) as s)
    {j : N} {x : StreamRef N A F} (hx : s.streams j = some x) :
    (∃ s', Run step Borrows s [.dropSub x.sub] s' ∧
      (Act.dropStream j).access s' = some (x.base, x.file) ∧ s'.space x.base = none) ∧
    (∀ g, ∃ s', Run step Borrows s [.dropSub x.sub, .connect x.sub x.base g] s' ∧
      (Act.dropStream j).access s' = some (x.base, x.file) ∧ s'.space x.base = some g) ∧
    ∀ js : List N, js.Nodup →
      (∀ j', j' ∈ js ↔ ∃ x', s.streams j' = some x' ∧ x'.sub = x.sub) →
      (∃ s', Run step Scoped s (js.map .dropStream ++ [.dropSub x.sub]) s' ∧
        s'.space x.base = none ∧ ∀ k y, s.samples k = some y → y.stream ∈ js →
          (Act.dropSample k).access s' = some (x.base, x.file)) ∧
      ∀ g, ∃ s', Run step Scoped s
          (js.map .dropStream ++ [.dropSub x.sub] ++ [.connect x.sub x.base g]) s' ∧
        s'.space x.base = some g ∧ ∀ k y, s.samples k = some y → y.stream ∈ js →
          (Act.dropSample k).access s' = some (x.base, x.file) := by
  have h := hrun.invariant inv_start fun _ _ _ h hok hst => inv_step h hok hst
  obtain ⟨hsub, hspace⟩ := h.streams j x hx
  have hdrop : Run step Borrows s [.dropSub x.sub] (s.unmap x.sub x.base) :=
    .single trivial (step_dropSub hsub)
  -- the kernel can map another region where the first one was
  have hmap : ∀ (t : State N A F) g, step (t.unmap x.sub x.base) (.connect x.sub x.base g) =
      some { t.unmap x.sub x.base with
        space := update (t.unmap x.sub x.base).space x.base (some g)
        subs := update (t.unmap x.sub x.base).subs x.sub (some x.base) } := by
    intro t g
    simp [step, State.unmap]
  refine ⟨⟨_, hdrop, ?_, update_self ..⟩, fun g => ?_, fun js hnodup hjs => ?_⟩
  · simp [Act.access, State.unmap, hx]
  · refine ⟨_, hdrop.append (.single trivial (hmap s g)), ?_, update_self ..⟩
    simp [Act.access, State.unmap, hx]
  · -- a sample has the address of its stream, which is of the same subscriber
    have haddr : ∀ k y, s.samples k = some y → y.stream ∈ js →
        y.base = x.base ∧ y.file = x.file := by
      intro k y hy hmem
      obtain ⟨x', hx', hbase, hfile⟩ := h.samples k y hy
      obtain ⟨x'', hx'', hsame⟩ := (hjs y.stream).mp hmem
      obtain ⟨hsub', hspace'⟩ := h.streams _ x' hx'
      rw [hx'] at hx''
      cases hx''
      rw [hsame, hsub, Option.some.injEq] at hsub'
      rw [← hsub', hspace, Option.some.injEq] at hspace'
      exact ⟨hbase.symm.trans hsub'.symm, hfile.symm.trans hspace'.symm⟩
    have hfree := dropStreams_run hnodup fun j' hj' => by
      obtain ⟨x', hx', -⟩ := (hjs j').mp hj'
      rw [hx']
      exact Option.some_ne_none _
    have hscoped : Scoped { s with streams := fun j => if j ∈ js then none else s.streams j }
        (.dropSub x.sub) := by
      intro j' x' hx' heq
      by_cases hj : j' ∈ js
      · simp [hj] at hx'
      · simp only [if_neg hj] at hx'
        exact hj ((hjs j').mpr ⟨x', hx', heq⟩)
    have hgone := hfree.append (.single hscoped (step_dropSub hsub))
    refine ⟨⟨_, hgone, update_self .., fun k y hy hmem => ?_⟩, fun g =>
      ⟨_, hgone.append (.single trivial (hmap _ g)), update_self .., fun k y hy hmem => ?_⟩⟩
    · simp [Act.access, State.unmap, hy, haddr k y hy hmem]
    · simp [Act.access, State.unmap, hy, haddr k y hy hmem]

end

theorem streams_outlive_mapping_subscribed :
    Run step (fun s a => Borrows s a ∧ Scoped s a) (start Unit Bool Nat)
      [.connect () true 7, .subscribe () ()] (subscribed () () true 7) ∧
    ∃ s', Run step Borrows (subscribed () () true 7) [.dropSub (), .connect () true 8] s' ∧
      (Act.dropStream ()).access s' = some (true, 7) ∧ s'.space true = some 8 :=
  ⟨subscribed_run () () true 7,
    (streams_outlive_mapping (subscribed_run () () true 7) (j := ())
      (x := ⟨true, (), 7⟩) rfl).2.1 8⟩

end Crossbar.Mapping.Lifetime
