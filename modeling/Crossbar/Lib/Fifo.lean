import Crossbar.Lib.Run

namespace Crossbar.Lib

/-!
# A bounded queue that forgets its oldest messages

What a one-way link with room for `depth` messages is, seen from outside.  The sender is never
held up: a message that is sent when `depth` messages are waiting takes the place of the oldest
one.

* `Fifo` — everything that was sent, and how far the receiver has come;
* `Fifo.step` — the three things an outsider sees: a message is sent, a message is received, a
  receive finds nothing;
* `Fifo.received_sublist` — what is received was sent, in the order it was sent, once each;
* `Fifo.Lossless` — as long as nobody sends into a full link (`Paced`), what is received is all
  that was sent, up to the messages still waiting.
-/

variable {α : Type*}

/-- What an outsider sees of a link. -/
inductive Event (α : Type*) where
  | sent (m : α)
  | received (m : α)
  /-- a receive that found no message -/
  | nothing
  deriving DecidableEq

/-- The messages sent, in order. -/
def Event.sends (es : List (Event α)) : List α :=
  es.filterMap fun
    | .sent m => some m
    | _ => none

/-- The messages received, in order. -/
def Event.receives (es : List (Event α)) : List α :=
  es.filterMap fun
    | .received m => some m
    | _ => none

/-- The link: what was sent, and the number of messages the receiver has taken or missed. -/
structure Fifo (α : Type*) where
  sent : List α
  taken : Nat

namespace Fifo

/-- A new link. -/
def empty : Fifo α := ⟨[], 0⟩

variable (depth : Nat)

/-- The place of the next message for the receiver: the oldest one that is still there. -/
def next (f : Fifo α) : Nat := max f.taken (f.sent.length - depth)

/-- One event; `none` when the link does not behave so. -/
def step [DecidableEq α] (f : Fifo α) : Event α → Option (Fifo α)
  | .sent m => some { f with sent := f.sent ++ [m] }
  | .received m =>
    if f.sent[f.next depth]? = some m then some { f with taken := f.next depth + 1 } else none
  | .nothing => if f.sent.length ≤ f.next depth then some f else none

/-- `es` can be seen of a new link, and leaves it as `f`. -/
def Accepts [DecidableEq α] (es : List (Event α)) (f : Fifo α) : Prop :=
  Run (step depth) (fun _ _ => True) empty es f

variable [DecidableEq α] {depth} {f f' : Fifo α} {e : Event α} {es : List (Event α)}

theorem accepts_nil : Accepts depth [] (empty : Fifo α) := .nil _

theorem Accepts.snoc (h : Accepts depth es f) (hstep : f.step depth e = some f') :
    Accepts depth (es ++ [e]) f' :=
  h.append (.single trivial hstep)

/-- Induction over the events, the last one in the step. -/
theorem Accepts.rule {I : List (Event α) → Fifo α → Prop} (h : Accepts depth es f)
    (h₀ : I [] empty)
    (hstep : ∀ es f e f', I es f → f.step depth e = some f' → I (es ++ [e]) f') : I es f := by
  -- the run is unfolded from the front, so the events before it are generalised
  suffices hgen : ∀ {s f : Fifo α} {bs : List (Event α)},
      Run (step depth) (fun _ _ => True) s bs f → ∀ as, I as s → I (as ++ bs) f from
    hgen h [] h₀
  intro s f bs hrun
  induction hrun with
  | nil s =>
    intro as hI
    rw [List.append_nil]
    exact hI
  | @cons s s' s'' a bs _ hst _ ih =>
    intro as hI
    have hnext := ih (as ++ [a]) (hstep as s a s' hI hst)
    rwa [List.append_assoc] at hnext

/-- **What is received was sent**, in order and once each. -/
theorem received_sublist (h : Accepts depth es f) :
    f.sent = Event.sends es ∧ (Event.receives es).Sublist (f.sent.take f.taken) := by
  refine h.rule (I := fun es f => f.sent = Event.sends es ∧
    (Event.receives es).Sublist (f.sent.take f.taken)) ⟨rfl, List.Sublist.slnil⟩ ?_
  rintro es f e f' ⟨hsent, hsub⟩ hst
  cases e with
  | sent m =>
    cases hst
    refine ⟨by simp [hsent, Event.sends], ?_⟩
    have hmore : (f.sent.take f.taken).Sublist ((f.sent ++ [m]).take f.taken) := by
      rw [List.take_append]
      exact List.sublist_append_left ..
    simpa [Event.receives] using hsub.trans hmore
  | received m =>
    obtain ⟨hm, hst⟩ := Option.ite_none_right_eq_some.mp hst
    cases hst
    refine ⟨by simp [hsent, Event.sends], ?_⟩
    have hlast : f.sent.take (f.next depth + 1) = f.sent.take (f.next depth) ++ [m] := by
      rw [List.take_add_one, hm]
      rfl
    have hle : (f.sent.take f.taken).Sublist (f.sent.take (f.next depth)) :=
      List.take_sublist_take_left (Nat.le_max_left ..)
    show (Event.receives (es ++ [Event.received m])).Sublist (f.sent.take (f.next depth + 1))
    rw [hlast]
    simpa [Event.receives] using hsub.trans hle
  | nothing =>
    obtain ⟨-, hst⟩ := Option.ite_none_right_eq_some.mp hst
    cases hst
    exact ⟨by simp [hsent, Event.sends], by simpa [Event.receives] using hsub⟩

/-! ### While nobody sends into a full link -/

/-- Nothing has been lost so far. -/
structure Lossless (depth : Nat) (es : List (Event α)) (f : Fifo α) : Prop where
  sent : f.sent = Event.sends es
  received : Event.receives es = f.sent.take f.taken
  taken : f.taken ≤ f.sent.length
  room : f.sent.length ≤ f.taken + depth

omit [DecidableEq α] in
theorem lossless_nil : Lossless depth [] (empty : Fifo α) :=
  ⟨rfl, rfl, Nat.le_refl _, Nat.zero_le _⟩

omit [DecidableEq α] in
theorem Lossless.length (h : Lossless depth es f) : (Event.receives es).length = f.taken := by
  rw [h.received, List.length_take, Nat.min_eq_left h.taken]

omit [DecidableEq α] in
/-- No waiting message has been replaced. -/
theorem Lossless.next (h : Lossless depth es f) : f.next depth = f.taken := by
  have hroom := h.room
  unfold Fifo.next
  omega

/-- **Step.** Everything is kept, if a message that is sent finds room. -/
theorem Lossless.step (h : Lossless depth es f)
    (hroom : ∀ m, e = .sent m →
      (Event.sends es).length < (Event.receives es).length + depth)
    (hstep : f.step depth e = some f') : Lossless depth (es ++ [e]) f' := by
  have htaken := h.taken
  have hle := h.room
  cases e with
  | sent m =>
    cases hstep
    have hlt := hroom m rfl
    rw [h.length, ← h.sent] at hlt
    refine ⟨by simp [h.sent, Event.sends], ?_, ?_, ?_⟩
    · rw [List.take_append_of_le_length htaken, ← h.received]
      simp [Event.receives]
    · show f.taken ≤ (f.sent ++ [m]).length
      rw [List.length_append, List.length_singleton]
      omega
    · show (f.sent ++ [m]).length ≤ f.taken + depth
      rw [List.length_append, List.length_singleton]
      omega
  | received m =>
    obtain ⟨hm, hst⟩ := Option.ite_none_right_eq_some.mp hstep
    cases hst
    rw [h.next] at hm ⊢
    have hlt : f.taken < f.sent.length := (List.getElem?_eq_some_iff.mp hm).1
    refine ⟨by simp [h.sent, Event.sends], ?_, hlt, ?_⟩
    · show Event.receives (es ++ [Event.received m]) = f.sent.take (f.taken + 1)
      rw [List.take_add_one, hm, ← h.received]
      simp [Event.receives]
    · show f.sent.length ≤ f.taken + 1 + depth
      omega
  | nothing =>
    obtain ⟨-, hst⟩ := Option.ite_none_right_eq_some.mp hstep
    cases hst
    exact ⟨by simp [h.sent, Event.sends], by simpa [Event.receives] using h.received, htaken, hle⟩

/-- Nobody sends into a full link. -/
def Paced (depth : Nat) (es : List (Event α)) : Prop :=
  ∀ p m q, es = p ++ .sent m :: q →
    (Event.sends p).length < (Event.receives p).length + depth

omit [DecidableEq α] in
theorem paced_nil : Paced depth ([] : List (Event α)) := by
  intro p m q h
  simp at h

omit [DecidableEq α] in
/-- One more event, which finds room if it is a message. -/
theorem Paced.snoc (h : Paced depth es) (hroom : ∀ m, e = .sent m →
    (Event.sends es).length < (Event.receives es).length + depth) : Paced depth (es ++ [e]) := by
  intro p m q heq
  rcases List.eq_nil_or_concat q with rfl | ⟨q', x, rfl⟩
  · obtain ⟨rfl, hlast⟩ := List.append_inj' heq rfl
    exact hroom m (List.singleton_inj.mp hlast)
  · have heq' : es ++ [e] = (p ++ .sent m :: q') ++ [x] := by
      rw [heq, List.concat_eq_append, List.append_assoc, List.cons_append]
    exact h p m q' (List.append_inj' heq' rfl).1

/-- **A paced link loses nothing.** -/
theorem Accepts.lossless (h : Accepts depth es f) (hp : Paced depth es) : Lossless depth es f := by
  refine h.rule (I := fun es f => Paced depth es → Lossless depth es f)
    (fun _ => lossless_nil) ?_ hp
  intro es f e f' ih hst hp
  have hbefore : Paced depth es := by
    intro p m q heq
    refine hp p m (q ++ [e]) ?_
    rw [heq, List.append_assoc, List.cons_append]
  refine (ih hbefore).step (fun m hm => ?_) hst
  exact hp es m [] (by rw [hm])

/-- A receive that finds nothing has nothing left to find. -/
theorem Accepts.nothing {p q : List (Event α)} (h : Accepts depth es f) (hp : Paced depth es)
    (heq : es = p ++ .nothing :: q) : Event.receives p = Event.sends p := by
  subst heq
  obtain ⟨g, hg, hrest⟩ := Run.split h
  have hbefore : Paced depth p := by
    intro p' m q' heq
    refine hp p' m (q' ++ .nothing :: q) ?_
    rw [heq, List.append_assoc, List.cons_append]
  cases hrest with
  | cons _ hst _ =>
    have hg' := Accepts.lossless hg hbefore
    obtain ⟨hnext, -⟩ := Option.ite_none_right_eq_some.mp hst
    rw [hg'.next] at hnext
    rw [hg'.received, List.take_of_length_le hnext, hg'.sent]

end Fifo

end Crossbar.Lib
