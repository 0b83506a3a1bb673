import Crossbar.Lib.Buffer
import Crossbar.Region.Structured

namespace Crossbar.Region

open Crossbar.Lib Crossbar.Pool

/-!
# Region — a loan as a bounded buffer

`set_data`, `set_len`, `write` and `write_structured` share the bytes of one block, which still has
those of earlier messages, and one length.

* `Loan.call` — a writing call with what it returns; `Loan.calls` — one after the other;
* `bufferCall` — what the calls do to a bounded buffer, in terms of its three operations;
* `Loan.call_refines` / `Loan.calls_refines` — a loan does that to the bytes of its block;
* `BufferStep` — the same in words: what the contents are after a call, and when it fails;
* `loan_is_byte_buffer` — it holds of every call after every sequence of calls on a fresh loan, and
  a sample of the published loan has the contents.
-/

variable {cfg : ValidConfig} {cap : Nat}

/-! ### Calls with their results -/

/-- What a writing call returns: a `Result<(), Error>`, or the `io::Result<usize>` of `write`, whose
    one error is `block full`. -/
inductive Outcome where
  | result (r : Except Error Unit)
  | written (r : Option Nat)

/-- The call has returned an error. -/
def Outcome.failed : Outcome → Bool
  | .result (.error _) => true
  | .result (.ok _) => false
  | .written r => r.isNone

namespace Loan

/-- A writing call: the region and the loan after it, and what it returns. -/
def call (l : Loan cfg) (shm : Shm cfg) : Edit → Shm cfg × Loan cfg × Outcome
  | .fill bytes => (l.fill shm bytes, l, .result (.ok ()))
  | .setData data =>
    ((l.setData shm data).1, (l.setData shm data).2.1, .result (l.setData shm data).2.2)
  | .setLen n => (shm, (l.setLen n).1, .result (l.setLen n).2)
  | .write buf => ((l.write shm buf).1, (l.write shm buf).2.1, .written (l.write shm buf).2.2)
  | .writeStructured header entries =>
    ((l.writeStructured shm header entries).1, (l.writeStructured shm header entries).2.1,
      .result (l.writeStructured shm header entries).2.2)

/-- Calls one after the other, whatever they return. -/
def calls : Loan cfg → Shm cfg → List Edit → Shm cfg × Loan cfg
  | l, shm, [] => (shm, l)
  | l, shm, e :: es => calls (l.call shm e).2.1 (l.call shm e).1 es

/-- A `Loan` has all of the calls. -/
theorem edit_eq_call {l : Loan cfg} (hkind : l.kind = .untyped) (shm : Shm cfg) (e : Edit) :
    l.edit shm e = some ((l.call shm e).1, (l.call shm e).2.1) := by
  cases e <;> simp [edit, call, hkind]

theorem call_edited {l : Loan cfg} (hkind : l.kind = .untyped) (shm : Shm cfg) (e : Edit) :
    l.Edited shm ((l.call shm e).1, (l.call shm e).2.1) :=
  edit_spec (edit_eq_call hkind shm e)

theorem call_kind {l : Loan cfg} (hkind : l.kind = .untyped) (shm : Shm cfg) (e : Edit) :
    (l.call shm e).2.1.kind = .untyped := by
  obtain ⟨len, heq⟩ := (call_edited hkind shm e).loan
  dsimp only at heq
  rw [heq]
  exact hkind

end Loan

/-! ### The abstract buffer -/

/-- A writing call on a bounded buffer. -/
def bufferCall (B : Buffer UInt8 cap) : Edit → Buffer UInt8 cap × Outcome
  | .fill bytes => (⟨(List.range cap).map bytes, B.len, by simp, B.len_le⟩, .result (.ok ()))
  | .setData data =>
    if h : data.length ≤ cap then (B.replace data h, .result (.ok ()))
    else (B, .result (.error (.dataTooLarge data.length cap)))
  | .setLen n =>
    if h : n ≤ cap then (B.resize n h, .result (.ok ()))
    else (B, .result (.error (.dataTooLarge n cap)))
  | .write buf =>
    if B.len = cap ∧ buf ≠ [] then (B, .written none)
    else
      (B.append (buf.take (cap - B.len)) (by
          have hle := B.len_le
          rw [List.length_take]
          omega),
        .written (some (min buf.length (cap - B.len))))
  | .writeStructured header entries =>
    if h : (structured header entries).length ≤ cap then
      (B.replace (structured header entries) h, .result (.ok ()))
    else (B, .result (.error (.dataTooLarge (structured header entries).length cap)))

/-- Calls one after the other. -/
def bufferCalls (B : Buffer UInt8 cap) (es : List Edit) : Buffer UInt8 cap :=
  es.foldl (fun B e => (bufferCall B e).1) B

/-- The data of the call does not fit: it is larger than the capacity, or there is some and the
    block is full. -/
def Edit.Exceeds (B : Buffer UInt8 cap) : Edit → Prop
  | .fill _ => False
  | .setData data => cap < data.length
  | .setLen n => cap < n
  | .write buf => B.len = cap ∧ buf ≠ []
  | .writeStructured header entries => cap < (structured header entries).length

/-- What a call that succeeds does to the buffer. -/
def Edit.Effect (B B' : Buffer UInt8 cap) (r : Outcome) : Edit → Prop
  | .fill bytes => B'.len = B.len ∧ B'.cells = (List.range cap).map bytes
  | .setData data => B'.contents = data ∧ B'.cells.drop data.length = B.cells.drop data.length
  | .setLen n => B'.contents = B.cells.take n ∧ B'.len = n ∧ B'.cells = B.cells
  | .write buf =>
    r = .written (some (min buf.length (cap - B.len))) ∧
      B'.contents = B.contents ++ buf.take (min buf.length (cap - B.len)) ∧
      B'.cells.drop B'.len = B.cells.drop B'.len
  | .writeStructured header entries =>
    B'.contents = structured header entries ∧
      B'.cells.drop (structured header entries).length =
        B.cells.drop (structured header entries).length

/-- What a call that returns `r` does to a buffer. -/
structure BufferStep (B B' : Buffer UInt8 cap) (e : Edit) (r : Outcome) : Prop where
  failed_iff : r.failed = true ↔ e.Exceeds B
  effect : r.failed = false → e.Effect B B' r
  unchanged : r.failed = true → B' = B

section

variable {B B' : Buffer UInt8 cap} {e : Edit} {r : Outcome}

theorem BufferStep.of_fits (hfits : ¬e.Exceeds B) (hok : r.failed = false)
    (heffect : e.Effect B B' r) : BufferStep B B' e r where
  failed_iff := iff_of_false (by simp [hok]) hfits
  effect _ := heffect
  unchanged hfailed := by simp [hok] at hfailed

theorem BufferStep.of_exceeds (hexceeds : e.Exceeds B) (hfailed : r.failed = true) :
    BufferStep B B e r where
  failed_iff := iff_of_true hfailed hexceeds
  effect hok := by simp [hfailed] at hok
  unchanged _ := rfl

end

/-- **Step of the buffer.** One case a call. -/
theorem bufferCall_step (B : Buffer UInt8 cap) (e : Edit) :
    BufferStep B (bufferCall B e).1 e (bufferCall B e).2 := by
  cases e with
  | fill bytes => exact .of_fits id rfl ⟨rfl, rfl⟩
  | setData data =>
    by_cases h : data.length ≤ cap
    · rw [bufferCall, dif_pos h]
      exact .of_fits (Nat.not_lt.mpr h) rfl ⟨Buffer.contents_replace h, Buffer.drop_replace h⟩
    · rw [bufferCall, dif_neg h]
      exact .of_exceeds (Nat.lt_of_not_le h) rfl
  | setLen n =>
    by_cases h : n ≤ cap
    · rw [bufferCall, dif_pos h]
      exact .of_fits (Nat.not_lt.mpr h) rfl ⟨rfl, rfl, rfl⟩
    · rw [bufferCall, dif_neg h]
      exact .of_exceeds (Nat.lt_of_not_le h) rfl
  | write buf =>
    by_cases h : B.len = cap ∧ buf ≠ []
    · rw [bufferCall, if_pos h]
      exact .of_exceeds h rfl
    · rw [bufferCall, if_neg h]
      refine .of_fits h rfl ⟨rfl, ?_, Buffer.drop_append _⟩
      rw [Buffer.contents_append, Nat.min_comm, ← List.take_eq_take_min]
  | writeStructured header entries =>
    by_cases h : (structured header entries).length ≤ cap
    · rw [bufferCall, dif_pos h]
      exact .of_fits (Nat.not_lt.mpr h) rfl ⟨Buffer.contents_replace h, Buffer.drop_replace h⟩
    · rw [bufferCall, dif_neg h]
      exact .of_exceeds (Nat.lt_of_not_le h) rfl

/-- Bytes of an earlier message, a write, a longer length, a write up to the end of the block and
    one that finds it full. -/
example : (bufferCalls (⟨List.replicate 8 7, 0, rfl, Nat.zero_le 8⟩ : Buffer UInt8 8)
    [.write [1, 2, 3], .setLen 5, .write [4, 5, 6, 8], .write [9]]).contents =
      [1, 2, 3, 7, 7, 4, 5, 6] := by
  decide

/-! ### A loan does what the buffer does -/

/-- The bytes behind the first `n`. -/
theorem Shm.bytes_add (shm : Shm cfg) (b n m : Nat) :
    shm.bytes ⟨b, n + m⟩ =
      shm.bytes ⟨b, n⟩ ++ (List.range m).map (fun i => shm.data b (n + i)) := by
  simp only [Shm.bytes, List.range_add, List.map_append, List.map_map, Function.comp_def]

theorem Shm.length_bytes (shm : Shm cfg) (b n : Nat) : (shm.bytes ⟨b, n⟩).length = n := by
  simp [Shm.bytes]

theorem Shm.take_bytes (shm : Shm cfg) (b : Nat) {n m : Nat} (h : n ≤ m) :
    (shm.bytes ⟨b, m⟩).take n = shm.bytes ⟨b, n⟩ := by
  obtain ⟨k, rfl⟩ := Nat.exists_eq_add_of_le h
  rw [Shm.bytes_add]
  exact List.take_left' (shm.length_bytes b n)

/-- A copy into a block overwrites its bytes from `off` on. -/
theorem Shm.bytes_poke_block (shm : Shm cfg) (b : Nat) {off n : Nat} {bytes : List UInt8}
    (h : off + bytes.length ≤ n) :
    (shm.poke b off bytes).bytes ⟨b, n⟩ = overwrite (shm.bytes ⟨b, n⟩) off bytes := by
  obtain ⟨m, rfl⟩ := Nat.exists_eq_add_of_le h
  -- the bytes behind the copy have not changed
  have hrest : (List.range m).map (fun i =>
        (shm.poke b off bytes).data b (off + bytes.length + i)) =
      (List.range m).map (fun i => shm.data b (off + bytes.length + i)) := by
    refine List.map_congr_left fun i _ => ?_
    simp only [Shm.poke, Function.update_self]
    exact if_neg (by omega)
  rw [Shm.bytes_add, Shm.bytes_poke, hrest, overwrite, Shm.take_bytes _ _ (by omega), Shm.bytes_add,
    List.drop_left' (shm.length_bytes ..), List.append_assoc]

namespace Loan

/-- The block of a loan and its length, as a buffer. -/
def buffer (l : Loan cfg) (shm : Shm cfg) (h : l.len ≤ cfg.dataCapacity) :
    Buffer UInt8 cfg.dataCapacity where
  cells := shm.bytes ⟨l.blockIdx, cfg.dataCapacity⟩
  len := l.len
  length_cells := shm.length_bytes ..
  len_le := h

theorem contents_buffer (l : Loan cfg) (shm : Shm cfg) (h : l.len ≤ cfg.dataCapacity) :
    (l.buffer shm h).contents = shm.bytes ⟨l.blockIdx, l.len⟩ :=
  shm.take_bytes l.blockIdx h

variable {l : Loan cfg}

/-- The region and the loan that a call leaves show the buffer of an abstract call, which returns
    the same. -/
def Refines (x : Shm cfg × Loan cfg × Outcome) (y : Buffer UInt8 cfg.dataCapacity × Outcome) :
    Prop :=
  ∃ h, x.2.1.buffer x.1 h = y.1 ∧ x.2.2 = y.2

/-- The three copies of `write_structured` are one. -/
theorem bytes_writeStructured {header : List UInt8} {entries : List (List UInt8)}
    (shm : Shm cfg) (b : Nat) (h : (structured header entries).length ≤ cap) :
    (((shm.poke b 0 header).poke b header.length entries.flatten).poke b
        (header.length + entries.flatten.length) (leBytes32 entries.length)).bytes ⟨b, cap⟩ =
      overwrite (shm.bytes ⟨b, cap⟩) 0 (structured header entries) := by
  rw [length_structured] at h
  have hcount : (leBytes32 entries.length).length = 4 := rfl
  have hzero : 0 ≤ (shm.bytes ⟨b, cap⟩).length := Nat.zero_le _
  have hfirst := overwrite_overwrite hzero header entries.flatten
  have hsecond := overwrite_overwrite hzero (header ++ entries.flatten) (leBytes32 entries.length)
  rw [Nat.zero_add] at hfirst hsecond
  rw [List.length_append] at hsecond
  rw [Shm.bytes_poke_block _ _ (by omega), Shm.bytes_poke_block _ _ (by omega),
    Shm.bytes_poke_block _ _ (by omega), hfirst, hsecond]
  rfl

/-- **Refinement.** A call on a loan does to its block what it does to a buffer, and returns the
    same. -/
theorem call_refines (hkind : l.kind = .untyped) (shm : Shm cfg) (h : l.len ≤ cfg.dataCapacity)
    (e : Edit) :
    Refines (l.call shm e) (bufferCall (l.buffer shm h) e) := by
  cases e with
  | fill bytes =>
    refine ⟨h, Buffer.ext ?_ rfl, rfl⟩
    have hroom : l.room = cfg.dataCapacity := by rw [room, hkind]
    refine List.map_congr_left fun i hi => ?_
    rw [List.mem_range] at hi
    simp only [call, fill, Function.update_self, hroom]
    exact if_pos hi
  | setData data =>
    by_cases hfits : data.length ≤ cfg.dataCapacity
    · rw [call, setData, if_neg (Nat.not_lt.mpr hfits), bufferCall, dif_pos hfits]
      exact ⟨hfits, Buffer.ext (Shm.bytes_poke_block _ _ (by omega)) rfl, rfl⟩
    · rw [call, setData, if_pos (Nat.lt_of_not_le hfits), bufferCall, dif_neg hfits]
      exact ⟨h, rfl, rfl⟩
  | setLen n =>
    by_cases hfits : n ≤ cfg.dataCapacity
    · rw [call, setLen, if_neg (Nat.not_lt.mpr hfits), bufferCall, dif_pos hfits]
      exact ⟨hfits, rfl, rfl⟩
    · rw [call, setLen, if_pos (Nat.lt_of_not_le hfits), bufferCall, dif_neg hfits]
      exact ⟨h, rfl, rfl⟩
  | write buf =>
    have hlen : (l.buffer shm h).len = l.len := rfl
    by_cases hfull : (l.buffer shm h).len = cfg.dataCapacity ∧ buf ≠ []
    · rw [call, write, if_pos ⟨by omega, hfull.2⟩, bufferCall, if_pos hfull]
      exact ⟨h, rfl, rfl⟩
    · have hroom : ¬(cfg.dataCapacity - l.len = 0 ∧ buf ≠ []) :=
        fun hzero => hfull ⟨by omega, hzero.2⟩
      -- what is copied is cut off at the end of the block, and counted
      have htake : buf.take (min buf.length (cfg.dataCapacity - l.len)) =
          buf.take (cfg.dataCapacity - l.len) := by
        rw [Nat.min_comm, ← List.take_eq_take_min]
      have hcount : (buf.take (cfg.dataCapacity - l.len)).length =
          min buf.length (cfg.dataCapacity - l.len) := by
        rw [List.length_take, Nat.min_comm]
      rw [call, write, if_neg hroom, bufferCall, if_neg hfull]
      refine ⟨by simp only; omega, Buffer.ext ?_ ?_, rfl⟩
      · simp only [buffer, Buffer.append, htake]
        exact Shm.bytes_poke_block _ _ (by omega)
      · simp only [buffer, Buffer.append, hcount]
  | writeStructured header entries =>
    have hlength := length_structured header entries
    by_cases hfits : (structured header entries).length ≤ cfg.dataCapacity
    · -- `set_len` makes the same check once more
      rw [call, writeStructured, if_neg (by omega), setLen, if_neg (by omega), bufferCall,
        dif_pos hfits]
      exact ⟨by simp only; omega, Buffer.ext (bytes_writeStructured shm _ hfits) hlength.symm, rfl⟩
    · rw [call, writeStructured, if_pos (by omega), bufferCall, dif_neg hfits, hlength]
      exact ⟨h, rfl, rfl⟩

/-- A call that fails changes nothing at all. -/
theorem call_failed (l : Loan cfg) (shm : Shm cfg) (e : Edit)
    (hfailed : (l.call shm e).2.2.failed = true) :
    (l.call shm e).1 = shm ∧ (l.call shm e).2.1 = l := by
  cases e with
  | fill bytes => cases hfailed
  | setData data =>
    by_cases hlarge : cfg.dataCapacity < data.length
    · rw [call, setData, if_pos hlarge]
      exact ⟨rfl, rfl⟩
    · rw [call, setData, if_neg hlarge] at hfailed
      cases hfailed
  | setLen n =>
    by_cases hlarge : cfg.dataCapacity < n
    · rw [call, setLen, if_pos hlarge]
      exact ⟨rfl, rfl⟩
    · rw [call, setLen, if_neg hlarge] at hfailed
      cases hfailed
  | write buf =>
    by_cases hfull : cfg.dataCapacity - l.len = 0 ∧ buf ≠ []
    · rw [call, write, if_pos hfull]
      exact ⟨rfl, rfl⟩
    · rw [call, write, if_neg hfull] at hfailed
      cases hfailed
  | writeStructured header entries =>
    by_cases hlarge : cfg.dataCapacity < header.length + entries.flatten.length + 4
    · rw [call, writeStructured, if_pos hlarge]
      exact ⟨rfl, rfl⟩
    · rw [call, writeStructured, if_neg hlarge, setLen, if_neg hlarge] at hfailed
      cases hfailed

/-- **Run.** A sequence of calls does to the block what it does to a buffer. -/
theorem calls_refines (hkind : l.kind = .untyped) (shm : Shm cfg) (h : l.len ≤ cfg.dataCapacity)
    (es : List Edit) :
    (l.calls shm es).2.kind = .untyped ∧
      ∃ h', (l.calls shm es).2.buffer (l.calls shm es).1 h' = bufferCalls (l.buffer shm h) es := by
  induction es generalizing l shm with
  | nil => exact ⟨hkind, h, rfl⟩
  | cons e es ih =>
    obtain ⟨h₁, hstep, -⟩ := call_refines hkind shm h e
    have hrest := ih (call_kind hkind shm e) (l.call shm e).1 h₁
    rw [hstep] at hrest
    exact hrest

/-- The calls leave everything but the bytes of the block and the length of the loan. -/
theorem calls_edited (hkind : l.kind = .untyped) (shm : Shm cfg) (es : List Edit) :
    (l.calls shm es).1.topic = shm.topic ∧ ∃ len, (l.calls shm es).2 = { l with len := len } := by
  induction es generalizing l shm with
  | nil => exact ⟨rfl, l.len, rfl⟩
  | cons e es ih =>
    obtain ⟨⟨data, hshm⟩, ⟨len, hloan⟩, -⟩ := call_edited hkind shm e
    obtain ⟨htopic, len', hrest⟩ := ih (call_kind hkind shm e) (l.call shm e).1
    dsimp only at hshm hloan
    refine ⟨htopic.trans (by rw [hshm]), len', hrest.trans ?_⟩
    rw [hloan]

end Loan

/-! ### From the calls to the sample -/

/-- Writing through the loan of a publisher, call by call. -/
theorem edits_run {w : World cfg} {k : Nat} {p : Publisher cfg} {l : Loan cfg}
    (hp : w.pubs[k]? = some (some p)) (hborrow : p.borrow = some l) (hkind : l.kind = .untyped)
    (es : List Edit) :
    ∃ w' p', Run step (fun _ _ => True) w (es.map (Act.edit k)) w' ∧
      w'.pubs[k]? = some (some p') ∧ p'.borrow = some (l.calls w.shm es).2 ∧
      w'.shm = (l.calls w.shm es).1 := by
  induction es generalizing w p l with
  | nil => exact ⟨w, p, .nil w, hp, hborrow, rfl⟩
  | cons e es ih =>
    have hstep := step_edit hp hborrow (Loan.edit_eq_call hkind w.shm e)
    obtain ⟨w', p', hrun, hp', hborrow', hshm⟩ :=
      ih (p := { p with borrow := some (l.call w.shm e).2.1 }) (withPub_pubs hp _) rfl
        (Loan.call_kind hkind w.shm e)
    exact ⟨w', p', .cons trivial hstep hrun, hp', hborrow', hshm⟩

/-- **A loan is a bounded byte buffer.** Take any sequence of calls on a fresh loan, whatever its
    block holds, and one call more.  Before and after it the length is at most the capacity; its
    effect on the block is that of `BufferStep`, and when it fails nothing has changed.  And the
    calls and `publish` run in every reachable region; a sample that is received of the published
    loan has the contents. -/
theorem loan_is_byte_buffer :
    (∀ (shm : Shm cfg) (l : Loan cfg), l.kind = .untyped → l.len = 0 →
      ∀ (es : List Edit) (e : Edit) (shm₁ : Shm cfg) (l₁ : Loan cfg) (shm₂ : Shm cfg)
        (l₂ : Loan cfg) (r : Outcome),
        l.calls shm es = (shm₁, l₁) → l₁.call shm₁ e = (shm₂, l₂, r) →
        ∃ (h₀ : l.len ≤ cfg.dataCapacity) (h₁ : l₁.len ≤ cfg.dataCapacity)
          (h₂ : l₂.len ≤ cfg.dataCapacity),
          l₁.buffer shm₁ h₁ = bufferCalls (l.buffer shm h₀) es ∧
          BufferStep (l₁.buffer shm₁ h₁) (l₂.buffer shm₂ h₂) e r ∧
          (r.failed = true → shm₂ = shm₁ ∧ l₂ = l₁)) ∧
    ∀ {id k : Nat} {as : List (Act cfg)} {w : World cfg} {p : Publisher cfg} {l : Loan cfg},
      Run step (fun _ _ => True) (create cfg id) as w → w.pubs[k]? = some (some p) →
      p.borrow = some l → l.kind = .untyped → l.len = 0 → ∀ es : List Edit,
      ∃ (h₀ : l.len ≤ cfg.dataCapacity) (w₁ : World cfg),
        Run step (fun _ _ => True) w (es.map (Act.edit k) ++ [.publishLoan k]) w₁ ∧
        ∀ sample v, ReceivedFrom w₁ l.topic (w.shm.nextSeq l.topic) sample v →
          v.shm.bytes sample = (bufferCalls (l.buffer w.shm h₀) es).contents := by
  constructor
  · intro shm l hkind hfresh es e shm₁ l₁ shm₂ l₂ r hcalls hcall
    have h₀ : l.len ≤ cfg.dataCapacity := by omega
    obtain rfl : (l.calls shm es).1 = shm₁ := congrArg Prod.fst hcalls
    obtain rfl : (l.calls shm es).2 = l₁ := congrArg Prod.snd hcalls
    obtain ⟨hkind₁, h₁, hbuffer⟩ := Loan.calls_refines hkind shm h₀ es
    have hrefines := Loan.call_refines hkind₁ (l.calls shm es).1 h₁ e
    have hfailed := (l.calls shm es).2.call_failed (l.calls shm es).1 e
    rw [hcall] at hrefines hfailed
    obtain ⟨h₂, hafter, hresult⟩ := hrefines
    refine ⟨h₀, h₁, h₂, hbuffer, ?_, hfailed⟩
    have hstep := bufferCall_step ((l.calls shm es).2.buffer (l.calls shm es).1 h₁) e
    rwa [← hafter, ← hresult] at hstep
  · intro id k as w p l hrun hp hborrow hkind hfresh es
    have h₀ : l.len ≤ cfg.dataCapacity := by omega
    obtain ⟨hkind₀, h₁, hbuffer⟩ := Loan.calls_refines hkind w.shm h₀ es
    obtain ⟨w₀, p₀, hedits, hp₀, hborrow₀, hshm⟩ := edits_run hp hborrow hkind es
    have hpublish := step_publishLoan hp₀ hborrow₀
    refine ⟨h₀, _, hedits.append (.single trivial hpublish), fun sample v hrecv => ?_⟩
    obtain ⟨htopic, len, hloan⟩ := Loan.calls_edited hkind w.shm es
    -- the calls change neither the topic of the loan nor the number of the next publish
    have hsame : (l.calls w.shm es).2.topic = l.topic := by rw [hloan]
    have hseq : w₀.shm.nextSeq l.topic = w.shm.nextSeq l.topic := by
      rw [Shm.nextSeq, hshm, htopic]
      rfl
    rw [← hseq, ← hsame] at hrecv
    obtain ⟨rfl, hdata⟩ := received_of_publish (hrun.append hedits) hp₀ hborrow₀ hkind₀ hpublish
      hrecv
    rw [← hbuffer, Loan.contents_buffer, ← hshm, Shm.bytes, hdata]
    rfl

/-- A second call on a fresh loan, and the sample of a loan that was written and published. -/
theorem loan_is_byte_buffer_fresh :
    (∃ (shm₁ shm₂ : Shm oneSlot) (l₁ l₂ : Loan oneSlot) (r : Outcome)
      (h₁ : l₁.len ≤ oneSlot.dataCapacity) (h₂ : l₂.len ≤ oneSlot.dataCapacity),
      Loan.calls ⟨.untyped, oneSlot.topic0, 3, 0⟩ (create oneSlot 5).shm [.write [1, 2, 3]] =
        (shm₁, l₁) ∧
      l₁.call shm₁ (.setLen 9) = (shm₂, l₂, r) ∧
      BufferStep (l₁.buffer shm₁ h₁) (l₂.buffer shm₂ h₂) (.setLen 9) r) ∧
    ∃ (w w₁ v : World oneSlot) (sample : Sample),
      Run step (fun _ _ => True) (create oneSlot 5) structuredSteps w ∧
      Run step (fun _ _ => True) w
        [.edit 0 (.writeStructured [1, 2] [[3, 4]]), .publishLoan 0] w₁ ∧
      ReceivedFrom w₁ oneSlot.topic0 (w.shm.nextSeq oneSlot.topic0) sample v ∧
      v.shm.bytes sample = [1, 2, 3, 4, 1, 0, 0, 0] := by
  constructor
  · obtain ⟨-, h₁, h₂, -, hstep, -⟩ := (@loan_is_byte_buffer oneSlot).1
      (create oneSlot 5).shm ⟨.untyped, oneSlot.topic0, 3, 0⟩ rfl rfl [.write [1, 2, 3]] (.setLen 9)
      _ _ _ _ _ rfl rfl
    exact ⟨_, _, _, _, _, h₁, h₂, rfl, rfl, hstep⟩
  · obtain ⟨w, hrun, htest⟩ := exists_run_of_exec step (fun _ _ => True) (s := create oneSlot 5)
      (l := structuredSteps) (p := fun w => passesOn [1, 2] [[3, 4]] (fun _ _ => true) w)
      (by decide +kernel)
    obtain ⟨-, p, w₀, w₁, v, sample, hp, hborrow, hwrite, hpublish, hrecv, -⟩ :=
      passesOn_spec htest
    have hcalls : Run step (fun _ _ => True) w
        [.edit 0 (.writeStructured [1, 2] [[3, 4]]), .publishLoan 0] w₁ :=
      .cons trivial hwrite (.single trivial hpublish)
    obtain ⟨_, w₁', hcalls', hbytes⟩ := loan_is_byte_buffer.2 hrun hp hborrow rfl rfl
      [.writeStructured [1, 2] [[3, 4]]]
    obtain rfl := hcalls.unique hcalls'
    refine ⟨w, w₁, v, sample, hrun, hcalls, hrecv, (hbytes sample v hrecv).trans ?_⟩
    exact Buffer.contents_replace (by decide)

end Crossbar.Region
