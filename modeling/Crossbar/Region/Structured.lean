import Crossbar.Lib.Chunks
import Crossbar.Mapping.Reads
import Crossbar.Region.Delivery

namespace Crossbar.Region

open Crossbar.Lib Crossbar.Pool

/-!
# Region — structured payloads

`write_structured` writes the bytes of a header, those of the entries directly behind it, and the
number of entries in four bytes (`structured`); `read_header` and `read_array` read them from a
`Sample` without copying, and so check the alignment of the addresses too.

* `read_array_accepts_iff` — `read_array` accepts the image of the encoder at aligned addresses,
  and nothing else;
* `structured_roundtrip_iff` — what was written is what a received sample reads, exactly when the
  header and the array lie at aligned addresses and the count fits in 32 bits.

Between the two a published block keeps its bytes, first in the ring (`data_kept_in_ring`), then
in the sample (`data_kept_in_sample`).
-/

/-! ### Plain data -/

/-- A `Pod` type: `size_of` and `align_of`, as the language has them. -/
structure PodType where
  size : Nat
  align : Nat
  size_lt : size < 2 ^ 63
  align_pow : ∃ n, align = 2 ^ n
  align_dvd : align ∣ size

/-- A value of the type: its bytes. -/
abbrev PodType.Value (T : PodType) : Type := { bytes : List UInt8 // bytes.length = T.size }

/-- `u32::from_le_bytes`. -/
def ofLeBytes32 : List UInt8 → Nat
  | [b₀, b₁, b₂, b₃] => b₀.toNat + b₁.toNat * 2 ^ 8 + b₂.toNat * 2 ^ 16 + b₃.toNat * 2 ^ 24
  | _ => 0

theorem ofLeBytes32_leBytes32 (n : Nat) : ofLeBytes32 (leBytes32 n) = n % 2 ^ 32 := by
  simp only [leBytes32, ofLeBytes32, UInt8.toNat_ofNat']
  omega

theorem ofLeBytes32_lt (l : List UInt8) : ofLeBytes32 l < 2 ^ 32 := by
  unfold ofLeBytes32
  split
  · rename_i b₀ b₁ b₂ b₃
    have h₀ := b₀.toNat_lt
    have h₁ := b₁.toNat_lt
    have h₂ := b₂.toNat_lt
    have h₃ := b₃.toNat_lt
    omega
  · norm_num

theorem leBytes32_ofLeBytes32 {l : List UInt8} (h : l.length = 4) :
    leBytes32 (ofLeBytes32 l) = l := by
  obtain ⟨b₀, l, rfl⟩ := List.exists_cons_of_length_eq_add_one h
  obtain ⟨b₁, l, rfl⟩ := List.exists_cons_of_length_eq_add_one (Nat.succ.inj h)
  obtain ⟨b₂, l, rfl⟩ := List.exists_cons_of_length_eq_add_one (Nat.succ.inj (Nat.succ.inj h))
  obtain ⟨b₃, rfl⟩ := List.length_eq_one_iff.mp (Nat.succ.inj (Nat.succ.inj (Nat.succ.inj h)))
  have h₀ := b₀.toNat_lt
  have h₁ := b₁.toNat_lt
  have h₂ := b₂.toNat_lt
  have h₃ := b₃.toNat_lt
  simp only [leBytes32, ofLeBytes32, List.cons.injEq, and_true, ← UInt8.toNat_inj,
    UInt8.toNat_ofNat']
  omega

/-! ### Reading -/

/-- `Sample::read_header`, for the address and the bytes of the sample. -/
def readHeader (T : PodType) (addr : Nat) (bytes : List UInt8) : Option (List UInt8) :=
  if bytes.length < T.size then none
  else if addr % T.align ≠ 0 then none
  else some (bytes.take T.size)

/-- `Sample::read_array` likewise, in 64-bit arithmetic; the outer `none` is an overflow. -/
def readArray (T E : PodType) (addr : Nat) (bytes : List UInt8) :
    Option (Option (List (List UInt8))) := do
  let need ← Config.checkedAdd T.size 4
  if bytes.length < need then some none
  else
    let count := ofLeBytes32 (bytes.drop (bytes.length - 4))
    let arrayBytes ← Config.checkedMul count E.size
    let sum ← Config.checkedAdd T.size arrayBytes
    let total ← Config.checkedAdd sum 4
    if total ≠ bytes.length then some none
    else if (addr + T.size) % E.align ≠ 0 then some none
    else some (some (chunks E.size count ((bytes.drop T.size).take arrayBytes)))

/-- The layout that `write_structured` documents: the header, the entries, their number. -/
def structured (header : List UInt8) (entries : List (List UInt8)) : List UInt8 :=
  header ++ entries.flatten ++ leBytes32 entries.length

/-- The bytes are a header for `T`, `count` entries for `E` and the number `count`. -/
structure IsStructured (T E : PodType) (bytes header middle : List UInt8) (count : Nat) : Prop where
  bytes_eq : bytes = header ++ middle ++ leBytes32 count
  header_length : header.length = T.size
  middle_length : middle.length = count * E.size
  count_lt : count < 2 ^ 32

section

variable {T E : PodType} {addr : Nat} {bytes : List UInt8}

/-- Without an overflow the checks are those of exact arithmetic. -/
theorem readArray_eq
    (hfit : T.size + ofLeBytes32 (bytes.drop (bytes.length - 4)) * E.size + 4 < 2 ^ 64) :
    readArray T E addr bytes =
      some (if bytes.length < T.size + 4 then none
      else if T.size + ofLeBytes32 (bytes.drop (bytes.length - 4)) * E.size + 4 ≠ bytes.length then
        none
      else if (addr + T.size) % E.align ≠ 0 then none
      else some (chunks E.size (ofLeBytes32 (bytes.drop (bytes.length - 4)))
        ((bytes.drop T.size).take
          (ofLeBytes32 (bytes.drop (bytes.length - 4)) * E.size)))) := by
  have hsize := T.size_lt
  have hneed : Config.checkedAdd T.size 4 = some (T.size + 4) := if_pos (by omega)
  have hmul : Config.checkedMul (ofLeBytes32 (bytes.drop (bytes.length - 4))) E.size =
      some (ofLeBytes32 (bytes.drop (bytes.length - 4)) * E.size) := if_pos (by omega)
  have hsum : Config.checkedAdd T.size (ofLeBytes32 (bytes.drop (bytes.length - 4)) * E.size) =
      some (T.size + ofLeBytes32 (bytes.drop (bytes.length - 4)) * E.size) := if_pos (by omega)
  have htotal : Config.checkedAdd
      (T.size + ofLeBytes32 (bytes.drop (bytes.length - 4)) * E.size) 4 =
      some (T.size + ofLeBytes32 (bytes.drop (bytes.length - 4)) * E.size + 4) := if_pos hfit
  simp only [readArray, hneed, hmul, hsum, htotal, Option.bind_eq_bind, Option.bind_some]
  split_ifs <;> rfl

/-- Structured bytes: their length, their last four bytes and what lies between. -/
theorem IsStructured.parts {header middle : List UInt8} {count : Nat}
    (h : IsStructured T E bytes header middle count) :
    bytes.length = T.size + count * E.size + 4 ∧
    ofLeBytes32 (bytes.drop (bytes.length - 4)) = count ∧
    (bytes.drop T.size).take (count * E.size) = middle := by
  obtain ⟨rfl, hheader, hmiddle, hcount⟩ := h
  have hlen : (header ++ middle ++ leBytes32 count).length = T.size + count * E.size + 4 := by
    simp only [List.length_append, hheader, hmiddle]
    rfl
  refine ⟨hlen, ?_, ?_⟩
  · have hdrop : (header ++ middle ++ leBytes32 count).drop
        ((header ++ middle ++ leBytes32 count).length - 4) = leBytes32 count := by
      apply List.drop_left'
      rw [List.length_append, hheader, hmiddle, hlen]
      rfl
    rw [hdrop, ofLeBytes32_leBytes32, Nat.mod_eq_of_lt hcount]
  · rw [List.append_assoc, List.drop_left' hheader, List.take_left' hmiddle]

/-- What passes the two length checks is structured. -/
theorem isStructured_of_length (hlow : T.size + 4 ≤ bytes.length)
    (htotal : T.size + ofLeBytes32 (bytes.drop (bytes.length - 4)) * E.size + 4 = bytes.length) :
    ∃ header middle,
      IsStructured T E bytes header middle (ofLeBytes32 (bytes.drop (bytes.length - 4))) := by
  have hlast : (bytes.drop (bytes.length - 4)).length = 4 := by
    rw [List.length_drop]
    omega
  have hcount := leBytes32_ofLeBytes32 hlast
  have hlt := ofLeBytes32_lt (bytes.drop (bytes.length - 4))
  generalize ofLeBytes32 (bytes.drop (bytes.length - 4)) = count at htotal hcount hlt ⊢
  refine ⟨bytes.take T.size, (bytes.drop T.size).take (count * E.size), ?_, ?_, ?_, hlt⟩
  · -- cut behind the header, then in front of the count
    calc bytes = bytes.take T.size ++ bytes.drop T.size := (List.take_append_drop _ _).symm
      _ = bytes.take T.size ++ ((bytes.drop T.size).take (count * E.size) ++
            (bytes.drop T.size).drop (count * E.size)) := by
          rw [List.take_append_drop (count * E.size)]
      _ = bytes.take T.size ++ (bytes.drop T.size).take (count * E.size) ++ leBytes32 count := by
          rw [hcount, List.append_assoc, List.drop_drop]
          congr 3
          omega
  · rw [List.length_take]
    omega
  · rw [List.length_take, List.length_drop]
    omega

/-- **What `read_array` returns**, when its arithmetic does not overflow. -/
theorem readArray_eq_some_iff {es : List (List UInt8)}
    (hfit : T.size + ofLeBytes32 (bytes.drop (bytes.length - 4)) * E.size + 4 < 2 ^ 64) :
    readArray T E addr bytes = some (some es) ↔
      (addr + T.size) % E.align = 0 ∧ ∃ header middle count,
        IsStructured T E bytes header middle count ∧ es = chunks E.size count middle := by
  rw [readArray_eq hfit, Option.some.injEq]
  constructor
  · intro h
    split_ifs at h with hlow htotal halign
    obtain ⟨header, middle, hparts⟩ := isStructured_of_length (Nat.le_of_not_lt hlow)
      (not_not.mp htotal)
    refine ⟨not_not.mp halign, header, middle, _, hparts, ?_⟩
    rw [← Option.some.inj h, hparts.parts.2.2]
  · rintro ⟨halign, header, middle, count, hparts, rfl⟩
    obtain ⟨hlen, hcount, hmiddle⟩ := hparts.parts
    rw [hcount, hmiddle, if_neg (by omega), if_neg (not_not.mpr hlen.symm),
      if_neg (not_not.mpr halign)]

end

/-! ### Writing -/

section

variable {cfg : ValidConfig}

/-- A copy behind the first `off` bytes. -/
theorem Shm.bytes_poke (shm : Shm cfg) (b off : Nat) (bytes : List UInt8) :
    (shm.poke b off bytes).bytes ⟨b, off + bytes.length⟩ = shm.bytes ⟨b, off⟩ ++ bytes := by
  have hdata : (shm.poke b off bytes).data b = fun i =>
      if off ≤ i ∧ i < off + bytes.length then bytes.getD (i - off) 0 else shm.data b i :=
    Function.update_self ..
  unfold Shm.bytes
  rw [hdata, List.range_add, List.map_append, List.map_map]
  congr 1
  · refine List.map_congr_left fun i hi => if_neg fun h => ?_
    have hlt := List.mem_range.mp hi
    omega
  · apply List.ext_getElem
    · simp
    · intro i hi hi'
      have hlt : i < bytes.length := hi'
      simp [hlt]

namespace Loan

variable {l : Loan cfg} {shm : Shm cfg} {header : List UInt8} {entries : List (List UInt8)}

theorem length_structured (header : List UInt8) (entries : List (List UInt8)) :
    (structured header entries).length = header.length + entries.flatten.length + 4 := by
  rw [structured, List.length_append, List.length_append]
  rfl

/-- What fits is written in the documented layout. -/
theorem writeStructured_ok (l : Loan cfg) (shm : Shm cfg)
    (hfits : (structured header entries).length ≤ cfg.dataCapacity) :
    ∃ shm', l.writeStructured shm header entries =
        (shm', { l with len := (structured header entries).length }, .ok ()) ∧
      shm'.bytes ⟨l.blockIdx, (structured header entries).length⟩ = structured header entries := by
  rw [length_structured] at hfits ⊢
  have hlen := Nat.not_lt.mpr hfits
  refine ⟨((shm.poke l.blockIdx 0 header).poke l.blockIdx header.length entries.flatten).poke
    l.blockIdx (header.length + entries.flatten.length) (leBytes32 entries.length), ?_, ?_⟩
  · simp only [writeStructured, if_neg hlen, setLen]
  · have hheader := (shm.poke l.blockIdx 0 header).bytes_poke l.blockIdx header.length
      entries.flatten
    have hzero := shm.bytes_poke l.blockIdx 0 header
    rw [Nat.zero_add] at hzero
    rw [hzero] at hheader
    refine (Shm.bytes_poke _ _ _ (leBytes32 entries.length)).trans ?_
    rw [hheader]
    rfl

/-- What does not fit is refused. -/
theorem length_le_of_writeStructured (h : (l.writeStructured shm header entries).2.2 = .ok ()) :
    (structured header entries).length ≤ cfg.dataCapacity := by
  rw [length_structured]
  by_contra hgt
  rw [writeStructured, if_pos (Nat.lt_of_not_le hgt)] at h
  cases h

end Loan

end

/-- **`read_array` accepts exactly the structured format.** For types below 4 GiB, at every address
    and on every byte string: the arithmetic does not overflow; an array is returned exactly when
    the bytes are a header, `count` entries and the count, with nothing left over, and the address
    of the array is aligned; then the array has `count` elements, with the bytes in the
    middle, and `write_structured` of the header and the array writes the same bytes again. -/
theorem read_array_accepts_iff (T E : PodType) (hT : T.size < 2 ^ 32) (hE : E.size < 2 ^ 32)
    (addr : Nat) (bytes : List UInt8) :
    ∃ r, readArray T E addr bytes = some r ∧
      ((∃ es, r = some es) ↔ E.align ∣ addr + T.size ∧ ∃ header middle count,
        IsStructured T E bytes header middle count) ∧
      ∀ es header middle count, r = some es → IsStructured T E bytes header middle count →
        es.length = count ∧ es.flatten = middle ∧ (∀ e ∈ es, e.length = E.size) ∧
        ∀ (cfg : ValidConfig) (shm : Shm cfg) (l : Loan cfg), bytes.length ≤ cfg.dataCapacity →
          ∃ shm' l', l.writeStructured shm header es = (shm', l', .ok ()) ∧
            shm'.bytes ⟨l.blockIdx, l'.len⟩ = bytes := by
  have hfit : T.size + ofLeBytes32 (bytes.drop (bytes.length - 4)) * E.size + 4 < 2 ^ 64 := by
    have hmul := Nat.mul_le_mul
      (Nat.le_sub_one_of_lt (ofLeBytes32_lt (bytes.drop (bytes.length - 4))))
      (Nat.le_sub_one_of_lt hE)
    omega
  obtain ⟨r, hr⟩ : ∃ r, readArray T E addr bytes = some r := ⟨_, readArray_eq hfit⟩
  have hiff : ∀ es, r = some es ↔ (addr + T.size) % E.align = 0 ∧ ∃ header middle count,
      IsStructured T E bytes header middle count ∧ es = chunks E.size count middle := by
    intro es
    rw [← readArray_eq_some_iff hfit, hr, Option.some.injEq]
  refine ⟨r, hr, ?_, fun es header middle count hes hparts => ?_⟩
  · rw [Nat.dvd_iff_mod_eq_zero]
    constructor
    · rintro ⟨es, hes⟩
      obtain ⟨halign, header, middle, count, hparts, -⟩ := (hiff es).mp hes
      exact ⟨halign, header, middle, count, hparts⟩
    · rintro ⟨halign, header, middle, count, hparts⟩
      exact ⟨_, (hiff _).mpr ⟨halign, header, middle, count, hparts, rfl⟩⟩
  · -- the parts are determined by the lengths
    obtain ⟨halign, -⟩ := (hiff es).mp hes
    have hsame := (hiff _).mpr ⟨halign, header, middle, count, hparts, rfl⟩
    obtain rfl := Option.some.inj (hes.symm.trans hsame)
    have hlength := length_chunks E.size count middle
    have hflatten := flatten_chunks hparts.middle_length
    refine ⟨hlength, hflatten, length_of_mem_chunks hparts.middle_length, fun cfg shm l hcap => ?_⟩
    have hbytes : structured header (chunks E.size count middle) = bytes := by
      rw [structured, hflatten, hlength, hparts.bytes_eq]
    rw [← hbytes] at hcap ⊢
    obtain ⟨shm', hwrite, hwritten⟩ := l.writeStructured_ok shm hcap
    exact ⟨shm', _, hwrite, hwritten⟩

/-- `u16`. -/
def u16Type : PodType := ⟨2, 2, by norm_num, ⟨1, rfl⟩, dvd_rfl⟩

/-- The header 513 and the entries 1027 and 1541, in two bytes each, at address 8. -/
theorem read_array_two : ∃ r, readArray u16Type u16Type 8 [1, 2, 3, 4, 5, 6, 2, 0, 0, 0] = some r ∧
    r = some [[3, 4], [5, 6]] ∧ ∃ header middle count,
      IsStructured u16Type u16Type [1, 2, 3, 4, 5, 6, 2, 0, 0, 0] header middle count := by
  obtain ⟨r, hr, hiff, -⟩ := read_array_accepts_iff u16Type u16Type (by decide) (by decide) 8
    [1, 2, 3, 4, 5, 6, 2, 0, 0, 0]
  have hes : r = some [[3, 4], [5, 6]] := by
    have hvalue : readArray u16Type u16Type 8 [1, 2, 3, 4, 5, 6, 2, 0, 0, 0] =
        some (some [[3, 4], [5, 6]]) := by decide +kernel
    exact Option.some.inj (hr.symm.trans hvalue)
  exact ⟨r, hr, hes, (hiff.mp ⟨_, hes⟩).2⟩

/-! ### A published block keeps its bytes -/

section

variable {cfg : ValidConfig} {w w' : World cfg} {limit : Nat} {a : Act cfg}

/-- **Step.** No call writes to a block that the ring or a sample refers to. -/
theorem data_move {b : Nat} (hI : w.Counts limit) (hL : w.LoansOk)
    (href : 0 < w.shm.referenced w.sampled b) (hmove : Move w a w') :
    w'.shm.data b = w.shm.data b := by
  cases hmove with
  | edit hp hborrow hedit =>
    obtain ⟨⟨data, rfl⟩, _⟩ := Loan.edit_spec hedit
    refine Function.update_of_ne (fun heq => ?_) ..
    -- the block of the loan is held, so nothing refers to it
    subst heq
    rw [Shm.Counted.referenced_of_held hI (held_of_loan hL hp hborrow)] at href
    exact Nat.lt_irrefl 0 href
  | publish hp hborrow hkind => exact congrFun (commitToRing_shape ..).1.data_eq b
  | dropPublisher hp hborrow => exact congrFun (Shm.SameButBlocks.drop w.shm _).data_eq b
  | dropSample hs => exact congrFun (Shm.SameButBlocks.release w.shm _).data_eq b
  | receivePinned hs hrecv =>
    obtain ⟨_, rfl, _⟩ := Stream.tryRecvPinned_inv hrecv
    rfl
  | _ => rfl

/-- The call publishes a loan. -/
def Act.publishes : Act cfg → Bool
  | .publishLoan _ => true
  | _ => false

/-- Only that stores a ring entry. -/
theorem entry_move (hmove : Move w a w') (ha : a.publishes = false) :
    w'.shm.entry = w.shm.entry := by
  rcases ring_move hmove with hsame | ⟨k, p, l, rfl, _⟩
  · exact hsame.1
  · cases ha

/-- Entry `e` is `r`, and its block has the bytes `d`. -/
structure EntryHolds (e : cfg.EntryIdx) (r : Ring.Entry) (d : Ring.Payload) (w : World cfg) :
    Prop where
  counts : w.Counts (2 ^ 32)
  loans : w.LoansOk
  entry : w.shm.entry e = r
  data : w.shm.data r.blockIdx = d

variable {e : cfg.EntryIdx} {r : Ring.Entry} {d : Ring.Payload}

/-- A basic call leaves the bytes, whatever it does to the entry. -/
theorem EntryHolds.data_step (h : EntryHolds e r d w) (hne : r.blockIdx ≠ noBlock)
    (ha : a.basic = true) (hstep : step w a = some w') : w'.shm.data r.blockIdx = d := by
  have hpos := w.shm.referenced_of_entry w.sampled e (by rw [h.entry]; exact hne)
  rw [h.entry] at hpos
  exact (data_move h.counts h.loans hpos (step_move h.counts ha hstep)).trans h.data

/-- A basic call other than `publish` leaves the entry too. -/
theorem EntryHolds.step (h : EntryHolds e r d w) (hne : r.blockIdx ≠ noBlock)
    (ha : a.basic = true) (hnot : a.publishes = false) (hstep : Region.step w a = some w') :
    EntryHolds e r d w' where
  counts := counts_step h.counts hstep
  loans := loansOk_move h.loans (step_move h.counts ha hstep)
  entry := (congrFun (entry_move (step_move h.counts ha hstep) hnot) e).trans h.entry
  data := h.data_step hne ha hstep

/-- Every call leaves the bytes. -/
theorem EntryHolds.data_call (h : EntryHolds e r d w) (hne : r.blockIdx ≠ noBlock)
    (hstep : Region.step w a = some w') : w'.shm.data r.blockIdx = d := by
  by_cases ha : a.basic = true
  · exact h.data_step hne ha hstep
  · cases a with
    | publish k hd data =>
      rcases publish_expand hstep with hloan | ⟨w₁, w₂, hloan, hedit, -, hend⟩
      · exact h.data_step hne rfl hloan
      · have h₂ := (h.step hne rfl rfl hloan).step hne rfl rfl hedit
        rcases hend with hpub | hdrop
        · exact h₂.data_step hne rfl hpub
        · exact h₂.data_step hne rfl hdrop
    | publishTyped k hd size value =>
      rcases publishTyped_expand hstep with hloan | ⟨w₁, w₂, hloan, hedit, -, hpub⟩
      · exact h.data_step hne rfl hloan
      · have h₂ := (h.step hne rfl rfl hloan).step hne rfl rfl hedit
        exact h₂.data_step hne rfl hpub
    | _ => exact absurd rfl ha

/-- **Run.** As long as the entry stays, the block keeps its bytes. -/
theorem data_kept_in_ring {as : List (Act cfg)}
    (hrun : Run step (fun w _ => w.shm.entry e = r) w as w') (hend : w'.shm.entry e = r)
    (h : EntryHolds e r d w) (hne : r.blockIdx ≠ noBlock) : EntryHolds e r d w' := by
  induction hrun with
  | nil => exact h
  | @cons w w₁ w₂ a as hok hstep hrest ih =>
    -- that the entry is still there after the call is the condition of the next one
    refine ih hend ?_
    obtain ⟨hI, hL⟩ := books_call ⟨h.counts, h.loans⟩ hstep
    refine ⟨hI, hL, ?_, h.data_call hne hstep⟩
    cases hrest with
    | nil => exact hend
    | cons hok₁ _ _ => exact hok₁

/-- Sample `j` is `s`, and its block has the bytes `d`; or it has been dropped. -/
def SampleHolds (j : Nat) (s : Sample) (d : Ring.Payload) (w : World cfg) : Prop :=
  (w.samples[j]? = some (some s) ∧ w.shm.data s.blockIdx = d) ∨ w.samples[j]? = some none

variable {j : Nat} {s : Sample}

theorem samples_move (hmove : Move w a w') {o : Option Sample} (hj : w.samples[j]? = some o) :
    w'.samples[j]? = some o ∨ w'.samples[j]? = some none := by
  cases hmove with
  | receive len hs hnext =>
    exact Or.inl ((List.getElem?_append_left (List.getElem?_eq_some_iff.mp hj).1).trans hj)
  | @dropSample i s hs =>
    by_cases hij : i = j
    · subst hij
      exact Or.inr (List.getElem?_set_self (List.getElem?_eq_some_iff.mp hj).1)
    · exact Or.inl ((List.getElem?_set_ne hij).trans hj)
  | _ => exact Or.inl hj

/-- **Step.** -/
theorem SampleHolds.move (hI : w.Counts limit) (hL : w.LoansOk) (hne : s.blockIdx ≠ noBlock)
    (h : SampleHolds j s d w) (hmove : Move w a w') : SampleHolds j s d w' := by
  rcases h with ⟨hj, hdata⟩ | hj
  · have hpos : 0 < w.sampled s.blockIdx := by
      have hle := le_listTally (sampleOf s.blockIdx) hj
      exact Nat.lt_of_lt_of_le (by simp [sampleOf]) hle
    have href : 0 < w.shm.referenced w.sampled s.blockIdx := by
      rw [Shm.referenced_of_ne _ _ hne]
      omega
    rcases samples_move hmove hj with hj' | hj'
    · exact Or.inl ⟨hj', (data_move hI hL href hmove).trans hdata⟩
    · exact Or.inr hj'
  · rcases samples_move hmove hj with hj' | hj' <;> exact Or.inr hj'

/-- **Run.** As long as a sample is not dropped, its block keeps its bytes. -/
theorem data_kept_in_sample {as : List (Act cfg)} (hrun : Run step (fun _ _ => True) w as w')
    (hI : w.Counts (2 ^ 32)) (hL : w.LoansOk) (hne : s.blockIdx ≠ noBlock)
    (hs : w.samples[j]? = some (some s)) (hs' : w'.samples[j]? = some (some s)) :
    w'.shm.data s.blockIdx = w.shm.data s.blockIdx := by
  obtain ⟨-, -, hheld⟩ := hrun.invariant (I := fun v => v.Counts (2 ^ 32) ∧ v.LoansOk ∧
      SampleHolds j s (w.shm.data s.blockIdx) v) ⟨hI, hL, Or.inl ⟨hs, rfl⟩⟩
    (fun _ _ _ h _ hstep => books_step always_expands
      (fun hI hL hX _ _ hmove => hX.move hI hL hne hmove) h trivial hstep)
  rcases hheld with ⟨-, hdata⟩ | hnone
  · exact hdata
  · rw [hs'] at hnone
    cases hnone

/-! ### From the loan to the sample -/

/-- `Sample::as_ptr`, in a mapping at address `base`. -/
def Sample.asPtr (cfg : ValidConfig) (base : Nat) (s : Sample) : Nat :=
  base + Mapping.blockOff cfg.toConfig s.blockIdx + blockDataOffset

/-- `Sample::read_header`. -/
def Sample.readHeader (s : Sample) (base : Nat) (shm : Shm cfg) (T : PodType) :
    Option (List UInt8) :=
  Region.readHeader T (s.asPtr cfg base) (shm.bytes s)

/-- `Sample::read_array`. -/
def Sample.readArray (s : Sample) (base : Nat) (shm : Shm cfg) (T E : PodType) :
    Option (Option (List (List UInt8))) :=
  Region.readArray T E (s.asPtr cfg base) (shm.bytes s)

/-- The bytes of the entries. -/
def PodType.bytesOf {E : PodType} (entries : List E.Value) : List (List UInt8) :=
  entries.map Subtype.val

/-- Reading what was written, at address `addr`. -/
theorem structured_read_iff {T E : PodType} (addr : Nat) (header : T.Value)
    (entries : List E.Value)
    (hfits : (structured header.val (PodType.bytesOf entries)).length < 2 ^ 32) :
    (readHeader T addr (structured header.val (PodType.bytesOf entries)) = some header.val ∧
      readArray T E addr (structured header.val (PodType.bytesOf entries)) =
        some (some (PodType.bytesOf entries))) ↔
    T.align ∣ addr ∧ E.align ∣ addr + T.size ∧ entries.length < 2 ^ 32 := by
  obtain ⟨header, hheader⟩ := header
  dsimp only at hfits ⊢
  -- the arithmetic of `read_array` does not overflow, as the stored count is no larger than the
  -- number of entries, which were written
  have hsize : ∀ c ∈ PodType.bytesOf entries, c.length = E.size := by
    intro c hc
    obtain ⟨v, -, rfl⟩ := List.mem_map.mp hc
    exact v.property
  have hcount : (PodType.bytesOf entries).length = entries.length := List.length_map _
  have hflat := length_flatten_of_size hsize
  have hlen := Loan.length_structured header (PodType.bytesOf entries)
  -- the count that is stored
  have hstored : ofLeBytes32 ((structured header (PodType.bytesOf entries)).drop
      ((structured header (PodType.bytesOf entries)).length - 4)) = entries.length % 2 ^ 32 := by
    have hdrop : (structured header (PodType.bytesOf entries)).drop
        ((structured header (PodType.bytesOf entries)).length - 4) =
          leBytes32 (PodType.bytesOf entries).length := by
      apply List.drop_left'
      rw [List.length_append, hlen]
      rfl
    rw [hdrop, ofLeBytes32_leBytes32, hcount]
  have hfit : T.size + ofLeBytes32 ((structured header (PodType.bytesOf entries)).drop
      ((structured header (PodType.bytesOf entries)).length - 4)) * E.size + 4 < 2 ^ 64 := by
    have hmul := Nat.mul_le_mul_right E.size (Nat.mod_le entries.length (2 ^ 32))
    rw [hstored]
    rw [hcount] at hflat
    omega
  rw [readArray_eq_some_iff hfit, Nat.dvd_iff_mod_eq_zero, Nat.dvd_iff_mod_eq_zero]
  constructor
  · rintro ⟨hread, halign, h', middle, count, hparts, hes⟩
    refine ⟨?_, halign, ?_⟩
    · by_contra hne
      rw [readHeader, if_pos hne] at hread
      split at hread <;> cases hread
    · rw [← hcount, hes, length_chunks]
      exact hparts.count_lt
  · rintro ⟨hhead, halign, hlt⟩
    constructor
    · rw [readHeader, if_neg (by omega), if_neg (not_not.mpr hhead), structured, List.append_assoc,
        List.take_left' hheader]
    · refine ⟨halign, header, (PodType.bytesOf entries).flatten, entries.length,
        ⟨by rw [structured, hcount], hheader, by rw [hflat, hcount], hlt⟩, ?_⟩
      rw [← hcount]
      exact (chunks_flatten hsize).symm

/-- In `v` there is `sample`, which a stream has received, some time after `w₁`, from the entry of
    number `q` of topic `t`, when the entry had not been overwritten. -/
def ReceivedFrom (w₁ : World cfg) (t : cfg.Topic) (q : Nat) (sample : Sample) (v : World cfg) :
    Prop :=
  ∃ as₁ w₂ i s shm s' w₃ as₂,
    Run step (fun w _ => w.shm.entry (t, cfg.slotOf q) = w₁.shm.entry (t, cfg.slotOf q))
      w₁ as₁ w₂ ∧
    w₂.shm.entry (t, cfg.slotOf q) = w₁.shm.entry (t, cfg.slotOf q) ∧
    w₂.streams[i]? = some s ∧ s.topic = t ∧ s.tryRecv w₂.shm = some (shm, s', sample) ∧
    s'.lastSeq = q ∧ step w₂ (.tryRecv i) = some w₃ ∧
    Run step (fun _ _ => True) w₃ as₂ v ∧ v.samples[w₂.samples.length]? = some (some sample)

/-- Such a sample is of the block of the entry, with the bytes that it had in `w₁`. -/
theorem ReceivedFrom.sample {w₁ v : World cfg} {t : cfg.Topic} {q : Nat} {sample : Sample}
    (h : ReceivedFrom w₁ t q sample v)
    (hheld : EntryHolds (t, cfg.slotOf q) r d w₁) (hne : r.blockIdx ≠ noBlock) :
    sample = ⟨r.blockIdx, r.dataLen⟩ ∧ v.shm.data r.blockIdx = d := by
  obtain ⟨as₁, w₂, i, s, shm, s', w₃, as₂, hring, hend, hs, rfl, hrecv, hseq, hstep, hrun,
    hlive⟩ := h
  rw [hheld.entry] at hring hend
  have h₂ := data_kept_in_ring hring hend hheld hne
  obtain ⟨q', hnext, rfl, rfl, rfl⟩ := Stream.tryRecv_inv hrecv
  obtain rfl : q' = q := hseq
  have hsample : (⟨w₂.shm.blockAt s.topic q', (w₂.shm.entry (s.topic, cfg.slotOf q')).dataLen⟩ :
      Sample) = ⟨r.blockIdx, r.dataLen⟩ := by
    rw [Shm.blockAt, hend]
  rw [hsample] at hrecv hlive ⊢
  refine ⟨rfl, ?_⟩
  -- the call that receives it changes a refcount only
  obtain ⟨hI₃, hL₃⟩ := books_call ⟨h₂.counts, h₂.loans⟩ hstep
  simp only [step, World.receive, hs, hrecv] at hstep
  cases hstep
  have hkept := data_kept_in_sample hrun hI₃ hL₃ hne (List.getElem?_concat_length ..) hlive
  exact hkept.trans h₂.data

/-- What a loan publishes is in its ring entry. -/
theorem entryHolds_of_publish {k : Nat} {p : Publisher cfg} {l : Loan cfg}
    (hI : w.Counts (2 ^ 32)) (hL : w.LoansOk) (hp : w.pubs[k]? = some (some p))
    (hborrow : p.borrow = some l) (hkind : l.kind = .untyped)
    (hpublish : step w (.publishLoan k) = some w') :
    EntryHolds (l.topic, cfg.slotOf (w.shm.nextSeq l.topic))
      ⟨w.shm.nextSeq l.topic, l.blockIdx, l.len⟩ (w.shm.data l.blockIdx) w' := by
  obtain ⟨hI', hL'⟩ := books_call ⟨hI, hL⟩ hpublish
  rw [step_publishLoan hp hborrow, Loan.publish_ring (by rw [hkind]; decide)] at hpublish
  cases hpublish
  have hblocks :=
    (commitToRing_shape w.shm { p with borrow := none } l.blockIdx l.len l.topic).1
  refine ⟨hI', hL', ?_, ?_⟩
  · exact (congrFun hblocks.entry_eq _).trans (Shm.storeEntry_entry_self ..)
  · exact congrFun hblocks.data_eq _

/-- A sample that is received of a published loan is of its block, with the bytes that the block had
    then. -/
theorem received_of_publish {id k : Nat} {as : List (Act cfg)}
    (hrun : Run step (fun _ _ => True) (create cfg id) as w) {p : Publisher cfg} {l : Loan cfg}
    (hp : w.pubs[k]? = some (some p)) (hborrow : p.borrow = some l) (hkind : l.kind = .untyped)
    {w₁ v : World cfg} {sample : Sample} (hpublish : step w (.publishLoan k) = some w₁)
    (hrecv : ReceivedFrom w₁ l.topic (w.shm.nextSeq l.topic) sample v) :
    sample = ⟨l.blockIdx, l.len⟩ ∧ v.shm.data l.blockIdx = w.shm.data l.blockIdx := by
  obtain ⟨hI, hL, -⟩ := books_run (X := fun _ => True) always_expands
    (fun _ _ _ _ _ _ => trivial) hrun trivial
  have hentry := entryHolds_of_publish hI hL hp hborrow hkind hpublish
  have hne := ne_noBlock (Shm.Counted.lt_of_held hI (held_of_loan hL hp hborrow))
  exact hrecv.sample hentry hne

/-- The loan after `write_structured`. -/
theorem writeStructured_step {w₀ : World cfg} {k : Nat} {p : Publisher cfg} {l : Loan cfg}
    {header : List UInt8} {entries : List (List UInt8)} (hp : w.pubs[k]? = some (some p))
    (hborrow : p.borrow = some l) (hkind : l.kind = .untyped)
    (hfits : (structured header entries).length ≤ cfg.dataCapacity)
    (hedit : step w (.edit k (.writeStructured header entries)) = some w₀) :
    (∃ p₀, w₀.pubs[k]? = some (some p₀) ∧
      p₀.borrow = some { l with len := (structured header entries).length }) ∧
    w₀.shm.topic = w.shm.topic ∧
    w₀.shm.bytes ⟨l.blockIdx, (structured header entries).length⟩ = structured header entries := by
  obtain ⟨shm', hwrite, hbytes⟩ := l.writeStructured_ok w.shm hfits
  obtain ⟨⟨data, hshm⟩, -, -⟩ := l.writeStructured_edited w.shm header entries
  rw [hwrite] at hshm
  have hstep : l.edit w.shm (.writeStructured header entries) =
      some (shm', { l with len := (structured header entries).length }) := by
    rw [Loan.edit, hwrite, if_neg (by rw [hkind]; decide)]
  rw [step_edit hp hborrow hstep] at hedit
  cases hedit
  exact ⟨⟨_, withPub_pubs hp _, rfl⟩, (congrArg Shm.topic hshm).trans rfl, hbytes⟩

/-- **Structured payloads round-trip, at aligned addresses.** Whenever a loan is written with
    `write_structured`, which succeeds, and is published, and a sample of it is received: in every
    mapping `read_header` returns the header and `read_array` the entries if and only if the
    header and the array lie at multiples of the alignments of their types and there are less
    than `2 ^ 32` entries. -/
theorem structured_roundtrip_iff {id k : Nat} {as : List (Act cfg)}
    (hrun : Run step (fun _ _ => True) (create cfg id) as w) {p : Publisher cfg} {l : Loan cfg}
    (hp : w.pubs[k]? = some (some p)) (hborrow : p.borrow = some l) (hkind : l.kind = .untyped)
    {T E : PodType} (header : T.Value) (entries : List E.Value)
    (hok : (l.writeStructured w.shm header.val (PodType.bytesOf entries)).2.2 = .ok ())
    {w₀ w₁ v : World cfg} {sample : Sample}
    (hwrite : step w (.edit k (.writeStructured header.val (PodType.bytesOf entries))) = some w₀)
    (hpublish : step w₀ (.publishLoan k) = some w₁)
    (hrecv : ReceivedFrom w₁ l.topic (w.shm.nextSeq l.topic) sample v) (base : Nat) :
    (sample.readHeader base v.shm T = some header.val ∧
      sample.readArray base v.shm T E = some (some (PodType.bytesOf entries))) ↔
    T.align ∣ base + Mapping.blockOff cfg.toConfig l.blockIdx + blockDataOffset ∧
      E.align ∣ base + Mapping.blockOff cfg.toConfig l.blockIdx + blockDataOffset + T.size ∧
      entries.length < 2 ^ 32 := by
  have hfits := Loan.length_le_of_writeStructured hok
  obtain ⟨⟨p₀, hp₀, hborrow₀⟩, htopic, hbytes⟩ :=
    writeStructured_step hp hborrow hkind hfits hwrite
  -- writing does not change the number of the next publish
  have hseq : w₀.shm.nextSeq l.topic = w.shm.nextSeq l.topic := by
    rw [Shm.nextSeq, htopic]
    rfl
  rw [← hseq] at hrecv
  obtain ⟨rfl, hdata⟩ := received_of_publish (hrun.append (.single trivial hwrite)) hp₀ hborrow₀
    hkind hpublish hrecv
  dsimp only at hdata
  have hread : v.shm.bytes
      ⟨l.blockIdx, (structured header.val (PodType.bytesOf entries)).length⟩ =
      structured header.val (PodType.bytesOf entries) := by
    rw [Shm.bytes, hdata]
    exact hbytes
  unfold Sample.readHeader Sample.readArray
  dsimp only
  rw [hread]
  exact structured_read_iff _ header entries (len_lt hfits)

/-- A stream, and a publisher with a loan of block 3. -/
def structuredSteps : List (Act oneSlot) :=
  [.register 0 [47], .subscribe [47], .loan 0 ⟨oneSlot.topic0, 5⟩]

/-- The loan can be written and published, and the stream receives a sample that passes `check`. -/
def passesOn (header : List UInt8) (entries : List (List UInt8))
    (check : World oneSlot → Sample → Bool) (w : World oneSlot) : Bool :=
  decide ((structured header entries).length ≤ oneSlot.dataCapacity) &&
  (w.pubs[0]?.any fun o => o.any fun p =>
    decide (p.borrow = some ⟨.untyped, oneSlot.topic0, 3, 0⟩)) &&
  (step w (.edit 0 (.writeStructured header entries))).any fun w₀ =>
    (step w₀ (.publishLoan 0)).any fun w₁ => w₁.streams[0]?.any fun s =>
      decide (s.topic = oneSlot.topic0) && (s.tryRecv w₁.shm).any fun r =>
        decide (r.2.1.lastSeq = w.shm.nextSeq oneSlot.topic0) &&
        (step w₁ (.tryRecv 0)).any fun v =>
          decide (v.samples[w₁.samples.length]? = some (some r.2.2)) && check v r.2.2

theorem passesOn_spec {header : List UInt8} {entries : List (List UInt8)}
    {check : World oneSlot → Sample → Bool} {w : World oneSlot}
    (h : passesOn header entries check w = true) :
    (structured header entries).length ≤ oneSlot.dataCapacity ∧ ∃ p w₀ w₁ v sample,
      w.pubs[0]? = some (some p) ∧ p.borrow = some ⟨.untyped, oneSlot.topic0, 3, 0⟩ ∧
      step w (.edit 0 (.writeStructured header entries)) = some w₀ ∧
      step w₀ (.publishLoan 0) = some w₁ ∧
      ReceivedFrom w₁ oneSlot.topic0 (w.shm.nextSeq oneSlot.topic0) sample v ∧
      check v sample = true := by
  simp only [passesOn, Bool.and_eq_true, decide_eq_true_eq, Option.any_eq_true] at h
  obtain ⟨⟨hfits, o, hp, p, rfl, hborrow⟩, w₀, hwrite, w₁, hpublish, s, hs, htopic, r, hr, hseq, v,
    hstep, hlive, hcheck⟩ := h
  exact ⟨hfits, p, w₀, w₁, v, r.2.2, hp, hborrow, hwrite, hpublish,
    ⟨[], w₁, 0, s, r.1, r.2.1, v, [], .nil _, rfl, hs, htopic, hr, hseq, hstep, .nil _, hlive⟩,
    hcheck⟩

/-- Two-byte integers lie at even addresses. -/
theorem structured_roundtrip_u16 : ∃ (w w₀ w₁ v : World oneSlot) (sample : Sample),
    Run step (fun _ _ => True) (create oneSlot 5) structuredSteps w ∧
    step w (.edit 0 (.writeStructured [1, 2] [[3, 4]])) = some w₀ ∧
    step w₀ (.publishLoan 0) = some w₁ ∧
    ReceivedFrom w₁ oneSlot.topic0 (w.shm.nextSeq oneSlot.topic0) sample v ∧
    sample.readHeader 4096 v.shm u16Type = some [1, 2] ∧
    sample.readArray 4096 v.shm u16Type u16Type = some (some [[3, 4]]) := by
  obtain ⟨w, hrun, htest⟩ := exists_run_of_exec step (fun _ _ => True) (s := create oneSlot 5)
    (l := structuredSteps) (p := fun w => passesOn [1, 2] [[3, 4]] (fun _ _ => true) w)
    (by decide +kernel)
  obtain ⟨hfits, p, w₀, w₁, v, sample, hp, hborrow, hwrite, hpublish, hrecv, -⟩ :=
    passesOn_spec htest
  obtain ⟨shm', hok, -⟩ := Loan.writeStructured_ok ⟨.untyped, oneSlot.topic0, 3, 0⟩ w.shm hfits
  have hread := (structured_roundtrip_iff hrun hp hborrow rfl (T := u16Type) (E := u16Type)
    ⟨[1, 2], rfl⟩ [⟨[3, 4], rfl⟩] (congrArg (fun r => r.2.2) hok) hwrite hpublish hrecv 4096).mpr
    (by decide)
  exact ⟨w, w₀, w₁, v, sample, hrun, hwrite, hpublish, hrecv, hread⟩

/-- `u8`. -/
def u8Type : PodType := ⟨1, 1, by norm_num, ⟨0, rfl⟩, dvd_rfl⟩

/-- **An array behind a one-byte header.** The array is written directly behind the header, at an
    odd address, so `read_array` refuses it. -/
theorem structured_array_misaligned : ∃ (w w₀ w₁ v : World oneSlot) (sample : Sample),
    Run step (fun _ _ => True) (create oneSlot 5) structuredSteps w ∧
    (Loan.writeStructured ⟨.untyped, oneSlot.topic0, 3, 0⟩ w.shm [1] [[2, 3]]).2.2 = .ok () ∧
    step w (.edit 0 (.writeStructured [1] [[2, 3]])) = some w₀ ∧
    step w₀ (.publishLoan 0) = some w₁ ∧
    ReceivedFrom w₁ oneSlot.topic0 (w.shm.nextSeq oneSlot.topic0) sample v ∧
    sample.readHeader 4096 v.shm u8Type = some [1] ∧
    sample.readArray 4096 v.shm u8Type u16Type = some none := by
  obtain ⟨w, hrun, htest⟩ := exists_run_of_exec step (fun _ _ => True) (s := create oneSlot 5)
    (l := structuredSteps)
    (p := fun w => passesOn [1] [[2, 3]] (fun v sample =>
      decide (sample.readHeader 4096 v.shm u8Type = some [1] ∧
        sample.readArray 4096 v.shm u8Type u16Type = some none)) w) (by decide +kernel)
  obtain ⟨hfits, p, w₀, w₁, v, sample, hp, hborrow, hwrite, hpublish, hrecv, hcheck⟩ :=
    passesOn_spec htest
  obtain ⟨shm', hok, -⟩ := Loan.writeStructured_ok ⟨.untyped, oneSlot.topic0, 3, 0⟩ w.shm hfits
  obtain ⟨hheader, harray⟩ := of_decide_eq_true hcheck
  exact ⟨w, w₀, w₁, v, sample, hrun, congrArg (fun r => r.2.2) hok, hwrite, hpublish, hrecv,
    hheader, harray⟩

end

end Crossbar.Region
