import Sighttpd.L2Stream.Ringbuffer

/-!
# What each ring-buffer call does to the circular view

One lemma per call of `src/ringbuffer.c`, stated on positions, lags and unread
bytes, so that later modules never look at the split at the end of the storage:

* `ringbufferOpen_cases`: the lowest free descriptor, positioned at the writer,
  or no change when all sixteen are taken.
* `ringbufferClose_eq`: the bit is cleared and the refresh runs.
* `ringbufferWrite_eq`: the bytes are put at the writer's position.
* `ringbufferRead_eq`, `ringbufferWritefd_eq`: the reader moves by the bytes
  handed out, which are the first of its unread bytes.
-/
namespace Sighttpd.L2
open Circular

/-! ## Opening and closing -/

def openAt (rb : Ringbuffer) (i : Nat) : Ringbuffer :=
  { setPread rb i rb.pwrite with readers := rb.readers ||| (1#32 <<< i) }

def closeAt (rb : Ringbuffer) (i : Nat) : Ringbuffer :=
  { rb with readers := rb.readers ^^^ (1#32 <<< i) }

theorem ringbufferOpen_cases (rb : Ringbuffer) :
    (∃ i, i < MAX_READERS ∧ rdOpen rb i = false ∧ ringbufferOpen rb = (openAt rb i, some i)) ∨
      ((∀ i, i < MAX_READERS → rdOpen rb i = true) ∧ ringbufferOpen rb = (rb, none)) := by
  unfold ringbufferOpen
  split
  · next i hi =>
    left
    have hp := List.find?_some hi
    have hm := List.mem_of_find?_eq_some hi
    simp only [List.mem_range] at hm
    refine ⟨i, hm, ?_, rfl⟩
    unfold rdOpen
    simpa using hp
  · next hn =>
    right
    refine ⟨fun i hi => ?_, rfl⟩
    have := List.find?_eq_none.mp hn i (by simpa using hi)
    unfold rdOpen
    simpa using this

theorem rdOpen_openAt {rb : Ringbuffer} {i j : Nat} (hi : i < MAX_READERS) (hj : j < MAX_READERS) :
    rdOpen (openAt rb i) j = (rdOpen rb j || decide (j = i)) := by
  rw [rdOpen_eq hj, rdOpen_eq hj]
  simp only [openAt, BitVec.getLsbD_or, bit_getLsbD (lt_32 hi)]

theorem rdOpen_closeAt {rb : Ringbuffer} {i j : Nat} (hi : i < MAX_READERS) (hj : j < MAX_READERS) :
    rdOpen (closeAt rb i) j = (rdOpen rb j ^^ decide (j = i)) := by
  rw [rdOpen_eq hj, rdOpen_eq hj]
  simp only [closeAt, BitVec.getLsbD_xor, bit_getLsbD (lt_32 hi)]

theorem isOpen_openAt {rb : Ringbuffer} {i : Nat} (hi : i < MAX_READERS) {j : Nat} :
    IsOpen (openAt rb i) j ↔ IsOpen rb j ∨ j = i := by
  unfold IsOpen
  constructor
  · intro hall
    obtain ⟨hj, ho⟩ := hall
    rw [rdOpen_openAt hi hj] at ho
    simpa [hj] using ho
  · rintro (⟨hj, ho⟩ | rfl)
    · exact ⟨hj, by rw [rdOpen_openAt hi hj, ho]; rfl⟩
    · exact ⟨hi, by rw [rdOpen_openAt hi hi]; simp⟩

theorem isOpen_closeAt {rb : Ringbuffer} {i j : Nat} (hi : IsOpen rb i) :
    IsOpen (closeAt rb i) j ↔ IsOpen rb j ∧ j ≠ i := by
  obtain ⟨hi, hio⟩ := hi
  unfold IsOpen
  constructor
  · intro hall
    obtain ⟨hj, ho⟩ := hall
    rw [rdOpen_closeAt hi hj] at ho
    by_cases e : j = i
    · subst e; simp [hio] at ho
    · exact ⟨⟨hj, by simpa [e] using ho⟩, e⟩
  · rintro ⟨⟨hj, ho⟩, e⟩
    exact ⟨hj, by rw [rdOpen_closeAt hi hj, ho]; simp [e]⟩

theorem Wf.openAt {rb : Ringbuffer} (h : Wf rb) {i : Nat} (hi : i < MAX_READERS) :
    Wf (openAt rb i) where
  pread_lt j hj := by
    show (if j = i then rb.pwrite else rb.pread j) < rb.size
    split
    · exact h.pwrite_lt
    · exact h.pread_lt j hj
  minPread_lt := h.minPread_lt
  pwrite_lt := h.pwrite_lt
  mask j hj := by
    simp only [Sighttpd.L2.openAt, BitVec.getLsbD_or, bit_getLsbD (lt_32 hi), h.mask j hj]
    simp; omega

theorem Wf.closeAt {rb : Ringbuffer} (h : Wf rb) {i : Nat} (hi : i < MAX_READERS) :
    Wf (closeAt rb i) where
  pread_lt := h.pread_lt
  minPread_lt := h.minPread_lt
  pwrite_lt := h.pwrite_lt
  mask j hj := by
    simp only [Sighttpd.L2.closeAt, BitVec.getLsbD_xor, bit_getLsbD (lt_32 hi), h.mask j hj]
    simp; omega

theorem lag_openAt_self (rb : Ringbuffer) (i : Nat) : lag (openAt rb i) i = 0 := by
  simp [lag, ringbufferAvail, openAt, setPread]

theorem unread_openAt_self (rb : Ringbuffer) (i : Nat) : unread (openAt rb i) i = [] := by
  unfold unread; rw [lag_openAt_self, window_zero]

theorem lag_openAt_other {rb : Ringbuffer} {i j : Nat} (hj : j ≠ i) :
    lag (openAt rb i) j = lag rb j := by
  simp [lag, ringbufferAvail, openAt, setPread, hj]

theorem unread_openAt_other {rb : Ringbuffer} {i j : Nat} (hj : j ≠ i) :
    unread (openAt rb i) j = unread rb j := by
  unfold unread
  rw [lag_openAt_other hj]
  show window rb.data rb.size (if j = i then _ else _) _ = _
  rw [if_neg hj]

theorem ringbufferClose_eq {rb : Ringbuffer} {i : Nat} (hi : i < MAX_READERS) :
    ringbufferClose rb i = ringbufferUpdateMin (closeAt rb i) := by
  unfold ringbufferClose
  rw [if_neg (by omega)]; rfl

/-! ## Writing -/

/-- `bs` put at the writer's position. -/
def pushed (rb : Ringbuffer) (bs : List UInt8) : Ringbuffer :=
  { rb with data := put rb.data rb.size rb.pwrite bs, pwrite := (rb.pwrite + bs.length) % rb.size }

theorem ringbufferWrite_eq {rb : Ringbuffer} (h : Wf rb) {bs : List UInt8} (hb : bs.length ≤ rb.size) :
    ringbufferWrite rb bs = pushed rb bs := by
  have hp := h.pwrite_lt
  unfold ringbufferWrite pushed
  by_cases hw : rb.pwrite + bs.length > rb.size
  · simp only [hw, if_true, show rb.size - rb.pwrite > 0 by omega, List.length_drop]
    rw [fill_fill_eq_put rb.data hp hb, Nat.zero_add,
      show bs.length - (rb.size - rb.pwrite) = rb.pwrite + bs.length - rb.size by omega]
    rw [← Nat.mod_eq_sub_mod (by omega)]
  · simp only [hw, if_false, gt_iff_lt, Nat.lt_irrefl, List.drop_zero]
    rw [fill_eq_put rb.data (show rb.pwrite + bs.length ≤ rb.size by omega)]

theorem Wf.pushed {rb : Ringbuffer} (h : Wf rb) (bs : List UInt8) : Wf (pushed rb bs) where
  pread_lt := h.pread_lt
  minPread_lt := h.minPread_lt
  pwrite_lt := by
    have := h.pwrite_lt
    exact Nat.mod_lt _ (by show 0 < rb.size; omega)
  mask := h.mask

theorem Wf.write {rb : Ringbuffer} (h : Wf rb) (buf : List UInt8) : Wf (ringbufferWrite rb buf) := by
  have hsize : 0 < rb.size := Nat.lt_of_le_of_lt (Nat.zero_le _) h.pwrite_lt
  unfold ringbufferWrite
  simp only
  generalize (if rb.pwrite + buf.length > rb.size then rb.size - rb.pwrite else 0) = n
  split
  · exact ⟨h.pread_lt, h.minPread_lt, Nat.mod_lt _ hsize, h.mask⟩
  · exact ⟨h.pread_lt, h.minPread_lt, Nat.mod_lt _ hsize, h.mask⟩

theorem readers_write (rb : Ringbuffer) (buf : List UInt8) :
    (ringbufferWrite rb buf).readers = rb.readers := by
  unfold ringbufferWrite
  simp only
  generalize (if rb.pwrite + buf.length > rb.size then rb.size - rb.pwrite else 0) = n
  split <;> rfl

theorem lag_pushed {rb : Ringbuffer} (h : Wf rb) {bs : List UInt8} {r : Nat} (hr : r < MAX_READERS)
    (hb : lag rb r + bs.length < rb.size) : lag (pushed rb bs) r = lag rb r + bs.length := by
  rw [h.lag_eq_gap hr] at hb
  rw [(h.pushed bs).lag_eq_gap hr, h.lag_eq_gap hr]
  exact gap_extend (h.pread_lt r hr) h.pwrite_lt hb

theorem minLag_pushed {rb : Ringbuffer} (h : Wf rb) {bs : List UInt8}
    (hb : minLag rb + bs.length < rb.size) : minLag (pushed rb bs) = minLag rb + bs.length :=
  gap_extend h.minPread_lt h.pwrite_lt hb

/-- A reader with room for `bs` sees it appended. -/
theorem unread_pushed {rb : Ringbuffer} (h : Wf rb) {bs : List UInt8} {r : Nat} (hr : r < MAX_READERS)
    (hb : lag rb r + bs.length < rb.size) : unread (pushed rb bs) r = unread rb r ++ bs := by
  have hp := h.pread_lt r hr
  unfold unread
  rw [lag_pushed h hr hb]
  have e : rb.pwrite = (rb.pread r + lag rb r) % rb.size := by
    rw [h.lag_eq_gap hr, add_gap hp h.pwrite_lt]
  show window (put rb.data rb.size rb.pwrite bs) rb.size (rb.pread r) _ = _
  rw [e]
  exact window_put rb.data hp (by omega)

@[simp] theorem size_write (rb : Ringbuffer) (buf : List UInt8) :
    (ringbufferWrite rb buf).size = rb.size := by
  unfold ringbufferWrite
  simp only
  generalize (if rb.pwrite + buf.length > rb.size then rb.size - rb.pwrite else 0) = n
  split <;> rfl

theorem unread_write {rb : Ringbuffer} (h : Wf rb) {bs : List UInt8} {r : Nat} (hr : r < MAX_READERS)
    (hb : lag rb r + bs.length < rb.size) :
    unread (ringbufferWrite rb bs) r = unread rb r ++ bs ∧ (ringbufferWrite rb bs).size = rb.size := by
  rw [ringbufferWrite_eq h (by omega)]
  exact ⟨unread_pushed h hr hb, rfl⟩

/-! ## Reading -/

theorem ringbufferRead_eq {rb : Ringbuffer} (h : Wf rb) {r len : Nat} (hr : r < MAX_READERS)
    (hl : len ≤ lag rb r) :
    ringbufferRead rb r len = (ringbufferUpdateMin (advance rb r len), (unread rb r).take len) := by
  have hp := h.pread_lt r hr
  have hlt := h.lag_lt hr
  unfold ringbufferRead unread
  rw [take_window _ hl]
  by_cases hw : rb.pread r + len > rb.size
  · simp only [hw, if_true, show rb.size - rb.pread r > 0 by omega, setPread_pread, Nat.zero_add]
    congr 1
    · congr 1
      unfold advance setPread
      have e : (rb.pread r + len) % rb.size = (len - (rb.size - rb.pread r)) % rb.size := by
        rw [Nat.mod_eq_sub_mod (by omega)]; congr 1; omega
      simp only [e]
      congr 1
      funext i
      split <;> rfl
    · exact slice_append_slice rb.data (by omega) (by omega) (by omega)
  · simp only [hw, if_false, gt_iff_lt, Nat.lt_irrefl, Nat.sub_zero]
    congr 1
    rw [slice_eq_window rb.data (show rb.pread r + len ≤ rb.size by omega)]
    simp [slice]

/-! ## Sending to a descriptor -/

/-- How much `ringbuffer_writefd` asks for first when the unread bytes pass the
end of the storage. -/
def writefdSplit (rb : Ringbuffer) (r : Nat) : Nat :=
  if rb.pread r + lag rb r > rb.size then rb.size - rb.pread r else 0

/-- The bytes the `write(2)` calls take, and whether the last call made
succeeds. -/
def writefdTaken (rb : Ringbuffer) (r : Nat) (w₁ w₂ : Option Nat) : Nat × Bool :=
  let split := writefdSplit rb r
  let second (n₁ : Nat) : Nat × Bool :=
    match writeResult w₂ (lag rb r - n₁) with
    | none => (n₁, false)
    | some n₂ => (n₁ + n₂, true)
  if split = 0 then second 0
  else
    match writeResult w₁ split with
    | none => (0, false)
    | some n₁ => if n₁ = split then second n₁ else (n₁, true)

theorem writeResult_le {w : Option Nat} {count n : Nat} (h : writeResult w count = some n) :
    n ≤ count := by
  cases w with
  | none => cases h
  | some m => simp only [writeResult, Option.map_some, Option.some.injEq] at h; omega

theorem writefdSplit_lt {rb : Ringbuffer} (h : Wf rb) {r : Nat} (hr : r < MAX_READERS) :
    writefdSplit rb r = 0 ∨ writefdSplit rb r < lag rb r := by
  have := h.lag_lt hr
  unfold writefdSplit
  split <;> omega

theorem writefdTaken_le {rb : Ringbuffer} (h : Wf rb) {r : Nat} (hr : r < MAX_READERS)
    (w₁ w₂ : Option Nat) : (writefdTaken rb r w₁ w₂).1 ≤ lag rb r := by
  have hs := writefdSplit_lt h hr
  unfold writefdTaken
  simp only
  split
  · split
    · simp
    · next n hn => have := writeResult_le hn; simp only; omega
  · split
    · simp
    · next n hn =>
      have := writeResult_le hn
      split
      · split
        · simp only; omega
        · next m hm => have := writeResult_le hm; simp only; omega
      · simp only; omega

/-- A failing transfer leaves something unread. -/
theorem writefdTaken_lt {rb : Ringbuffer} (h : Wf rb) {r : Nat} (hr : r < MAX_READERS)
    {w₁ w₂ : Option Nat} (hl : lag rb r ≠ 0) (hf : (writefdTaken rb r w₁ w₂).2 = false) :
    (writefdTaken rb r w₁ w₂).1 < lag rb r := by
  have hs := writefdSplit_lt h hr
  unfold writefdTaken at hf ⊢
  simp only at hf ⊢
  split at hf
  · next h0 =>
    rw [if_pos h0]
    split at hf
    · simp only; omega
    · cases hf
  · next h0 =>
    rw [if_neg h0]
    split at hf
    · simp only; omega
    · next n hn =>
      have := writeResult_le hn
      split at hf
      · next hns =>
        rw [if_pos hns]
        split at hf
        · simp only; omega
        · cases hf
      · cases hf

theorem writefdCall_eq {rb : Ringbuffer} (h : Wf rb) {r count : Nat} (hr : r < MAX_READERS)
    (hc : rb.pread r + count ≤ rb.size) (hl : count ≤ lag rb r) (w : Option Nat) :
    writefdCall rb r count w =
      (writeResult w count).map fun n => (advance rb r n, (unread rb r).take n) := by
  unfold writefdCall
  cases w with
  | none => rfl
  | some m =>
    have hm : min m count ≤ count := Nat.min_le_right _ _
    simp only [writeResult, Option.map_some, Option.some.injEq, Prod.mk.injEq]
    refine ⟨?_, ?_⟩
    · split
      · rfl
      · rw [show min m count = 0 by omega, advance_zero (h.pread_lt r hr)]
    · unfold unread
      rw [take_window _ (by omega),
        slice_eq_window rb.data (show rb.pread r + min m count ≤ rb.size by omega)]

theorem advance_advance {rb : Ringbuffer} (r a b : Nat) :
    advance (advance rb r a) r b = advance rb r (a + b) := by
  unfold advance setPread
  simp only [if_true, Nat.mod_add_mod, Nat.add_assoc]
  congr 1
  funext i
  split <;> rfl

theorem ringbufferWritefd_zero {rb : Ringbuffer} {r : Nat} (h0 : lag rb r = 0)
    (w₁ w₂ : Option Nat) : ringbufferWritefd rb r w₁ w₂ = (rb, [], 0) := by
  unfold ringbufferWritefd
  rw [show (ringbufferAvail rb r).toNat = lag rb r from rfl]
  simp [h0]

/-- **The transfer.** The first `k` unread bytes are sent and the reader moves
by `k`; the refresh runs unless a call failed. -/
theorem ringbufferWritefd_eq {rb : Ringbuffer} (h : Wf rb) {r : Nat} (hr : r < MAX_READERS)
    (h0 : lag rb r ≠ 0) (w₁ w₂ : Option Nat) :
    ringbufferWritefd rb r w₁ w₂ =
      let (k, ok) := writefdTaken rb r w₁ w₂
      (if ok then ringbufferUpdateMin (advance rb r k) else advance rb r k,
        (unread rb r).take k, if ok then (k : Int) else -1) := by
  have hp := h.pread_lt r hr
  have hlt := h.lag_lt hr
  have hsplit := writefdSplit_lt h hr
  have hlen : ∀ n, n ≤ lag rb r → ((unread rb r).take n).length = n := fun n hn => by simp [hn]
  unfold ringbufferWritefd writefdTaken
  rw [show (ringbufferAvail rb r).toNat = lag rb r from rfl]
  simp only [h0, if_false]
  have e : (if rb.pread r + lag rb r > rb.size then rb.size - rb.pread r else 0) =
      writefdSplit rb r := rfl
  rw [e]
  by_cases hs : writefdSplit rb r = 0
  · have hfit : rb.pread r + lag rb r ≤ rb.size := by
      unfold writefdSplit at hs; split at hs <;> omega
    simp only [hs, gt_iff_lt, Nat.lt_irrefl, if_false, List.length_nil, true_or, if_true, Nat.sub_zero]
    rw [writefdCall_eq h hr hfit (Nat.le_refl _)]
    cases hw : writeResult w₂ (lag rb r) with
    | none => simp [advance_zero hp]
    | some n => have := writeResult_le hw; simp [this]
  · have hwrap : writefdSplit rb r = rb.size - rb.pread r := by
      unfold writefdSplit at hs ⊢
      split
      · rfl
      · next hfit => rw [if_neg hfit] at hs; omega
    rw [if_pos (Nat.pos_of_ne_zero hs), if_neg hs,
      writefdCall_eq h hr (by omega) (by omega)]
    cases hw : writeResult w₁ (writefdSplit rb r) with
    | none => simp [advance_zero hp]
    | some n =>
      have hn := writeResult_le hw
      simp only [Option.map_some, hlen n (by omega), hs, false_or]
      by_cases hns : n = writefdSplit rb r
      · have hle : n ≤ lag rb r := by omega
        have hpos : (advance rb r n).pread r = 0 := by
          simp only [advance, setPread_pread, if_true]
          rw [hns, hwrap, show rb.pread r + (rb.size - rb.pread r) = rb.size by omega, Nat.mod_self]
        have hlag := lag_advance_self h hr hle
        rw [if_pos hns, if_pos hns, writefdCall_eq (h.advance r n) hr
          (by rw [hpos]; show 0 + _ ≤ rb.size; omega) (by omega)]
        cases hw₂ : writeResult w₂ (lag rb r - n) with
        | none => simp
        | some m =>
          have hm := writeResult_le hw₂
          simp only [Option.map_some, advance_advance, unread_advance_self h hr hle, if_true]
          rw [← List.take_add]
          simp
          omega
      · simp only [hns, if_false]
        simp

end Sighttpd.L2
