import Mathlib.Data.List.Basic
import Sighttpd.Core.Circular

/-!
# The ring buffer (`src/ringbuffer.c`)

One writer position, sixteen reader positions, a bitmask of the open readers
and a cached position `min_pread` from which `ringbuffer_free` computes the
free space. Positions and sizes are `ssize_t` in the source and never negative
here, so they are `Nat`; `ringbuffer_avail` and `ringbuffer_free` subtract
before they correct the sign, so they are `Int`. The storage is a function on
addresses: an access outside `[0, size)` would show as a read or a write there.

A `write(2)` call is its result: `none` for -1, otherwise a count that the
kernel cuts to the length of the request (`writeResult`).

* `ringbufferUpdateMin_eq`: the refresh stores the position of the
  highest-numbered open reader, whatever the positions of the others.
* `Wf.avail_eq`, `Wf.free_eq`: what can be read and written, as distances around the
  storage.
-/
namespace Sighttpd.L2
open Circular

def MAX_READERS : Nat := 16

/-- mirrors src/ringbuffer.h:37-49 (the mutex is left out: each call below is
one atomic step) -/
structure Ringbuffer where
  pread : Nat → Nat
  minPread : Nat
  pwrite : Nat
  data : Nat → UInt8
  size : Nat
  readers : BitVec 32

/-- mirrors src/ringbuffer.c:32 -/
def rdOpen (rb : Ringbuffer) (rd : Nat) : Bool := (rb.readers &&& (1#32 <<< rd)) != 0#32

/-- mirrors src/ringbuffer.c:34-42 -/
def ringbufferAvail (rb : Ringbuffer) (readd : Nat) : Int :=
  let avail : Int := (rb.pwrite : Int) - rb.pread readd
  if avail < 0 then avail + rb.size else avail

/-- The loop of `ringbuffer_update_min`: `min_avail` is compared with but never
assigned. `none` is the uninitialised `min_pread`.
mirrors src/ringbuffer.c:53-60 -/
def updateMinLoop (rb : Ringbuffer) : List Nat → Int → Option Nat → Option Nat
  | [], _, minPread => minPread
  | i :: is, minAvail, minPread =>
    if rdOpen rb i then
      let avail := ringbufferAvail rb i
      if avail > minAvail then updateMinLoop rb is minAvail (some (rb.pread i))
      else updateMinLoop rb is minAvail minPread
    else updateMinLoop rb is minAvail minPread

/-- mirrors src/ringbuffer.c:44-63 -/
def ringbufferUpdateMin (rb : Ringbuffer) : Ringbuffer :=
  if rb.readers = 0 then rb
  else { rb with minPread := (updateMinLoop rb (List.range MAX_READERS) (-1) none).getD rb.minPread }

/-- mirrors src/ringbuffer.c:65-77 -/
def ringbufferReset (rb : Ringbuffer) : Ringbuffer :=
  { rb with pread := fun i => if i < MAX_READERS then 0 else rb.pread i, pwrite := 0, minPread := 0 }

/-- `ringbuffer_init` on the uninitialised structure `rb`; `data` is what the
storage held before the `memset`.
mirrors src/ringbuffer.c:79-96 -/
def ringbufferInit (rb : Ringbuffer) (data : Nat → UInt8) (len : Nat) : Ringbuffer :=
  ringbufferReset { rb with
    data := fun i => if i < len then 0 else data i, readers := 0, size := len }

def setPread (rb : Ringbuffer) (readd v : Nat) : Ringbuffer :=
  { rb with pread := fun i => if i = readd then v else rb.pread i }

/-- The descriptor is `none` where the source returns -1.
mirrors src/ringbuffer.c:98-114 -/
def ringbufferOpen (rb : Ringbuffer) : Ringbuffer × Option Nat :=
  match (List.range MAX_READERS).find? fun i => (rb.readers &&& (1#32 <<< i)) == 0#32 with
  | some i => ({ setPread rb i rb.pwrite with readers := rb.readers ||| (1#32 <<< i) }, some i)
  | none => (rb, none)

/-- mirrors src/ringbuffer.c:116-126 -/
def ringbufferClose (rb : Ringbuffer) (readd : Nat) : Ringbuffer :=
  if readd ≥ MAX_READERS then rb
  else ringbufferUpdateMin { rb with readers := rb.readers ^^^ (1#32 <<< readd) }

/-- mirrors src/ringbuffer.c:135-147 -/
def ringbufferFree (rb : Ringbuffer) : Int :=
  let free : Int :=
    if rb.readers = 0 then rb.size
    else
      let free : Int := (rb.minPread : Int) - rb.pwrite
      if free ≤ 0 then free + rb.size else free
  free - 1

/-- What `write(2)` returns for a request of `count` bytes. -/
def writeResult (w : Option Nat) (count : Nat) : Option Nat := w.map (min · count)

/-- One `write(fd, data + pread, count)` with the move of `pread` that follows
it; the second component is what reached the descriptor.
mirrors src/ringbuffer.c:170-179 and 183-189 -/
def writefdCall (rb : Ringbuffer) (readd count : Nat) (w : Option Nat) :
    Option (Ringbuffer × List UInt8) :=
  (writeResult w count).map fun n =>
    (if n > 0 then setPread rb readd ((rb.pread readd + n) % rb.size) else rb,
      slice rb.data (rb.pread readd) n)

/-- `w₁` and `w₂` are the results of the two `write(2)` calls; returns the new
buffer, the bytes sent and the return value.
mirrors src/ringbuffer.c:155-192 -/
def ringbufferWritefd (rb : Ringbuffer) (readd : Nat) (w₁ w₂ : Option Nat) :
    Ringbuffer × List UInt8 × Int :=
  let len := (ringbufferAvail rb readd).toNat
  if len = 0 then (rb, [], 0)
  else
    let split := if rb.pread readd + len > rb.size then rb.size - rb.pread readd else 0
    match if split > 0 then writefdCall rb readd split w₁ else some (rb, []) with
    | none => (rb, [], -1)
    | some (rb₁, sent₁) =>
      if split = 0 ∨ sent₁.length = split then
        match writefdCall rb₁ readd (len - sent₁.length) w₂ with
        | none => (rb₁, sent₁, -1)
        | some (rb₂, sent₂) =>
          (ringbufferUpdateMin rb₂, sent₁ ++ sent₂, sent₁.length + sent₂.length)
      else (ringbufferUpdateMin rb₁, sent₁, sent₁.length)

/-- The second component is the caller's `buf`.
mirrors src/ringbuffer.c:226-248 -/
def ringbufferRead (rb : Ringbuffer) (readd len : Nat) : Ringbuffer × List UInt8 :=
  let split := if rb.pread readd + len > rb.size then rb.size - rb.pread readd else 0
  let rb₁ := if split > 0 then setPread rb readd 0 else rb
  let head := slice rb.data (rb.pread readd) split
  let todo := len - split
  let tail := slice rb₁.data (rb₁.pread readd) todo
  (ringbufferUpdateMin (setPread rb₁ readd ((rb₁.pread readd + todo) % rb.size)), head ++ tail)

/-- mirrors src/ringbuffer.c:250-270 -/
def ringbufferWrite (rb : Ringbuffer) (buf : List UInt8) : Ringbuffer :=
  let split := if rb.pwrite + buf.length > rb.size then rb.size - rb.pwrite else 0
  let rb₁ :=
    if split > 0 then { rb with data := fill rb.data rb.pwrite (buf.take split), pwrite := 0 } else rb
  let rest := buf.drop split
  { rb₁ with
    data := fill rb₁.data rb₁.pwrite rest, pwrite := (rb₁.pwrite + rest.length) % rb₁.size }

/-! ## The readers mask -/

theorem and_bit_eq_zero (m : BitVec 32) {i : Nat} (hi : i < 32) :
    (m &&& (1#32 <<< i)) = 0#32 ↔ m.getLsbD i = false := by
  constructor
  · intro h
    have := congrArg (fun v => v.getLsbD i) h
    simpa [hi] using this
  · intro h
    apply BitVec.eq_of_getLsbD_eq
    intro j hj
    simp only [BitVec.getLsbD_and, BitVec.getLsbD_shiftLeft, hj, BitVec.getLsbD_one,
      BitVec.getLsbD_zero]
    by_cases hij : j = i
    · subst hij; simp [h]
    · by_cases hlt : j < i
      · simp [hlt]
      · simp [hlt]; omega

theorem bit_getLsbD {i j : Nat} (hi : i < 32) : (1#32 <<< i).getLsbD j = decide (j = i) := by
  simp only [BitVec.getLsbD_shiftLeft, BitVec.getLsbD_one]
  by_cases hij : j = i
  · subst hij; simp [hi]
  · simp only [hij, decide_false]
    by_cases hlt : j < i
    · simp [hlt]
    · have : j - i ≠ 0 := by omega
      simp [this]

theorem lt_32 {i : Nat} (hi : i < MAX_READERS) : i < 32 := by
  simp only [MAX_READERS] at hi; omega

/-- `r` is the descriptor of an open reader. -/
def IsOpen (rb : Ringbuffer) (r : Nat) : Prop := r < MAX_READERS ∧ rdOpen rb r = true

instance (rb : Ringbuffer) (r : Nat) : Decidable (IsOpen rb r) :=
  inferInstanceAs (Decidable (_ ∧ _))

theorem rdOpen_eq {rb : Ringbuffer} {i : Nat} (hi : i < MAX_READERS) :
    rdOpen rb i = rb.readers.getLsbD i := by
  unfold rdOpen
  rw [Bool.eq_iff_iff, bne_iff_ne, ne_eq, and_bit_eq_zero _ (lt_32 hi)]
  simp

/-- The positions are inside the storage and the mask names no other reader
than 0..15. -/
structure Wf (rb : Ringbuffer) : Prop where
  pread_lt : ∀ r, r < MAX_READERS → rb.pread r < rb.size
  minPread_lt : rb.minPread < rb.size
  pwrite_lt : rb.pwrite < rb.size
  mask : ∀ i, MAX_READERS ≤ i → rb.readers.getLsbD i = false

theorem Wf.readers_eq_zero {rb : Ringbuffer} (h : Wf rb) :
    rb.readers = 0 ↔ ∀ i, i < MAX_READERS → rdOpen rb i = false := by
  constructor
  · intro h0 i hi; rw [rdOpen_eq hi, h0]; simp
  · intro hc
    apply BitVec.eq_of_getLsbD_eq
    intro i _
    by_cases hi : i < MAX_READERS
    · rw [← rdOpen_eq hi, hc i hi]; simp
    · rw [h.mask i (by omega)]; simp

theorem Wf.readers_ne_zero {rb : Ringbuffer} (h : Wf rb) : rb.readers ≠ 0 ↔ ∃ i, IsOpen rb i := by
  rw [ne_eq, h.readers_eq_zero]
  simp only [IsOpen, not_forall, Bool.not_eq_false, exists_prop]

/-! ## Lags -/

/-- How far reader `r` is behind the writer. -/
def lag (rb : Ringbuffer) (r : Nat) : Nat := (ringbufferAvail rb r).toNat

/-- How far the cached position is behind the writer. -/
def minLag (rb : Ringbuffer) : Nat := gap rb.size rb.minPread rb.pwrite

def unread (rb : Ringbuffer) (r : Nat) : List UInt8 :=
  window rb.data rb.size (rb.pread r) (lag rb r)

theorem avail_eq_gap {rb : Ringbuffer} {r : Nat} (hp : rb.pread r < rb.size) :
    ringbufferAvail rb r = gap rb.size (rb.pread r) rb.pwrite := by
  unfold ringbufferAvail gap
  simp only
  split <;> split <;> omega

theorem Wf.lag_eq_gap {rb : Ringbuffer} (h : Wf rb) {r : Nat} (hr : r < MAX_READERS) :
    lag rb r = gap rb.size (rb.pread r) rb.pwrite := by
  unfold lag
  rw [avail_eq_gap (h.pread_lt r hr)]; rfl

theorem Wf.avail_eq {rb : Ringbuffer} (h : Wf rb) {r : Nat} (hr : r < MAX_READERS) :
    ringbufferAvail rb r = lag rb r := by
  rw [h.lag_eq_gap hr, avail_eq_gap (h.pread_lt r hr)]

theorem Wf.lag_lt {rb : Ringbuffer} (h : Wf rb) {r : Nat} (hr : r < MAX_READERS) :
    lag rb r < rb.size := by
  rw [h.lag_eq_gap hr]; exact gap_lt (h.pread_lt r hr) h.pwrite_lt

theorem Wf.minLag_lt {rb : Ringbuffer} (h : Wf rb) : minLag rb < rb.size :=
  gap_lt h.minPread_lt h.pwrite_lt

theorem free_of_closed {rb : Ringbuffer} (h0 : rb.readers = 0) :
    ringbufferFree rb = (rb.size : Int) - 1 := by
  unfold ringbufferFree; simp [h0]

theorem Wf.free_eq {rb : Ringbuffer} (h : Wf rb) (h0 : rb.readers ≠ 0) :
    ringbufferFree rb = (rb.size : Int) - 1 - minLag rb := by
  have := h.minPread_lt
  unfold ringbufferFree minLag gap
  simp only [h0, if_false]
  split <;> split <;> omega

theorem Wf.free_lt {rb : Ringbuffer} (h : Wf rb) : ringbufferFree rb < rb.size := by
  by_cases h0 : rb.readers = 0
  · rw [free_of_closed h0]; omega
  · rw [h.free_eq h0]; omega

@[simp] theorem unread_length (rb : Ringbuffer) (r : Nat) : (unread rb r).length = lag rb r := by
  simp [unread]

/-! ## Moving one reader -/

theorem setPread_pread (rb : Ringbuffer) (r v i : Nat) :
    (setPread rb r v).pread i = if i = r then v else rb.pread i := rfl

/-- Reader `r` moves `k` bytes on. -/
def advance (rb : Ringbuffer) (r k : Nat) : Ringbuffer :=
  setPread rb r ((rb.pread r + k) % rb.size)

theorem advance_zero {rb : Ringbuffer} {r : Nat} (h : rb.pread r < rb.size) : advance rb r 0 = rb := by
  unfold advance setPread
  have e : (fun i => if i = r then (rb.pread r + 0) % rb.size else rb.pread i) = rb.pread := by
    funext i
    split
    · subst i; rw [Nat.add_zero, Nat.mod_eq_of_lt h]
    · rfl
  rw [e]

theorem Wf.advance {rb : Ringbuffer} (h : Wf rb) (r k : Nat) : Wf (advance rb r k) where
  pread_lt i hi := by
    have := h.pwrite_lt
    show (if i = r then (rb.pread r + k) % rb.size else rb.pread i) < rb.size
    split
    · exact Nat.mod_lt _ (by omega)
    · exact h.pread_lt i hi
  minPread_lt := h.minPread_lt
  pwrite_lt := h.pwrite_lt
  mask := h.mask

theorem lag_advance_self {rb : Ringbuffer} (h : Wf rb) {r k : Nat} (hr : r < MAX_READERS)
    (hk : k ≤ lag rb r) : lag (advance rb r k) r = lag rb r - k := by
  rw [h.lag_eq_gap hr] at hk
  rw [(h.advance r k).lag_eq_gap hr, h.lag_eq_gap hr]
  show gap rb.size (if r = r then _ else _) rb.pwrite = _
  rw [if_pos rfl]
  exact gap_advance (h.pread_lt r hr) h.pwrite_lt hk

theorem lag_advance_other {rb : Ringbuffer} {r i k : Nat} (hi : i ≠ r) :
    lag (advance rb r k) i = lag rb i := by
  simp [lag, ringbufferAvail, advance, setPread, hi]

theorem unread_advance_self {rb : Ringbuffer} (h : Wf rb) {r k : Nat} (hr : r < MAX_READERS)
    (hk : k ≤ lag rb r) : unread (advance rb r k) r = (unread rb r).drop k := by
  unfold unread
  rw [lag_advance_self h hr hk, drop_window _ hk]
  show window rb.data rb.size (if r = r then _ else _) _ = _
  rw [if_pos rfl]

theorem unread_advance_other {rb : Ringbuffer} {r i k : Nat} (hi : i ≠ r) :
    unread (advance rb r k) i = unread rb i := by
  unfold unread
  rw [lag_advance_other hi]
  show window rb.data rb.size (if i = r then _ else _) _ = _
  rw [if_neg hi]

/-! ## The refresh of `min_pread` -/

def setMinPread (rb : Ringbuffer) (m : Nat) : Ringbuffer := { rb with minPread := m }

/-- The highest-numbered open reader. -/
def lastReader (rb : Ringbuffer) : Option Nat :=
  ((List.range MAX_READERS).filter (rdOpen rb)).getLast?

theorem lastReader_eq_some {rb : Ringbuffer} {h : Nat} :
    lastReader rb = some h ↔ IsOpen rb h ∧ ∀ i, IsOpen rb i → i ≤ h := by
  have hs : ((List.range MAX_READERS).filter (rdOpen rb)).Pairwise (· < ·) :=
    List.pairwise_lt_range.filter _
  have hm : ∀ i, i ∈ (List.range MAX_READERS).filter (rdOpen rb) ↔ IsOpen rb i := by simp [IsOpen]
  unfold lastReader
  constructor
  · intro hl
    refine ⟨(hm h).mp (List.mem_of_getLast? hl), fun i hi => ?_⟩
    obtain ⟨front, e⟩ := List.getLast?_eq_some_iff.mp hl
    rw [← hm, e] at hi
    rw [e] at hs
    rcases List.mem_append.mp hi with hi | hi
    · exact Nat.le_of_lt ((List.pairwise_append.mp hs).2.2 i hi h List.mem_cons_self)
    · exact Nat.le_of_eq (List.mem_singleton.mp hi)
  · intro hall
    obtain ⟨ho, hmax⟩ := hall
    have hmem := (hm h).mpr ho
    generalize (List.range MAX_READERS).filter (rdOpen rb) = l at *
    obtain ⟨front, last, e⟩ := List.eq_nil_or_concat l |>.resolve_left (List.ne_nil_of_mem hmem)
    rw [List.concat_eq_append] at e
    subst e
    have h1 := hmax last ((hm last).mp (by simp))
    rcases List.mem_append.mp hmem with hf | hf
    · have := (List.pairwise_append.mp hs).2.2 h hf last List.mem_cons_self
      omega
    · rw [List.mem_singleton.mp hf]; simp

theorem lastReader_spec {rb : Ringbuffer} {h : Nat} (hl : lastReader rb = some h) :
    h < MAX_READERS ∧ rdOpen rb h = true := (lastReader_eq_some.mp hl).1

theorem lastReader_of_open {rb : Ringbuffer} {i : Nat} (ho : IsOpen rb i) :
    ∃ h, lastReader rb = some h := by
  have hm : i ∈ (List.range MAX_READERS).filter (rdOpen rb) := by simpa [IsOpen] using ho
  cases e : lastReader rb with
  | some h => exact ⟨h, rfl⟩
  | none =>
    unfold lastReader at e
    rw [List.getLast?_eq_none_iff] at e
    rw [e] at hm; cases hm

/-- `min_avail` stays -1, so every open reader overwrites the one before. -/
theorem updateMinLoop_eq {rb : Ringbuffer} (h : Wf rb) :
    ∀ (is : List Nat) (m : Option Nat), (∀ i ∈ is, i < MAX_READERS) →
      updateMinLoop rb is (-1) m = (((is.filter (rdOpen rb)).getLast?).map rb.pread).or m
  | [], m, _ => by simp [updateMinLoop]
  | i :: is, m, hm => by
    have ih := fun m' => updateMinLoop_eq h is m' fun j hj => hm j (List.mem_cons_of_mem i hj)
    unfold updateMinLoop
    by_cases ho : rdOpen rb i = true
    · have hav : ringbufferAvail rb i > -1 := by
        rw [h.avail_eq (hm i List.mem_cons_self)]; omega
      simp only [ho, if_true, hav, List.filter_cons_of_pos, List.getLast?_cons]
      rw [ih]
      cases (is.filter (rdOpen rb)).getLast? <;> simp
    · simp only [ho, Bool.false_eq_true, if_false, not_false_eq_true, List.filter_cons_of_neg]
      exact ih m

/-- **The refresh.** With a reader open, `min_pread` becomes the position of
the highest-numbered open reader; nothing else changes. -/
theorem ringbufferUpdateMin_eq {rb : Ringbuffer} (h : Wf rb) :
    ringbufferUpdateMin rb =
      match lastReader rb with
      | some l => setMinPread rb (rb.pread l)
      | none => rb := by
  unfold ringbufferUpdateMin
  rw [updateMinLoop_eq h _ _ (by simp)]
  by_cases h0 : rb.readers = 0
  · have hc := h.readers_eq_zero.mp h0
    cases e : lastReader rb with
    | none => simp [h0]
    | some l =>
      obtain ⟨hl, ho⟩ := lastReader_spec e
      rw [hc l hl] at ho; cases ho
  · obtain ⟨i, ho⟩ := h.readers_ne_zero.mp h0
    obtain ⟨l, hl⟩ := lastReader_of_open ho
    rw [if_neg h0]
    unfold lastReader at hl ⊢
    simp [hl, setMinPread]

theorem Wf.setMinPread {rb : Ringbuffer} (h : Wf rb) {m : Nat} (hm : m < rb.size) :
    Wf (setMinPread rb m) where
  pread_lt := h.pread_lt
  minPread_lt := hm
  pwrite_lt := h.pwrite_lt
  mask := h.mask

theorem Wf.updateMin {rb : Ringbuffer} (h : Wf rb) : Wf (ringbufferUpdateMin rb) := by
  rw [ringbufferUpdateMin_eq h]
  split
  · next l hl => exact h.setMinPread (h.pread_lt l (lastReader_spec hl).1)
  · exact h

/-- The refresh touches `min_pread` only. -/
theorem updateMin_frame {rb : Ringbuffer} (h : Wf rb) :
    ∃ m, ringbufferUpdateMin rb = setMinPread rb m := by
  rw [ringbufferUpdateMin_eq h]
  split
  · exact ⟨_, rfl⟩
  · exact ⟨rb.minPread, rfl⟩

theorem rdOpen_updateMin {rb : Ringbuffer} (h : Wf rb) (r : Nat) :
    rdOpen (ringbufferUpdateMin rb) r = rdOpen rb r := by
  obtain ⟨m, e⟩ := updateMin_frame h; rw [e]; rfl

theorem isOpen_updateMin {rb : Ringbuffer} (h : Wf rb) {r : Nat} :
    IsOpen (ringbufferUpdateMin rb) r ↔ IsOpen rb r := by
  unfold IsOpen; rw [rdOpen_updateMin h]

theorem lag_updateMin {rb : Ringbuffer} (h : Wf rb) (r : Nat) :
    lag (ringbufferUpdateMin rb) r = lag rb r := by
  obtain ⟨m, e⟩ := updateMin_frame h; rw [e]; rfl

theorem unread_updateMin {rb : Ringbuffer} (h : Wf rb) (r : Nat) :
    unread (ringbufferUpdateMin rb) r = unread rb r := by
  obtain ⟨m, e⟩ := updateMin_frame h; rw [e]; rfl

theorem minLag_updateMin {rb : Ringbuffer} (h : Wf rb) {l : Nat} (hl : lastReader rb = some l) :
    minLag (ringbufferUpdateMin rb) = lag rb l := by
  rw [ringbufferUpdateMin_eq h, hl, h.lag_eq_gap (lastReader_spec hl).1]; rfl

end Sighttpd.L2
