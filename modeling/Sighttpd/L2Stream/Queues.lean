import Sighttpd.L2Stream.RingbufferOps

/-!
# The ring buffer as one FIFO queue per reader

`Queues` is what the component is for: every open reader has a queue of its own,
a write appends to all of them, a transfer takes from the front of one. `view`
reads a ring buffer that way. `StaysInside` is the memory side: an operation
neither changes a cell outside `[0, size)` nor depends on one.

* `view_write`, `view_read`, `view_writefd`: the three operations of
  `src/ringbuffer.c` that move bytes are the operations on queues.
* `refines_queues`: all of it, for every buffer with its positions inside the
  storage, wherever the split at the end falls and whatever `write(2)` returns.
-/
namespace Sighttpd.L2
open Circular

/-- The queue of each reader; `none` when it is not open. -/
abbrev Queues := Nat → Option (List UInt8)

def Queues.push (q : Queues) (bs : List UInt8) : Queues := fun r => (q r).map (· ++ bs)

def Queues.front (q : Queues) (r k : Nat) : List UInt8 := ((q r).getD []).take k

def Queues.pop (q : Queues) (r k : Nat) : Queues := fun j =>
  if j = r then (q j).map (List.drop k) else q j

def view (rb : Ringbuffer) : Queues := fun r => if IsOpen rb r then some (unread rb r) else none

def withData (rb : Ringbuffer) (data : Nat → UInt8) : Ringbuffer := { rb with data := data }

/-- `f` changes no cell outside the storage, and on a buffer that differs only there
it does the same. -/
structure StaysInside {β : Type} (f : Ringbuffer → Ringbuffer × β) (rb : Ringbuffer) : Prop where
  writes : ∀ i, rb.size ≤ i → (f rb).1.data i = rb.data i
  reads : ∀ data, (∀ i, i < rb.size → data i = rb.data i) →
    (f (withData rb data)).2 = (f rb).2 ∧
      ∃ data', (f (withData rb data)).1 = withData (f rb).1 data' ∧
        ∀ i, i < rb.size → data' i = (f rb).1.data i

/-! ## Buffers that differ outside the storage -/

section WithData
variable {rb : Ringbuffer} {data : Nat → UInt8}

theorem Wf.withData (h : Wf rb) (data : Nat → UInt8) : Wf (withData rb data) :=
  ⟨h.pread_lt, h.minPread_lt, h.pwrite_lt, h.mask⟩

theorem unread_withData (h : Wf rb) (hd : ∀ i, i < rb.size → data i = rb.data i) (r : Nat) :
    unread (withData rb data) r = unread rb r := by
  have hsize : 0 < rb.size := Nat.lt_of_le_of_lt (Nat.zero_le _) h.pwrite_lt
  unfold unread window
  apply List.map_congr_left
  intro k _
  exact hd _ (Nat.mod_lt _ hsize)

theorem updateMin_withData (h : Wf rb) (data : Nat → UInt8) :
    ringbufferUpdateMin (withData rb data) = withData (ringbufferUpdateMin rb) data := by
  have hl : lastReader (withData rb data) = lastReader rb := rfl
  rw [ringbufferUpdateMin_eq h, ringbufferUpdateMin_eq (h.withData data), hl]
  cases lastReader rb <;> rfl

theorem data_updateMin (h : Wf rb) : (ringbufferUpdateMin rb).data = rb.data := by
  obtain ⟨m, e⟩ := updateMin_frame h
  rw [e]; rfl

theorem pread_updateMin (h : Wf rb) : (ringbufferUpdateMin rb).pread = rb.pread := by
  obtain ⟨m, e⟩ := updateMin_frame h
  rw [e]; rfl

end WithData

/-- A reader taking bytes from the front of its queue, with or without a refresh of
`min_pread` behind it; both `ringbuffer_read` and `ringbuffer_writefd` are this. -/
def takeFront (rb : Ringbuffer) (r k : Nat) (refresh : Bool) : Ringbuffer :=
  if refresh then ringbufferUpdateMin (advance rb r k) else advance rb r k

section TakeFront
variable {rb : Ringbuffer} (h : Wf rb) {r k : Nat} (refresh : Bool)
include h

theorem Wf.takeFront : Wf (takeFront rb r k refresh) := by
  cases refresh with
  | true => exact (h.advance r k).updateMin
  | false => exact h.advance r k

theorem data_takeFront : (takeFront rb r k refresh).data = rb.data := by
  cases refresh with
  | true => exact data_updateMin (h.advance r k)
  | false => rfl

theorem pread_takeFront : (takeFront rb r k refresh).pread r = (rb.pread r + k) % rb.size := by
  have e : (advance rb r k).pread r = (rb.pread r + k) % rb.size := if_pos rfl
  cases refresh with
  | true => exact (congrFun (pread_updateMin (h.advance r k)) r).trans e
  | false => exact e

theorem view_takeFront (hr : r < MAX_READERS) (hk : k ≤ lag rb r) :
    view (takeFront rb r k refresh) = (view rb).pop r k := by
  have hview : view (takeFront rb r k refresh) = view (advance rb r k) := by
    cases refresh with
    | true =>
      funext j
      unfold view takeFront
      simp only [if_true, isOpen_updateMin (h.advance r k), unread_updateMin (h.advance r k)]
    | false => rfl
  rw [hview]
  funext j
  have hopen : IsOpen (advance rb r k) j ↔ IsOpen rb j := Iff.rfl
  unfold Queues.pop view
  simp only [hopen]
  by_cases e : j = r
  · subst e
    rw [if_pos rfl, unread_advance_self h hr hk]
    split <;> rfl
  · rw [if_neg e, unread_advance_other e]

theorem takeFront_withData (data : Nat → UInt8) :
    takeFront (withData rb data) r k refresh = withData (takeFront rb r k refresh) data := by
  cases refresh with
  | true => exact updateMin_withData (h.advance r k) data
  | false => rfl

end TakeFront

theorem view_front {rb : Ringbuffer} {r : Nat} (ho : IsOpen rb r) (k : Nat) :
    (view rb).front r k = (unread rb r).take k := by
  unfold Queues.front view
  rw [if_pos ho]; rfl

/-! ## The three operations -/

section Operations
variable {rb : Ringbuffer} (h : Wf rb)
include h

/-- **Write.** Every open reader with room for `buf` finds it behind its queue. -/
theorem view_write {buf : List UInt8} (hb : buf.length < rb.size)
    (hroom : ∀ r, IsOpen rb r → ringbufferAvail rb r + buf.length < rb.size) :
    view (ringbufferWrite rb buf) = (view rb).push buf ∧ Wf (ringbufferWrite rb buf) ∧
      StaysInside (fun rb => (ringbufferWrite rb buf, ())) rb := by
  have e := ringbufferWrite_eq h (Nat.le_of_lt hb)
  refine ⟨?_, e ▸ h.pushed buf, ?_, ?_⟩
  · rw [e]
    funext r
    have hopen : IsOpen (pushed rb buf) r ↔ IsOpen rb r := Iff.rfl
    unfold Queues.push view
    simp only [hopen]
    by_cases ho : IsOpen rb r
    · have := hroom r ho
      rw [h.avail_eq ho.1] at this
      rw [if_pos ho, if_pos ho, unread_pushed h ho.1 (by omega)]
      rfl
    · rw [if_neg ho, if_neg ho]; rfl
  · intro i hi
    simp only [e]
    show put rb.data rb.size rb.pwrite buf i = rb.data i
    unfold put
    rw [if_neg (by omega)]
  · intro data hd
    have e' : ringbufferWrite (withData rb data) buf = pushed (withData rb data) buf :=
      ringbufferWrite_eq (h.withData data) (Nat.le_of_lt hb)
    refine ⟨rfl, put data rb.size rb.pwrite buf, ?_, fun i hi => ?_⟩
    · simp only [e, e']; rfl
    · simp only [e]
      show put data rb.size rb.pwrite buf i = put rb.data rb.size rb.pwrite buf i
      unfold put
      rw [hd i hi]

/-- An operation that takes `k` bytes from the front, whatever the cells outside hold. -/
theorem staysInside_takeFront {f : Ringbuffer → Ringbuffer × List UInt8} (r k : Nat)
    (refresh : Bool) (he : ∀ data, f (withData rb data) =
      (takeFront (withData rb data) r k refresh, (unread (withData rb data) r).take k)) :
    StaysInside f rb where
  writes i _ := by
    rw [show f rb = (takeFront rb r k refresh, (unread rb r).take k) from he rb.data]
    exact congrFun (data_takeFront h refresh) i
  reads data hd := by
    rw [he data, show f rb = (takeFront rb r k refresh, (unread rb r).take k) from he rb.data]
    refine ⟨by simp only [unread_withData h hd], data, takeFront_withData h refresh data, ?_⟩
    intro i hi
    rw [hd i hi]
    exact (congrFun (data_takeFront h refresh) i).symm

/-- **Read.** The first `len` bytes of the queue are handed out. -/
theorem view_read {r len : Nat} (ho : IsOpen rb r) (hl : (len : Int) ≤ ringbufferAvail rb r) :
    (ringbufferRead rb r len).2 = (view rb).front r len ∧
      view (ringbufferRead rb r len).1 = (view rb).pop r len ∧ Wf (ringbufferRead rb r len).1 ∧
      StaysInside (fun rb => ringbufferRead rb r len) rb := by
  rw [h.avail_eq ho.1] at hl
  have hk : len ≤ lag rb r := by omega
  have he : ∀ data, ringbufferRead (withData rb data) r len =
      (takeFront (withData rb data) r len true, (unread (withData rb data) r).take len) :=
    fun data => ringbufferRead_eq (h.withData data) ho.1 hk
  have e : ringbufferRead rb r len = (takeFront rb r len true, (unread rb r).take len) := he rb.data
  refine ⟨?_, ?_, ?_, staysInside_takeFront h _ _ _ he⟩
  · rw [e, view_front ho]
  · rw [e, view_takeFront h true ho.1 hk]
  · rw [e]; exact h.takeFront true

omit h in
/-- A transfer fails only when a `write(2)` call did. -/
theorem writefdTaken_failed {r : Nat} {w₁ w₂ : Option Nat}
    (hf : (writefdTaken rb r w₁ w₂).2 = false) : w₁ = none ∨ w₂ = none := by
  cases w₁ with
  | none => exact .inl rfl
  | some n₁ =>
    cases w₂ with
    | none => exact .inr rfl
    | some n₂ =>
      have hok : (writefdTaken rb r (some n₁) (some n₂)).2 = true := by
        simp only [writefdTaken, writeResult, Option.map_some]
        split
        · rfl
        · split <;> rfl
      rw [hok] at hf; cases hf

/-- What `ringbuffer_writefd` does, also when nothing is unread. -/
theorem ringbufferWritefd_cases {r : Nat} (hr : r < MAX_READERS) (w₁ w₂ : Option Nat) :
    ∃ ok refresh, (ok = false → w₁ = none ∨ w₂ = none) ∧
      ∀ data, ringbufferWritefd (withData rb data) r w₁ w₂ =
        (takeFront (withData rb data) r (writefdTaken rb r w₁ w₂).1 refresh,
          (unread (withData rb data) r).take (writefdTaken rb r w₁ w₂).1,
          if ok then ((writefdTaken rb r w₁ w₂).1 : Int) else -1) := by
  by_cases h0 : lag rb r = 0
  · refine ⟨true, false, fun e => (by cases e), fun data => ?_⟩
    have hk : (writefdTaken rb r w₁ w₂).1 = 0 := by
      have := writefdTaken_le h hr w₁ w₂
      omega
    have hadv : takeFront (withData rb data) r 0 false = withData rb data :=
      advance_zero (h.pread_lt r hr)
    have h0' : lag (withData rb data) r = 0 := h0
    rw [hk, hadv, ringbufferWritefd_zero h0']
    rfl
  · exact ⟨(writefdTaken rb r w₁ w₂).2, (writefdTaken rb r w₁ w₂).2, writefdTaken_failed,
      fun data => ringbufferWritefd_eq (h.withData data) hr h0 w₁ w₂⟩

/-- **Transfer.** The bytes sent are the first of the queue, as many as the `write(2)` calls
take and as the reader moves on, also behind a failing second call. -/
theorem view_writefd {r : Nat} (ho : IsOpen rb r) (w₁ w₂ : Option Nat) :
    let k := (writefdTaken rb r w₁ w₂).1
    (k : Int) ≤ ringbufferAvail rb r ∧
      (ringbufferWritefd rb r w₁ w₂).1.pread r = (rb.pread r + k) % rb.size ∧
      (ringbufferWritefd rb r w₁ w₂).2.1 = (view rb).front r k ∧
      ((ringbufferWritefd rb r w₁ w₂).2.2 = k ∨
        (ringbufferWritefd rb r w₁ w₂).2.2 = -1 ∧ (w₁ = none ∨ w₂ = none)) ∧
      view (ringbufferWritefd rb r w₁ w₂).1 = (view rb).pop r k ∧
      Wf (ringbufferWritefd rb r w₁ w₂).1 ∧
      StaysInside (fun rb => ((ringbufferWritefd rb r w₁ w₂).1, (ringbufferWritefd rb r w₁ w₂).2.1))
        rb := by
  intro k
  have hk : k ≤ lag rb r := writefdTaken_le h ho.1 w₁ w₂
  obtain ⟨ok, refresh, hfail, he⟩ := ringbufferWritefd_cases h ho.1 w₁ w₂
  have e : ringbufferWritefd rb r w₁ w₂ = (takeFront rb r k refresh, (unread rb r).take k,
    if ok then (k : Int) else -1) := he rb.data
  have hinside := staysInside_takeFront h r k refresh
    (f := fun rb => ((ringbufferWritefd rb r w₁ w₂).1, (ringbufferWritefd rb r w₁ w₂).2.1))
    (fun data => by simp only [he data, k])
  refine ⟨?_, ?_, ?_, ?_, ?_, ?_, hinside⟩
  · rw [h.avail_eq ho.1]; omega
  · rw [e]; exact pread_takeFront h refresh
  · rw [e, view_front ho]
  · rw [e]
    cases ok with
    | true => exact .inl rfl
    | false => exact .inr ⟨rfl, hfail rfl⟩
  · rw [e, view_takeFront h refresh ho.1 hk]
  · rw [e]; exact h.takeFront refresh

end Operations

/-- **One queue per reader.** For every buffer whose positions are inside the storage
and whose mask names no other reader than 0..15: a write that leaves room appends to
the queue of every open reader, a read takes the first bytes of one queue, and so
does a transfer, as many as its `write(2)` calls take, whatever they return; the other
queues stay, the positions stay inside, and no cell outside the storage is touched. -/
theorem refines_queues (rb : Ringbuffer) (h : Wf rb) :
    (∀ buf : List UInt8, buf.length < rb.size →
      (∀ r, IsOpen rb r → ringbufferAvail rb r + buf.length < rb.size) →
      view (ringbufferWrite rb buf) = (view rb).push buf ∧ Wf (ringbufferWrite rb buf) ∧
        StaysInside (fun rb => (ringbufferWrite rb buf, ())) rb) ∧
    (∀ r (len : Nat), IsOpen rb r → (len : Int) ≤ ringbufferAvail rb r →
      (ringbufferRead rb r len).2 = (view rb).front r len ∧
        view (ringbufferRead rb r len).1 = (view rb).pop r len ∧ Wf (ringbufferRead rb r len).1 ∧
        StaysInside (fun rb => ringbufferRead rb r len) rb) ∧
    (∀ r w₁ w₂, IsOpen rb r →
      let k := (writefdTaken rb r w₁ w₂).1
      (k : Int) ≤ ringbufferAvail rb r ∧
        (ringbufferWritefd rb r w₁ w₂).1.pread r = (rb.pread r + k) % rb.size ∧
        (ringbufferWritefd rb r w₁ w₂).2.1 = (view rb).front r k ∧
        ((ringbufferWritefd rb r w₁ w₂).2.2 = k ∨
          (ringbufferWritefd rb r w₁ w₂).2.2 = -1 ∧ (w₁ = none ∨ w₂ = none)) ∧
        view (ringbufferWritefd rb r w₁ w₂).1 = (view rb).pop r k ∧
        Wf (ringbufferWritefd rb r w₁ w₂).1 ∧
        StaysInside
          (fun rb => ((ringbufferWritefd rb r w₁ w₂).1, (ringbufferWritefd rb r w₁ w₂).2.1)) rb) :=
  ⟨fun _ hb hroom => view_write h hb hroom, fun _ _ ho hl => view_read h ho hl,
    fun _ w₁ w₂ ho => view_writefd h ho w₁ w₂⟩

/-- Reader 0 is two bytes behind a writer that has passed the end. -/
def wrapped : Ringbuffer where
  pread _ := 3
  minPread := 3
  pwrite := 1
  data := fun i => if i = 3 then 10 else 20
  size := 4
  readers := 1

theorem wf_wrapped : Wf wrapped where
  pread_lt _ _ := (by decide : 3 < 4)
  minPread_lt := by decide
  pwrite_lt := by decide
  mask i hi := by
    rw [show wrapped.readers = 1#32 from rfl, BitVec.getLsbD_one]
    simp [MAX_READERS] at hi ⊢
    omega

/-- The second call fails: one byte is sent. -/
theorem refines_queues_wrapped :
    (ringbufferWritefd wrapped 0 (some 1) none).2.1 = [10] ∧
    view (ringbufferWrite wrapped [30]) = (view wrapped).push [30] := by
  obtain ⟨hwrite, -, hsend⟩ := refines_queues wrapped wf_wrapped
  obtain ⟨-, -, hsent, -⟩ := hsend 0 (some 1) none (by decide)
  refine ⟨hsent.trans (by decide), (hwrite [30] (by decide) fun r ho => ?_).1⟩
  rw [wf_wrapped.avail_eq ho.1, wf_wrapped.lag_eq_gap ho.1]
  exact (by decide : ((gap 4 3 1 : Nat) : Int) + 1 < 4)

end Sighttpd.L2
