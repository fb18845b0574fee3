import Sighttpd.Core.Machine
import Sighttpd.L2Stream.RingbufferOps

/-!
# One queue per reader: when the fan-out is loss-free

`src/ringbuffer.h:53-70` asks callers to write at most `ringbuffer_free` bytes
and to read at most `ringbuffer_avail`. `fanout` is the ring buffer under every
such order of calls, with two ghost logs per descriptor: the bytes delivered to
it and the bytes written to the buffer since its `ringbuffer_open`.

What a reader should see is one queue of its own (`Fifo`): delivered bytes
followed by unread bytes are the written bytes, and the free space leaves room
for everything it has not read. That needs `min_pread` to be behind every open
reader (`Inv.slowest`). `ringbuffer_open`, `ringbuffer_write` and a failing
`ringbuffer_writefd` keep it so, but the refresh (`ringbuffer_update_min`)
stores the position of the highest-numbered open reader, because its
`min_avail` is never assigned: with two readers it can jump ahead of the slower.

* `inv_step`: a step keeps the invariant when the refresh it ends in, if any,
  finds the highest-numbered open reader to be a slowest one (`SlowestIsLast`).
* `slowestIsLast_of_fifo`: a step into a state with `Fifo` meets that condition.
* `fifo_iff`: so a run is loss-free throughout exactly when every refresh meets it.
-/
namespace Sighttpd.L2

/-- The calls of a run, with the results of the `write(2)` calls. -/
inductive Call where
  | open
  | close (readd : Nat)
  | read (readd len : Nat)
  | writefd (readd : Nat) (w₁ w₂ : Option Nat)
  | write (buf : List UInt8)
  deriving DecidableEq, Repr

/-- The ring buffer with, for each descriptor, what was delivered to it and
what was written to the buffer since it was opened. -/
structure Fanout where
  rb : Ringbuffer
  delivered : Nat → List UInt8
  written : Nat → List UInt8

def Fanout.init (rb : Ringbuffer) (data : Nat → UInt8) (len : Nat) : Fanout :=
  ⟨ringbufferInit rb data len, fun _ => [], fun _ => []⟩

def logAt (log : Nat → List UInt8) (r : Nat) (bs : List UInt8) : Nat → List UInt8 := fun j =>
  if j = r then log j ++ bs else log j

def clearAt (log : Nat → List UInt8) (r : Nat) : Nat → List UInt8 := fun j =>
  if j = r then [] else log j

/-- One call, under the conditions of `src/ringbuffer.h:53-70`. -/
def fanoutStep (s : Fanout) : Call → Option Fanout
  | .open =>
    match ringbufferOpen s.rb with
    | (rb, some i) => some ⟨rb, clearAt s.delivered i, clearAt s.written i⟩
    | (rb, none) => some { s with rb := rb }
  | .close r => if IsOpen s.rb r then some { s with rb := ringbufferClose s.rb r } else none
  | .read r len =>
    if IsOpen s.rb r ∧ (len : Int) ≤ ringbufferAvail s.rb r then
      let (rb, bs) := ringbufferRead s.rb r len
      some { s with rb := rb, delivered := logAt s.delivered r bs }
    else none
  | .writefd r w₁ w₂ =>
    if IsOpen s.rb r then
      let (rb, bs, _) := ringbufferWritefd s.rb r w₁ w₂
      some { s with rb := rb, delivered := logAt s.delivered r bs }
    else none
  | .write buf =>
    if (buf.length : Int) ≤ ringbufferFree s.rb then
      some { s with rb := ringbufferWrite s.rb buf, written := fun j => s.written j ++ buf }
    else none

def fanout : Machine Fanout Call := ⟨fanoutStep⟩

/-- Every open reader has its own queue, and the free space respects it. -/
def Fifo (s : Fanout) : Prop :=
  ∀ r, IsOpen s.rb r →
    s.delivered r ++ unread s.rb r = s.written r ∧
      ringbufferFree s.rb ≤ (s.rb.size : Int) - 1 - ringbufferAvail s.rb r

/-! ## The condition on a step -/

/-- When the call ends in a refresh: how many bytes each reader takes in it. -/
def refreshTakes (rb : Ringbuffer) : Call → Option (Nat → Nat)
  | .close _ => some fun _ => 0
  | .read r len => some fun i => if i = r then len else 0
  | .writefd r w₁ w₂ =>
    if lag rb r ≠ 0 ∧ (writefdTaken rb r w₁ w₂).2 = true then
      some fun i => if i = r then (writefdTaken rb r w₁ w₂).1 else 0
    else none
  | _ => none

/-- `i` is open and the call does not close it. -/
def Stays (rb : Ringbuffer) (c : Call) (i : Nat) : Prop := IsOpen rb i ∧ c ≠ .close i

/-- If the call ends in a refresh, the highest-numbered reader that stays open
is then as far behind as any other. -/
def SlowestIsLast (rb : Ringbuffer) (c : Call) : Prop :=
  ∀ takes, refreshTakes rb c = some takes →
    ∀ h i, Stays rb c h → (∀ j, Stays rb c j → j ≤ h) → Stays rb c i →
      ringbufferAvail rb i - takes i ≤ ringbufferAvail rb h - takes h

instance (rb : Ringbuffer) (c : Call) (i : Nat) : Decidable (Stays rb c i) :=
  inferInstanceAs (Decidable (_ ∧ _))

instance (rb : Ringbuffer) (c : Call) : Decidable (SlowestIsLast rb c) :=
  match e : refreshTakes rb c with
  | none => isTrue fun takes ht => by rw [e] at ht; cases ht
  | some takes =>
    decidable_of_iff (∀ h ∈ List.range MAX_READERS, ∀ i ∈ List.range MAX_READERS, Stays rb c h →
        (∀ j ∈ List.range MAX_READERS, Stays rb c j → j ≤ h) → Stays rb c i →
        ringbufferAvail rb i - takes i ≤ ringbufferAvail rb h - takes h) <| by
      simp only [SlowestIsLast, e, List.mem_range, Option.some.injEq, forall_eq']
      exact ⟨fun hs h i hh hmax hi => hs h hh.1.1 i hi.1.1 hh (fun j _ hj => hmax j hj) hi,
        fun hs h _ i _ hh hmax hi => hs h i hh (fun j hj => hmax j hj.1.1 hj) hi⟩

/-! ## What a step can do -/

/-- A reader takes `k` of its unread bytes; with `refresh`, `min_pread` is
recomputed afterwards. -/
def taken (s : Fanout) (r k : Nat) (refresh : Bool) : Fanout :=
  { s with
    rb := if refresh then ringbufferUpdateMin (advance s.rb r k) else advance s.rb r k
    delivered := logAt s.delivered r ((unread s.rb r).take k) }

/-- The transitions of `fanout`, on positions and lags. -/
inductive Effect (s : Fanout) : Call → Fanout → Prop where
  | opened (i : Nat) (hi : i < MAX_READERS) (hc : rdOpen s.rb i = false) :
    Effect s .open ⟨openAt s.rb i, clearAt s.delivered i, clearAt s.written i⟩
  | full (hall : ∀ i, i < MAX_READERS → rdOpen s.rb i = true) : Effect s .open s
  | closed (r : Nat) (ho : IsOpen s.rb r) :
    Effect s (.close r) { s with rb := ringbufferUpdateMin (closeAt s.rb r) }
  | took (c : Call) (r k : Nat) (refresh : Bool) (ho : IsOpen s.rb r) (hk : k ≤ lag s.rb r)
      (hc : ∀ i, c ≠ .close i) (hw : c ≠ .open)
      (ht : refreshTakes s.rb c = if refresh then some fun i => if i = r then k else 0 else none)
      (hpart : refresh = false → k = 0 ∨ k < lag s.rb r) :
    Effect s c (taken s r k refresh)
  | wrote (buf : List UInt8) (hb : (buf.length : Int) ≤ ringbufferFree s.rb) :
    Effect s (.write buf)
      { s with rb := pushed s.rb buf, written := fun j => s.written j ++ buf }

theorem effect_of_step {s s' : Fanout} {c : Call} (h : Wf s.rb) (hs : fanoutStep s c = some s') :
    Effect s c s' := by
  cases c with
  | «open» =>
    simp only [fanoutStep] at hs
    rcases ringbufferOpen_cases s.rb with ⟨i, hi, hc, e⟩ | ⟨hall, e⟩
    · rw [e] at hs; cases hs; exact .opened i hi hc
    · rw [e] at hs; cases hs; exact .full hall
  | close r =>
    simp only [fanoutStep] at hs
    split at hs
    · next ho => cases hs; rw [ringbufferClose_eq ho.1]; exact .closed r ho
    · cases hs
  | read r len =>
    simp only [fanoutStep] at hs
    split at hs
    · next ho =>
      obtain ⟨ho, hl⟩ := ho
      rw [h.avail_eq ho.1] at hl
      cases hs
      rw [ringbufferRead_eq h ho.1 (by omega)]
      exact .took _ r len true ho (by omega) (fun i e => by cases e) (fun e => by cases e) rfl
        (fun e => by cases e)
    · cases hs
  | writefd r w₁ w₂ =>
    simp only [fanoutStep] at hs
    split at hs
    · next ho =>
      cases hs
      by_cases h0 : lag s.rb r = 0
      · rw [ringbufferWritefd_zero h0]
        have e : (⟨s.rb, logAt s.delivered r [], s.written⟩ : Fanout) = taken s r 0 false := by
          unfold taken
          simp only [Bool.false_eq_true, if_false, List.take_zero]
          rw [advance_zero (h.pread_lt r ho.1)]
        show Effect s _ (⟨s.rb, logAt s.delivered r [], s.written⟩ : Fanout)
        rw [e]
        exact .took _ r 0 false ho (by omega) (fun i e => by cases e) (fun e => by cases e)
          (by simp [refreshTakes, h0]) (fun _ => .inl rfl)
      · rw [ringbufferWritefd_eq h ho.1 h0]
        have hle := writefdTaken_le h ho.1 w₁ w₂
        have hlt : _ → (writefdTaken s.rb r w₁ w₂).1 < _ := writefdTaken_lt h ho.1 h0
        refine .took _ r (writefdTaken s.rb r w₁ w₂).1 (writefdTaken s.rb r w₁ w₂).2 ho hle
          (fun i e => by cases e) (fun e => by cases e) ?_ (fun e => .inr (hlt e))
        simp [refreshTakes, h0]
    · cases hs
  | write buf =>
    simp only [fanoutStep] at hs
    split at hs
    · next hb =>
      cases hs
      have := h.free_lt
      rw [ringbufferWrite_eq h (by omega)]
      exact .wrote buf hb
    · cases hs

/-! ## The invariant -/

structure Inv (s : Fanout) : Prop where
  wf : Wf s.rb
  fifo : ∀ r, IsOpen s.rb r → s.delivered r ++ unread s.rb r = s.written r
  slowest : ∀ r, IsOpen s.rb r → lag s.rb r ≤ minLag s.rb

theorem wf_init (rb : Ringbuffer) (data : Nat → UInt8) {len : Nat} (hl : 0 < len) :
    Wf (ringbufferInit rb data len) where
  pread_lt r hr := by
    show (if r < MAX_READERS then 0 else _) < len
    rw [if_pos hr]; exact hl
  minPread_lt := hl
  pwrite_lt := hl
  mask i _ := by simp [ringbufferInit, ringbufferReset]

theorem not_isOpen_init (rb : Ringbuffer) (data : Nat → UInt8) (len r : Nat) :
    ¬IsOpen (ringbufferInit rb data len) r := by
  intro hall
  obtain ⟨hr, ho⟩ := hall
  rw [rdOpen_eq hr] at ho
  simp [ringbufferInit, ringbufferReset] at ho

theorem inv_init (rb : Ringbuffer) (data : Nat → UInt8) {len : Nat} (hl : 0 < len) :
    Inv (Fanout.init rb data len) where
  wf := wf_init rb data hl
  fifo r ho := absurd ho (not_isOpen_init rb data len r)
  slowest r ho := absurd ho (not_isOpen_init rb data len r)

theorem fifo_of_inv {s : Fanout} (h : Inv s) : Fifo s := by
  intro r ho
  refine ⟨h.fifo r ho, ?_⟩
  rw [h.wf.free_eq (h.wf.readers_ne_zero.mpr ⟨r, ho⟩), h.wf.avail_eq ho.1]
  have := h.slowest r ho
  omega

/-- In the buffer a refresh runs on, the highest-numbered open reader is a
slowest one. -/
def LastSlowest (rb : Ringbuffer) : Prop :=
  ∀ h, lastReader rb = some h → ∀ i, IsOpen rb i → lag rb i ≤ lag rb h

/-- The refresh establishes the invariant exactly from such a buffer. -/
theorem slowest_updateMin {rb : Ringbuffer} (h : Wf rb) (hs : LastSlowest rb) {r : Nat}
    (ho : IsOpen (ringbufferUpdateMin rb) r) :
    lag (ringbufferUpdateMin rb) r ≤ minLag (ringbufferUpdateMin rb) := by
  rw [isOpen_updateMin h] at ho
  obtain ⟨l, hl⟩ := lastReader_of_open ho
  rw [minLag_updateMin h hl, lag_updateMin h]
  exact hs l hl r ho

theorem lastSlowest_of_free {rb : Ringbuffer} (h : Wf rb)
    (hf : ∀ r, IsOpen (ringbufferUpdateMin rb) r →
      ringbufferFree (ringbufferUpdateMin rb) ≤
        ((ringbufferUpdateMin rb).size : Int) - 1 - ringbufferAvail (ringbufferUpdateMin rb) r) :
    LastSlowest rb := by
  intro l hl i ho
  have ho' := (isOpen_updateMin h).mpr ho
  have hi := hf i ho'
  rw [h.updateMin.free_eq (h.updateMin.readers_ne_zero.mpr ⟨i, ho'⟩), h.updateMin.avail_eq ho.1,
    minLag_updateMin h hl, lag_updateMin h] at hi
  omega

/-- `SlowestIsLast` on the buffer the refresh of `took` runs on. -/
theorem lastSlowest_advance {s : Fanout} (h : Wf s.rb) {c : Call} {r k : Nat} (ho : IsOpen s.rb r)
    (hk : k ≤ lag s.rb r) (hc : ∀ i, c ≠ .close i)
    (ht : refreshTakes s.rb c = some fun i => if i = r then k else 0) :
    SlowestIsLast s.rb c ↔ LastSlowest (advance s.rb r k) := by
  have hopen : ∀ i, IsOpen (advance s.rb r k) i ↔ IsOpen s.rb i := fun i => Iff.rfl
  have hlag : ∀ i, i < MAX_READERS → (lag (advance s.rb r k) i : Int) =
      ringbufferAvail s.rb i - (if i = r then k else 0 : Nat) := by
    intro i hi
    rw [h.avail_eq hi]
    split
    · subst i; rw [lag_advance_self h ho.1 hk]; omega
    · rw [lag_advance_other ‹_›]; omega
  unfold SlowestIsLast LastSlowest Stays
  simp only [ht, Option.some.injEq, forall_eq', ne_eq, hc, not_false_eq_true, and_true,
    lastReader_eq_some, hopen]
  constructor
  · rintro hs l ⟨hl, hmax⟩ i hi
    have := hs l i hl hmax hi
    rw [← hlag i hi.1, ← hlag l hl.1] at this
    omega
  · intro hs l i hl hmax hi
    have := hs l ⟨hl, hmax⟩ i hi
    rw [← hlag i hi.1, ← hlag l hl.1]
    omega

theorem lastSlowest_closeAt {rb : Ringbuffer} (h : Wf rb) {r : Nat} (ho : IsOpen rb r) :
    SlowestIsLast rb (.close r) ↔ LastSlowest (closeAt rb r) := by
  have hlag : ∀ i, lag (closeAt rb r) i = lag rb i := fun i => rfl
  unfold SlowestIsLast LastSlowest Stays
  simp only [refreshTakes, Option.some.injEq, forall_eq', ne_eq, Call.close.injEq,
    lastReader_eq_some, isOpen_closeAt ho, hlag]
  constructor
  · rintro hs l ⟨⟨hl, hlr⟩, hmax⟩ i ⟨hi, hir⟩
    have := hs l i ⟨hl, fun e => hlr e.symm⟩ (fun j hj => hmax j ⟨hj.1, fun e => hj.2 e.symm⟩)
      ⟨hi, fun e => hir e.symm⟩
    rw [h.avail_eq hi.1, h.avail_eq hl.1] at this
    omega
  · rintro hs l i ⟨hl, hlr⟩ hmax ⟨hi, hir⟩
    have := hs l ⟨⟨hl, fun e => hlr e.symm⟩, fun j hj => hmax j ⟨hj.1, fun e => hj.2 e.symm⟩⟩ i
      ⟨hi, fun e => hir e.symm⟩
    rw [h.avail_eq hi.1, h.avail_eq hl.1]
    omega

/-! ## One step -/

theorem logAt_self (log : Nat → List UInt8) (r : Nat) (bs : List UInt8) :
    logAt log r bs r = log r ++ bs := if_pos rfl

theorem logAt_other (log : Nat → List UInt8) {r j : Nat} (bs : List UInt8) (h : j ≠ r) :
    logAt log r bs j = log j := if_neg h

theorem clearAt_self (log : Nat → List UInt8) (r : Nat) : clearAt log r r = [] := if_pos rfl

theorem clearAt_other (log : Nat → List UInt8) {r j : Nat} (h : j ≠ r) :
    clearAt log r j = log j := if_neg h

/-- The queues alone, wherever `min_pread` is. -/
structure Queued (s : Fanout) : Prop where
  wf : Wf s.rb
  fifo : ∀ r, IsOpen s.rb r → s.delivered r ++ unread s.rb r = s.written r

/-- The queues after reader `r` took `k` bytes, before any refresh. -/
theorem fifo_advance {s : Fanout} (h : Queued s) {r k : Nat} (ho : IsOpen s.rb r)
    (hk : k ≤ lag s.rb r) {j : Nat} (hj : IsOpen s.rb j) :
    logAt s.delivered r ((unread s.rb r).take k) j ++ unread (advance s.rb r k) j = s.written j := by
  by_cases e : j = r
  · subst e
    rw [logAt_self, unread_advance_self h.wf ho.1 hk, List.append_assoc, List.take_append_drop]
    exact h.fifo j hj
  · rw [logAt_other _ _ e, unread_advance_other e]
    exact h.fifo j hj

/-- A write that leaves room for every open reader. -/
theorem queued_pushed {s : Fanout} (h : Queued s) {buf : List UInt8}
    (hroom : ∀ r, IsOpen s.rb r → lag s.rb r + buf.length < s.rb.size) :
    Queued { s with rb := pushed s.rb buf, written := fun j => s.written j ++ buf } where
  wf := h.wf.pushed buf
  fifo r ho := by
    have ho' : IsOpen s.rb r := ho
    simp only [unread_pushed h.wf ho'.1 (hroom r ho')]
    rw [← List.append_assoc, h.fifo r ho']

/-- Every call keeps the queues, a write under the condition that leaves room. -/
theorem queued_effect {s s' : Fanout} {c : Call} (h : Queued s) (he : Effect s c s')
    (hroom : ∀ buf, c = .write buf → ∀ r, IsOpen s.rb r → lag s.rb r + buf.length < s.rb.size) :
    Queued s' := by
  have hw := h.wf
  cases he with
  | full => exact h
  | opened i hi hcl =>
    refine ⟨hw.openAt hi, fun r ho => ?_⟩
    by_cases e : r = i
    · subst e; simp only [clearAt_self, unread_openAt_self, List.append_nil]
    · simp only [clearAt_other _ e, unread_openAt_other e]
      exact h.fifo r (((isOpen_openAt hi).mp ho).resolve_right e)
  | closed r ho =>
    have hcl := hw.closeAt ho.1
    refine ⟨hcl.updateMin, fun j hj => ?_⟩
    rw [isOpen_updateMin hcl, isOpen_closeAt ho] at hj
    simp only [unread_updateMin hcl]
    exact h.fifo j hj.1
  | took c r k refresh ho hk hc' hne ht hpart =>
    have ha := hw.advance r k
    cases refresh with
    | true =>
      refine ⟨ha.updateMin, fun j hj => ?_⟩
      simp only [taken, if_true] at hj ⊢
      rw [isOpen_updateMin ha] at hj
      rw [unread_updateMin ha]
      exact fifo_advance h ho hk hj
    | false => exact ⟨ha, fun j hj => fifo_advance h ho hk hj⟩
  | wrote buf hb => exact queued_pushed h (hroom buf rfl)

theorem inv_step {s s' : Fanout} {c : Call} (h : Inv s) (hc : SlowestIsLast s.rb c)
    (hs : fanoutStep s c = some s') : Inv s' := by
  have hw := h.wf
  have he := effect_of_step hw hs
  have hq : Queued s' := queued_effect ⟨hw, h.fifo⟩ he fun buf e r ho => by
    subst e
    simp only [fanoutStep] at hs
    split at hs
    · next hb =>
      rw [hw.free_eq (hw.readers_ne_zero.mpr ⟨r, ho⟩)] at hb
      have := h.slowest r ho
      omega
    · cases hs
  refine ⟨hq.wf, hq.fifo, ?_⟩
  cases he with
  | full => exact h.slowest
  | opened i hi hcl =>
    intro r ho
    by_cases e : r = i
    · subst e; rw [lag_openAt_self]; omega
    · rw [lag_openAt_other e]
      exact h.slowest r (((isOpen_openAt hi).mp ho).resolve_right e)
  | closed r ho =>
    intro j hj
    exact slowest_updateMin (hw.closeAt ho.1) ((lastSlowest_closeAt hw ho).mp hc) hj
  | took c r k refresh ho hk hc' hne ht hpart =>
    cases refresh with
    | true =>
      intro j hj
      exact slowest_updateMin (hw.advance r k) ((lastSlowest_advance hw ho hk hc' ht).mp hc) hj
    | false =>
      intro j hj
      have hle := h.slowest j hj
      simp only [taken, Bool.false_eq_true, if_false]
      by_cases e : j = r
      · subst e
        rw [lag_advance_self hw ho.1 hk]
        exact Nat.le_trans (Nat.sub_le _ _) hle
      · rw [lag_advance_other e]; exact hle
  | wrote buf hb =>
    intro r ho
    have ho' : IsOpen s.rb r := ho
    have hle := h.slowest r ho'
    rw [hw.free_eq (hw.readers_ne_zero.mpr ⟨r, ho'⟩)] at hb
    simp only [lag_pushed hw ho'.1 (show lag s.rb r + buf.length < s.rb.size by omega),
      minLag_pushed hw (show minLag s.rb + buf.length < s.rb.size by omega)]
    omega

theorem slowestIsLast_of_fifo {s s' : Fanout} {c : Call} (h : Inv s)
    (hs : fanoutStep s c = some s') (hf : Fifo s') : SlowestIsLast s.rb c := by
  have hw := h.wf
  cases effect_of_step hw hs with
  | full => intro takes ht; cases ht
  | opened i hi hcl => intro takes ht; cases ht
  | wrote buf hb => intro takes ht; cases ht
  | closed r ho =>
    exact (lastSlowest_closeAt hw ho).mpr
      (lastSlowest_of_free (hw.closeAt ho.1) fun j hj => (hf j hj).2)
  | took c r k refresh ho hk hc' hne ht hpart =>
    cases refresh with
    | true =>
      exact (lastSlowest_advance hw ho hk hc' ht).mpr
        (lastSlowest_of_free (hw.advance r k) fun j hj => (hf j hj).2)
    | false => intro takes ht'; rw [ht] at ht'; cases ht'

/-! ## Runs -/

/-- **Loss-free fan-out.** In a run of any length from `ringbuffer_init`, every
state reached gives every open reader its own queue exactly when every refresh
of the run finds the highest-numbered open reader to be a slowest one. -/
theorem fifo_iff (rb : Ringbuffer) (data : Nat → UInt8) (len : Nat) (hl : 2 ≤ len)
    (calls : List Call) :
    fanout.Along Fifo (Fanout.init rb data len) calls ↔
      fanout.Guarded (fun s c => SlowestIsLast s.rb c) (Fanout.init rb data len) calls :=
  Machine.along_iff_guarded (I := Inv) (fun _ h => fifo_of_inv h)
    (fun _ _ _ h hc hs => inv_step h hc hs) (fun _ _ _ h hs hf => slowestIsLast_of_fifo h hs hf)
    (inv_init rb data (by omega))

/-- An uninitialised structure, as `ringbuffer_init` may find it. -/
def blank : Ringbuffer := ⟨fun _ => 0, 0, 0, fun _ => 0, 0, 0⟩

/-- Reader 1 is opened after reader 0 and stays behind it at every refresh. -/
def lastLags : List Call :=
  [.open, .open, .write [1, 2], .read 0 2, .write [3], .writefd 1 (some 1) (some 1),
    .writefd 0 none (some 1), .writefd 1 (some 2) (some 2)]

theorem fifo_lastLags : fanout.Along Fifo (Fanout.init blank (fun _ => 0) 4) lastLags :=
  (fifo_iff blank (fun _ => 0) 4 (by decide) lastLags).mpr (by decide +kernel)

/-- Reader 1 reads everything, the refresh follows it, and the writer may then
overwrite what reader 0 has not read. -/
def overrun : List Call := [.open, .open, .write [1, 2], .read 1 2, .write [3, 4, 5]]

theorem overrun_result :
    (fanout.exec (Fanout.init blank (fun _ => 0) 4) overrun).map
        (fun s => (decide (IsOpen s.rb 0), s.delivered 0 ++ unread s.rb 0, s.written 0)) =
      some (true, [5], [1, 2, 3, 4, 5]) := by decide +kernel

/-- **Counterexample.** Calls that all respect the usage notes lose bytes. -/
theorem overrun_not_fifo :
    ¬∀ calls s, fanout.exec (Fanout.init blank (fun _ => 0) 4) calls = some s → Fifo s := by
  intro h
  have hr := overrun_result
  cases e : fanout.exec (Fanout.init blank (fun _ => 0) 4) overrun with
  | none => rw [e] at hr; cases hr
  | some s =>
    rw [e] at hr
    simp only [Option.map_some, Option.some.injEq, Prod.mk.injEq, decide_eq_true_eq] at hr
    obtain ⟨ho, hd, hw⟩ := hr
    have := (h overrun s e 0 ho).1
    rw [hd, hw] at this
    cases this

end Sighttpd.L2
