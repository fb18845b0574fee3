import Sighttpd.L2Stream.Fanout

/-!
# The writer and the readers cannot all be stuck, unless one connects at the wrong place

The stream writer transfers `ringbuffer_free` bytes (`src/stream.c:38`) and a
client loop calls `ringbuffer_writefd`, which refreshes `min_pread`, only when
`ringbuffer_avail` is non-zero (`src/fdstream.c:59-66`). So a state with every
open reader at the writer's position and no free space is never left
(`NotStuck` rules it out).

While no reader is open the writer moves on without looking at `min_pread`.
`ringbuffer_open` does not refresh it, unlike every other call that moves or
removes a reader, so the first reader may find it anywhere; exactly one place,
one byte ahead of the writer (`OpenOk`), leaves it with no free space.

`Inv` keeps one open reader `l` that the free space respects and that is
either behind the writer or leaves room. It survives every step that meets
`OpenOk`, also the refreshes that pick the wrong reader (`Fanout`), since after
a refresh the reader it picked serves as `l`.
-/
namespace Sighttpd.L2.Stall
open Circular

/-- Somebody can move: a reader has something to send, or there is free space. -/
def NotStuck (s : Fanout) : Prop :=
  (∃ r, IsOpen s.rb r) → (∀ r, IsOpen s.rb r → ringbufferAvail s.rb r = 0) →
    1 ≤ ringbufferFree s.rb

/-- A first reader does not connect with `min_pread` one byte ahead of the writer. -/
def OpenOk (rb : Ringbuffer) (c : Call) : Prop :=
  c = .open → rb.readers = 0 → rb.minPread ≠ (rb.pwrite + 1) % rb.size

instance (rb : Ringbuffer) (c : Call) : Decidable (OpenOk rb c) :=
  inferInstanceAs (Decidable (_ → _ → _))

structure Inv (s : Fanout) : Prop where
  wf : Wf s.rb
  two : 2 ≤ s.rb.size
  witness : ∀ r, IsOpen s.rb r →
    ∃ l, IsOpen s.rb l ∧ lag s.rb l ≤ minLag s.rb ∧ (lag s.rb l = 0 → minLag s.rb + 1 < s.rb.size)

theorem inv_init (rb : Ringbuffer) (data : Nat → UInt8) {len : Nat} (hl : 2 ≤ len) :
    Inv (Fanout.init rb data len) where
  wf := wf_init rb data (by omega)
  two := hl
  witness r ho := absurd ho (not_isOpen_init rb data len r)

theorem notStuck_of_inv {s : Fanout} (h : Inv s) : NotStuck s := by
  rintro ⟨r, ho⟩ hall
  obtain ⟨l, hl, hle, hroom⟩ := h.witness r ho
  have h0 := hall l hl
  rw [h.wf.avail_eq hl.1] at h0
  have := hroom (by omega)
  rw [h.wf.free_eq (h.wf.readers_ne_zero.mpr ⟨r, ho⟩)]
  omega

theorem minLag_eq_last {rb : Ringbuffer} (h : Wf rb) :
    minLag rb + 1 = rb.size ↔ rb.minPread = (rb.pwrite + 1) % rb.size := by
  have hm := h.minPread_lt
  have hp := h.pwrite_lt
  unfold minLag gap
  by_cases hs : rb.pwrite + 1 = rb.size
  · rw [hs, Nat.mod_self]; split <;> omega
  · rw [Nat.mod_eq_of_lt (by omega)]; split <;> omega

/-- After a refresh the reader it picked is the one to keep. -/
theorem witness_updateMin {rb : Ringbuffer} (h : Wf rb) (h2 : 2 ≤ rb.size) {r : Nat}
    (ho : IsOpen (ringbufferUpdateMin rb) r) :
    ∃ l, IsOpen (ringbufferUpdateMin rb) l ∧
      lag (ringbufferUpdateMin rb) l ≤ minLag (ringbufferUpdateMin rb) ∧
      (lag (ringbufferUpdateMin rb) l = 0 →
        minLag (ringbufferUpdateMin rb) + 1 < (ringbufferUpdateMin rb).size) := by
  rw [isOpen_updateMin h] at ho
  obtain ⟨l, hl⟩ := lastReader_of_open ho
  obtain ⟨m, e⟩ := updateMin_frame h
  have hsize : (ringbufferUpdateMin rb).size = rb.size := by rw [e]; rfl
  refine ⟨l, (isOpen_updateMin h).mpr (lastReader_spec hl), ?_, fun h0 => ?_⟩
  · exact Nat.le_of_eq (by rw [minLag_updateMin h hl, lag_updateMin h])
  · rw [lag_updateMin h] at h0
    rw [minLag_updateMin h hl, hsize]; omega

theorem inv_step {s s' : Fanout} {c : Call} (h : Inv s) (hc : OpenOk s.rb c)
    (hs : fanoutStep s c = some s') : Inv s' := by
  have hw := h.wf
  have h2 := h.two
  cases effect_of_step hw hs with
  | full => exact h
  | opened i hi hcl =>
    refine ⟨hw.openAt hi, h2, fun _ _ => ?_⟩
    by_cases h0 : s.rb.readers = 0
    · -- the first reader: only the guard keeps `min_pread` away from the writer
      refine ⟨i, (isOpen_openAt hi).mpr (.inr rfl), by rw [lag_openAt_self]; omega, fun _ => ?_⟩
      have hne := hc rfl h0
      have hlt := hw.minLag_lt
      have : minLag s.rb + 1 ≠ s.rb.size := fun e => hne ((minLag_eq_last hw).mp e)
      show minLag s.rb + 1 < s.rb.size
      omega
    · obtain ⟨r, ho⟩ := hw.readers_ne_zero.mp h0
      obtain ⟨l, hl, hle, hroom⟩ := h.witness r ho
      have hli : l ≠ i := by
        intro e; subst e; rw [hl.2] at hcl; cases hcl
      refine ⟨l, (isOpen_openAt hi).mpr (.inl hl), ?_, ?_⟩ <;> rw [lag_openAt_other hli]
      · exact hle
      · exact hroom
  | closed r ho =>
    have hcl := hw.closeAt ho.1
    obtain ⟨m, e⟩ := updateMin_frame hcl
    exact ⟨hcl.updateMin, by simp only [e]; exact h2, fun j hj => witness_updateMin hcl h2 hj⟩
  | took c r k refresh ho hk hc' hne ht hpart =>
    have ha := hw.advance r k
    cases refresh with
    | true =>
      obtain ⟨m, e⟩ := updateMin_frame ha
      refine ⟨ha.updateMin, ?_, fun j hj => witness_updateMin ha h2 hj⟩
      simp only [taken, if_true, e]; exact h2
    | false =>
      refine ⟨ha, h2, fun j hj => ?_⟩
      obtain ⟨l, hl, hle, hroom⟩ := h.witness j hj
      refine ⟨l, hl, ?_⟩
      simp only [taken, Bool.false_eq_true, if_false]
      show lag (advance s.rb r k) l ≤ minLag s.rb ∧ (_ → minLag s.rb + 1 < s.rb.size)
      by_cases e : l = r
      · subst e
        rw [lag_advance_self hw hl.1 hk]
        have := hpart rfl
        exact ⟨by omega, fun h0 => hroom (by omega)⟩
      · rw [lag_advance_other e]; exact ⟨hle, hroom⟩
  | wrote buf hb =>
    refine ⟨hw.pushed buf, h2, fun j hj => ?_⟩
    have hj' : IsOpen s.rb j := hj
    obtain ⟨l, hl, hle, hroom⟩ := h.witness j hj'
    rw [hw.free_eq (hw.readers_ne_zero.mpr ⟨j, hj'⟩)] at hb
    refine ⟨l, hl, ?_⟩
    simp only [lag_pushed hw hl.1 (show lag s.rb l + buf.length < s.rb.size by omega),
      minLag_pushed hw (show minLag s.rb + buf.length < s.rb.size by omega)]
    refine ⟨by omega, fun h0 => ?_⟩
    have := hroom (by omega)
    show minLag s.rb + buf.length + 1 < s.rb.size
    omega

theorem openOk_of_notStuck {s s' : Fanout} {c : Call} (h : Inv s) (hs : fanoutStep s c = some s')
    (hn : NotStuck s') : OpenOk s.rb c := by
  have hw := h.wf
  rintro rfl h0 e
  have hlast := (minLag_eq_last hw).mpr e
  cases effect_of_step hw hs with
  | full hall =>
    have := hw.readers_eq_zero.mp h0 0 (by decide)
    rw [hall 0 (by decide)] at this; cases this
  | took c r k refresh ho hk hc' hne ht hpart => exact hne rfl
  | opened i hi hcl =>
    have hwo := hw.openAt hi
    have hio : IsOpen (openAt s.rb i) i := (isOpen_openAt hi).mpr (.inr rfl)
    have := hn ⟨i, hio⟩ fun j hj => by
      rcases (isOpen_openAt hi).mp hj with hj' | rfl
      · have := hw.readers_eq_zero.mp h0 j hj'.1
        rw [hj'.2] at this; cases this
      · simp only [hwo.avail_eq hi, lag_openAt_self]; rfl
    simp only [hwo.free_eq (hwo.readers_ne_zero.mpr ⟨i, hio⟩)] at this
    have hsame : minLag (openAt s.rb i) = minLag s.rb := rfl
    have hsize : (openAt s.rb i).size = s.rb.size := rfl
    omega

/-- **No stall.** In a run of any length from `ringbuffer_init`, every state
reached lets somebody move exactly when no first reader of the run connects
with `min_pread` one byte ahead of the writer. -/
theorem notStuck_iff (rb : Ringbuffer) (data : Nat → UInt8) (len : Nat) (hl : 2 ≤ len)
    (calls : List Call) :
    fanout.Along NotStuck (Fanout.init rb data len) calls ↔
      fanout.Guarded (fun s c => OpenOk s.rb c) (Fanout.init rb data len) calls :=
  Machine.along_iff_guarded (I := Inv) (fun _ h => notStuck_of_inv h)
    (fun _ _ _ h hc hs => inv_step h hc hs) (fun _ _ _ h hs hn => openOk_of_notStuck h hs hn)
    (inv_init rb data hl)

/-- A reader connects after two unread bytes and drains the buffer. -/
def lateReader : List Call := [.write [1, 2], .open, .write [3], .writefd 0 (some 1) (some 1)]

theorem notStuck_lateReader : fanout.Along NotStuck (Fanout.init blank (fun _ => 0) 4) lateReader :=
  (notStuck_iff blank (fun _ => 0) 4 (by decide) lateReader).mpr (by decide +kernel)

/-- The writer fills the buffer to its last byte while nobody listens. -/
def fullThenOpen : List Call := [.write [1, 2, 3], .open]

theorem fullThenOpen_result :
    (fanout.exec (Fanout.init blank (fun _ => 0) 4) fullThenOpen).map
        (fun s => (decide (IsOpen s.rb 0), ringbufferFree s.rb,
          (List.range MAX_READERS).all fun r => !rdOpen s.rb r || ringbufferAvail s.rb r == 0)) =
      some (true, 0, true) := by decide +kernel

/-- **Counterexample.** The first reader finds nothing to send and no free space. -/
theorem fullThenOpen_stuck :
    ¬∀ calls s, fanout.exec (Fanout.init blank (fun _ => 0) 4) calls = some s → NotStuck s := by
  intro h
  have hr := fullThenOpen_result
  cases e : fanout.exec (Fanout.init blank (fun _ => 0) 4) fullThenOpen with
  | none => rw [e] at hr; cases hr
  | some s =>
    rw [e] at hr
    simp only [Option.map_some, Option.some.injEq, Prod.mk.injEq, decide_eq_true_eq,
      List.all_eq_true, List.mem_range, Bool.or_eq_true, Bool.not_eq_true', beq_iff_eq] at hr
    obtain ⟨ho, hf, hall⟩ := hr
    have := h fullThenOpen s e ⟨0, ho⟩ fun r hr => by
      rcases hall r hr.1 with hc | h0
      · rw [hr.2] at hc; cases hc
      · exact h0
    omega

end Sighttpd.L2.Stall
