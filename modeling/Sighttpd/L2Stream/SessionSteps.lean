import Sighttpd.L2Stream.Sessions

/-!
# What a session's step does to the ring buffer

* `ring_of_step`: what a step of a session does to its unread bytes, and that the
  other sessions keep theirs.
* `sessionStep_before`: no step leads back before `ringbuffer_open`.
-/
namespace Sighttpd.L2

/-- The ring buffer with logs that start now. -/
def asOf (rb : Ringbuffer) : Fanout := ⟨rb, fun _ => [], unread rb⟩

theorem queued_asOf {rb : Ringbuffer} (h : Wf rb) : Queued (asOf rb) := ⟨h, fun _ _ => rfl⟩

/-- A transfer sends the first unread bytes. -/
theorem writefd_sent {rb : Ringbuffer} (h : Wf rb) {r : Nat} (hr : r < MAX_READERS)
    (w₁ w₂ : Option Nat) :
    (ringbufferWritefd rb r w₁ w₂).2.1 = (unread rb r).take (writefdTaken rb r w₁ w₂).1 := by
  by_cases h0 : lag rb r = 0
  · have hnil : unread rb r = [] := List.length_eq_zero_iff.mp ((unread_length rb r).trans h0)
    rw [ringbufferWritefd_zero h0, hnil, List.take_nil]
  · rw [ringbufferWritefd_eq h hr h0]

/-- `sent` came from the unread bytes of the session, and the others keep theirs. -/
structure RingStep (rb rb' : Ringbuffer) (pc pc' : Pc) (sent : List UInt8) : Prop where
  wf : Wf rb'
  others : ∀ j, IsOpen rb j → pc.held.join ≠ some j →
    pc'.held.join ≠ some j ∧ IsOpen rb' j ∧ unread rb' j = unread rb j
  kept : ∀ r, pc.held.join = some r → pc'.held.join = some r →
    IsOpen rb' r ∧ sent ++ unread rb' r = unread rb r
  opened : ∀ r, pc.held.join ≠ some r → pc'.held.join = some r →
    pc = .opening ∧ sent = [] ∧ IsOpen rb' r ∧ unread rb' r = []
  silent : pc'.held.join = none → sent = []

theorem ring_of_step {rb rb' : Ringbuffer} {pc pc' : Pc} {e : Event} {sent : List UInt8} (h : Wf rb)
    (ho : ∀ r, pc.held.join = some r → IsOpen rb r)
    (hs : sessionStep rb pc e = some (rb', pc', sent)) : RingStep rb rb' pc pc' sent := by
  have hq := queued_asOf h
  have effect : ∀ {c : Call} {s' : Fanout}, (∀ buf, c ≠ .write buf) →
      fanoutStep (asOf rb) c = some s' → Queued s' := fun hc hf =>
    queued_effect hq (effect_of_step h hf) fun buf e => absurd e (hc buf)
  cases sessionStep_cases hs with
  | idle _ _ _ hh hne =>
    exact ⟨h, fun j hj hne => ⟨by rwa [hh], hj, rfl⟩, fun r hr _ => ⟨ho r hr, rfl⟩,
      fun r hr hr' => absurd (hh ▸ hr') hr, fun _ => rfl⟩
  | opens w₁ w₂ =>
    rcases ringbufferOpen_cases rb with ⟨i, hi, hc, eq⟩ | ⟨hall, eq⟩
    · have hf : fanoutStep (asOf rb) .open =
          some ⟨openAt rb i, clearAt (fun _ => []) i, clearAt (unread rb) i⟩ := by
        simp only [fanoutStep, asOf, eq]
      have hq' := effect (fun _ e => by cases e) hf
      rw [eq]
      refine ⟨hq'.wf, fun j hj _ => ?_, fun r hr => (by cases hr), fun r _ hr => ?_, fun _ => rfl⟩
      · have hji : j ≠ i := by
          rintro rfl
          rw [hj.2] at hc
          cases hc
        exact ⟨fun e => hji (Option.some.inj e).symm, (isOpen_openAt hi).mpr (.inl hj),
          unread_openAt_other hji⟩
      · cases hr
        exact ⟨rfl, rfl, (isOpen_openAt hi).mpr (.inr rfl), unread_openAt_self rb i⟩
    · rw [eq]
      exact ⟨h, fun j hj _ => ⟨by simp [Pc.held], hj, rfl⟩, fun r hr => (by cases hr),
        fun r _ hr => (by cases hr), fun _ => rfl⟩
  | sends r w₁ w₂ _ hh =>
    have hro := ho r rfl
    have hf : fanoutStep (asOf rb) (.writefd r w₁ w₂) = some ⟨(ringbufferWritefd rb r w₁ w₂).1,
        logAt (fun _ => []) r (ringbufferWritefd rb r w₁ w₂).2.1, unread rb⟩ := if_pos hro
    have hq' := effect (fun _ e => by cases e) hf
    have hopen := isOpen_congr (readers_writefd rb r w₁ w₂)
    refine ⟨hq'.wf, fun j hj hne => ?_, fun j hj _ => ?_, fun j hj hj' => ?_, fun hn => ?_⟩
    · have hjr : j ≠ r := fun e => hne (e ▸ rfl)
      have := hq'.fifo j ((hopen j).mpr hj)
      simp only [logAt_other _ _ hjr, List.nil_append] at this
      exact ⟨by rw [hh]; exact hne, (hopen j).mpr hj, this⟩
    · cases hj
      have := hq'.fifo r ((hopen r).mpr hro)
      simp only [logAt_self, List.nil_append] at this
      exact ⟨(hopen r).mpr hro, this⟩
    · rw [hh] at hj'
      exact absurd hj' hj
    · rw [hh] at hn
      cases hn
  | closes r w₁ w₂ =>
    have hro := ho r rfl
    have hcl := h.closeAt hro.1
    rw [ringbufferClose_eq hro.1]
    refine ⟨hcl.updateMin, fun j hj hne => ?_, fun _ _ hj' => (by cases hj'),
      fun _ _ hj' => (by cases hj'), fun _ => rfl⟩
    have hjr : j ≠ r := fun e => hne (e ▸ rfl)
    exact ⟨by simp [Pc.held], (isOpen_updateMin hcl).mpr ((isOpen_closeAt hro).mpr ⟨hj, hjr⟩),
      unread_updateMin hcl j⟩

/-! ## Before `ringbuffer_open` -/

/-- A session before its `ringbuffer_open`. -/
def Pc.before : Pc → Prop
  | .waiting => True
  | .sending => True
  | .opening => True
  | _ => False

theorem Pc.held_none {pc : Pc} : pc.held = none ↔ pc = .done ∨ pc.before := by
  cases pc <;> simp [Pc.held, Pc.before]

theorem sessionStep_before {rb rb' : Ringbuffer} {pc pc' : Pc} {e : Event} {sent : List UInt8}
    (hs : sessionStep rb pc e = some (rb', pc', sent)) (h : pc'.before) : pc.before := by
  have hnone : pc'.held = none := Pc.held_none.mpr (.inr h)
  cases sessionStep_cases hs with
  | idle _ _ _ hh =>
    rcases Pc.held_none.mp (hh.symm.trans hnone) with rfl | hb
    · cases e <;> cases hs
    · exact hb
  | opens w₁ w₂ => cases h
  | sends r w₁ w₂ _ hh =>
    rw [hh] at hnone
    cases hnone
  | closes r w₁ w₂ => cases h

end Sighttpd.L2
