import Sighttpd.L2Stream.RingbufferOps

/-!
# Filling the ring buffer from a descriptor (`ringbuffer_readfd`)

The free space is read in two parts when it wraps: up to the end of the storage, and
what is left of it from the position the first part has reached. A `read(2)` call is
its result: `none` for -1, otherwise the bytes, of which no more than were asked for.

* `readfdOk_iff`: both calls stay inside the storage exactly when the first one fails
  or fills its part.
-/
namespace Sighttpd.L2
open Circular

/-- A region handed to `read(2)`. -/
structure ReadCall where
  offset : Nat
  count : Nat
  deriving DecidableEq, Repr

structure ReadfdResult where
  rb : Ringbuffer
  calls : List ReadCall
  stored : List UInt8
  ret : Int

def readResult (r : Option (List UInt8)) (count : Nat) : Option (List UInt8) := r.map (·.take count)

/-- One `read(fd, data + pwrite, count)` with the move of `pwrite` that follows it; the
second component is what was stored.
mirrors src/ringbuffer.c:205-212 and 215-221 -/
def readfdCall (rb : Ringbuffer) (count : Nat) (r : Option (List UInt8)) :
    Option (Ringbuffer × List UInt8) :=
  (readResult r count).map fun bs =>
    (if bs.length > 0 then
        { rb with data := fill rb.data rb.pwrite bs, pwrite := (rb.pwrite + bs.length) % rb.size }
      else rb, bs)

/-- mirrors src/ringbuffer.c:200-202 -/
def readfdSplit (rb : Ringbuffer) : Nat :=
  let len := (ringbufferFree rb).toNat
  if rb.pwrite + len > rb.size then rb.size - rb.pwrite else 0

/-- `r₁` is the result of the call for the part up to the end, when there is one, and
`r₂` that of the call that follows.
mirrors src/ringbuffer.c:194-224 -/
def ringbufferReadfd (rb : Ringbuffer) (r₁ r₂ : Option (List UInt8)) : ReadfdResult :=
  let len := (ringbufferFree rb).toNat
  let split := readfdSplit rb
  let first := if split > 0 then [ReadCall.mk rb.pwrite split] else []
  match if split > 0 then readfdCall rb split r₁ else some (rb, []) with
  | none => ⟨rb, first, [], -1⟩
  | some (rb₁, bs₁) =>
    let todo := len - bs₁.length
    let calls := first ++ [ReadCall.mk rb₁.pwrite todo]
    match readfdCall rb₁ todo r₂ with
    | none => ⟨rb₁, calls, bs₁, -1⟩
    | some (rb₂, bs₂) => ⟨rb₂, calls, bs₁ ++ bs₂, bs₁.length + bs₂.length⟩

/-- The regions are inside the storage, no more than the free space is stored, and the
writer has moved by what was stored. -/
structure ReadfdOk (rb : Ringbuffer) (out : ReadfdResult) : Prop where
  inside : ∀ c ∈ out.calls, c.offset + c.count ≤ rb.size
  atMost : (out.stored.length : Int) ≤ ringbufferFree rb
  advanced : out.rb.pwrite = (rb.pwrite + out.stored.length) % rb.size

/-- The free space does not wrap, or the first call fails, or it fills its part and the
rest ends inside the storage. -/
def FirstPartFull (rb : Ringbuffer) (r₁ : Option (List UInt8)) : Prop :=
  rb.pwrite + (ringbufferFree rb).toNat ≤ rb.size ∨ r₁ = none ∨
    ∃ bs ∈ r₁, rb.size - rb.pwrite ≤ bs.length ∧
      rb.pwrite + (ringbufferFree rb).toNat ≤ 2 * rb.size

/-! ## One call -/

/-- `bs` stored at the writer's position, without a split. -/
def filled (rb : Ringbuffer) (bs : List UInt8) : Ringbuffer :=
  { rb with data := fill rb.data rb.pwrite bs, pwrite := (rb.pwrite + bs.length) % rb.size }

theorem filled_nil {rb : Ringbuffer} (hp : rb.pwrite < rb.size) : filled rb [] = rb := by
  have hfill : fill rb.data rb.pwrite [] = rb.data := by
    funext i
    simp [fill]
  rw [filled, hfill, List.length_nil, Nat.add_zero, Nat.mod_eq_of_lt hp]

theorem filled_lt {rb : Ringbuffer} (hp : rb.pwrite < rb.size) (bs : List UInt8) :
    (filled rb bs).pwrite < (filled rb bs).size :=
  Nat.mod_lt _ (show 0 < rb.size by omega)

theorem readfdCall_eq {rb : Ringbuffer} (hp : rb.pwrite < rb.size) (count : Nat)
    (r : Option (List UInt8)) :
    readfdCall rb count r = (readResult r count).map fun bs => (filled rb bs, bs) := by
  unfold readfdCall
  congr 1
  funext bs
  split
  · rfl
  · next hz =>
    rw [List.eq_nil_of_length_eq_zero (show bs.length = 0 by omega), filled_nil hp]

theorem readResult_le {r : Option (List UInt8)} {count : Nat} {bs : List UInt8}
    (h : readResult r count = some bs) : bs.length ≤ count := by
  obtain ⟨all, -, rfl⟩ := Option.map_eq_some_iff.mp h
  rw [List.length_take]
  omega

/-! ## Both calls -/

theorem readfdSplit_fit {rb : Ringbuffer} (h : rb.pwrite + (ringbufferFree rb).toNat ≤ rb.size) :
    readfdSplit rb = 0 := if_neg (by omega)

theorem readfdSplit_wrap {rb : Ringbuffer} (h : ¬rb.pwrite + (ringbufferFree rb).toNat ≤ rb.size) :
    readfdSplit rb = rb.size - rb.pwrite := if_pos (by omega)

/-- The bytes of the call for the part up to the end. -/
def firstPart (rb : Ringbuffer) (r₁ : Option (List UInt8)) : Option (List UInt8) :=
  if readfdSplit rb > 0 then readResult r₁ (readfdSplit rb) else some []

def firstCall (rb : Ringbuffer) : List ReadCall :=
  if readfdSplit rb > 0 then [⟨rb.pwrite, readfdSplit rb⟩] else []

section Readfd
variable {rb : Ringbuffer} (hp : rb.pwrite < rb.size)
include hp

/-- Either the first call fails, or the second one reads what is left of the free space
behind the first part. -/
theorem ringbufferReadfd_cases (r₁ r₂ : Option (List UInt8)) :
    (firstPart rb r₁ = none ∧ ringbufferReadfd rb r₁ r₂ = ⟨rb, firstCall rb, [], -1⟩) ∨
    ∃ bs₁ bs₂ ret, firstPart rb r₁ = some bs₁ ∧
      bs₂.length ≤ (ringbufferFree rb).toNat - bs₁.length ∧
      ringbufferReadfd rb r₁ r₂ =
        ⟨filled (filled rb bs₁) bs₂,
          firstCall rb ++
            [⟨(rb.pwrite + bs₁.length) % rb.size, (ringbufferFree rb).toNat - bs₁.length⟩],
          bs₁ ++ bs₂, ret⟩ := by
  have hfirst : (if readfdSplit rb > 0 then readfdCall rb (readfdSplit rb) r₁ else some (rb, [])) =
      (firstPart rb r₁).map fun bs => (filled rb bs, bs) := by
    unfold firstPart
    split
    · exact readfdCall_eq hp _ r₁
    · rw [Option.map_some, filled_nil hp]
  unfold ringbufferReadfd
  simp only [hfirst]
  cases h₁ : firstPart rb r₁ with
  | none => exact .inl ⟨rfl, rfl⟩
  | some bs₁ =>
    refine .inr ?_
    simp only [Option.map_some, readfdCall_eq (filled_lt hp bs₁)]
    cases h₂ : readResult r₂ ((ringbufferFree rb).toNat - bs₁.length) with
    | none =>
      refine ⟨bs₁, [], -1, rfl, Nat.zero_le _, ?_⟩
      rw [filled_nil (filled_lt hp bs₁), List.append_nil]
      rfl
    | some bs₂ => exact ⟨bs₁, bs₂, _, rfl, readResult_le h₂, rfl⟩

theorem free_nonneg : 0 ≤ ringbufferFree rb := by
  unfold ringbufferFree
  simp only
  split
  · omega
  · split <;> omega

theorem firstPart_le {r₁ : Option (List UInt8)} {bs₁ : List UInt8} (h : firstPart rb r₁ = some bs₁) :
    bs₁.length ≤ readfdSplit rb ∧ bs₁.length ≤ (ringbufferFree rb).toNat := by
  have hsplit : readfdSplit rb ≤ (ringbufferFree rb).toNat := by
    unfold readfdSplit
    simp only
    split <;> omega
  unfold firstPart at h
  split at h
  · have := readResult_le h
    omega
  · cases h
    simp

/-- Whatever the calls return, no more than the free space is stored, and `pwrite` moves
by what is stored. -/
theorem readfd_stored (r₁ r₂ : Option (List UInt8)) :
    ((ringbufferReadfd rb r₁ r₂).stored.length : Int) ≤ ringbufferFree rb ∧
      (ringbufferReadfd rb r₁ r₂).rb.pwrite =
        (rb.pwrite + (ringbufferReadfd rb r₁ r₂).stored.length) % rb.size := by
  have h0 := free_nonneg hp
  rcases ringbufferReadfd_cases hp r₁ r₂ with ⟨-, e⟩ | ⟨bs₁, bs₂, ret, h₁, h₂, e⟩
  · rw [e]
    exact ⟨by simpa using h0, by simp [Nat.mod_eq_of_lt hp]⟩
  · have hle := (firstPart_le hp h₁).2
    rw [e]
    refine ⟨by rw [List.length_append]; omega, ?_⟩
    simp only [filled, Nat.mod_add_mod, List.length_append, Nat.add_assoc]

/-- The free space lies in one piece. -/
theorem calls_single (r₁ r₂ : Option (List UInt8))
    (hfit : rb.pwrite + (ringbufferFree rb).toNat ≤ rb.size) :
    (ringbufferReadfd rb r₁ r₂).calls = [⟨rb.pwrite, (ringbufferFree rb).toNat⟩] := by
  have hsplit := readfdSplit_fit hfit
  have hpart : firstPart rb r₁ = some [] := by rw [firstPart, if_neg (by omega)]
  rcases ringbufferReadfd_cases hp r₁ r₂ with ⟨h, -⟩ | ⟨bs₁, bs₂, ret, h₁, -, e⟩
  · rw [hpart] at h
    cases h
  · rw [hpart] at h₁
    cases h₁
    rw [e, firstCall, if_neg (by omega), List.length_nil, Nat.add_zero, Nat.mod_eq_of_lt hp,
      Nat.sub_zero, List.nil_append]

/-- The region of the second call, behind a first part of which `all` was offered. -/
theorem secondCall_inside (all : List UInt8) {bs₁ : List UInt8}
    (hwrap : rb.size < rb.pwrite + (ringbufferFree rb).toNat)
    (h₁ : bs₁ = all.take (rb.size - rb.pwrite)) :
    (rb.pwrite + bs₁.length) % rb.size + ((ringbufferFree rb).toNat - bs₁.length) ≤ rb.size ↔
      rb.size - rb.pwrite ≤ all.length ∧ rb.pwrite + (ringbufferFree rb).toNat ≤ 2 * rb.size := by
  have hlen : bs₁.length = min (rb.size - rb.pwrite) all.length := by rw [h₁, List.length_take]
  by_cases hfull : rb.size - rb.pwrite ≤ all.length
  · have hend : rb.pwrite + bs₁.length = rb.size := by omega
    rw [hend, Nat.mod_self]
    omega
  · rw [Nat.mod_eq_of_lt (by omega)]
    omega

/-- **Regions.** For every state and all results, the calls stay inside the storage, store
what is free at most and move the writer by it exactly when the first part is read
whole, or not at all, where the free space wraps. -/
theorem readfdOk_iff (r₁ r₂ : Option (List UInt8)) :
    ReadfdOk rb (ringbufferReadfd rb r₁ r₂) ↔ FirstPartFull rb r₁ := by
  obtain ⟨hmost, hadv⟩ := readfd_stored hp r₁ r₂
  have hin : ReadfdOk rb (ringbufferReadfd rb r₁ r₂) ↔
      ∀ c ∈ (ringbufferReadfd rb r₁ r₂).calls, c.offset + c.count ≤ rb.size :=
    ⟨fun h => h.inside, fun h => ⟨h, hmost, hadv⟩⟩
  rw [hin]
  by_cases hfit : rb.pwrite + (ringbufferFree rb).toNat ≤ rb.size
  · rw [calls_single hp r₁ r₂ hfit]
    exact ⟨fun _ => .inl hfit, fun _ c hc => List.mem_singleton.mp hc ▸ hfit⟩
  · have hsplit := readfdSplit_wrap hfit
    have hfirst : firstCall rb = [⟨rb.pwrite, rb.size - rb.pwrite⟩] := by
      rw [firstCall, if_pos (by omega), hsplit]
    have hend : rb.pwrite + (rb.size - rb.pwrite) ≤ rb.size := by omega
    have hpart : firstPart rb r₁ = r₁.map (·.take (rb.size - rb.pwrite)) := by
      rw [firstPart, if_pos (by omega), hsplit, readResult]
    cases r₁ with
    | none =>
      rcases ringbufferReadfd_cases hp none r₂ with ⟨-, e⟩ | ⟨bs₁, bs₂, ret, h₁, -⟩
      · rw [e, hfirst]
        exact ⟨fun _ => .inr (.inl rfl), fun _ c hc => List.mem_singleton.mp hc ▸ hend⟩
      · rw [hpart] at h₁
        cases h₁
    | some all =>
      rcases ringbufferReadfd_cases hp (some all) r₂ with ⟨h, -⟩ | ⟨bs₁, bs₂, ret, h₁, -, e⟩
      · rw [hpart] at h
        cases h
      · rw [hpart, Option.map_some, Option.some.injEq] at h₁
        have hsecond := secondCall_inside hp all (by omega) h₁.symm
        rw [e, hfirst]
        constructor
        · intro h
          refine .inr (.inr ⟨all, rfl, hsecond.mp ?_⟩)
          exact h ⟨_, _⟩ (List.mem_append_right _ (List.mem_singleton_self _))
        · rintro (h | h | ⟨all', hall, h⟩)
          · exact absurd h hfit
          · cases h
          · cases hall
            intro c hc
            rcases List.mem_append.mp hc with hc | hc
            · exact List.mem_singleton.mp hc ▸ hend
            · exact List.mem_singleton.mp hc ▸ hsecond.mpr h

end Readfd

/-! ## What was read is written -/

theorem filled_eq_pushed {rb : Ringbuffer} {bs : List UInt8}
    (h : rb.pwrite + bs.length ≤ rb.size) : filled rb bs = pushed rb bs := by
  rw [filled, pushed, fill_eq_put _ h]

theorem filled_filled_eq_pushed {rb : Ringbuffer} (hp : rb.pwrite < rb.size) {bs₁ bs₂ : List UInt8}
    (h₁ : bs₁.length = rb.size - rb.pwrite) (hlen : (bs₁ ++ bs₂).length ≤ rb.size) :
    filled (filled rb bs₁) bs₂ = pushed rb (bs₁ ++ bs₂) := by
  have hend : (rb.pwrite + bs₁.length) % rb.size = 0 := by
    rw [show rb.pwrite + bs₁.length = rb.size by omega, Nat.mod_self]
  have hput := fill_fill_eq_put rb.data hp hlen
  rw [← h₁, List.take_left, List.drop_left] at hput
  simp only [filled, pushed, hend, hput, Nat.zero_add]
  congr 1
  rw [List.length_append, show rb.pwrite + (bs₁.length + bs₂.length) = bs₂.length + rb.size by omega,
    Nat.add_mod_right]

/-- Four bytes, no reader, the writer at the third. -/
def nearEnd : Ringbuffer where
  pread _ := 0
  minPread := 0
  pwrite := 2
  data _ := 0
  size := 4
  readers := 0

theorem readfdOk_iff_nearEnd :
    ReadfdOk nearEnd (ringbufferReadfd nearEnd (some [1, 2]) (some [3])) ↔
      FirstPartFull nearEnd (some [1, 2]) :=
  readfdOk_iff (by decide) (some [1, 2]) (some [3])

/-- **Counterexample.** A first part of one byte is followed by a call for two bytes at the
last cell. -/
theorem shortFirst_outside : ¬ReadfdOk nearEnd (ringbufferReadfd nearEnd (some [1]) none) := by
  intro h
  exact absurd (h.inside ⟨3, 2⟩ (by decide)) (by decide)

end Sighttpd.L2
