import Sighttpd.L2Stream.Channel
import Sighttpd.L2Stream.Readfd

/-!
# The Stdin stream (`src/stream.c`, `src/fdstream.c`)

`stream_writer` fills the ring buffer from the descriptor, `ringbuffer_free` bytes at most at a
time; each client runs `fdstream_body`. `stdinStream` interleaves the thread with any number of
clients, one ring-buffer call a step.

* `readfd_write`: a fill that ends inside the storage is a write of what it stores.
* `stream_broadcast`: a run is one of the broadcast while no fill overruns a reader.
* `stream_alone`: with one client at a time no fill does, however slow the client is. `min_pread` is
  stale between two clients, but never ahead of the one that is connected.
-/
namespace Sighttpd.L2
open Circular

/-! ## The thread and its clients -/

/-- mirrors src/stream.h:11-15 -/
structure StdinStream where
  channel : Channel
  active : Option Bool         -- `none` is what `malloc` left there

/-- mirrors src/stream.c:57 -/
def STREAM_LEN : Nat := 4096 * 16 * 32

/-- `ringbuffer_init` on the structure `rb`, with `data` in the storage.
mirrors src/stream.c:52-73 -/
def streamOpen (rb : Ringbuffer) (data : Nat → UInt8) (len : Nat) : StdinStream :=
  ⟨Channel.init rb data len, none⟩

/-- The thread starts; it finds the descriptor readable; a client is accepted; it takes a step. -/
inductive StreamLbl where
  | start
  | fill (r₁ r₂ : Option (List UInt8))
  | accept
  | client (i : Nat) (e : Event)
  deriving DecidableEq, Repr

/-- Nothing unsets `active`: `stream_close` is called when the resource is deleted.
mirrors src/stream.c:19-48, src/fdstream.c:48-78 -/
def streamStep (s : StdinStream) : StreamLbl → Option StdinStream
  | .start => some { s with active := some true }
  | .fill r₁ r₂ =>
    if s.active = some true then
      let out := ringbufferReadfd s.channel.rb r₁ r₂
      some { s with channel := s.channel.store out.rb out.stored }
    else none
  | .accept => some { s with channel := s.channel.accept }
  | .client i e => (s.channel.clientStep s.active i e).map ({ s with channel := · })

def stdinStream : Machine StdinStream StreamLbl := ⟨streamStep⟩

/-! ## The conditions on a step -/

/-- No byte of a fill is stored behind the storage. The second `read(2)` may ask for that where the
first one was short. -/
def EndsInside (rb : Ringbuffer) (r₁ r₂ : Option (List UInt8)) : Prop :=
  ∀ bs ∈ firstPart rb r₁, (rb.pwrite + bs.length) % rb.size +
    ((ringbufferReadfd rb r₁ r₂).stored.length - bs.length) ≤ rb.size

/-- A client opens while a descriptor is left; a fill ends inside the storage and leaves room for
what every reader has not read. -/
def NoOverrun (s : StdinStream) : StreamLbl → Prop
  | .client i _ => OpensFree s.channel i
  | .fill r₁ r₂ => EndsInside s.channel.rb r₁ r₂ ∧
      LeavesRoom s.channel.rb (ringbufferReadfd s.channel.rb r₁ r₂).stored.length
  | _ => True

/-- A client opens when no other is connected; a fill ends inside the storage. -/
def Alone (s : StdinStream) : StreamLbl → Prop
  | .client i _ => s.channel.server.sessions[i]? = some .opening → held s.channel.server = []
  | .fill r₁ r₂ => EndsInside s.channel.rb r₁ r₂
  | _ => True

instance (rb : Ringbuffer) (r₁ r₂ : Option (List UInt8)) : Decidable (EndsInside rb r₁ r₂) :=
  inferInstanceAs (Decidable (∀ bs ∈ firstPart rb r₁, _))

instance (s : StdinStream) (l : StreamLbl) : Decidable (NoOverrun s l) :=
  match l with
  | .start => isTrue trivial
  | .accept => isTrue trivial
  | .client i _ => inferInstanceAs (Decidable (OpensFree s.channel i))
  | .fill _ _ => inferInstanceAs (Decidable (_ ∧ _))

instance (s : StdinStream) (l : StreamLbl) : Decidable (Alone s l) :=
  match l with
  | .start => isTrue trivial
  | .accept => isTrue trivial
  | .client _ _ => inferInstanceAs (Decidable (_ = _ → _ = _))
  | .fill r₁ r₂ => inferInstanceAs (Decidable (EndsInside s.channel.rb r₁ r₂))

/-! ## A fill -/

theorem filled_filled_inside {rb : Ringbuffer} {bs₁ bs₂ : List UInt8}
    (h₁ : rb.pwrite + bs₁.length < rb.size)
    (h₂ : rb.pwrite + bs₁.length + bs₂.length ≤ rb.size) :
    filled (filled rb bs₁) bs₂ = pushed rb (bs₁ ++ bs₂) := by
  have hlen : rb.pwrite + (bs₁ ++ bs₂).length ≤ rb.size := by
    rw [List.length_append]
    omega
  have hfill : fill (fill rb.data rb.pwrite bs₁) (rb.pwrite + bs₁.length) bs₂ =
      fill rb.data rb.pwrite (bs₁ ++ bs₂) := fill_fill ..
  rw [← filled_eq_pushed hlen]
  simp only [filled, Nat.mod_eq_of_lt h₁, hfill, List.length_append, Nat.add_assoc]

/-- A fill that ends inside the storage is a `ringbuffer_write` of what it stores. -/
theorem readfd_write {rb : Ringbuffer} (h : Wf rb) {r₁ r₂ : Option (List UInt8)}
    (hin : EndsInside rb r₁ r₂) :
    (ringbufferReadfd rb r₁ r₂).rb = ringbufferWrite rb (ringbufferReadfd rb r₁ r₂).stored := by
  have hp := h.pwrite_lt
  have hlt := h.free_lt
  have hmost := (readfd_stored hp r₁ r₂).1
  rw [ringbufferWrite_eq h (by omega)]
  rcases ringbufferReadfd_cases hp r₁ r₂ with ⟨-, e⟩ | ⟨bs₁, bs₂, ret, h₁, h₂, e⟩
  · rw [e]
    exact (filled_nil hp).symm.trans (filled_eq_pushed (Nat.le_of_lt hp))
  · have hend := hin bs₁ h₁
    rw [e] at hend hmost ⊢
    simp only [List.length_append, Nat.add_sub_cancel_left] at hend
    simp only at hmost ⊢
    have hfirst : rb.pwrite + bs₁.length ≤ rb.size := by
      have hle := (firstPart_le hp h₁).1
      unfold readfdSplit at hle
      simp only at hle
      split at hle <;> omega
    by_cases hfull : rb.pwrite + bs₁.length = rb.size
    · exact filled_filled_eq_pushed hp (by omega) (by omega)
    · have hshort : rb.pwrite + bs₁.length < rb.size := by omega
      rw [Nat.mod_eq_of_lt hshort] at hend
      exact filled_filled_inside hshort hend

/-! ## One step -/

/-- **Step.** What the stream does is done in the broadcast. -/
theorem stream_step {s s' : StdinStream} (h : ChannelInv s.channel) {l : StreamLbl}
    (hg : NoOverrun s l) (hs : streamStep s l = some s') :
    ChannelInv s'.channel ∧ Follows s.channel s'.channel := by
  cases l with
  | start =>
    cases hs
    exact ⟨h, [], rfl⟩
  | accept =>
    cases hs
    exact channel_accept h
  | client i e =>
    obtain ⟨ch, hch, rfl⟩ := Option.map_eq_some_iff.mp hs
    exact channel_client h hg hch
  | fill r₁ r₂ =>
    obtain ⟨hin, hroom⟩ := hg
    simp only [streamStep] at hs
    by_cases ha : s.active = some true
    · rw [if_pos ha] at hs
      cases hs
      simp only [readfd_write h.wf hin]
      exact channel_store h hroom
    · rw [if_neg ha] at hs
      cases hs

/-! ## Runs -/

/-- **The stream is a broadcast.** In a run of any length, with any clients, whatever their
`write(2)` calls take: while no fill overruns a reader, what the stream does is a run of the
broadcast, and each client was sent exactly what it has received in it: the bytes stored from its
`ringbuffer_open` on, without a gap. -/
theorem stream_broadcast (rb : Ringbuffer) (data : Nat → UInt8) (len : Nat) (hl : 0 < len)
    (run : List StreamLbl) (hg : stdinStream.Guarded NoOverrun (streamOpen rb data len) run)
    (s : StdinStream) (hs : stdinStream.exec (streamOpen rb data len) run = some s) :
    (∃ as, (Broadcast.machine UInt8).exec ⟨[], []⟩ as = some s.channel.broadcast) ∧
      Delivers s.channel := by
  have href := Machine.exec_refines (I := fun s : StdinStream => ChannelInv s.channel)
    (A := Broadcast.machine UInt8) (f := fun s : StdinStream => s.channel.broadcast)
    (fun _ _ _ h hc hs => stream_step h hc hs) (channelInv_init rb data hl) hg hs
  exact ⟨href.2, delivers_of_inv href.1⟩

/-- Two clients, the second one faster. -/
def twoClients : List StreamLbl :=
  [.start, .accept, .accept, .client 0 (.call none none), .fill (some [1, 2]) (some [1, 2]),
    .client 1 (.call none none), .fill (some [3, 4, 5]) (some [3, 4, 5]),
    .client 0 (.flag true), .client 0 (.call none none), .client 0 (.call none (some 1)),
    .client 1 (.flag true), .client 1 (.call none none), .client 1 (.call none (some 3)),
    .fill (some [6]) (some [6])]

theorem stream_broadcast_twoClients :
    ∃ s, stdinStream.exec (streamOpen blank (fun _ => 0) STREAM_LEN) twoClients = some s ∧
      (∃ as, (Broadcast.machine UInt8).exec ⟨[], []⟩ as = some s.channel.broadcast) ∧ Delivers s.channel := by
  have he : (stdinStream.exec (streamOpen blank (fun _ => 0) STREAM_LEN) twoClients).isSome = true := by
    decide +kernel
  obtain ⟨s, hs⟩ := Option.isSome_iff_exists.mp he
  exact ⟨s, hs, stream_broadcast blank (fun _ => 0) STREAM_LEN (by decide) twoClients
    (by decide +kernel) s hs⟩

/-! ## One client at a time -/

/-- One reader at most, and `min_pread` behind it. -/
structure AloneInv (ch : Channel) : Prop extends ChannelInv ch where
  one : (held ch.server).length ≤ 1
  slowest : ∀ r, IsOpen ch.rb r → lag ch.rb r ≤ minLag ch.rb

theorem AloneInv.unique {ch : Channel} (h : AloneInv ch) {i j : Nat} (hi : IsOpen ch.rb i)
    (hj : IsOpen ch.rb j) : i = j := by
  have hone := h.one
  have hmi := isOpen_held h.toChannelInv hi
  have hmj := isOpen_held h.toChannelInv hj
  cases e : held ch.server with
  | nil =>
    rw [e] at hmi
    cases hmi
  | cons rd rest =>
    rw [e, List.length_cons] at hone
    have hnil : rest = [] := List.eq_nil_of_length_eq_zero (by omega)
    rw [e, hnil, List.mem_singleton] at hmi hmj
    rw [← hmj] at hmi
    exact Option.some.inj hmi

/-- A refresh finds the only reader. -/
theorem slowestIsLast_of_one {rb : Ringbuffer} (hone : ∀ i j, IsOpen rb i → IsOpen rb j → i = j)
    (c : Call) : SlowestIsLast rb c := by
  intro takes _ l i hl _ hi
  obtain rfl := hone i l hi.1 hl.1
  exact Int.le_refl _

/-- A session's step is one of the calls of `fanout`, or none. -/
theorem session_call {rb rb' : Ringbuffer} {pc pc' : Pc} {e : Event} {sent : List UInt8}
    (ho : ∀ r, pc.held.join = some r → IsOpen rb r)
    (hs : sessionStep rb pc e = some (rb', pc', sent)) :
    rb' = rb ∨ ∃ c s', (∀ buf, c ≠ .write buf) ∧ fanoutStep (asOf rb) c = some s' ∧ s'.rb = rb' := by
  cases sessionStep_cases hs with
  | idle => exact .inl rfl
  | opens w₁ w₂ =>
    refine .inr ⟨.open, ?_⟩
    cases e : ringbufferOpen rb with
    | mk rb₁ rd =>
      cases rd with
      | none => exact ⟨{ asOf rb with rb := rb₁ }, (fun _ e => by cases e), by simp only [fanoutStep, asOf, e], rfl⟩
      | some i =>
        exact ⟨⟨rb₁, clearAt (asOf rb).delivered i, clearAt (asOf rb).written i⟩,
          (fun _ e => by cases e), by simp only [fanoutStep, asOf, e], rfl⟩
  | sends r w₁ w₂ _ hh =>
    exact .inr ⟨.writefd r w₁ w₂, _, (fun _ e => by cases e), if_pos (ho r rfl), rfl⟩
  | closes r w₁ w₂ => exact .inr ⟨.close r, _, (fun _ e => by cases e), if_pos (ho r rfl), rfl⟩

theorem inv_asOf {ch : Channel} (h : AloneInv ch) : Inv (asOf ch.rb) :=
  ⟨h.wf, fun _ _ => rfl, h.slowest⟩

theorem noOverrun_of_alone {s : StdinStream} (h : AloneInv s.channel) {l : StreamLbl}
    (hg : Alone s l) : NoOverrun s l := by
  cases l with
  | start => trivial
  | accept => trivial
  | client i e =>
    intro hi
    rw [hg hi]
    exact (by decide : 0 < MAX_READERS)
  | fill r₁ r₂ =>
    refine ⟨hg, fun r _ ho => ?_⟩
    have hmost := (readfd_stored h.wf.pwrite_lt r₁ r₂).1
    rw [h.wf.free_eq (h.wf.readers_ne_zero.mpr ⟨r, ho⟩)] at hmost
    have := h.slowest r ho
    omega

theorem held_set {xs : List Pc} {i : Nat} {pc : Pc} (hi : xs[i]? = some pc) (pc' : Pc) :
    ((xs.set i pc').filterMap Pc.held).length + pc.held.toList.length =
      (xs.filterMap Pc.held).length + pc'.held.toList.length := by
  obtain ⟨front, back, hxs, hset⟩ := split_at hi
  have hlen : ∀ p : Pc, ((front ++ p :: back).filterMap Pc.held).length =
      p.held.toList.length + ((front ++ back).filterMap Pc.held).length := by
    intro p
    rw [(List.perm_middle.filterMap Pc.held).length_eq]
    cases hp : p.held with
    | none =>
      rw [List.filterMap_cons_none hp]
      exact (Nat.zero_add _).symm
    | some rd =>
      rw [List.filterMap_cons_some hp]
      exact Nat.add_comm _ 1
  rw [hset, hlen, hxs, hlen]
  omega

/-- One client is connected at most, when it opens alone. -/
theorem one_of_step {ch : Channel} (hone : (held ch.server).length ≤ 1) {i : Nat} {pc pc' : Pc}
    {rb' : Ringbuffer} {e : Event} {sent : List UInt8} (hi : ch.server.sessions[i]? = some pc)
    (halone : pc = .opening → held ch.server = [])
    (hstep : sessionStep ch.rb pc e = some (rb', pc', sent)) :
    ((ch.server.sessions.set i pc').filterMap Pc.held).length ≤ 1 := by
  have hset := held_set hi pc'
  have hheld : held ch.server = ch.server.sessions.filterMap Pc.held := rfl
  rw [← hheld] at hset
  cases moves_of_step hstep with
  | same _ _ hh hne hm =>
    rw [hh] at hset
    omega
  | opened r hr hfree hm =>
    rw [halone rfl] at hset
    exact Nat.le_of_eq hset
  | full hall =>
    rw [halone rfl] at hset
    exact Nat.le_of_eq hset
  | closed r hm =>
    have hafter : (Pc.held .done).toList.length = 0 := rfl
    omega

/-- A write of no more than the free space. -/
theorem slowest_write {ch : Channel} (h : AloneInv ch) {new : List UInt8}
    (hfree : (new.length : Int) ≤ ringbufferFree ch.rb) {r : Nat}
    (ho : IsOpen (ringbufferWrite ch.rb new) r) :
    lag (ringbufferWrite ch.rb new) r ≤ minLag (ringbufferWrite ch.rb new) := by
  have hwrite : fanoutStep (asOf ch.rb) (.write new) = some { asOf ch.rb with
      rb := ringbufferWrite ch.rb new, written := fun j => unread ch.rb j ++ new } := if_pos hfree
  exact (inv_step (inv_asOf h) (slowestIsLast_of_one (fun _ _ => h.unique) _) hwrite).slowest r ho

/-- A step of a client that opens alone. -/
theorem alone_client {ch ch' : Channel} (h : AloneInv ch) {active : Option Bool} {i : Nat} {e : Event}
    (halone : ch.server.sessions[i]? = some .opening → held ch.server = [])
    (hs : ch.clientStep active i e = some ch') :
    (held ch'.server).length ≤ 1 ∧ ∀ r, IsOpen ch'.rb r → lag ch'.rb r ≤ minLag ch'.rb := by
  obtain ⟨x, rb', pc', sent, hi, hstep, -, rfl⟩ := clientStep_cases h.toChannelInv hs
  have hopen : ∀ r, x.pc.held.join = some r → IsOpen ch.rb r := fun r hr =>
    isOpen_of_connected h.toChannelInv (List.mem_of_getElem? hi) hr
  have hpc : ch.server.sessions[i]? = some x.pc := by
    show (ch.clients.map (·.pc))[i]? = _
    rw [List.getElem?_map, hi]
    rfl
  refine ⟨?_, ?_⟩
  · show (((ch.clients.set i _).map (·.pc)).filterMap Pc.held).length ≤ 1
    rw [List.map_set]
    exact one_of_step h.one hpc (fun hp => halone (by rw [hpc, hp])) hstep
  · rcases session_call hopen hstep with rfl | ⟨c, f, hc, hf, rfl⟩
    · exact h.slowest
    · exact (inv_step (inv_asOf h) (slowestIsLast_of_one (fun _ _ => h.unique) c) hf).slowest

/-- **Step.** With one client at a time the flow control is sound. -/
theorem aloneInv_step {s s' : StdinStream} (h : AloneInv s.channel) {l : StreamLbl} (hg : Alone s l)
    (hs : streamStep s l = some s') : AloneInv s'.channel := by
  have hinv := (stream_step h.toChannelInv (noOverrun_of_alone h hg) hs).1
  cases l with
  | start =>
    cases hs
    exact h
  | accept =>
    cases hs
    refine ⟨hinv, ?_, h.slowest⟩
    have hheld : held s.channel.accept.server = held s.channel.server := by
      simp [held, Channel.server, Channel.accept, Pc.held]
    rw [hheld]
    exact h.one
  | client i e =>
    obtain ⟨ch, hch, rfl⟩ := Option.map_eq_some_iff.mp hs
    obtain ⟨hone, hslow⟩ := alone_client h hg hch
    exact ⟨hinv, hone, hslow⟩
  | fill r₁ r₂ =>
    simp only [streamStep] at hs
    by_cases ha : s.active = some true
    · rw [if_pos ha] at hs
      cases hs
      refine ⟨hinv, h.one, fun r ho => ?_⟩
      simp only [Channel.store, readfd_write h.wf hg] at ho ⊢
      exact slowest_write h (readfd_stored h.wf.pwrite_lt r₁ r₂).1 ho
    · rw [if_neg ha] at hs
      cases hs

/-- **One client at a time.** In a run of any length in which a client opens only when no other is
connected, no fill overruns it, and every client was sent the bytes stored from its
`ringbuffer_open` on without a gap, however slowly it takes them. -/
theorem stream_alone (rb : Ringbuffer) (data : Nat → UInt8) (len : Nat) (hl : 0 < len)
    (run : List StreamLbl) (hg : stdinStream.Guarded Alone (streamOpen rb data len) run) :
    stdinStream.Guarded NoOverrun (streamOpen rb data len) run ∧
      stdinStream.Along (fun s => Delivers s.channel) (streamOpen rb data len) run := by
  have hinit : AloneInv (streamOpen rb data len).channel :=
    ⟨channelInv_init rb data hl, Nat.zero_le _, fun r ho => absurd ho (not_isOpen_init rb data len r)⟩
  have hstep : ∀ s l s', AloneInv s.channel → Alone s l → stdinStream.step s l = some s' →
      AloneInv s'.channel := fun _ _ _ h hc hs => aloneInv_step h hc hs
  refine ⟨Machine.guarded_mono hstep (fun _ _ h hc => noOverrun_of_alone h hc) hinit hg, ?_⟩
  exact Machine.along_of_guarded (fun _ h => delivers_of_inv h.toChannelInv) hstep hinit hg

/-- A client connects, is sent a part of what the first fill brought, and leaves when a `write(2)`
fails; another one follows. -/
def oneThenOther : List StreamLbl :=
  [.start, .accept, .client 0 (.call none none), .fill (some [1, 2, 3]) (some [1, 2, 3]),
    .client 0 (.flag true), .client 0 (.call none none), .client 0 (.call none (some 2)),
    .client 0 (.flag true), .client 0 (.call none none), .client 0 (.call none none),
    .client 0 (.call none none), .accept, .client 1 (.call none none),
    .fill (some [4]) (some [4])]

theorem stream_alone_oneThenOther :
    stdinStream.Guarded NoOverrun (streamOpen blank (fun _ => 0) STREAM_LEN) oneThenOther ∧
      stdinStream.Along (fun s => Delivers s.channel) (streamOpen blank (fun _ => 0) STREAM_LEN)
        oneThenOther :=
  stream_alone blank (fun _ => 0) STREAM_LEN (by decide) oneThenOther (by decide +kernel)

end Sighttpd.L2
