import Sighttpd.Core.Broadcast
import Sighttpd.L2Stream.SessionSteps

/-!
# A ring buffer and its clients

`fdstream_body` and `shrecord_body` forward a ring buffer that a thread writes to. A `Channel` is
such a buffer with its clients and all that was stored in it. It is to be a broadcast of what is
stored: a client joins with its `ringbuffer_open`, and from then on misses nothing, whatever its
`write(2)` calls take.

* `channel_client`, `channel_accept`, `channel_store`: a step keeps the channel a broadcast, a write
  where it leaves room for what every reader has not read.
* `delivers_of_inv`: what each client was sent is what it has received of the broadcast.
-/
namespace Sighttpd.L2

/-! ## Clients and channel -/

structure Client where
  pc : Pc
  sent : List UInt8            -- what reached its socket
  joined : Option Nat          -- the bytes stored before its `ringbuffer_open`
  deriving DecidableEq, Repr

def Client.connected (x : Client) : Option Nat := x.pc.held.join

structure Channel where
  rb : Ringbuffer
  clients : List Client
  stored : List UInt8

def Channel.init (rb : Ringbuffer) (data : Nat → UInt8) (len : Nat) : Channel :=
  ⟨ringbufferInit rb data len, [], []⟩

/-- The flag that `while (active)` reads; `none` is memory that was not set. -/
def readsActive (active : Option Bool) : Pc → Event → Bool
  | .looping _, .flag b => b == active.getD b
  | _, _ => true

/-- The client after a step; `n` bytes are stored by then. -/
def Client.after (x : Client) (n : Nat) (pc : Pc) (sent : List UInt8) : Client :=
  ⟨pc, x.sent ++ sent, if x.pc = .opening then some n else x.joined⟩

/-- A client is accepted; its body begins with `ringbuffer_open`. -/
def Channel.accept (c : Channel) : Channel := { c with clients := c.clients ++ [⟨.opening, [], none⟩] }

/-- A step of client `i`. -/
def Channel.clientStep (c : Channel) (active : Option Bool) (i : Nat) (e : Event) : Option Channel :=
  match c.clients[i]? with
  | none => none
  | some x =>
    if readsActive active x.pc e then
      (sessionStep c.rb x.pc e).map fun (rb, pc, sent) =>
        { c with rb, clients := c.clients.set i (x.after c.stored.length pc sent) }
    else none

/-- `new` was stored in the buffer, which is `rb` now. -/
def Channel.store (c : Channel) (rb : Ringbuffer) (new : List UInt8) : Channel :=
  { c with rb, stored := c.stored ++ new }

/-! ## The broadcast it is to be -/

def Client.cursor (x : Client) : Option Cursor := x.joined.map (⟨·, x.sent.length⟩)

def Channel.broadcast (c : Channel) : Broadcast UInt8 := ⟨c.stored, c.clients.map (·.cursor)⟩

/-- What a client was sent is what it has received of the broadcast, and what it has still to
receive is in the ring buffer. -/
def Delivers (c : Channel) : Prop :=
  ∀ x ∈ c.clients, ∀ cur, x.cursor = some cur →
    x.sent = cur.received c.stored ∧ ∀ r, x.connected = some r → unread c.rb r = cur.pending c.stored

/-- A run of the broadcast leads from one to the other. -/
def Follows (c c' : Channel) : Prop :=
  ∃ as, (Broadcast.machine UInt8).exec c.broadcast as = some c'.broadcast

/-- The clients as sessions on the ring buffer. -/
def Channel.server (c : Channel) : Server := ⟨c.rb, c.clients.map (·.pc)⟩

/-- Client `i` does not open while sixteen are connected. -/
def OpensFree (c : Channel) (i : Nat) : Prop :=
  c.server.sessions[i]? = some .opening → (held c.server).length < MAX_READERS

/-- `n` bytes more overrun no reader. -/
def LeavesRoom (rb : Ringbuffer) (n : Nat) : Prop :=
  ∀ r ∈ List.range MAX_READERS, IsOpen rb r → lag rb r + n < rb.size

instance (c : Channel) (i : Nat) : Decidable (OpensFree c i) :=
  inferInstanceAs (Decidable (_ = _ → _ < _))

instance (rb : Ringbuffer) (n : Nat) : Decidable (LeavesRoom rb n) :=
  inferInstanceAs (Decidable (∀ r ∈ List.range MAX_READERS, _))

/-! ## One client's step -/

/-- What holds of a client: it was sent what it has received, and the rest is unread. -/
structure ClientInv (rb : Ringbuffer) (stored : List UInt8) (x : Client) : Prop where
  fresh : x.pc.before → x.joined = none
  silent : x.joined = none → x.sent = []
  within : ∀ c, x.cursor = some c → c.Within stored
  sent : ∀ c, x.cursor = some c → x.sent = c.received stored
  ring : ∀ r, x.connected = some r → ∃ c, x.cursor = some c ∧ unread rb r = c.pending stored

theorem clientInv_new (rb : Ringbuffer) (stored : List UInt8) :
    ClientInv rb stored ⟨.opening, [], none⟩ where
  fresh _ := rfl
  silent _ := rfl
  within c hc := by cases hc
  sent c hc := by cases hc
  ring r hr := by cases hr

section Client
variable {rb rb' : Ringbuffer} {stored sent : List UInt8} {x : Client} {pc' : Pc}

theorem after_cursor (hp : x.pc ≠ .opening) (n : Nat) (pc : Pc) (bs : List UInt8) :
    (x.after n pc bs).cursor = x.cursor.map (·.add bs.length) := by
  unfold Client.after Client.cursor
  rw [if_neg hp, List.length_append]
  cases x.joined <;> rfl

/-- A client joins with its `ringbuffer_open`. -/
theorem clientInv_join (h : ClientInv rb stored x) (hr : RingStep rb rb' x.pc pc' sent)
    (hp : x.pc = .opening) (hb : ¬pc'.before) :
    (x.after stored.length pc' sent).cursor = some ⟨stored.length, 0⟩ ∧
      ClientInv rb' stored (x.after stored.length pc' sent) := by
  have hnone : x.pc.held.join = none := by rw [hp]; rfl
  have hempty : x.sent = [] := h.silent (h.fresh (hp ▸ trivial))
  have hs : sent = [] := by
    cases e : pc'.held.join with
    | none => exact hr.silent e
    | some r => exact (hr.opened r (by rw [hnone]; intro e; cases e) e).2.1
  have hc : (x.after stored.length pc' sent).cursor = some ⟨stored.length, 0⟩ := by
    unfold Client.after Client.cursor
    rw [if_pos hp, hempty, hs]
    rfl
  refine ⟨hc, fun hb' => absurd hb' hb, fun hj => ?_, fun c e => ?_, fun c e => ?_, fun r e => ?_⟩
  · rw [Client.after, if_pos hp] at hj
    cases hj
  · rw [hc] at e
    cases e
    exact Cursor.within_start stored
  · rw [hc] at e
    cases e
    rw [Cursor.received_start, Client.after, hempty, hs]
    rfl
  · refine ⟨_, hc, ?_⟩
    rw [Cursor.pending_start]
    exact (hr.opened r (by rw [hnone]; intro e; cases e) e).2.2.2

/-- Any other step takes what it sends from the rest. -/
theorem clientInv_take (h : ClientInv rb stored x) (hr : RingStep rb rb' x.pc pc' sent)
    (hp : x.pc ≠ .opening) (hb : pc'.before → x.pc.before) :
    (∀ c, x.cursor = some c → ∃ rest, c.pending stored = sent ++ rest) ∧
      ClientInv rb' stored (x.after stored.length pc' sent) := by
  -- a connected client was connected before: the others send nothing
  have hkept : ∀ r, pc'.held.join = some r → x.connected = some r := by
    intro r hr'
    by_contra hne
    exact hp (hr.opened r hne hr').1
  have htake : ∀ c, x.cursor = some c → ∃ rest, c.pending stored = sent ++ rest ∧
      ∀ r, pc'.held.join = some r → unread rb' r = rest := by
    intro c hc
    cases e : pc'.held.join with
    | none =>
      rw [hr.silent e]
      exact ⟨_, rfl, fun r hr' => by cases hr'⟩
    | some r =>
      obtain ⟨c', hc', hu⟩ := h.ring r (hkept r e)
      rw [hc] at hc'
      cases hc'
      obtain ⟨-, hk⟩ := hr.kept r (hkept r e) e
      refine ⟨unread rb' r, by rw [← hu, hk], fun r' hr' => ?_⟩
      cases hr'
      rfl
  have hcur := after_cursor hp stored.length pc' sent
  refine ⟨fun c hc => ⟨_, (htake c hc).choose_spec.1⟩, fun hb' => ?_, fun hj => ?_, fun c e => ?_,
    fun c e => ?_, fun r e => ?_⟩
  · rw [Client.after, if_neg hp]
    exact h.fresh (hb hb')
  · rw [Client.after, if_neg hp] at hj
    have hconn : x.connected = none := by
      cases e : x.connected with
      | none => rfl
      | some r =>
        obtain ⟨c, hc, -⟩ := h.ring r e
        rw [Client.cursor, hj] at hc
        cases hc
    have hs : sent = [] := by
      cases e : pc'.held.join with
      | none => exact hr.silent e
      | some r =>
        have := hkept r e
        rw [hconn] at this
        cases this
    rw [Client.after, h.silent hj, hs]
    rfl
  · rw [hcur] at e
    obtain ⟨c₀, hc₀, rfl⟩ := Option.map_eq_some_iff.mp e
    obtain ⟨rest, hrest, -⟩ := htake c₀ hc₀
    exact (h.within c₀ hc₀).add (by rw [hrest, List.length_append]; omega)
  · rw [hcur] at e
    obtain ⟨c₀, hc₀, rfl⟩ := Option.map_eq_some_iff.mp e
    obtain ⟨rest, hrest, -⟩ := htake c₀ hc₀
    rw [Cursor.received_add, hrest, List.take_left, ← h.sent c₀ hc₀]
    rfl
  · obtain ⟨c₀, hc₀, -⟩ := h.ring r (hkept r e)
    obtain ⟨rest, hrest, hu⟩ := htake c₀ hc₀
    refine ⟨c₀.add sent.length, by rw [hcur, hc₀]; rfl, ?_⟩
    rw [Cursor.pending_add, hrest, List.drop_left]
    exact hu r e

/-- A fill is more to receive. -/
theorem clientInv_fill {new : List UInt8} (h : ClientInv rb stored x)
    (hu : ∀ r, x.connected = some r → unread rb' r = unread rb r ++ new) :
    ClientInv rb' (stored ++ new) x := by
  refine ⟨h.fresh, h.silent, fun c hc => (h.within c hc).append new, fun c hc => ?_, fun r hr => ?_⟩
  · rw [Cursor.received_append (h.within c hc)]
    exact h.sent c hc
  · obtain ⟨c, hc, hun⟩ := h.ring r hr
    refine ⟨c, hc, ?_⟩
    rw [Cursor.pending_append (h.within c hc), hu r hr, hun]

/-- The ring buffer has moved on for others only. -/
theorem ClientInv.other (h : ClientInv rb stored x)
    (hu : ∀ r, x.connected = some r → unread rb' r = unread rb r) : ClientInv rb' stored x := by
  refine ⟨h.fresh, h.silent, h.within, h.sent, fun r hr => ?_⟩
  rw [hu r hr]
  exact h.ring r hr

end Client

/-! ## One step -/

structure ChannelInv (ch : Channel) : Prop where
  wf : Wf ch.rb
  exclusive : Exclusive ch.server
  client : ∀ x ∈ ch.clients, ClientInv ch.rb ch.stored x

theorem channelInv_init (rb : Ringbuffer) (data : Nat → UInt8) {len : Nat} (hl : 0 < len) :
    ChannelInv (Channel.init rb data len) where
  wf := wf_init rb data hl
  exclusive := exclusive_init rb data len
  client x hx := by cases hx

theorem delivers_of_inv {ch : Channel} (h : ChannelInv ch) : Delivers ch := by
  intro x hx c hc
  have hx := h.client x hx
  refine ⟨hx.sent c hc, fun r hr => ?_⟩
  obtain ⟨c', hc', hu⟩ := hx.ring r hr
  rw [hc] at hc'
  cases hc'
  exact hu

theorem sent_receivedBy {ch : Channel} (h : ChannelInv ch) {i : Nat} {x : Client}
    (hx : ch.clients[i]? = some x) : x.sent = ch.broadcast.receivedBy i := by
  have hinv := h.client x (List.mem_of_getElem? hx)
  have hcursor : ch.broadcast.cursors[i]? = some x.cursor := by
    rw [Channel.broadcast, List.getElem?_map, hx]
    rfl
  rw [Broadcast.receivedBy, hcursor]
  cases hc : x.cursor with
  | some c => exact hinv.sent c hc
  | none => exact hinv.silent (Option.map_eq_none_iff.mp hc)

/-- The step is one of the session machine. -/
theorem server_client {ch : Channel} {i : Nat} {x : Client} {e : Event} {rb' : Ringbuffer} {pc' : Pc}
    {sent : List UInt8} (hi : ch.clients[i]? = some x)
    (hstep : sessionStep ch.rb x.pc e = some (rb', pc', sent)) :
    serverStep ch.server (.session i e) = some ⟨rb', (ch.clients.set i
      (x.after ch.stored.length pc' sent)).map (·.pc)⟩ := by
  have hpc : ch.server.sessions[i]? = some x.pc := by
    show (ch.clients.map (·.pc))[i]? = _
    rw [List.getElem?_map, hi]
    rfl
  simp only [serverStep, hpc]
  rw [show ch.server.rb = ch.rb from rfl, hstep, List.map_set]
  rfl

section Step
variable {ch ch' : Channel} (h : ChannelInv ch)
include h

/-- The descriptor of a connected client is open. -/
theorem isOpen_of_connected {x : Client} (hx : x ∈ ch.clients) {r : Nat}
    (hr : x.connected = some r) : IsOpen ch.rb r := by
  have hheld : some r ∈ held ch.server :=
    List.mem_filterMap.mpr ⟨x.pc, List.mem_map_of_mem hx, Option.join_eq_some_iff.mp hr⟩
  obtain ⟨r', hlt, e⟩ := h.exclusive.inRange _ hheld
  cases e
  refine ⟨hlt, ?_⟩
  rw [rdOpen_eq hlt]
  exact (h.exclusive.mask r).mpr hheld

/-- What a step of client `i` is. -/
theorem clientStep_cases {active : Option Bool} {i : Nat} {e : Event}
    (hs : ch.clientStep active i e = some ch') :
    ∃ x rb' pc' sent, ch.clients[i]? = some x ∧ sessionStep ch.rb x.pc e = some (rb', pc', sent) ∧
      RingStep ch.rb rb' x.pc pc' sent ∧ ch' = { ch with
        rb := rb', clients := ch.clients.set i (x.after ch.stored.length pc' sent) } := by
  simp only [Channel.clientStep] at hs
  cases hi : ch.clients[i]? with
  | none =>
    rw [hi] at hs
    cases hs
  | some x =>
    simp only [hi] at hs
    by_cases hf : readsActive active x.pc e
    · rw [if_pos hf] at hs
      obtain ⟨⟨rb', pc', sent⟩, hstep, e'⟩ := Option.map_eq_some_iff.mp hs
      have hx := List.mem_of_getElem? hi
      refine ⟨x, rb', pc', sent, rfl, hstep, ring_of_step h.wf (fun r hr => ?_) hstep, e'.symm⟩
      exact isOpen_of_connected h hx hr
    · rw [if_neg hf] at hs
      cases hs

/-- The clients other than `i` keep what they had. -/
theorem clients_after {i : Nat} {x x' : Client} (hi : ch.clients[i]? = some x)
    {rb' : Ringbuffer} {sent : List UInt8} (hr : RingStep ch.rb rb' x.pc x'.pc sent)
    (hx' : ClientInv rb' ch.stored x') :
    ∀ y ∈ ch.clients.set i x', ClientInv rb' ch.stored y := by
  obtain ⟨front, back, hsplit, hset⟩ := split_at hi
  have hheld : ∀ y ∈ front ++ back, ∀ r, y.connected = some r → x.pc.held.join ≠ some r := by
    intro y hy r hyr hxr
    have hperm : (held ch.server).Perm (((x :: (front ++ back)).map (·.pc)).filterMap Pc.held) := by
      unfold held Channel.server
      rw [hsplit]
      exact (List.perm_middle.map _).filterMap _
    have hd := hperm.nodup_iff.mp h.exclusive.distinct
    rw [List.map_cons, List.filterMap_cons_some (Option.join_eq_some_iff.mp hxr)] at hd
    refine (List.nodup_cons.mp hd).1 (List.mem_filterMap.mpr ⟨y.pc, List.mem_map_of_mem hy, ?_⟩)
    exact Option.join_eq_some_iff.mp hyr
  intro y hy
  rw [hset] at hy
  rcases List.mem_cons.mp (List.perm_middle.mem_iff.mp hy) with rfl | hy
  · exact hx'
  · have hys : y ∈ ch.clients := by
      rw [hsplit]
      rcases List.mem_append.mp hy with hy | hy
      · exact List.mem_append_left _ hy
      · exact List.mem_append_right _ (List.mem_cons_of_mem _ hy)
    refine (h.client y hys).other fun r hyr => ?_
    exact (hr.others r (isOpen_of_connected h hys hyr) (hheld y hy r hyr)).2.2

/-- What a client's step is in the broadcast. -/
theorem channel_client {active : Option Bool} {i : Nat} {e : Event} (hg : OpensFree ch i)
    (hs : ch.clientStep active i e = some ch') : ChannelInv ch' ∧ Follows ch ch' := by
  obtain ⟨x, rb', pc', sent, hi, hstep, hr, rfl⟩ := clientStep_cases h hs
  have hx := h.client x (List.mem_of_getElem? hi)
  have hopens : OpensInTime ch.server (.session i e) := hg
  have hexcl := exclusive_step h.exclusive hopens (server_client hi hstep)
  have hcur : ch.broadcast.cursors[i]? = some x.cursor := by
    show (ch.clients.map (·.cursor))[i]? = _
    rw [List.getElem?_map, hi]
    rfl
  have hset : ∀ x' : Client,
      (ch.clients.set i x').map (·.cursor) = ch.broadcast.cursors.set i x'.cursor := fun x' => by
    rw [List.map_set]
    rfl
  by_cases hp : x.pc = .opening
  · have hb : ¬pc'.before := by
      rw [hp] at hstep
      cases sessionStep_cases hstep with
      | idle _ _ _ hh hne => exact absurd rfl hne
      | opens w₁ w₂ => exact id
    obtain ⟨hc, hinv⟩ := clientInv_join hx hr hp hb
    refine ⟨⟨hr.wf, hexcl, clients_after h hi hr hinv⟩, [.join i], ?_⟩
    have hnone : x.cursor = none := by
      rw [Client.cursor, hx.fresh (hp ▸ trivial)]
      rfl
    rw [Broadcast.exec_one, Broadcast.act_join (by rw [hcur, hnone])]
    unfold Channel.broadcast
    simp only [hset, hc]
    rfl
  · obtain ⟨hsent, hinv⟩ := clientInv_take hx hr hp (sessionStep_before hstep)
    refine ⟨⟨hr.wf, hexcl, clients_after h hi hr hinv⟩, ?_⟩
    have hafter := after_cursor hp ch.stored.length pc' sent
    cases hc : x.cursor with
    | none =>
      -- the client has not joined: nothing happens in the broadcast
      refine ⟨[], ?_⟩
      rw [hc] at hafter hcur
      unfold Channel.broadcast
      simp only [hset, hafter, Option.map_none, Machine.exec_nil, Machine.set_same hcur]
      rfl
    | some c =>
      refine ⟨[.take i sent.length], ?_⟩
      rw [hc] at hafter hcur
      obtain ⟨rest, hrest⟩ := hsent c hc
      rw [Broadcast.exec_one, Broadcast.act_take hcur (by
        show sent.length ≤ (c.pending ch.stored).length
        rw [hrest, List.length_append]
        omega)]
      unfold Channel.broadcast
      simp only [hset, hafter]
      rfl

/-- A client is accepted. -/
theorem channel_accept : ChannelInv ch.accept ∧ Follows ch ch.accept := by
  refine ⟨⟨h.wf, ?_, fun x hx => ?_⟩, [.arrive], ?_⟩
  · have haccept : serverStep ch.server (.accept fdstreamBody) =
        some { ch.server with sessions := ch.server.sessions ++ [fdstreamBody] } := by
      unfold serverStep
      exact if_pos List.mem_cons_self
    have hexcl := exclusive_step h.exclusive
      (show OpensInTime ch.server (.accept fdstreamBody) from trivial) haccept
    unfold Channel.server Channel.accept
    rw [List.map_append]
    exact hexcl
  · rcases List.mem_append.mp hx with hx | hx
    · exact h.client x hx
    · cases List.mem_singleton.mp hx
      exact clientInv_new ch.rb ch.stored
  · rw [Broadcast.exec_one]
    unfold Channel.broadcast Channel.accept
    rw [List.map_append]
    rfl

/-- A write is a publication. -/
theorem channel_store {new : List UInt8} (hroom : LeavesRoom ch.rb new.length) :
    ChannelInv (ch.store (ringbufferWrite ch.rb new) new) ∧
      Follows ch (ch.store (ringbufferWrite ch.rb new) new) := by
  refine ⟨⟨h.wf.write new, ⟨h.exclusive.inRange, h.exclusive.distinct, fun i => ?_⟩, fun x hx => ?_⟩,
    [.publish new], ?_⟩
  · have hmask := h.exclusive.mask i
    rwa [show ch.server.rb.readers = (ringbufferWrite ch.rb new).readers from
      (readers_write ch.rb new).symm] at hmask
  · refine clientInv_fill (h.client x hx) fun r hr => ?_
    have ho := isOpen_of_connected h hx hr
    exact (unread_write h.wf ho.1 (hroom r (List.mem_range.mpr ho.1) ho)).1
  · rw [Broadcast.exec_one]
    rfl

/-- A client that has its own descriptor after a step did not open as the seventeenth. -/
theorem opensFree_of_exclusive {active : Option Bool} {i : Nat} {e : Event}
    (hs : ch.clientStep active i e = some ch') (h' : Exclusive ch'.server) : OpensFree ch i := by
  obtain ⟨x, rb', pc', sent, hi, hstep, -, rfl⟩ := clientStep_cases h hs
  exact opensInTime_of_exclusive h.exclusive (server_client hi hstep) h'

/-- The descriptor of an open reader is held. -/
theorem isOpen_held {r : Nat} (ho : IsOpen ch.rb r) : some r ∈ held ch.server := by
  have hr := ho.2
  rw [rdOpen_eq ho.1] at hr
  exact (h.exclusive.mask r).mp hr

/-- A write behind which the clients still have what they are to receive overran none. -/
theorem leavesRoom_of_delivers {new : List UInt8}
    (hd : Delivers (ch.store (ringbufferWrite ch.rb new) new)) : LeavesRoom ch.rb new.length := by
  intro r hr ho
  obtain ⟨pc, hpc, hheld⟩ := List.mem_filterMap.mp (isOpen_held h ho)
  obtain ⟨x, hx, rfl⟩ := List.mem_map.mp hpc
  have hconn : x.connected = some r := Option.join_eq_some_iff.mpr hheld
  obtain ⟨cur, hcur, hunread⟩ := (h.client x hx).ring r hconn
  have hafter : unread (ringbufferWrite ch.rb new) r = cur.pending (ch.stored ++ new) :=
    (hd x hx cur hcur).2 r hconn
  rw [Cursor.pending_append ((h.client x hx).within cur hcur), ← hunread] at hafter
  have hlen := congrArg List.length hafter
  rw [unread_length, List.length_append, unread_length] at hlen
  have hlt := (h.wf.write new).lag_lt ho.1
  rwa [hlen, size_write] at hlt

end Step

end Sighttpd.L2
