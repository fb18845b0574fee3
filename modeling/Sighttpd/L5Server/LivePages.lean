import Sighttpd.L2Stream.StdinStream
import Sighttpd.L5Server.Connections

/-!
# Live pages (`http-response.c`, `fdstream.c`, `stream.c`)

A connection that asks for the page of a Stdin block is sent the head of a reply like any other.
Its body is `fdstream_body`: the thread becomes a client of the stream of that block, and stays
one until a write fails or the stream ends. A stream goes with its place in the list of resources.

* `LiveInv`: each viewer is a client of its own, and was sent the head and what its client was
  sent.
* `live_pages`: in any order of the steps of the connections, of their viewers and of the threads
  that fill the streams.

## Hypotheses

`NoOverrun` is asked of every step:

* a fill stores nothing behind the storage of its ring buffer (`EndsInside`), and leaves room for
  what every reader has not read (`LeavesRoom`);
* no client opens while sixteen are connected (`OpensFree`).

A call on a ring buffer is one step, and so is a write of what was taken from it. What is said of
stacks and of `write` in `Connections` holds here.
-/
namespace Sighttpd.L5
open Sighttpd.CString Sighttpd.L1 Sighttpd.L4

/-! ## Model -/

structure LiveWorld where
  world : World
  streams : Nat → L2.StdinStream
  viewing : Nat → Option (Nat × Nat)    -- the stream of a connection, and its number there

/-- A call of a connection; a thread runs `fdstream_body`: its first step, one of the others, and
the return; a stream starts or is filled. -/
inductive LiveEvent where
  | world (e : Event)
  | enter (k : Nat)
  | view (k : Nat) (e : L2.Event)
  | leave (k : Nat)
  | start (j : Nat)
  | fill (j : Nat) (r₁ r₂ : Option Bytes)

/-- A thread that is at the body, and the request. -/
def World.atBody (w : World) (k : Nat) : Option (Child × HttpRequest) :=
  match w.children k with
  | some child =>
    match child.stage with
    | .body request _ => some (child, request)
    | _ => none
  | none => none

section Steps
variable (server : Server) (fuel : Nat) (live : Nat → Bool)

/-- The stream that answers a request, when the resource that answers it has one (`live`).
mirrors src/http-response.c:55-85 -/
def Server.streamOf (request : HttpRequest) : Option Nat :=
  if request.method = .get then
    (answeredBy server.resources request).filter live
  else none

/-- A body that is not written at once. -/
def LiveWorld.isLive (s : LiveWorld) : Event → Bool
  | .thread k .body => ((s.world.atBody k).bind fun b => server.streamOf live b.2).isSome
  | _ => false

def LiveWorld.setStream (s : LiveWorld) (j : Nat) (t : L2.StdinStream) : LiveWorld :=
  { s with streams := Function.update s.streams j t }

/-- A step while the process runs. -/
def liveCall (s : LiveWorld) : LiveEvent → Option LiveWorld
  | .world e =>
    if s.isLive server live e then none
    else (worldStep server fuel s.world e).map ({ s with world := · })
  | .enter k => do
    let (_, request) ← s.world.atBody k
    let j ← server.streamOf live request
    if s.viewing k = none then
      let t ← L2.streamStep (s.streams j) .accept
      let i := (s.streams j).channel.clients.length
      some { s.setStream j t with viewing := Function.update s.viewing k (some (j, i)) }
    else none
  | .view k e => do
    let (child, _) ← s.world.atBody k
    let (j, i) ← s.viewing k
    let x ← (s.streams j).channel.clients[i]?
    let t ← L2.streamStep (s.streams j) (.client i e)
    let y ← t.channel.clients[i]?
    -- what has reached the socket since
    let bytes := y.sent.drop x.sent.length
    some { s.setStream j t with world := s.world.write child.acceptFd bytes }
  | .leave k => do
    let (child, _) ← s.world.atBody k
    let (j, i) ← s.viewing k
    let x ← (s.streams j).channel.clients[i]?
    if x.pc = .done then some { s with world := s.world.goto k child .closing } else none
  | .start j => (L2.streamStep (s.streams j) .start).map (s.setStream j)
  | .fill j r₁ r₂ => (L2.streamStep (s.streams j) (.fill r₁ r₂)).map (s.setStream j)

def liveStep (s : LiveWorld) (e : LiveEvent) : Option LiveWorld :=
  if s.world.ended then none else liveCall server fuel live s e

def liveSite : Machine LiveWorld LiveEvent := ⟨liveStep server fuel live⟩

end Steps

/-- The streams are opened when the server is started. -/
def LiveWorld.fresh (rb : Nat → L2.Ringbuffer) (data : Nat → Nat → UInt8) : LiveWorld :=
  ⟨World.fresh, fun j => L2.streamOpen (rb j) (data j) L2.STREAM_LEN, fun _ => none⟩

/-- The condition of `NoOverrun` on a step of the stream it is made in. -/
def LiveWorld.NoOverrun (s : LiveWorld) : LiveEvent → Prop
  | .view k _ => ∀ v ∈ s.viewing k, L2.OpensFree (s.streams v.1).channel v.2
  | .fill j r₁ r₂ => L2.NoOverrun (s.streams j) (.fill r₁ r₂)
  | _ => True

instance (s : LiveWorld) (e : LiveEvent) : Decidable (s.NoOverrun e) :=
  match e with
  | .world _ => isTrue trivial
  | .enter _ => isTrue trivial
  | .view k _ => inferInstanceAs (Decidable (∀ v ∈ s.viewing k, _))
  | .leave _ => isTrue trivial
  | .start _ => isTrue trivial
  | .fill j r₁ r₂ => inferInstanceAs (Decidable (L2.NoOverrun (s.streams j) (.fill r₁ r₂)))

/-! ## Steps -/

theorem atBody_eq {w : World} {k : Nat} {child : Child} {request : HttpRequest}
    (h : w.atBody k = some (child, request)) :
    w.children k = some child ∧ ∃ headers, child.stage = .body request headers := by
  unfold World.atBody at h
  cases hc : w.children k with
  | none =>
    rw [hc] at h
    cases h
  | some c =>
    rw [hc] at h
    cases hs : c.stage with
    | body q headers =>
      simp only [hs] at h
      cases h
      exact ⟨rfl, headers, hs⟩
    | _ =>
      simp only [hs] at h
      cases h

/-- What a step does. -/
inductive LiveCase (server : Server) (fuel : Nat) (live : Nat → Bool) (s : LiveWorld) :
    LiveEvent → LiveWorld → Prop
  | world {e : Event} {w : World} (notLive : s.isLive server live e = false)
      (step : worldStep server fuel s.world e = some w) :
      LiveCase server fuel live s (.world e) { s with world := w }
  | enter {k j : Nat} {child : Child} {request : HttpRequest} {headers : List Param}
      (there : s.world.children k = some child) (body : child.stage = .body request headers)
      (stream : server.streamOf live request = some j) (new : s.viewing k = none) :
      LiveCase server fuel live s (.enter k)
        { s.setStream j { s.streams j with channel := (s.streams j).channel.accept } with
          viewing := Function.update s.viewing k (some (j, (s.streams j).channel.clients.length)) }
  | view {k j i : Nat} {child : Child} {request : HttpRequest} {headers : List Param} {e : L2.Event}
      {x y : L2.Client} {ch : L2.Channel} (there : s.world.children k = some child)
      (body : child.stage = .body request headers) (viewer : s.viewing k = some (j, i))
      (before : (s.streams j).channel.clients[i]? = some x)
      (step : (s.streams j).channel.clientStep (s.streams j).active i e = some ch)
      (after : ch.clients[i]? = some y) :
      LiveCase server fuel live s (.view k e)
        { s.setStream j { s.streams j with channel := ch } with
          world := s.world.write child.acceptFd (y.sent.drop x.sent.length) }
  | leave {k j i : Nat} {child : Child} {request : HttpRequest} {headers : List Param}
      {x : L2.Client} (there : s.world.children k = some child)
      (body : child.stage = .body request headers) (viewer : s.viewing k = some (j, i))
      (client : (s.streams j).channel.clients[i]? = some x) (done : x.pc = .done) :
      LiveCase server fuel live s (.leave k) { s with world := s.world.goto k child .closing }
  | start (j : Nat) :
      LiveCase server fuel live s (.start j) (s.setStream j { s.streams j with active := some true })
  | fill {j : Nat} {r₁ r₂ : Option Bytes} {t : L2.StdinStream}
      (step : L2.streamStep (s.streams j) (.fill r₁ r₂) = some t) :
      LiveCase server fuel live s (.fill j r₁ r₂) (s.setStream j t)

section Cases
variable {server : Server} {fuel : Nat} {live : Nat → Bool} {s s' : LiveWorld}

theorem liveStep_cases {e : LiveEvent} (h : liveStep server fuel live s e = some s') :
    LiveCase server fuel live s e s' := by
  unfold liveStep at h
  split at h
  · cases h
  cases e with
  | world e =>
    rw [liveCall] at h
    cases hl : s.isLive server live e with
    | true =>
      rw [hl, if_pos rfl] at h
      cases h
    | false =>
      rw [hl, if_neg Bool.false_ne_true] at h
      obtain ⟨w, hs, rfl⟩ := Option.map_eq_some_iff.mp h
      exact .world hl hs
  | enter k =>
    obtain ⟨⟨child, request⟩, hbody, h⟩ := Option.bind_eq_some_iff.mp h
    obtain ⟨j, hj, h⟩ := Option.bind_eq_some_iff.mp h
    obtain ⟨hchild, headers, hstage⟩ := atBody_eq hbody
    by_cases hv : s.viewing k = none
    · simp only [if_pos hv] at h
      cases h
      exact .enter hchild hstage hj hv
    · simp only [if_neg hv] at h
      cases h
  | view k e =>
    obtain ⟨⟨child, request⟩, hbody, h⟩ := Option.bind_eq_some_iff.mp h
    obtain ⟨⟨j, i⟩, hv, h⟩ := Option.bind_eq_some_iff.mp h
    obtain ⟨x, hx, h⟩ := Option.bind_eq_some_iff.mp h
    obtain ⟨t, ht, h⟩ := Option.bind_eq_some_iff.mp h
    obtain ⟨y, hy, h⟩ := Option.bind_eq_some_iff.mp h
    obtain ⟨hchild, headers, hstage⟩ := atBody_eq hbody
    obtain ⟨ch, hch, rfl⟩ := Option.map_eq_some_iff.mp ht
    cases h
    exact .view hchild hstage hv hx hch hy
  | leave k =>
    obtain ⟨⟨child, request⟩, hbody, h⟩ := Option.bind_eq_some_iff.mp h
    obtain ⟨⟨j, i⟩, hv, h⟩ := Option.bind_eq_some_iff.mp h
    obtain ⟨x, hx, h⟩ := Option.bind_eq_some_iff.mp h
    obtain ⟨hchild, headers, hstage⟩ := atBody_eq hbody
    by_cases hd : x.pc = .done
    · simp only [if_pos hd] at h
      cases h
      exact .leave hchild hstage hv hx hd
    · simp only [if_neg hd] at h
      cases h
  | start j =>
    cases h
    exact .start j
  | fill j r₁ r₂ =>
    obtain ⟨t, ht, rfl⟩ := Option.map_eq_some_iff.mp h
    exact .fill ht

end Cases

/-! ## Viewers -/

/-- A request was read, the head of its reply and then `sent` were written, and the thread is at
the body or behind it. -/
def Viewer (server : Server) (fuel : Nat) (live : Nat → Bool) (child : Child) (socket : Socket)
    (entries : List Bytes) (j : Nat) (sent : Bytes) : Prop :=
  ∃ request headers now mem,
    Answers child.stack.request (httpResponse fuel child.stack.s child.stack.n socket.reads) request
      headers [] ∧
    server.streamOf live request = some j ∧
    socket.out = (replyHead server.resources request headers now).1 ++
      paramsWritefd mem (replyHead server.resources request headers now).2 ++ sent ∧
    entries = [logAccess request headers (replyHead server.resources request headers now).2] ∧
    (child.stage = .body request headers ∨ child.stage = .closing ∨ child.stage = .done)

/-- A thread that is behind the body without having been a viewer was not asked for a stream. -/
def NotAsked (server : Server) (fuel : Nat) (live : Nat → Bool) (child : Child) (socket : Socket) :
    Prop :=
  child.stage = .closing ∨ child.stage = .done → ∀ request headers rest,
    Answers child.stack.request (httpResponse fuel child.stack.s child.stack.n socket.reads) request
      headers rest → server.streamOf live request = none

/-- The client that a viewer is. -/
def LiveWorld.client (s : LiveWorld) (v : Nat × Nat) : Option L2.Client :=
  (s.streams v.1).channel.clients[v.2]?

structure LiveInv (server : Server) (fuel : Nat) (live : Nat → Bool) (s : LiveWorld) : Prop where
  owned : Owned s.world
  new : ∀ k, s.world.count ≤ k → s.world.children k = none ∧ s.world.sockets k = ⟨[], []⟩ ∧
    s.world.entries k = [] ∧ s.viewing k = none
  runs : ∀ k child, s.world.children k = some child → s.viewing k = none →
    ChildOk server fuel child (s.world.sockets k) (s.world.entries k) ∧
      NotAsked server fuel live child (s.world.sockets k)
  views : ∀ k v, s.viewing k = some v → ∃ child x, s.world.children k = some child ∧
    s.client v = some x ∧
    Viewer server fuel live child (s.world.sockets k) (s.world.entries k) v.1 x.sent
  own : ∀ k k' v, s.viewing k = some v → s.viewing k' = some v → k = k'
  channels : ∀ j, L2.ChannelInv (s.streams j).channel

section Steps
variable {server : Server} {fuel : Nat} {live : Nat → Bool} {s s' : LiveWorld} {k : Nat}
  {child : Child} {stage : Stage}

/-- A step of thread `k` and of the client it is. -/
theorem LiveInv.touch (h : LiveInv server fuel live s) (hchild : s.world.children k = some child)
    (hlive : child.stage.live = true) (ht : Touches s.world s'.world k child stage)
    (hview : ∀ i, i ≠ k → s'.viewing i = s.viewing i)
    (hkeep : ∀ i v, i ≠ k → s.viewing i = some v → s'.client v = s.client v)
    (hchan : ∀ j, L2.ChannelInv (s'.streams j).channel)
    (hruns : s'.viewing k = none →
      ChildOk server fuel { child with stage } (s'.world.sockets k) (s'.world.entries k) ∧
        NotAsked server fuel live { child with stage } (s'.world.sockets k))
    (hviews : ∀ v, s'.viewing k = some v → (∀ i, i ≠ k → s.viewing i ≠ some v) ∧
      ∃ x, s'.client v = some x ∧ Viewer server fuel live { child with stage }
        (s'.world.sockets k) (s'.world.entries k) v.1 x.sent) :
    LiveInv server fuel live s' := by
  refine ⟨h.owned.touch hchild hlive ht, fun i hi => ?_, fun i c hc hv => ?_, fun i v hv => ?_,
    fun i i' v hv hv' => ?_, hchan⟩
  · rw [ht.count] at hi
    obtain ⟨hnone, hsocket, hentries, hv⟩ := h.new i hi
    have hik : i ≠ k := by
      rintro rfl
      rw [hchild] at hnone
      cases hnone
    obtain ⟨hs, he⟩ := ht.others i hik
    exact ⟨by rw [ht.other hik, hnone], by rw [hs, hsocket], by rw [he, hentries],
      by rw [hview i hik, hv]⟩
  · by_cases hik : i = k
    · subst hik
      obtain rfl := Option.some.inj (ht.self.symm.trans hc)
      exact hruns hv
    · obtain ⟨hs, he⟩ := ht.others i hik
      rw [ht.other hik] at hc
      rw [hview i hik] at hv
      rw [hs, he]
      exact h.runs i c hc hv
  · by_cases hik : i = k
    · subst hik
      obtain ⟨x, hx, hviewer⟩ := (hviews v hv).2
      exact ⟨_, x, ht.self, hx, hviewer⟩
    · rw [hview i hik] at hv
      obtain ⟨c, x, hc, hx, hviewer⟩ := h.views i v hv
      obtain ⟨hs, he⟩ := ht.others i hik
      refine ⟨c, x, by rw [ht.other hik, hc], by rw [hkeep i v hik hv, hx], ?_⟩
      rw [hs, he]
      exact hviewer
  · by_cases hik : i = k
    · by_cases hik' : i' = k
      · rw [hik, hik']
      · rw [hik] at hv
        rw [hview i' hik'] at hv'
        exact absurd hv' ((hviews v hv).1 i' hik')
    · by_cases hik' : i' = k
      · rw [hik'] at hv'
        rw [hview i hik] at hv
        exact absurd hv ((hviews v hv').1 i hik)
      · rw [hview i hik] at hv
        rw [hview i' hik'] at hv'
        exact h.own i i' v hv hv'

/-- Only the streams have changed, and their clients were sent nothing. -/
theorem LiveInv.streams (h : LiveInv server fuel live s) (hworld : s'.world = s.world)
    (hview : s'.viewing = s.viewing) (hkeep : ∀ v, s'.client v = s.client v)
    (hchan : ∀ j, L2.ChannelInv (s'.streams j).channel) : LiveInv server fuel live s' := by
  obtain ⟨w, streams, viewing⟩ := s'
  obtain rfl : w = s.world := hworld
  obtain rfl : viewing = s.viewing := hview
  refine ⟨h.owned, h.new, h.runs, fun k v hv => ?_, h.own, hchan⟩
  obtain ⟨child, x, hchild, hx, hviewer⟩ := h.views k v hv
  exact ⟨child, x, hchild, (hkeep v).trans hx, hviewer⟩

theorem channels_set (h : LiveInv server fuel live s) {j : Nat} {t : L2.StdinStream}
    (ht : L2.ChannelInv t.channel) (i : Nat) :
    L2.ChannelInv ((s.setStream j t).streams i).channel := by
  by_cases hi : i = j
  · subst hi
    simp only [LiveWorld.setStream, Function.update_self]
    exact ht
  · simp only [LiveWorld.setStream, Function.update_of_ne hi]
    exact h.channels i

theorem client_set {j : Nat} {t : L2.StdinStream} {v : Nat × Nat}
    (hv : v.1 = j → t.channel.clients[v.2]? = (s.streams j).channel.clients[v.2]?) :
    (s.setStream j t).client v = s.client v := by
  by_cases hj : v.1 = j
  · subst hj
    simp only [LiveWorld.client, LiveWorld.setStream, Function.update_self]
    exact hv rfl
  · simp only [LiveWorld.client, LiveWorld.setStream, Function.update_of_ne hj]

/-! ## One step -/

theorem touches_write (hfd : s.world.fds child.acceptFd = some k)
    (hchild : s.world.children k = some child) (hlive : child.stage.live = true) (bytes : Bytes) :
    Touches s.world (s.world.write child.acceptFd bytes) k child child.stage ∧
      (s.world.write child.acceptFd bytes).sockets k =
        ⟨(s.world.sockets k).reads, (s.world.sockets k).out ++ bytes⟩ := by
  rw [write_eq hfd]
  refine ⟨⟨rfl, ?_, fun i hi => ⟨Function.update_of_ne hi _ _, rfl⟩, .inl ⟨rfl, hlive⟩⟩,
    Function.update_self ..⟩
  exact (Function.update_eq_self_iff.mpr hchild.symm).symm

/-- A thread comes to the end without a reply, or from a body that is not a stream. -/
theorem childStep_notAsked {w w' : World} (hfd : w.fds child.acceptFd = some k)
    (hok : ChildOk server fuel child (w.sockets k) (w.entries k))
    (hasked : NotAsked server fuel live child (w.sockets k)) {call : Call}
    (hbody : ∀ request headers, child.stage = .body request headers → call = .body →
      server.streamOf live request = none)
    (h : childStep server fuel w k child call = some w') (hm : Moved server fuel w w' k child stage) :
    NotAsked server fuel live { child with stage } (w'.sockets k) := by
  intro hend request headers rest ho
  replace hend : stage = .closing ∨ stage = .done := hend
  have hgoto : ∀ {w₁ : World} {next : Stage}, w₁.goto k child next = w' → next = stage := by
    rintro w₁ next rfl
    have hself : (w₁.goto k child next).children k = some { child with stage := next } :=
      Function.update_self ..
    exact congrArg Child.stage (Option.some.inj (hself.symm.trans hm.touches.self))
  unfold childStep at h
  split at h
  · rename_i c r hstage
    rw [ChildOk, hstage] at hok
    rw [read_eq hfd] at h
    obtain rfl := Option.some.inj h
    have hnext := hgoto rfl
    have hnow := readRound_ends fuel child.stack.request r c []
    simp only [World.goto, Function.update_self] at ho
    obtain ⟨filled, ho, -⟩ := ho
    rw [← hok.2.2, ho, hnext] at hnow
    rcases hend with rfl | rfl
    · cases hnow
    · exact hnow.elim
  · obtain rfl := hgoto (Option.some.inj h)
    rcases hend with hend | hend <;> cases hend
  · obtain rfl := hgoto (Option.some.inj h)
    rcases hend with hend | hend <;> cases hend
  · obtain rfl := hgoto (Option.some.inj h)
    rcases hend with hend | hend <;> cases hend
  · rename_i request' headers' hstage
    rw [ChildOk, hstage] at hok
    obtain ⟨now, -, -, hreply⟩ := hok
    obtain rfl := Option.some.inj h
    simp only [write_eq hfd, World.goto, Function.update_self] at ho
    rw [hreply.unique ho]
    exact hbody _ _ hstage rfl
  · rename_i hstage
    obtain rfl := Option.some.inj h
    exact hasked (.inl hstage) request headers rest ho
  · cases h

/-- A thread that does not view goes on as before; one that does is behind its body. -/
theorem live_thread (h : LiveInv server fuel live s) {call : Call} {w : World}
    (hnot : s.isLive server live (.thread k call) = false)
    (hs : worldStep server fuel s.world (.thread k call) = some w) :
    LiveInv server fuel live { s with world := w } := by
  obtain ⟨-, child, hchild, hstep⟩ := worldStep_thread hs
  have hlive := childStep_live hstep
  have hfd := h.owned.own k child hchild hlive
  cases hv : s.viewing k with
  | none =>
    obtain ⟨hok, hasked⟩ := h.runs k child hchild hv
    obtain ⟨stage, hm⟩ := childStep_moved hfd hok hstep
    have hbody : ∀ request headers, child.stage = .body request headers → call = .body →
        server.streamOf live request = none := by
      rintro request headers hstage rfl
      have hbody : s.world.atBody k = some (child, request) := by
        simp only [World.atBody, hchild, hstage]
      rw [LiveWorld.isLive, hbody, Option.bind_some] at hnot
      exact Option.isNone_iff_eq_none.mp (Option.isSome_eq_false_iff.mp hnot)
    refine h.touch hchild hlive hm.touches (fun _ _ => rfl) (fun _ _ _ _ => rfl) h.channels
      (fun _ => ⟨hm.ok, childStep_notAsked hfd hok hasked hbody hstep hm⟩) fun v hv' => ?_
    rw [show s.viewing k = some v from hv'] at hv
    cases hv
  | some v =>
    obtain ⟨c, x, hc, hx, request, headers, now, mem, ho, hj, hout, hlog, hstage⟩ := h.views k v hv
    obtain rfl := Option.some.inj (hchild.symm.trans hc)
    rcases hstage with hstage | hstage | hstage
    · -- the body of a viewer is not written at once
      unfold childStep at hstep
      rw [hstage] at hstep
      cases call with
      | body =>
        have hbody : s.world.atBody k = some (child, request) := by
          simp only [World.atBody, hchild, hstage]
        rw [LiveWorld.isLive, hbody, Option.bind_some, hj] at hnot
        cases hnot
      | _ => cases hstep
    · unfold childStep at hstep
      rw [hstage] at hstep
      cases call with
      | close =>
        have ht : Touches s.world w k child .done := by
          cases hstep
          exact ⟨rfl, rfl, fun _ _ => ⟨rfl, rfl⟩, .inr ⟨rfl, rfl⟩⟩
        cases hstep
        refine h.touch hchild hlive ht (fun _ _ => rfl) (fun _ _ _ _ => rfl) h.channels
          (fun hn => ?_) fun v' hv' => ?_
        · rw [show s.viewing k = none from hn] at hv
          cases hv
        · obtain rfl : v = v' := Option.some.inj (hv.symm.trans hv')
          exact ⟨fun i hi hvi => hi (h.own i k v hvi hv), x, hx, request, headers, now, mem, ho, hj,
            hout, hlog, .inr (.inr rfl)⟩
      | _ => cases hstep
    · rw [hstage] at hlive
      cases hlive

theorem live_accept (h : LiveInv server fuel live s) {w : World} {fd : Nat} {stack : Stack}
    (ha : Accepted s.world w fd stack) : LiveInv server fuel live { s with world := w } := by
  obtain ⟨hnone, hsocket, hentries, -⟩ := h.new s.world.count (Nat.le_refl _)
  refine ⟨h.owned.accept hnone ha, fun i hi => ?_, fun i c hc hv => ?_, fun i v hv => ?_, h.own,
    h.channels⟩
  · have hle : s.world.count + 1 ≤ i := ha.count ▸ hi
    obtain ⟨h1, h2, h3, h4⟩ := h.new i (by omega)
    exact ⟨(ha.other (by omega)).trans h1, (congrFun ha.sockets i).trans h2, (ha.entries i).trans h3, h4⟩
  · show ChildOk server fuel c (w.sockets i) (w.entries i) ∧
      NotAsked server fuel live c (w.sockets i)
    rw [ha.sockets, ha.entries]
    by_cases hi : i = s.world.count
    · subst hi
      obtain rfl := Option.some.inj (ha.self.symm.trans hc)
      rw [hsocket, hentries]
      exact ⟨childOk_accepted, fun hend => by rcases hend with hend | hend <;> cases hend⟩
    · exact h.runs i c ((ha.other hi).symm.trans hc) hv
  · obtain ⟨c, x, hc, hx, hviewer⟩ := h.views i v hv
    have hi : i ≠ s.world.count := by
      rintro rfl
      rw [hnone] at hc
      cases hc
    refine ⟨c, x, (ha.other hi).trans hc, hx, ?_⟩
    show Viewer server fuel live c (w.sockets i) (w.entries i) v.1 x.sent
    rw [ha.sockets, ha.entries]
    exact hviewer

/-- A thread becomes a client of its stream. -/
theorem live_enter (h : LiveInv server fuel live s) {j : Nat} {request : HttpRequest}
    {headers : List Param} (hchild : s.world.children k = some child)
    (hstage : child.stage = .body request headers) (hj : server.streamOf live request = some j)
    (hv : s.viewing k = none) :
    LiveInv server fuel live
      { s.setStream j { s.streams j with channel := (s.streams j).channel.accept } with
        viewing := Function.update s.viewing k (some (j, (s.streams j).channel.clients.length)) } := by
  have hlive : child.stage.live = true := by
    rw [hstage]
    rfl
  have ht : Touches s.world s.world k child child.stage :=
    ⟨rfl, (Function.update_eq_self_iff.mpr hchild.symm).symm, fun _ _ => ⟨rfl, rfl⟩,
      .inl ⟨rfl, hlive⟩⟩
  have hchan : ∀ i, L2.ChannelInv ((s.setStream j
      { s.streams j with channel := (s.streams j).channel.accept }).streams i).channel :=
    channels_set h (L2.channel_accept (h.channels j)).1
  have hok := (h.runs k child hchild hv).1
  rw [ChildOk, hstage] at hok
  obtain ⟨now, ⟨mem, hout⟩, hentries, ho⟩ := hok
  refine h.touch hchild hlive ht (fun i hi => Function.update_of_ne hi _ _) (fun i v hi hvi => ?_)
    hchan (fun hn => ?_) fun v hvk => ?_
  · obtain ⟨-, x, -, hx, -⟩ := h.views i v hvi
    refine client_set fun hvj => ?_
    obtain ⟨hlt, -⟩ := List.getElem?_eq_some_iff.mp hx
    rw [hvj] at hlt
    exact List.getElem?_append_left hlt
  · simp only [Function.update_self] at hn
    cases hn
  · simp only [Function.update_self] at hvk
    obtain rfl := Option.some.inj hvk
    refine ⟨fun i hi hvi => ?_, ⟨.opening, [], none⟩, ?_, request, headers, now, mem, ho, hj, ?_, ?_,
      .inl hstage⟩
    · -- a viewer is a client that was there already
      obtain ⟨-, x, -, hx, -⟩ := h.views i _ hvi
      obtain ⟨hlt, -⟩ := List.getElem?_eq_some_iff.mp hx
      exact absurd hlt (Nat.lt_irrefl _)
    · simp [LiveWorld.client, LiveWorld.setStream, L2.Channel.accept]
    · rw [List.append_nil]
      exact hout
    · rw [ho.logged] at hentries
      exact hentries

/-- A viewer is sent what its client is sent. -/
theorem live_view (h : LiveInv server fuel live s) {i j : Nat} {request : HttpRequest}
    {headers : List Param} {e : L2.Event} {x y : L2.Client} {ch : L2.Channel}
    (hchild : s.world.children k = some child) (hstage : child.stage = .body request headers)
    (hv : s.viewing k = some (j, i)) (hx : (s.streams j).channel.clients[i]? = some x)
    (hstep : (s.streams j).channel.clientStep (s.streams j).active i e = some ch)
    (hy : ch.clients[i]? = some y) (hg : L2.OpensFree (s.streams j).channel i) :
    LiveInv server fuel live { s.setStream j { s.streams j with channel := ch } with
      world := s.world.write child.acceptFd (y.sent.drop x.sent.length) } := by
  have hlive : child.stage.live = true := by
    rw [hstage]
    rfl
  have hfd := h.owned.own k child hchild hlive
  obtain ⟨ht, hsocket⟩ := touches_write hfd hchild hlive (y.sent.drop x.sent.length)
  obtain ⟨x', rb, pc, sent, hx', -, -, rfl⟩ := L2.clientStep_cases (h.channels j) hstep
  obtain rfl := Option.some.inj (hx.symm.trans hx')
  have hlt := (List.getElem?_eq_some_iff.mp hx).1
  obtain rfl := Option.some.inj ((List.getElem?_set_self hlt).symm.trans hy)
  refine h.touch hchild hlive ht (fun _ _ => rfl) (fun i' v hi' hvi => ?_)
    (channels_set h (L2.channel_client (h.channels j) hg hstep).1) (fun hn => ?_) fun v hvk => ?_
  · refine client_set fun hvj => List.getElem?_set_ne fun he => hi' ?_
    refine h.own i' k v hvi ?_
    rw [hv, ← hvj, he]
  · rw [show s.viewing k = none from hn] at hv
    cases hv
  · obtain rfl : (j, i) = v := Option.some.inj (hv.symm.trans hvk)
    obtain ⟨c, z, hc, hz, q, hs, now, mem, ho, hj, hout, hlog, hst⟩ := h.views k _ hv
    obtain rfl := Option.some.inj (hchild.symm.trans hc)
    obtain rfl := Option.some.inj (hx.symm.trans hz)
    refine ⟨fun i' hi' hvi => hi' (h.own i' k _ hvi hv),
      x.after (s.streams j).channel.stored.length pc sent, ?_, q, hs, now, mem, ?_, hj, ?_, ?_, hst⟩
    · simp only [LiveWorld.client, LiveWorld.setStream, Function.update_self]
      exact List.getElem?_set_self hlt
    · rw [hsocket]
      exact ho
    · rw [hsocket, hout]
      simp only [L2.Client.after, List.drop_left, List.append_assoc]
    · rw [write_eq hfd]
      exact hlog

/-- The thread returns from the body. -/
theorem live_leave (h : LiveInv server fuel live s) {v : Nat × Nat} {request : HttpRequest}
    {headers : List Param} (hchild : s.world.children k = some child)
    (hstage : child.stage = .body request headers) (hv : s.viewing k = some v) :
    LiveInv server fuel live { s with world := s.world.goto k child .closing } := by
  have hlive : child.stage.live = true := by
    rw [hstage]
    rfl
  have ht : Touches s.world (s.world.goto k child .closing) k child .closing :=
    ⟨rfl, rfl, fun _ _ => ⟨rfl, rfl⟩, .inl ⟨rfl, rfl⟩⟩
  refine h.touch hchild hlive ht (fun _ _ => rfl) (fun _ _ _ _ => rfl) h.channels (fun hn => ?_)
    fun v' hv' => ?_
  · rw [show s.viewing k = none from hn] at hv
    cases hv
  · obtain rfl : v = v' := Option.some.inj (hv.symm.trans hv')
    obtain ⟨c, x, hc, hx, q, hs, now, mem, ho, hj, hout, hlog, -⟩ := h.views k v hv
    obtain rfl := Option.some.inj (hchild.symm.trans hc)
    exact ⟨fun i hi hvi => hi (h.own i k v hvi hv), x, hx, q, hs, now, mem, ho, hj, hout, hlog,
      .inr (.inl rfl)⟩

/-- **Step.** -/
theorem live_step (h : LiveInv server fuel live s) {e : LiveEvent} (hg : s.NoOverrun e)
    (hs : liveStep server fuel live s e = some s') : LiveInv server fuel live s' := by
  cases liveStep_cases hs with
  | @world e w hnot hstep =>
    cases e with
    | accept fd stack => exact live_accept h (accept_accepted hstep)
    | thread k call => exact live_thread h hnot hstep
  | enter hchild hstage hj hv => exact live_enter h hchild hstage hj hv
  | view hchild hstage hv hx hstep hy =>
    exact live_view h hchild hstage hv hx hstep hy (hg _ hv)
  | leave hchild hstage hv _ _ => exact live_leave h hchild hstage hv
  | start j =>
    exact h.streams rfl rfl (fun _ => client_set fun _ => rfl) (channels_set h (h.channels j))
  | @fill j r₁ r₂ t hstep =>
    have hfill : L2.NoOverrun (s.streams j) (.fill r₁ r₂) := hg
    refine h.streams rfl rfl (fun _ => client_set fun _ => ?_)
      (channels_set h (L2.stream_step (h.channels j) hfill hstep).1)
    simp only [L2.streamStep] at hstep
    by_cases ha : (s.streams j).active = some true
    · rw [if_pos ha] at hstep
      cases hstep
      rfl
    · rw [if_neg ha] at hstep
      cases hstep

/-- What it is for the broadcast of a stream. -/
theorem live_follows (h : LiveInv server fuel live s) {e : LiveEvent} (hg : s.NoOverrun e)
    (hs : liveStep server fuel live s e = some s') (i : Nat) :
    L2.Follows (s.streams i).channel (s'.streams i).channel := by
  have hset : ∀ j t, L2.Follows (s.streams j).channel t.channel →
      L2.Follows (s.streams i).channel ((s.setStream j t).streams i).channel := by
    intro j t hf
    by_cases hi : i = j
    · subst hi
      simpa only [LiveWorld.setStream, Function.update_self] using hf
    · simp only [LiveWorld.setStream, Function.update_of_ne hi]
      exact ⟨[], rfl⟩
  cases liveStep_cases hs with
  | world => exact ⟨[], rfl⟩
  | @enter k j => exact hset j _ (L2.channel_accept (h.channels j)).2
  | @view k j i' _ _ _ _ _ _ _ _ _ hv _ hstep =>
    exact hset j _ (L2.channel_client (h.channels j) (hg _ hv) hstep).2
  | leave => exact ⟨[], rfl⟩
  | start j => exact hset j _ ⟨[], rfl⟩
  | @fill j r₁ r₂ t hstep =>
    have hfill : L2.NoOverrun (s.streams j) (.fill r₁ r₂) := hg
    exact hset j _ (L2.stream_step (h.channels j) hfill hstep).2

end Steps

/-! ## Runs -/

theorem liveInv_fresh (server : Server) (fuel : Nat) (live : Nat → Bool) (rb : Nat → L2.Ringbuffer)
    (data : Nat → Nat → UInt8) : LiveInv server fuel live (LiveWorld.fresh rb data) where
  owned := (inv_fresh server fuel).owned
  new _ _ := ⟨rfl, rfl, rfl, rfl⟩
  runs k child h := by cases h
  views k v h := by cases h
  own k k' v h := by cases h
  channels j := L2.channelInv_init (rb j) (data j) (by decide)

section Runs
variable {server : Server} {fuel : Nat} {live : Nat → Bool} {rb : Nat → L2.Ringbuffer}
  {data : Nat → Nat → UInt8} {events : List LiveEvent} {s : LiveWorld}

/-- The invariant, and that each stream is a broadcast. -/
theorem live_run
    (hg : (liveSite server fuel live).Guarded LiveWorld.NoOverrun (LiveWorld.fresh rb data) events)
    (hs : (liveSite server fuel live).exec (LiveWorld.fresh rb data) events = some s) (j : Nat) :
    LiveInv server fuel live s ∧
      ∃ as, (Broadcast.machine UInt8).exec ⟨[], []⟩ as = some (s.streams j).channel.broadcast :=
  Machine.exec_refines (A := Broadcast.machine UInt8) (I := LiveInv server fuel live)
    (f := fun s : LiveWorld => (s.streams j).channel.broadcast)
    (fun _ _ _ h hc hs => ⟨live_step h hc hs, live_follows h hc hs j⟩)
    (liveInv_fresh server fuel live rb data) hg hs

end Runs

def liveServer : Server :=
  ⟨80, [flimResource, streamResource (ascii "/live") (ascii "video/mp4") fun _ _ => []]⟩

/-- Two viewers of stream `j`, the second one while the first one is behind. -/
def liveRun (j : Nat) (request : Bytes) : List LiveEvent :=
  [.start j, .world (.accept 5 newStack), .world (.thread 0 (.read (some request))),
    .world (.thread 0 (.status epoch)), .world (.thread 0 (.headers newStack.s)),
    .world (.thread 0 .log), .enter 0, .view 0 (.call none none),
    .fill j (some [1, 2, 3]) (some [1, 2, 3]), .view 0 (.flag true), .view 0 (.call none none),
    .view 0 (.call none (some 2)), .world (.accept 6 newStack),
    .world (.thread 1 (.read (some request))), .world (.thread 1 (.status epoch)),
    .world (.thread 1 (.headers newStack.s)), .world (.thread 1 .log), .enter 1,
    .view 1 (.call none none), .fill j (some [4]) (some [4]), .view 1 (.flag true),
    .view 1 (.call none none), .view 1 (.call none (some 1))]

end Sighttpd.L5
