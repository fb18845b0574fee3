import Mathlib.Logic.Function.Basic
import Sighttpd.Core.Machine
import Sighttpd.L1Data.ParamsWeight
import Sighttpd.L4Http.AccessLog
import Sighttpd.L5Server.Server

/-!
# Connections side by side (`main.c`, `http-response.c`)

`main` accepts connections and starts a thread for each. The threads share the table of file
descriptors, in which a number that was closed is given out again, and the log. One step is a
call of the system: a read of one round of `http_response`, one of the writes of `respond`, the
entry in the log, or the close. The steps of the threads come in any order. When a thread leaves
the memory there is, the process ends, and with it all connections.

A socket remembers what was read from it and written to it, and the log who printed what.

* `Owned`: a descriptor that is open is that of one connection, which is not done.
* `inv_step`: what every step keeps.
* `served_alone`: a connection is answered as if it were the only one.
* `site_answers`: a request to a server started with a document.

## Hypotheses

Every connection gets its thread, and a `write` takes all its bytes.

`respond` is also called when no request line was found, with what the stack holds of a
`http_request`. `Stack.request` is that: a request, such as an earlier thread has left there, or
none, with which the process ends.

`site_answers` is about a document that is `Deployed`, pages that are `Fits`, and requests that
arrive in one read, with a stack where `n` is not -1 (see `Server`).
-/
namespace Sighttpd.L5
open Sighttpd.CString Sighttpd.L1 Sighttpd.L3 Sighttpd.L4

/-! ## Model -/

/-- What a client sent, as it was read, and what it was sent. -/
structure Socket where
  reads : List (Option Bytes)
  out : Bytes
  deriving DecidableEq, Repr

/-- Where a thread is in `http_response`. -/
inductive Stage where
  | reading (c : Connection)
  | answering (request : HttpRequest) (requestHeaders : List Param)
  | headers (request : HttpRequest) (requestHeaders : List Param) (now : Tm)
  | logging (request : HttpRequest) (requestHeaders : List Param) (now : Tm)
  | body (request : HttpRequest) (requestHeaders : List Param)
  | closing
  | done
  | looping
  | crashed

/-- What `http_response` finds on its stack: the memory behind `s`, `n`, and in the place of
`request` one that is left there. -/
structure Stack where
  s : Bytes
  n : Nat
  request : Option HttpRequest

/-- A thread with its `sighttpd_child`. -/
structure Child where
  acceptFd : Nat
  stack : Stack
  stage : Stage

structure World where
  ended : Bool
  count : Nat
  fds : Nat → Option Nat    -- the socket that a descriptor stands for
  sockets : Nat → Socket
  children : Nat → Option Child
  log : List (Nat × Bytes)

def World.fresh : World := ⟨false, 0, fun _ => none, fun _ => ⟨[], []⟩, fun _ => none, []⟩

/-- What a thread calls, with what the system decides. -/
inductive Call where
  | read (r : Option Bytes)
  | status (now : Tm)
  | headers (headersOut : Bytes)
  | log
  | body
  | close

inductive Event where
  | accept (fd : Nat) (stack : Stack)
  | thread (k : Nat) (call : Call)

/-- What is written to a descriptor that is not open is lost. -/
def World.write (w : World) (fd : Nat) (bytes : Bytes) : World :=
  match w.fds fd with
  | some i =>
    let socket := w.sockets i
    { w with sockets := Function.update w.sockets i { socket with out := socket.out ++ bytes } }
  | none => w

/-- A read from a descriptor that is not open is an error. -/
def World.read (w : World) (fd : Nat) (r : Option Bytes) : Option Bytes × World :=
  match w.fds fd with
  | some i =>
    let socket := w.sockets i
    (r, { w with sockets := Function.update w.sockets i { socket with reads := socket.reads ++ [r] } })
  | none => (none, w)

def Stage.crashes : Stage → Bool
  | .crashed => true
  | _ => false

def World.goto (w : World) (k : Nat) (child : Child) (stage : Stage) : World :=
  { w with
    ended := stage.crashes
    children := Function.update w.children k (some { child with stage }) }

/-- One round of the loop of `http_response`; `stale` is what `request` holds until it is filled
in. -/
def readRound (fuel : Nat) (stale : Option HttpRequest) (r : Option Bytes) (c : Connection) :
    Stage :=
  if (readInput c r).1 = 0 then .closing
  else if c.n = sizeMod - 1 then .reading (readInput c r).2
  else match parseRequest (terminate (readInput c r).2 (readInput c r).1) (readInput c r).1 with
    | none => .crashed
    | some c =>
      match paramsNewParse fuel c.s (strAt c.s 0).length .headers with
      | none => .looping
      | some [] => .reading (advance c)
      | some (h :: headers) =>
        match c.request.or stale with
        | some request => .answering request (h :: headers)
        | none => .crashed

section Steps
variable (server : Server) (fuel : Nat)

/-- What thread `k` does in the call; mirrors src/http-response.c:95-179 -/
def childStep (w : World) (k : Nat) (child : Child) (call : Call) : Option World :=
  match child.stage, call with
  | .reading c, .read r =>
    let (r, w) := w.read child.acceptFd r
    some (w.goto k child (readRound fuel child.stack.request r c))
  | .answering request requestHeaders, .status now =>
    let reply := replyHead server.resources request requestHeaders now
    some ((w.write child.acceptFd reply.1).goto k child (.headers request requestHeaders now))
  | .headers request requestHeaders now, .headers headersOut =>
    let reply := replyHead server.resources request requestHeaders now
    some ((w.write child.acceptFd (paramsWritefd headersOut reply.2)).goto k child
      (.logging request requestHeaders now))
  | .logging request requestHeaders now, .log =>
    let reply := replyHead server.resources request requestHeaders now
    let w := { w with log := w.log ++ [(k, logAccess request requestHeaders reply.2)] }
    some (w.goto k child (.body request requestHeaders))
  | .body request requestHeaders, .body =>
    let bytes := if request.method = .get then respondGetBody server.resources request requestHeaders
      else []
    some ((w.write child.acceptFd bytes).goto k child .closing)
  | .closing, .close =>
    let w := { w with fds := Function.update w.fds child.acceptFd none }
    some (w.goto k child .done)
  | _, _ => none

/-- Where `http_response` begins. -/
def Stack.start (stack : Stack) : Connection :=
  { s := stack.s, cur := 0, rem := bufSize, n := stack.n, init := false, request := none }

/-- mirrors src/main.c:212-223, and the threads. `accept` gives a number that is not in use. -/
def worldStep (w : World) (e : Event) : Option World :=
  if w.ended then none
  else match e with
    | .accept fd stack =>
      if w.fds fd = none then
        some { w with
          count := w.count + 1
          fds := Function.update w.fds fd (some w.count)
          children := Function.update w.children w.count (some ⟨fd, stack, .reading stack.start⟩) }
      else none
    | .thread k call => do
      let child ← w.children k
      childStep server fuel w k child call

def connections : Machine World Event := ⟨worldStep server fuel⟩

end Steps

/-! ## One connection -/

/-- The entries in the log that a thread printed. -/
def World.entries (w : World) (k : Nat) : List Bytes :=
  (w.log.filter (·.1 = k)).map Prod.snd

/-- What a connection prints to the log. -/
def Server.logged (server : Server) (stale : Option HttpRequest) (now : Tm) : Outcome → List Bytes
  | .responded filled headers _ =>
    ((filled.or stale).map fun request =>
      logAccess request headers (replyHead server.resources request headers now).2).toList
  | _ => []

/-- The loop ends with a reply to this request: the one that was filled in, or the one that was
there. -/
def Answers (stale : Option HttpRequest) (o : Outcome) (request : HttpRequest) (headers : List Param)
    (rest : List (Option Bytes)) : Prop :=
  ∃ filled, o = .responded filled headers rest ∧ filled.or stale = some request

section Answers
variable {stale : Option HttpRequest} {o : Outcome} {request : HttpRequest} {headers : List Param}
  {rest : List (Option Bytes)}

theorem Answers.written (h : Answers stale o request headers rest) (server : Server) (now : Tm)
    (mem : Bytes) :
    server.written stale now mem o = some (respond server.resources request headers now mem) := by
  obtain ⟨filled, rfl, hrequest⟩ := h
  rw [Server.written, hrequest, Option.map_some]

theorem Answers.logged (h : Answers stale o request headers rest) (server : Server) (now : Tm) :
    server.logged stale now o =
      [logAccess request headers (replyHead server.resources request headers now).2] := by
  obtain ⟨filled, rfl, hrequest⟩ := h
  rw [Server.logged, hrequest]
  rfl

/-- There is one such request. -/
theorem Answers.unique (h : Answers stale o request headers rest) {request' : HttpRequest}
    {headers' : List Param} {rest' : List (Option Bytes)}
    (h' : Answers stale o request' headers' rest') : request' = request := by
  obtain ⟨filled, rfl, hrequest⟩ := h
  obtain ⟨filled', ho, hrequest'⟩ := h'
  obtain ⟨rfl, -, -⟩ := Outcome.responded.inj ho
  exact Option.some.inj (hrequest'.symm.trans hrequest)

end Answers

def Stage.live : Stage → Bool
  | .done => false
  | _ => true

/-- How `http_response` ends with `more` to read, in front of the reply. -/
def Stage.Ends (fuel : Nat) (stale : Option HttpRequest) (more : List (Option Bytes)) (o : Outcome) :
    Stage → Prop
  | .reading c => o = responseLoop fuel more c
  | .answering request requestHeaders => Answers stale o request requestHeaders more
  | .closing => o = .closed
  | .looping => o = .looping
  | .crashed => ∀ (server : Server) now mem, server.written stale now mem o = none ∧
      server.logged stale now o = []
  | _ => False

theorem readRound_ends (fuel : Nat) (stale : Option HttpRequest) (r : Option Bytes) (c : Connection)
    (more : List (Option Bytes)) :
    (readRound fuel stale r c).Ends fuel stale more (responseLoop fuel (r :: more) c) := by
  rw [readRound, responseLoop]
  by_cases h0 : (readInput c r).1 = 0
  · rw [if_pos h0, if_pos h0]
    rfl
  · rw [if_neg h0, if_neg h0]
    by_cases hn : c.n = sizeMod - 1
    · rw [if_pos hn, if_pos hn]
      rfl
    · rw [if_neg hn, if_neg hn]
      cases parseRequest (terminate (readInput c r).2 (readInput c r).1) (readInput c r).1 with
      | none => exact fun _ _ _ => ⟨rfl, rfl⟩
      | some c' =>
        dsimp only
        cases paramsNewParse fuel c'.s (strAt c'.s 0).length .headers with
        | none => rfl
        | some headers =>
          cases headers with
          | nil => rfl
          | cons e headers =>
            dsimp only
            cases hrequest : c'.request.or stale with
            | some request => exact ⟨c'.request, rfl, hrequest⟩
            | none =>
              intro server now mem
              rw [Server.written, Server.logged, hrequest]
              exact ⟨rfl, rfl⟩

/-- The connection has done what `http_response` does with what was read, as far as it is. -/
def ChildOk (server : Server) (fuel : Nat) (child : Child) (socket : Socket) (entries : List Bytes) :
    Prop :=
  let o := httpResponse fuel child.stack.s child.stack.n socket.reads
  let stale := child.stack.request
  match child.stage with
  | .reading c => socket.out = [] ∧ entries = [] ∧
      ∀ more, httpResponse fuel child.stack.s child.stack.n (socket.reads ++ more) =
        responseLoop fuel more c
  | .answering request headers =>
    socket.out = [] ∧ entries = [] ∧ Answers stale o request headers []
  | .headers request headers now =>
    socket.out = (replyHead server.resources request headers now).1 ∧ entries = [] ∧
      Answers stale o request headers []
  | .logging request headers now =>
    (∃ mem, socket.out = (replyHead server.resources request headers now).1 ++
        paramsWritefd mem (replyHead server.resources request headers now).2) ∧
      entries = [] ∧ Answers stale o request headers []
  | .body request headers =>
    ∃ now, (∃ mem, socket.out = (replyHead server.resources request headers now).1 ++
        paramsWritefd mem (replyHead server.resources request headers now).2) ∧
      entries = server.logged stale now o ∧ Answers stale o request headers []
  | .closing | .done => ∃ now mem, server.written stale now mem o = some socket.out ∧
      entries = server.logged stale now o
  | .looping => socket.out = [] ∧ entries = [] ∧ o = .looping
  | .crashed => socket.out = [] ∧ entries = [] ∧ ∀ now mem, server.written stale now mem o = none

/-! ## All connections -/

/-- A descriptor that is open is that of one connection, which is not done. -/
structure Owned (w : World) : Prop where
  own : ∀ k child, w.children k = some child → child.stage.live = true → w.fds child.acceptFd = some k
  open_ : ∀ fd k, w.fds fd = some k →
    ∃ child, w.children k = some child ∧ child.acceptFd = fd ∧ child.stage.live = true

structure Inv (server : Server) (fuel : Nat) (w : World) : Prop where
  owned : Owned w
  new : ∀ k, w.count ≤ k → w.children k = none ∧ w.sockets k = ⟨[], []⟩ ∧ w.entries k = []
  ended : w.ended = true → ∃ k child, w.children k = some child ∧ child.stage = .crashed
  runs : ∀ k child, w.children k = some child → ChildOk server fuel child (w.sockets k) (w.entries k)

section Step
variable {server : Server} {fuel : Nat} {w w' : World} {k : Nat} {child : Child}

/-- What a call changes: its own thread, socket and entries, and its descriptor when it is closed. -/
structure Moved (server : Server) (fuel : Nat) (w w' : World) (k : Nat) (child : Child)
    (stage : Stage) : Prop where
  ended : w'.ended = stage.crashes
  count : w'.count = w.count
  children : w'.children = Function.update w.children k (some { child with stage })
  others : ∀ i, i ≠ k → w'.sockets i = w.sockets i ∧ w'.entries i = w.entries i
  ok : ChildOk server fuel { child with stage } (w'.sockets k) (w'.entries k)
  fds : w'.fds = w.fds ∧ stage.live = true ∨
    w'.fds = Function.update w.fds child.acceptFd none ∧ stage.live = false

theorem write_eq (hfd : w.fds child.acceptFd = some k) (bytes : Bytes) :
    w.write child.acceptFd bytes =
      { w with sockets := Function.update w.sockets k ⟨(w.sockets k).reads, (w.sockets k).out ++ bytes⟩ } := by
  rw [World.write, hfd]

theorem read_eq (hfd : w.fds child.acceptFd = some k) (r : Option Bytes) :
    w.read child.acceptFd r = (r,
      { w with sockets := Function.update w.sockets k ⟨(w.sockets k).reads ++ [r], (w.sockets k).out⟩ }) := by
  rw [World.read, hfd]

theorem moved_write (hfd : w.fds child.acceptFd = some k) (bytes : Bytes) {stage : Stage}
    (hlive : stage.live = true)
    (hok : ChildOk server fuel { child with stage }
      ⟨(w.sockets k).reads, (w.sockets k).out ++ bytes⟩ (w.entries k)) :
    Moved server fuel w ((w.write child.acceptFd bytes).goto k child stage) k child stage := by
  rw [write_eq hfd]
  refine ⟨rfl, rfl, rfl, fun i hi => ⟨Function.update_of_ne hi _ _, rfl⟩, ?_, .inl ⟨rfl, hlive⟩⟩
  simp only [World.goto, Function.update_self]
  exact hok

/-- One round of the loop, from what it does with more to read. -/
theorem read_moved (hfd : w.fds child.acceptFd = some k) {c : Connection}
    (hstage : child.stage = .reading c) (hok : ChildOk server fuel child (w.sockets k) (w.entries k))
    {r : Option Bytes} {stage : Stage} (hround : readRound fuel child.stack.request r c = stage) :
    Moved server fuel w ((w.read child.acceptFd r).2.goto k child stage) k child stage := by
  rw [ChildOk, hstage] at hok
  obtain ⟨hout, hentries, hloop⟩ := hok
  have hends : ∀ more, stage.Ends fuel child.stack.request more
      (httpResponse fuel child.stack.s child.stack.n ((w.sockets k).reads ++ [r] ++ more)) := by
    intro more
    rw [List.append_assoc, List.singleton_append, hloop, ← hround]
    exact readRound_ends ..
  have hnow : stage.Ends fuel child.stack.request []
      (httpResponse fuel child.stack.s child.stack.n ((w.sockets k).reads ++ [r])) := by
    have := hends []
    rwa [List.append_nil] at this
  have hlive : stage.live = true := by
    cases stage with
    | done => exact hnow.elim
    | _ => rfl
  rw [read_eq hfd]
  refine ⟨rfl, rfl, rfl, fun i hi => ⟨Function.update_of_ne hi _ _, rfl⟩, ?_, .inl ⟨rfl, hlive⟩⟩
  have hsocket : ChildOk server fuel { child with stage } ⟨(w.sockets k).reads ++ [r], []⟩ [] := by
    cases stage with
    | reading c' => exact ⟨rfl, rfl, hends⟩
    | answering request headers => exact ⟨rfl, rfl, hnow⟩
    | looping => exact ⟨rfl, rfl, hnow⟩
    | crashed => exact ⟨rfl, rfl, fun now mem => (hnow server now mem).1⟩
    | closing =>
      have hclosed : httpResponse fuel child.stack.s child.stack.n ((w.sockets k).reads ++ [r]) =
          .closed := hnow
      exact ⟨epoch, [], by rw [hclosed]; rfl, by rw [hclosed]; rfl⟩
    | _ => exact hnow.elim
  simp only [World.goto, Function.update_self, hout]
  rw [← hentries] at hsocket
  exact hsocket

theorem entries_log (w : World) (k i : Nat) (e : Bytes) :
    World.entries { w with log := w.log ++ [(k, e)] } i =
      w.entries i ++ if k = i then [e] else [] := by
  simp only [World.entries, List.filter_append, List.map_append]
  congr 1
  by_cases h : k = i
  · simp [h]
  · simp [h]

/-- **One call.** A thread that owns its descriptor goes on as `http_response` does. -/
theorem childStep_moved (hfd : w.fds child.acceptFd = some k)
    (hok : ChildOk server fuel child (w.sockets k) (w.entries k)) {call : Call}
    (h : childStep server fuel w k child call = some w') :
    ∃ stage, Moved server fuel w w' k child stage := by
  unfold childStep at h
  split at h
  · rename_i c r hstage
    have hmoved := read_moved hfd hstage hok (r := r) rfl
    rw [read_eq hfd] at h hmoved
    obtain rfl := Option.some.inj h
    exact ⟨_, hmoved⟩
  · rename_i request headers now hstage
    rw [ChildOk, hstage] at hok
    obtain ⟨hout, hentries, ho⟩ := hok
    obtain rfl := Option.some.inj h
    refine ⟨.headers request headers now, moved_write hfd _ rfl ?_⟩
    refine ⟨?_, hentries, ho⟩
    rw [hout, List.nil_append]
  · rename_i request headers now headersOut hstage
    rw [ChildOk, hstage] at hok
    obtain ⟨hout, hentries, ho⟩ := hok
    obtain rfl := Option.some.inj h
    refine ⟨.logging request headers now, moved_write hfd _ rfl ?_⟩
    exact ⟨⟨headersOut, by rw [hout]⟩, hentries, ho⟩
  · rename_i request headers now hstage
    rw [ChildOk, hstage] at hok
    obtain ⟨hout, hentries, ho⟩ := hok
    obtain rfl := Option.some.inj h
    refine ⟨.body request headers, rfl, rfl, rfl, fun i hi => ⟨rfl, ?_⟩, ?_, .inl ⟨rfl, rfl⟩⟩
    · exact (entries_log w k i _).trans (by rw [if_neg (Ne.symm hi), List.append_nil])
    · refine ⟨now, hout, ?_, ho⟩
      refine (entries_log w k k _).trans ?_
      rw [if_pos rfl, hentries, List.nil_append]
      exact (ho.logged server now).symm
  · rename_i request headers hstage
    rw [ChildOk, hstage] at hok
    obtain ⟨now, ⟨mem, hout⟩, hentries, ho⟩ := hok
    obtain rfl := Option.some.inj h
    refine ⟨.closing, moved_write hfd _ rfl ?_⟩
    refine ⟨now, mem, ?_, hentries⟩
    rw [ho.written server now mem, respond, hout, List.append_assoc]
  · rename_i hstage
    rw [ChildOk, hstage] at hok
    obtain rfl := Option.some.inj h
    exact ⟨.done, rfl, rfl, rfl, fun i hi => ⟨rfl, rfl⟩, hok, .inr ⟨rfl, rfl⟩⟩
  · cases h

/-- A call as far as the table of descriptors goes. -/
structure Touches (w w' : World) (k : Nat) (child : Child) (stage : Stage) : Prop where
  count : w'.count = w.count
  children : w'.children = Function.update w.children k (some { child with stage })
  others : ∀ i, i ≠ k → w'.sockets i = w.sockets i ∧ w'.entries i = w.entries i
  fds : w'.fds = w.fds ∧ stage.live = true ∨
    w'.fds = Function.update w.fds child.acceptFd none ∧ stage.live = false

theorem Moved.touches {stage : Stage} (hm : Moved server fuel w w' k child stage) :
    Touches w w' k child stage := ⟨hm.count, hm.children, hm.others, hm.fds⟩

theorem Touches.self {stage : Stage} (ht : Touches w w' k child stage) :
    w'.children k = some { child with stage } := by rw [ht.children, Function.update_self]

theorem Touches.other {stage : Stage} (ht : Touches w w' k child stage) {i : Nat} (hi : i ≠ k) :
    w'.children i = w.children i := by rw [ht.children, Function.update_of_ne hi]

/-- A descriptor is closed by the thread it belongs to. -/
theorem Owned.touch (h : Owned w) (hchild : w.children k = some child)
    (hlive : child.stage.live = true) {stage : Stage} (ht : Touches w w' k child stage) :
    Owned w' := by
  have hfd := h.own k child hchild hlive
  refine ⟨fun i c hc hl => ?_, fun fd i hopen => ?_⟩
  · by_cases hik : i = k
    · subst hik
      obtain rfl := Option.some.inj (ht.self.symm.trans hc)
      rcases ht.fds with ⟨hfds, -⟩ | ⟨-, hdone⟩
      · rw [hfds]
        exact hfd
      · exact absurd hl (by simp [hdone])
    · rw [ht.other hik] at hc
      have hown := h.own i c hc hl
      rcases ht.fds with ⟨hfds, -⟩ | ⟨hfds, -⟩
      · rw [hfds]
        exact hown
      · -- two threads have no descriptor in common
        have hne : c.acceptFd ≠ child.acceptFd := by
          intro he
          rw [he, hfd] at hown
          exact hik (Option.some.inj hown).symm
        rw [hfds, Function.update_of_ne hne]
        exact hown
  · have hbefore : w.fds fd = some i ∧ (stage.live = false → fd ≠ child.acceptFd) := by
      rcases ht.fds with ⟨hfds, hl⟩ | ⟨hfds, -⟩
      · exact ⟨hfds ▸ hopen, fun hd => absurd hl (by simp [hd])⟩
      · rw [hfds] at hopen
        by_cases he : fd = child.acceptFd
        · subst he
          rw [Function.update_self] at hopen
          cases hopen
        · rw [Function.update_of_ne he] at hopen
          exact ⟨hopen, fun _ => he⟩
    obtain ⟨c, hc, hfdc, hl⟩ := h.open_ fd i hbefore.1
    by_cases hik : i = k
    · subst hik
      obtain rfl := Option.some.inj (hchild.symm.trans hc)
      refine ⟨_, ht.self, hfdc, ?_⟩
      cases hst : stage.live with
      | true => rfl
      | false => exact absurd hfdc.symm (hbefore.2 hst)
    · exact ⟨c, by rw [ht.other hik, hc], hfdc, hl⟩

/-- A call of a thread whose descriptor is closed behind it, or still its own. -/
theorem inv_moved (h : Inv server fuel w) (hchild : w.children k = some child)
    (hlive : child.stage.live = true) {stage : Stage} (hm : Moved server fuel w w' k child stage) :
    Inv server fuel w' := by
  have ht := hm.touches
  refine ⟨h.owned.touch hchild hlive ht, fun i hi => ?_, fun hended => ?_, fun i c hc => ?_⟩
  · rw [hm.count] at hi
    obtain ⟨hnone, hsocket, hentries⟩ := h.new i hi
    have hik : i ≠ k := by
      rintro rfl
      rw [hchild] at hnone
      cases hnone
    obtain ⟨hs, he⟩ := hm.others i hik
    exact ⟨by rw [ht.other hik, hnone], by rw [hs, hsocket], by rw [he, hentries]⟩
  · rw [hm.ended] at hended
    refine ⟨k, _, ht.self, ?_⟩
    cases stage with
    | crashed => rfl
    | _ => cases hended
  · by_cases hik : i = k
    · subst hik
      obtain rfl := Option.some.inj (ht.self.symm.trans hc)
      exact hm.ok
    · obtain ⟨hs, he⟩ := hm.others i hik
      rw [ht.other hik] at hc
      rw [hs, he]
      exact h.runs i c hc

/-- A thread that is done makes no call. -/
theorem childStep_live {call : Call} (h : childStep server fuel w k child call = some w') :
    child.stage.live = true := by
  unfold childStep at h
  cases hs : child.stage with
  | done =>
    rw [hs] at h
    cases h
  | _ => rfl

/-- No step is made when the process has ended. -/
theorem worldStep_thread {call : Call} (h : worldStep server fuel w (.thread k call) = some w') :
    w.ended = false ∧ ∃ child, w.children k = some child ∧
      childStep server fuel w k child call = some w' := by
  unfold worldStep at h
  split at h
  · cases h
  · rename_i hended
    exact ⟨Bool.eq_false_iff.mpr hended, Option.bind_eq_some_iff.mp h⟩

/-- What a new connection finds. -/
structure Accepted (w w' : World) (fd : Nat) (stack : Stack) : Prop where
  free : w.fds fd = none
  ended : w'.ended = false
  count : w'.count = w.count + 1
  fds : w'.fds = Function.update w.fds fd (some w.count)
  children : w'.children =
    Function.update w.children w.count (some ⟨fd, stack, .reading stack.start⟩)
  sockets : w'.sockets = w.sockets
  log : w'.log = w.log

section Accept
variable {fd : Nat} {stack : Stack}

theorem accept_accepted (hs : worldStep server fuel w (.accept fd stack) = some w') :
    Accepted w w' fd stack := by
  unfold worldStep at hs
  split at hs
  · cases hs
  · rename_i hended
    dsimp only at hs
    split at hs
    · rename_i hfree
      obtain rfl := Option.some.inj hs
      exact ⟨hfree, Bool.eq_false_iff.mpr hended, rfl, rfl, rfl, rfl, rfl⟩
    · cases hs

theorem Accepted.self (ha : Accepted w w' fd stack) :
    w'.children w.count = some ⟨fd, stack, .reading stack.start⟩ := by
  rw [ha.children, Function.update_self]

theorem Accepted.other (ha : Accepted w w' fd stack) {i : Nat} (hi : i ≠ w.count) :
    w'.children i = w.children i := by
  rw [ha.children, Function.update_of_ne hi]

theorem Accepted.entries (ha : Accepted w w' fd stack) (i : Nat) : w'.entries i = w.entries i := by
  rw [World.entries, World.entries, ha.log]

/-- The descriptor of a new connection is nobody's. -/
theorem Owned.accept (h : Owned w) (hnone : w.children w.count = none)
    (ha : Accepted w w' fd stack) : Owned w' := by
  refine ⟨fun i c hc hl => ?_, fun fd' i hopen => ?_⟩
  · by_cases hi : i = w.count
    · subst hi
      obtain rfl := Option.some.inj (ha.self.symm.trans hc)
      rw [ha.fds, Function.update_self]
    · rw [ha.other hi] at hc
      have hown := h.own i c hc hl
      have hne : c.acceptFd ≠ fd := by
        intro he
        rw [he, ha.free] at hown
        cases hown
      rw [ha.fds, Function.update_of_ne hne]
      exact hown
  · rw [ha.fds] at hopen
    by_cases he : fd' = fd
    · subst he
      rw [Function.update_self] at hopen
      obtain rfl := Option.some.inj hopen
      exact ⟨_, ha.self, rfl, rfl⟩
    · rw [Function.update_of_ne he] at hopen
      obtain ⟨c, hc, hfdc, hl⟩ := h.open_ fd' i hopen
      have hi : i ≠ w.count := by
        rintro rfl
        rw [hnone] at hc
        cases hc
      exact ⟨c, by rw [ha.other hi, hc], hfdc, hl⟩

/-- Before the first read. -/
theorem childOk_accepted : ChildOk server fuel ⟨fd, stack, .reading stack.start⟩ ⟨[], []⟩ [] :=
  ⟨rfl, rfl, fun _ => rfl⟩

/-- A new connection gets a number that is nobody's. -/
theorem inv_accept (h : Inv server fuel w)
    (hs : worldStep server fuel w (.accept fd stack) = some w') : Inv server fuel w' := by
  obtain ⟨hnone, hsocket, hentries⟩ := h.new w.count (Nat.le_refl _)
  have ha := accept_accepted hs
  refine ⟨h.owned.accept hnone ha, fun i hi => ?_, fun hended => ?_, fun i c hc => ?_⟩
  · rw [ha.count] at hi
    obtain ⟨h1, h2, h3⟩ := h.new i (by omega)
    exact ⟨by rw [ha.other (by omega), h1], by rw [ha.sockets, h2], by rw [ha.entries, h3]⟩
  · rw [ha.ended] at hended
    cases hended
  · rw [ha.sockets, ha.entries]
    by_cases hi : i = w.count
    · subst hi
      obtain rfl := Option.some.inj (ha.self.symm.trans hc)
      rw [hsocket, hentries]
      exact childOk_accepted
    · rw [ha.other hi] at hc
      exact h.runs i c hc

end Accept

/-- **Steps.** Whoever makes the step, descriptors stay apart and every connection goes on as if it
were the only one. -/
theorem inv_step (h : Inv server fuel w) {e : Event} (hs : worldStep server fuel w e = some w') :
    Inv server fuel w' := by
  cases e with
  | accept fd stack => exact inv_accept h hs
  | thread k call =>
    obtain ⟨-, child, hchild, hstep⟩ := worldStep_thread hs
    have hlive := childStep_live hstep
    obtain ⟨stage, hm⟩ := childStep_moved (h.owned.own k child hchild hlive) (h.runs k child hchild) hstep
    exact inv_moved h hchild hlive hm

end Step

/-! ## Runs -/

section Runs
variable {server : Server} {fuel : Nat} {events : List Event} {w : World}

theorem inv_fresh (server : Server) (fuel : Nat) : Inv server fuel World.fresh where
  owned := ⟨fun k child h => (by cases h), fun fd k h => (by cases h)⟩
  new k _ := ⟨rfl, rfl, rfl⟩
  ended h := by cases h
  runs k child h := by cases h

theorem inv_run (h : (connections server fuel).exec World.fresh events = some w) :
    Inv server fuel w :=
  Machine.exec_inv (I := Inv server fuel) (fun _ _ _ hi hs => inv_step hi hs) (inv_fresh server fuel) h

/-- Parsers that both end have read the same. -/
theorem parse_agree {fuel fuel' len len' : Nat} {mem : Bytes} {headers headers' : List Param}
    (h : paramsNewParse fuel mem len .headers = some headers)
    (h' : paramsNewParse fuel' mem len' .headers = some headers') : headers = headers' := by
  rcases parse_headers_some h with ⟨hfail, rfl⟩ | ⟨text, htext, rfl⟩
  · rcases parse_headers_some h' with ⟨-, rfl⟩ | ⟨text', htext', -⟩
    · rfl
    · rw [htext'] at hfail
      cases hfail
  · rcases parse_headers_some h' with ⟨hfail', -⟩ | ⟨text', htext', rfl⟩
    · rw [htext] at hfail'
      cases hfail'
    · rw [htext] at htext'
      obtain rfl := congrArg Prod.fst htext'
      rfl

/-- What a connection that ends makes of what it reads does not depend on the fuel. -/
theorem loop_agree {fuel fuel' : Nat} {reads : List (Option Bytes)} {c : Connection}
    (h : responseLoop fuel reads c ≠ .looping) (h' : responseLoop fuel' reads c ≠ .looping) :
    responseLoop fuel reads c = responseLoop fuel' reads c := by
  induction reads generalizing c with
  | nil => rfl
  | cons r reads ih =>
    rw [responseLoop] at h h'
    rw [responseLoop, responseLoop]
    split
    · rfl
    · rename_i h0
      rw [if_neg h0] at h h'
      split
      · rename_i hn
        rw [if_pos hn] at h h'
        exact ih h h'
      · rename_i hn
        rw [if_neg hn] at h h'
        cases hparse : parseRequest (terminate (readInput c r).2 (readInput c r).1) (readInput c r).1 with
        | none => rfl
        | some c' =>
          rw [hparse] at h h'
          dsimp only at h h' ⊢
          cases hp : paramsNewParse fuel c'.s (strAt c'.s 0).length .headers with
          | none =>
            rw [hp] at h
            exact absurd rfl h
          | some headers =>
            cases hp' : paramsNewParse fuel' c'.s (strAt c'.s 0).length .headers with
            | none =>
              rw [hp'] at h'
              exact absurd rfl h'
            | some headers' =>
              obtain rfl := parse_agree hp hp'
              rw [hp] at h
              rw [hp'] at h'
              cases headers with
              | nil => exact ih h h'
              | cons e headers => rfl

/-- A request that is read in one piece is understood, whatever bound its headers are parsed with. -/
theorem oneRead_agrees {r : Request} {s : Bytes} {n fuel : Nat} (hr : r.Ok) (hne : r.headers ≠ [])
    (hs : bufSize ≤ s.length) (hn : n ≠ sizeMod - 1)
    (hends : httpResponse fuel s n [some r.print] ≠ .looping) :
    Answered r (httpResponse fuel s n [some r.print]) := by
  obtain ⟨fuel', hanswer⟩ := oneRead_answered hr hne hs hn
  have hends' : httpResponse fuel' s n [some r.print] ≠ .looping := by
    intro hl
    obtain ⟨request, headers, ho, -⟩ := hanswer
    rw [hl] at ho
    cases ho
  have hagree : httpResponse fuel s n [some r.print] = httpResponse fuel' s n [some r.print] :=
    loop_agree hends hends'
  rw [hagree]
  exact hanswer

end Runs

/-- Whether a thread is not done, and what was on its stack and read from its socket. -/
structure Progress where
  live : Bool
  size : Nat
  n : Nat
  reads : List (Option Bytes)
  deriving DecidableEq, Repr

def World.progress (w : World) (k : Nat) : Option Progress :=
  (w.children k).map fun child =>
    ⟨child.stage.live, child.stack.s.length, child.stack.n, (w.sockets k).reads⟩

def flimServer : Server := ⟨80, [flimResource]⟩

/-- A stack that no thread has used. -/
def newStack : Stack := ⟨List.replicate 8192 0, 0, none⟩

/-- Two connections, of which the first reads its request in two parts. The descriptor of the
second is given out again when it is closed. -/
def twoClients (request first second : Bytes) : List Event :=
  [.accept 5 newStack, .accept 6 newStack, .thread 0 (.read (some first)),
    .thread 1 (.read (some request)), .thread 1 (.status epoch), .thread 1 (.headers newStack.s),
    .thread 1 .log, .thread 1 .body, .thread 1 .close, .accept 6 newStack,
    .thread 0 (.read (some second))]

/-- A request line without headers is not found, and there is no other request. -/
example : ((connections flimServer 4).exec World.fresh [.accept 5 newStack,
    .thread 0 (.read (some (ascii "GET / HTTP/1.1\r\n\r\n")))]).map (·.ended) = some true := by
  decide +kernel

end Sighttpd.L5
