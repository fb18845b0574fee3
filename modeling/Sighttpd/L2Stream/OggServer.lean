import Sighttpd.L2Stream.OggChain
import Sighttpd.L2Stream.Sessions

/-!
# The Ogg server

`oggServer` interleaves the pages of a chain, read by `oggstdin_read_page`, with any
number of sessions running `oggstdin_body`. A session records the cache it was sent,
and its bytes from the ring buffer.

Ghost fields name pages by their place in the chain: which are in the cache, which
a session had in its `sendfile`, which were written while it was connected. So each
forwarded byte has an origin (`origins`).

* `HeadersFirst`: every client has the headers of a stream before its data.
* `CachedThen`: the condition on a step.
-/
namespace Sighttpd.L2

/-! ## Sessions and server -/

/-- A session of `oggstdin_body` and what went to its socket. -/
structure OggSession where
  pc : Pc
  headers : List UInt8         -- by `sendfile`
  sentPages : List Nat         -- in the cache then
  sentAt : Nat                 -- pages read by then
  written : List Nat           -- pages written while connected
  forwarded : List UInt8       -- by `ringbuffer_writefd`
  deriving DecidableEq, Repr

def OggSession.connected (x : OggSession) : Option Nat := x.pc.held.join

structure OggServer where
  st : OggStdin
  count : Nat                  -- pages read
  reading : Bool               -- `OGGZ_CONTINUE`
  cached : List Nat            -- pages in the cache
  sessions : List OggSession

def OggServer.init (rb : Ringbuffer) (data : Nat → UInt8) (len : Nat) : OggServer :=
  ⟨OggStdin.init rb data len, 0, true, [], []⟩

inductive OggLbl where
  | page
  | accept
  | session (i : Nat) (e : Event)
  | sighandler
  deriving DecidableEq, Repr

/-- The flag an event reads is the module's. -/
def readsFlag (st : OggStdin) : Pc → Event → Prop
  | .waiting, .flag b => b = decide (st.inHeaders ≠ 0)
  | .looping _, .flag b => b = st.active
  | _, _ => True

instance (st : OggStdin) (pc : Pc) (e : Event) : Decidable (readsFlag st pc e) := by
  unfold readsFlag; split <;> infer_instance

/-- A write of `n` bytes overruns no reader. -/
def Room (rb : Ringbuffer) (n : Nat) : Prop :=
  ∀ r ∈ List.range MAX_READERS, IsOpen rb r → lag rb r + n < rb.size

instance (rb : Ringbuffer) (n : Nat) : Decidable (Room rb n) :=
  inferInstanceAs (Decidable (∀ r ∈ List.range MAX_READERS, _))

/-- What a session has done after a step. -/
def OggSession.after (x : OggSession) (s : OggServer) (e : Event) (pc : Pc) (sent : List UInt8) :
    OggSession :=
  if x.pc = .sending ∧ e = .sendfile true then
    { x with
      pc
      headers := s.st.headersFd.contents.take s.st.headersLen
      sentPages := s.cached
      sentAt := s.count }
  else { x with pc, forwarded := x.forwarded ++ sent }

def OggSession.note (x : OggSession) (i : Nat) : OggSession :=
  if x.connected.isSome then { x with written := x.written ++ [i] } else x

/-- One step, on the pages `input`. A page that would overrun a reader is not read. -/
def oggStep (numheaders : Int → Nat) (input : List (OggPage × Bool)) (s : OggServer) :
    OggLbl → Option OggServer
  | .page =>
    match input[s.count]? with
    | none => none
    | some (og, _) =>
      let (st, reading) := oggstdinReadPage numheaders s.st og
      if s.reading = false then none
      else if og.bos = false ∧ s.st.inHeaders = 0 then
        if Room s.st.rb og.bytes.length then
          some ⟨st, s.count + 1, reading, s.cached, s.sessions.map (·.note s.count)⟩
        else none
      else
        some ⟨st, s.count + 1, reading,
          if Restarts s.st og then [s.count] else s.cached ++ [s.count], s.sessions⟩
  | .accept => some { s with sessions := s.sessions ++ [⟨oggstdinBody, [], [], 0, [], []⟩] }
  | .session i e =>
    match s.sessions[i]? with
    | none => none
    | some x =>
      if readsFlag s.st x.pc e then
        (sessionStep s.st.rb x.pc e).map fun (rb, pc, sent) =>
          { s with st := { s.st with rb }, sessions := s.sessions.set i (x.after s e pc sent) }
      else none
  | .sighandler => some { s with st := { s.st with active := false } }

def oggServer (numheaders : Int → Nat) (input : List (OggPage × Bool)) : Machine OggServer OggLbl :=
  ⟨oggStep numheaders input⟩

/-! ## The demand and the condition -/

def pageAt (input : List (OggPage × Bool)) (i : Nat) : List UInt8 :=
  ((input[i]?).map (·.1.bytes)).getD []

/-- The page that each byte of a sequence of pages comes from. -/
def origins (input : List (OggPage × Bool)) (pages : List Nat) : List Nat :=
  pages.flatMap fun i => List.replicate (pageAt input i).length i

/-- Page `j` is a header page of the stream of page `i`. -/
def HeaderOf (input : List (OggPage × Bool)) (i j : Nat) : Prop :=
  ∃ og ∈ input[i]?, ∃ hd ∈ input[j]?, hd.2 = true ∧ hd.1.serialno = og.1.serialno

/-- The session was sent the pages it is said to have been sent, and all header pages
of every stream it was sent data of. -/
structure HeadersSent (input : List (OggPage × Bool)) (x : OggSession) : Prop where
  headers : x.headers = x.sentPages.flatMap (pageAt input)
  forwarded : x.forwarded <+: x.written.flatMap (pageAt input)
  first : ∀ i ∈ (origins input x.written).take x.forwarded.length, ∀ j, HeaderOf input i j →
    j ∈ x.sentPages

def HeadersFirst (input : List (OggPage × Bool)) (s : OggServer) : Prop :=
  ∀ x ∈ s.sessions, HeadersSent input x

/-- Page `k` begins a stream when every stream begun before has all its headers. -/
def Renews (numheaders : Int → Nat) (input : List (OggPage × Bool)) (k : Nat) : Prop :=
  ∃ og ∈ input[k]?, og.1.bos = true ∧ incomplete numheaders (headersOf (input.take k)) = 0

/-- Page `j` was read before page `n`, and the cache not restarted in between. -/
def StillCached (numheaders : Int → Nat) (input : List (OggPage × Bool)) (n j : Nat) : Prop :=
  j < n ∧ ∀ k, j < k → k < n → ¬Renews numheaders input k

/-- The bytes that a `ringbuffer_writefd` takes are of streams whose header pages were
all in the cache at the session's `sendfile`. -/
def CachedThen (numheaders : Int → Nat) (input : List (OggPage × Bool)) (s : OggServer) :
    OggLbl → Prop
  | .session i (.call w₁ w₂) => ∀ x ∈ s.sessions[i]?, ∀ r, x.pc = .ready (some r) →
      ∀ p ∈ ((origins input x.written).drop x.forwarded.length).take
        (writefdTaken s.st.rb r w₁ w₂).1,
      ∀ j, HeaderOf input p j → StillCached numheaders input x.sentAt j
  | _ => True

section Decidable
variable (numheaders : Int → Nat) (input : List (OggPage × Bool))

instance (i j : Nat) : Decidable (HeaderOf input i j) :=
  inferInstanceAs (Decidable (∃ og ∈ input[i]?, ∃ hd ∈ input[j]?, _))

instance (k : Nat) : Decidable (Renews numheaders input k) :=
  inferInstanceAs (Decidable (∃ og ∈ input[k]?, _))

instance (n j : Nat) : Decidable (StillCached numheaders input n j) :=
  decidable_of_iff (j < n ∧ ∀ k < n, j < k → ¬Renews numheaders input k)
    ⟨fun h => ⟨h.1, fun k hj hn => h.2 k hn hj⟩, fun h => ⟨h.1, fun k hn hj => h.2 k hj hn⟩⟩

theorem headerOf_lt {input : List (OggPage × Bool)} {i j : Nat} (h : HeaderOf input i j) :
    j < input.length := by
  obtain ⟨-, -, hd, hj, -⟩ := h
  exact (List.getElem?_eq_some_iff.mp hj).1

/-- The descriptor of a `ringbuffer_writefd` that comes next. -/
def Pc.sends : Pc → Option Nat
  | .ready rd => rd
  | _ => none

theorem mem_sends {pc : Pc} {r : Nat} : r ∈ pc.sends ↔ pc = .ready (some r) := by
  cases pc <;> simp [Pc.sends]

instance (s : OggServer) (l : OggLbl) : Decidable (CachedThen numheaders input s l) :=
  match l with
  | .page => isTrue trivial
  | .accept => isTrue trivial
  | .sighandler => isTrue trivial
  | .session _ (.flag _) => isTrue trivial
  | .session _ (.sendfile _) => isTrue trivial
  | .session i (.call w₁ w₂) =>
    decidable_of_iff (∀ x ∈ s.sessions[i]?, ∀ r ∈ x.pc.sends,
        ∀ p ∈ ((origins input x.written).drop x.forwarded.length).take
          (writefdTaken s.st.rb r w₁ w₂).1,
        ∀ j ∈ List.range input.length, HeaderOf input p j → StillCached numheaders input x.sentAt j)
      ⟨fun h x hx r hr p hp j hj =>
          h x hx r (mem_sends.mpr hr) p hp j (List.mem_range.mpr (headerOf_lt hj)) hj,
        fun h x hx r hr p hp j _ hj => h x hx r (mem_sends.mp hr) p hp j hj⟩

end Decidable

end Sighttpd.L2
