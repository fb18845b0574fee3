import Sighttpd.L2Stream.Fanout
import Sighttpd.L2Stream.OggStdin

/-!
# The live writers

Note (1) of `src/ringbuffer.h` asks every caller to compare its length with the free
space before it writes. `oggstdin_read_page` and the loop of `shrecord_main` write
without a look at it: a page is two `ringbuffer_write` calls, an iteration of the
loop one for every encoder that has data. `live` interleaves such a writer, one
`ringbuffer_write` a step, with the calls of any clients, with the logs of `Fanout`:
what was sent to each descriptor and what was written since it was opened.

* `queued_liveStep`: a write within note (1) keeps every queue, as do the client calls.
* `noteOne_iff`: every write of a run is within note (1) exactly when, at every
  write, every connected client has been sent all but `size - 1` of the bytes
  written since it connected, those of the write included.
* `stalled_overrun`: a client that is not served is lapped by the sixteenth full read.
-/
namespace Sighttpd.L2

/-- mirrors src/shrecord.c:141 -/
def BUFFER_SIZE : Nat := 128 * 1024

/-- A call of `oggstdin_read_page` outside the header phase, or what an iteration of
the loop of `shrecord_main` does for one encoder: whether its descriptor is readable
and what `read(2)` returns, `none` for -1. -/
inductive WriterCall where
  | page (og : OggPage)
  | poll (revents : Bool) (count : Option (List UInt8))
  deriving DecidableEq, Repr

/-- The `ringbuffer_write` calls of it, in order.
mirrors src/ogg-stdin.c:86-87 and src/shrecord.c:207-217 -/
def WriterCall.writes : WriterCall → List (List UInt8)
  | .page og => [og.header, og.body]
  | .poll revents count =>
    if revents then
      match count with
      | none => []
      | some buf => [buf.take BUFFER_SIZE]
    else []

/-- They are the ring-buffer side of `oggstdin_read_page`. -/
theorem readPage_writes {numheaders : Int → Nat} {st : OggStdin} {og : OggPage}
    (hb : og.bos = false) (h0 : st.inHeaders = 0) :
    (oggstdinReadPage numheaders st og).1.rb =
      (WriterCall.page og).writes.foldl ringbufferWrite st.rb := by
  rw [readPage_data hb h0]; rfl

/-- The ring buffer with its logs, and the calls the writer has still to make. -/
structure Live where
  fan : Fanout
  pending : List (List UInt8)

inductive LiveLbl where
  | client (c : Call)
  | call (w : WriterCall)
  | write
  deriving DecidableEq, Repr

/-- A `ringbuffer_write` that nothing is checked for. -/
def writeUnchecked (s : Fanout) (buf : List UInt8) : Fanout :=
  { s with rb := ringbufferWrite s.rb buf, written := fun j => s.written j ++ buf }

def liveStep (s : Live) : LiveLbl → Option Live
  | .client c =>
    match c with
    | .open => (fanoutStep s.fan .open).map ({ s with fan := · })
    | .close r => (fanoutStep s.fan (.close r)).map ({ s with fan := · })
    | .writefd r w₁ w₂ => (fanoutStep s.fan (.writefd r w₁ w₂)).map ({ s with fan := · })
    | _ => none
  | .call w => if s.pending = [] then some { s with pending := w.writes } else none
  | .write =>
    match s.pending with
    | [] => none
    | buf :: rest => some ⟨writeUnchecked s.fan buf, rest⟩

def live : Machine Live LiveLbl := ⟨liveStep⟩

def Live.init (rb : Ringbuffer) (data : Nat → UInt8) (len : Nat) : Live :=
  ⟨Fanout.init rb data len, []⟩

/-! ## The demand and the condition -/

/-- A write is no longer than the room that every open reader leaves. -/
def NoteOne (s : Live) : LiveLbl → Prop
  | .write => ∀ buf ∈ s.pending.head?, ∀ r, IsOpen s.fan.rb r →
      (buf.length : Int) ≤ (s.fan.rb.size : Int) - 1 - ringbufferAvail s.fan.rb r
  | _ => True

/-- What was sent to a client is a first part of what was written since it connected. -/
def GapFree (s : Live) : Prop :=
  ∀ r, IsOpen s.fan.rb r → s.fan.delivered r <+: s.fan.written r

/-- At a write, every client has been sent all but `size - 1` of the bytes written
since it connected, those of the write included. -/
def KeepsUp (s : Live) : LiveLbl → Prop
  | .write => ∀ buf ∈ s.pending.head?, ∀ r, IsOpen s.fan.rb r →
      (s.fan.written r).length + buf.length < (s.fan.delivered r).length + s.fan.rb.size
  | _ => True

instance (s : Live) (l : LiveLbl) : Decidable (KeepsUp s l) :=
  match l with
  | .client _ => isTrue trivial
  | .call _ => isTrue trivial
  | .write =>
    decidable_of_iff (∀ buf ∈ s.pending.head?, ∀ r ∈ List.range MAX_READERS, IsOpen s.fan.rb r →
        (s.fan.written r).length + buf.length < (s.fan.delivered r).length + s.fan.rb.size)
      ⟨fun h buf hb r ho => h buf hb r (List.mem_range.mpr ho.1) ho, fun h buf hb r _ ho => h buf hb r ho⟩

/-! ## One step -/

theorem queued_writeUnchecked {s : Fanout} (h : Queued s) {buf : List UInt8}
    (hroom : ∀ r, IsOpen s.rb r → lag s.rb r + buf.length < s.rb.size) :
    Queued (writeUnchecked s buf) := by
  by_cases hex : ∃ r, IsOpen s.rb r
  · obtain ⟨r, ho⟩ := hex
    have := hroom r ho
    have e : writeUnchecked s buf =
        { s with rb := pushed s.rb buf, written := fun j => s.written j ++ buf } := by
      unfold writeUnchecked
      rw [ringbufferWrite_eq h.wf (by omega)]
    rw [e]
    exact queued_pushed h hroom
  · -- nobody listens: the write may be of any length
    refine ⟨h.wf.write buf, fun r ho => absurd ⟨r, ho.1, ?_⟩ hex⟩
    have hr := ho.2
    rw [rdOpen_eq ho.1] at hr ⊢
    rwa [show (writeUnchecked s buf).rb.readers = s.rb.readers from readers_write s.rb buf] at hr

theorem queued_client {s s' : Fanout} {c : Call} (h : Queued s) (hc : ∀ buf, c ≠ .write buf)
    (hs : fanoutStep s c = some s') : Queued s' :=
  queued_effect h (effect_of_step h.wf hs) fun buf e => absurd e (hc buf)

/-- **Step.** Client calls keep the queues, and so does a write within note (1). -/
theorem queued_liveStep {s s' : Live} {l : LiveLbl} (h : Queued s.fan) (hc : NoteOne s l)
    (hs : liveStep s l = some s') : Queued s'.fan := by
  cases l with
  | client c =>
    have hmap : ∀ c, (∀ buf, c ≠ .write buf) →
        (fanoutStep s.fan c).map ({ s with fan := · }) = some s' → Queued s'.fan := by
      intro c hc hm
      obtain ⟨fan, hf, e⟩ := Option.map_eq_some_iff.mp hm
      cases e
      exact queued_client h hc hf
    cases c with
    | «open» => exact hmap _ (fun _ e => by cases e) hs
    | close r => exact hmap _ (fun _ e => by cases e) hs
    | writefd r w₁ w₂ => exact hmap _ (fun _ e => by cases e) hs
    | read r len => cases hs
    | write buf => cases hs
  | call w =>
    simp only [liveStep] at hs
    split at hs
    · cases hs; exact h
    · cases hs
  | write =>
    simp only [liveStep] at hs
    split at hs
    · cases hs
    · next buf rest hp =>
      cases hs
      apply queued_writeUnchecked h
      intro r ho
      have := hc buf (by rw [hp]; exact rfl) r ho
      rw [h.wf.avail_eq ho.1] at this
      omega

/-- Unread are the bytes written that have not been sent. -/
theorem lag_of_queued {s : Fanout} (h : Queued s) {r : Nat} (ho : IsOpen s.rb r) :
    (s.delivered r).length + lag s.rb r = (s.written r).length := by
  rw [← h.fifo r ho, List.length_append, unread_length]

theorem noteOne_iff_keepsUp {s : Live} (h : Queued s.fan) (l : LiveLbl) :
    NoteOne s l ↔ KeepsUp s l := by
  cases l with
  | client c => exact Iff.rfl
  | call w => exact Iff.rfl
  | write =>
    have hr : ∀ buf : List UInt8, ∀ r, IsOpen s.fan.rb r →
        ((buf.length : Int) ≤ (s.fan.rb.size : Int) - 1 - ringbufferAvail s.fan.rb r ↔
          (s.fan.written r).length + buf.length < (s.fan.delivered r).length + s.fan.rb.size) := by
      intro buf r ho
      have := lag_of_queued h ho
      rw [h.wf.avail_eq ho.1]
      omega
    constructor
    · intro hn buf hb r ho
      exact (hr buf r ho).mp (hn buf hb r ho)
    · intro hk buf hb r ho
      exact (hr buf r ho).mpr (hk buf hb r ho)

theorem gapFree_of_queued {s : Live} (h : Queued s.fan) : GapFree s :=
  fun r ho => ⟨unread s.fan.rb r, h.fifo r ho⟩

/-! ## Runs -/

theorem queued_init (rb : Ringbuffer) (data : Nat → UInt8) {len : Nat} (hl : 0 < len) :
    Queued (Live.init rb data len).fan :=
  ⟨wf_init rb data hl, (inv_init rb data hl).fifo⟩

/-- **Live writers.** In a run of any length, every write is within note (1) and every
client gets a gap-free run of bytes exactly when the clients keep up. -/
theorem noteOne_iff (rb : Ringbuffer) (data : Nat → UInt8) (len : Nat) (hl : 0 < len)
    (run : List LiveLbl) :
    (live.Guarded NoteOne (Live.init rb data len) run ∧ live.Along GapFree (Live.init rb data len) run) ↔
      live.Guarded KeepsUp (Live.init rb data len) run := by
  have hi := queued_init rb data hl
  have hstep : ∀ s l s', Queued s.fan → NoteOne s l → live.step s l = some s' → Queued s'.fan :=
    fun _ _ _ h hc hs => queued_liveStep h hc hs
  have hiff : live.Guarded NoteOne (Live.init rb data len) run ↔
      live.Guarded KeepsUp (Live.init rb data len) run :=
    Machine.guarded_congr hstep (fun s l _ h _ => noteOne_iff_keepsUp h l) hi
  refine ⟨fun h => hiff.mp h.1, fun h => ?_⟩
  have hg := hiff.mpr h
  exact ⟨hg, Machine.along_of_guarded (fun _ h => gapFree_of_queued h) hstep hi hg⟩

/-- A client that takes every byte before the next write. -/
def servedClient : List LiveLbl :=
  [.client .open, .call (.page ⟨1, false, 1, [79, 103], [1]⟩), .write,
    .client (.writefd 0 none (some 2)), .write, .client (.writefd 0 (some 1) (some 1))]

theorem noteOne_servedClient :
    live.Guarded NoteOne (Live.init blank (fun _ => 0) 3) servedClient ∧
      live.Along GapFree (Live.init blank (fun _ => 0) 3) servedClient := by
  refine (noteOne_iff blank (fun _ => 0) 3 (by decide) servedClient).mpr ?_
  decide +kernel

/-! ## A client that is not served -/

/-- One `read(2)` of the encoder's data, and the write that follows. -/
def readAndWrite (buf : List UInt8) : List LiveLbl := [.call (.poll true (some buf)), .write]

/-- One client connects, and `k` reads follow. -/
def stalled (buf : List UInt8) (k : Nat) : List LiveLbl :=
  .client .open :: (List.replicate k (readAndWrite buf)).flatten

/-- Reader 0 alone is connected and has all of `k` full reads before it. -/
structure Stalled (s : Live) (len k : Nat) : Prop where
  queued : Queued s.fan
  size : s.fan.rb.size = len
  pending : s.pending = []
  opened : ∀ r, IsOpen s.fan.rb r ↔ r = 0
  delivered : s.fan.delivered 0 = []
  written : (s.fan.written 0).length = k * BUFFER_SIZE

theorem Stalled.lag {s : Live} {len k : Nat} (h : Stalled s len k) : lag s.fan.rb 0 = k * BUFFER_SIZE := by
  have := lag_of_queued h.queued ((h.opened 0).mpr rfl)
  rw [h.delivered, h.written, List.length_nil, Nat.zero_add] at this
  exact this

section FullReads
variable {buf : List UInt8} (hlen : buf.length = BUFFER_SIZE)
include hlen

theorem call_fullRead {s : Live} (hp : s.pending = []) :
    live.step s (.call (.poll true (some buf))) = some { s with pending := [buf] } := by
  have : buf.take BUFFER_SIZE = buf := List.take_of_length_le (Nat.le_of_eq hlen)
  simp only [live, liveStep, hp, WriterCall.writes, if_true, this]

/-- A full read that still fits. -/
theorem Stalled.read {s : Live} {len k : Nat} (h : Stalled s len k) (hk : (k + 1) * BUFFER_SIZE < len) :
    ∃ s', live.exec s (readAndWrite buf) = some s' ∧ Stalled s' len (k + 1) := by
  refine ⟨⟨writeUnchecked s.fan buf, []⟩, ?_, ?_⟩
  · rw [readAndWrite, Machine.exec_cons, call_fullRead hlen h.pending]; rfl
  · have hroom : ∀ r, IsOpen s.fan.rb r → L2.lag s.fan.rb r + buf.length < s.fan.rb.size := by
      intro r ho
      obtain rfl := (h.opened r).mp ho
      rw [h.lag, hlen, h.size]
      rwa [Nat.add_mul, Nat.one_mul] at hk
    have hsize : (ringbufferWrite s.fan.rb buf).size = s.fan.rb.size := by
      have := hroom 0 ((h.opened 0).mpr rfl)
      rw [ringbufferWrite_eq h.queued.wf (by omega)]; rfl
    refine ⟨queued_writeUnchecked h.queued hroom, hsize.trans h.size, rfl, fun r => ?_, h.delivered, ?_⟩
    · rw [← h.opened r]
      unfold IsOpen rdOpen writeUnchecked
      rw [readers_write]
    · show (s.fan.written 0 ++ buf).length = _
      rw [List.length_append, h.written, hlen, Nat.add_mul, Nat.one_mul]

theorem stalled_exec {len k : Nat} (hk : k * BUFFER_SIZE < len) :
    ∃ s, live.exec (Live.init blank (fun _ => 0) len) (stalled buf k) = some s ∧ Stalled s len k := by
  have hl : 0 < len := by omega
  induction k with
  | zero =>
    have hq := queued_init blank (fun _ => 0) hl
    have hfind : ((List.range MAX_READERS).find? fun i => (0#32 &&& (1#32 <<< i)) == 0#32) = some 0 := by
      decide
    have he : fanoutStep (Live.init blank (fun _ => 0) len).fan .open =
        some ⟨openAt (ringbufferInit blank (fun _ => 0) len) 0, clearAt (fun _ => []) 0,
          clearAt (fun _ => []) 0⟩ := by
      have hopen : ringbufferOpen (ringbufferInit blank (fun _ => 0) len) =
          (openAt (ringbufferInit blank (fun _ => 0) len) 0, some 0) := by
        unfold ringbufferOpen
        rw [show (ringbufferInit blank (fun _ => 0) len).readers = 0#32 from rfl, hfind]
        rfl
      simp only [fanoutStep, Live.init, Fanout.init, hopen]
    refine ⟨⟨⟨openAt (ringbufferInit blank (fun _ => 0) len) 0, clearAt (fun _ => []) 0,
      clearAt (fun _ => []) 0⟩, []⟩, ?_, queued_client hq (fun _ e => by cases e) he, rfl, rfl,
      fun r => ?_, rfl, ?_⟩
    · rw [stalled, Machine.exec_cons, show live.step _ _ = liveStep _ _ from rfl]
      simp only [liveStep, he]
      rfl
    · simp only [isOpen_openAt (show 0 < MAX_READERS by decide), not_isOpen_init, false_or]
    · simp [clearAt]
  | succ k ih =>
    obtain ⟨s, he, hs⟩ := ih (by rw [Nat.add_mul] at hk; omega)
    obtain ⟨s', he', hs'⟩ := hs.read hlen hk
    refine ⟨s', ?_, hs'⟩
    have e : stalled buf (k + 1) = stalled buf k ++ readAndWrite buf := by
      simp [stalled, List.replicate_succ', List.flatten_append]
    rw [e, Machine.exec_append, he]
    exact he'

/-- The read that no longer fits. -/
theorem not_noteOne_stalled {len k : Nat} (hk : k * BUFFER_SIZE < len)
    (hover : len ≤ (k + 1) * BUFFER_SIZE) :
    ¬live.Guarded NoteOne (Live.init blank (fun _ => 0) len) (stalled buf (k + 1)) := by
  intro h
  have e : stalled buf (k + 1) = stalled buf k ++ readAndWrite buf := by
    simp [stalled, List.replicate_succ', List.flatten_append]
  obtain ⟨s, he, hs⟩ := stalled_exec hlen hk
  rw [e] at h
  have hg := Machine.guarded_exec h he
  have ho : IsOpen s.fan.rb 0 := (hs.opened 0).mpr rfl
  have hw := ((hg _ (call_fullRead hlen hs.pending)).2 _ rfl).1 buf rfl 0 ho
  rw [hs.queued.wf.avail_eq ho.1, hs.lag, hs.size, hlen] at hw
  rw [Nat.add_mul] at hover
  omega

end FullReads

/-- **Counterexample.** With the buffer of `shrecord_resource`, the sixteenth full read
laps a client that has not been served. -/
theorem stalled_overrun :
    ¬∀ run, live.Guarded NoteOne (Live.init blank (fun _ => 0) (4096 * 16 * 32)) run := fun h =>
  not_noteOne_stalled (show (List.replicate BUFFER_SIZE 0).length = _ from List.length_replicate ..)
    (k := 15) (by decide) (by decide) (h _)

end Sighttpd.L2
