import Sighttpd.L2Stream.Channel
import Sighttpd.L2Stream.LiveWriters

/-!
# The SHRecord streams (`src/shrecord.c`)

One thread, `shrecord_main`, polls the fifos of all encoders and writes what it reads to the ring
buffer of the encoder it came from; each client runs `shrecord_body` on the buffer of one encoder.
`shRecord` interleaves the thread with any number of clients, one call a step. It is to be as many
broadcasts side by side as there are encoders.

* `shInv_step`: a step keeps it so when it meets `KeepsPace`.
* `shRecord_iff`: every state of a run is so exactly when all its steps meet `KeepsPace`: no write
  reaches a client of that encoder that has not been sent enough, and no client opens as the
  seventeenth of an encoder.
-/
namespace Sighttpd.L2

/-! ## The thread and its clients -/

/-- Where `shrecord_main` stands. -/
inductive MainPc where
  | launching                                  -- at `fork`
  | polling                                    -- at `poll`
  | serving (i : Nat) (revents : List Bool)    -- at encoder `i` of the loop
  | returned
  deriving DecidableEq, Repr

/-- The encoders as `ringbuffer_init` left them, and the thread; `alive` stays 1. -/
structure ShRecord where
  encdata : List Channel
  main : MainPc

def ShRecord.init (bufs : List (Ringbuffer × (Nat → UInt8))) (len : Nat) : ShRecord :=
  ⟨bufs.map fun b => Channel.init b.1 b.2 len, .launching⟩

/-- `fork` and the `open` of every fifo succeed or not; `poll` returns the encoders with `POLLIN`,
or -1; an encoder is served, with what `read(2)` returns if there is something; a client of
encoder `k` is accepted, or takes a step. -/
inductive ShLbl where
  | launch (ok : Bool)
  | poll (revents : Option (List Bool))
  | serve (count : Option (List UInt8))
  | accept (k : Nat)
  | client (k i : Nat) (e : Event)
  deriving DecidableEq, Repr

/-- The body of the loop for encoder `i`.
mirrors src/shrecord.c:204-219 -/
def serveStep (s : ShRecord) (i : Nat) (revents : List Bool) (count : Option (List UInt8)) :
    Option ShRecord :=
  match s.encdata[i]? with
  | none => some { s with main := .polling }
  | some ed =>
    if (revents[i]?).getD false then
      match count with
      | none => some { s with main := .returned }
      | some buffer =>
        let new := buffer.take BUFFER_SIZE
        some ⟨s.encdata.set i (ed.store (ringbufferWrite ed.rb new) new), .serving (i + 1) (revents.set i false)⟩
    else some { s with main := .serving (i + 1) revents }

/-- mirrors src/shrecord.c:160-227 and 260-288 -/
def shStep (s : ShRecord) : ShLbl → Option ShRecord
  | .launch ok =>
    if s.main = .launching then
      some { s with main := if ok && !s.encdata.isEmpty then .polling else .returned }
    else none
  | .poll revents =>
    if s.main = .polling then
      some { s with main := match revents with | none => .returned | some revents => .serving 0 revents }
    else none
  | .serve count =>
    match s.main with
    | .serving i revents => serveStep s i revents count
    | _ => none
  | .accept k =>
    match s.encdata[k]? with
    | none => none
    | some ed => some { s with encdata := s.encdata.set k ed.accept }
  | .client k i e =>
    match s.encdata[k]? with
    | none => none
    | some ed => (ed.clientStep (some true) i e).map fun ed => { s with encdata := s.encdata.set k ed }

def shRecord : Machine ShRecord ShLbl := ⟨shStep⟩

/-! ## The demand and the condition -/

/-- The encoders do what broadcasts side by side do; every client has its own descriptor and
was sent exactly what it has received of the broadcast of its encoder. -/
structure Streams (n : Nat) (s : ShRecord) : Prop where
  apart : ∃ as, (Broadcast.machine UInt8).array.exec (List.replicate n ⟨[], []⟩) as =
    some (s.encdata.map (·.broadcast))
  delivers : ∀ ed ∈ s.encdata, Delivers ed ∧ Exclusive ed.server

/-- A client does not open as the seventeenth of its encoder. A write of what the thread has read
overruns no client of that encoder. -/
def KeepsPace (s : ShRecord) : ShLbl → Prop
  | .client k i _ => ∀ ed ∈ s.encdata[k]?, OpensFree ed i
  | .serve count => ∀ i revents, s.main = .serving i revents → (revents[i]?).getD false = true →
      ∀ ed ∈ s.encdata[i]?, ∀ buffer ∈ count, LeavesRoom ed.rb (buffer.take BUFFER_SIZE).length
  | _ => True

/-! ## One step -/

structure ShInv (n : Nat) (s : ShRecord) : Prop where
  apart : ∃ as, (Broadcast.machine UInt8).array.exec (List.replicate n ⟨[], []⟩) as =
    some (s.encdata.map (·.broadcast))
  channel : ∀ ed ∈ s.encdata, ChannelInv ed

theorem streams_of_inv {n : Nat} {s : ShRecord} (h : ShInv n s) : Streams n s :=
  ⟨h.apart, fun ed hed => ⟨delivers_of_inv (h.channel ed hed), (h.channel ed hed).exclusive⟩⟩

theorem shInv_init (bufs : List (Ringbuffer × (Nat → UInt8))) {len : Nat} (hl : 0 < len) :
    ShInv bufs.length (ShRecord.init bufs len) where
  apart := by
    refine ⟨[], ?_⟩
    rw [Machine.exec_nil]
    unfold ShRecord.init
    rw [List.map_map, ← List.map_const]
    rfl
  channel ed hed := by
    obtain ⟨b, -, rfl⟩ := List.mem_map.mp hed
    exact channelInv_init b.1 b.2 hl

/-- One encoder goes on, the others stay. -/
theorem shInv_set {n : Nat} {s : ShRecord} (h : ShInv n s) {k : Nat} {ed ed' : Channel}
    (hk : s.encdata[k]? = some ed) (hinv : ChannelInv ed') (hf : Follows ed ed') (main : MainPc) :
    ShInv n ⟨s.encdata.set k ed', main⟩ := by
  obtain ⟨as, has⟩ := h.apart
  obtain ⟨bs, hbs⟩ := hf
  refine ⟨⟨as ++ bs.map fun b => (k, b), ?_⟩, fun x hx => ?_⟩
  · have hget : (s.encdata.map (·.broadcast))[k]? = some ed.broadcast := by
      rw [List.getElem?_map, hk]
      rfl
    rw [Machine.exec_append, has, Option.bind_some, Machine.exec_array hget hbs, List.map_set]
  · rcases List.mem_or_eq_of_mem_set hx with hx | rfl
    · exact h.channel x hx
    · exact hinv

/-- The thread goes on. -/
theorem ShInv.main {n : Nat} {s : ShRecord} (h : ShInv n s) (main : MainPc) :
    ShInv n { s with main := main } := ⟨h.apart, h.channel⟩

/-- What a step does: the thread goes on, or one encoder is written to, or has a client accepted
or taking a step. -/
inductive ShCase (s : ShRecord) : ShLbl → ShRecord → Prop where
  | thread (l : ShLbl) (main : MainPc) (hg : KeepsPace s l) : ShCase s l { s with main := main }
  | write (i : Nat) (revents : List Bool) (ed : Channel) (buffer : List UInt8)
      (hm : s.main = .serving i revents) (hr : (revents[i]?).getD false = true)
      (hi : s.encdata[i]? = some ed) (main : MainPc) : ShCase s (.serve (some buffer))
        ⟨s.encdata.set i (ed.store (ringbufferWrite ed.rb (buffer.take BUFFER_SIZE))
          (buffer.take BUFFER_SIZE)), main⟩
  | accept (k : Nat) (ed : Channel) (hk : s.encdata[k]? = some ed) :
    ShCase s (.accept k) { s with encdata := s.encdata.set k ed.accept }
  | client (k i : Nat) (e : Event) (ed ed' : Channel) (hk : s.encdata[k]? = some ed)
      (hs : ed.clientStep (some true) i e = some ed') :
    ShCase s (.client k i e) { s with encdata := s.encdata.set k ed' }

theorem shStep_cases {s s' : ShRecord} {l : ShLbl} (hs : shStep s l = some s') : ShCase s l s' := by
  cases l with
  | launch ok =>
    simp only [shStep] at hs
    split at hs
    · cases hs
      exact .thread _ _ trivial
    · cases hs
  | poll revents =>
    simp only [shStep] at hs
    split at hs
    · cases hs
      exact .thread _ _ trivial
    · cases hs
  | accept k =>
    simp only [shStep] at hs
    cases hk : s.encdata[k]? with
    | none =>
      rw [hk] at hs
      cases hs
    | some ed =>
      rw [hk] at hs
      cases hs
      exact .accept k ed hk
  | client k i e =>
    simp only [shStep] at hs
    cases hk : s.encdata[k]? with
    | none =>
      rw [hk] at hs
      cases hs
    | some ed =>
      rw [hk] at hs
      obtain ⟨ed', hed, rfl⟩ := Option.map_eq_some_iff.mp hs
      exact .client k i e ed ed' hk hed
  | serve count =>
    simp only [shStep] at hs
    cases hm : s.main with
    | launching =>
      rw [hm] at hs
      cases hs
    | polling =>
      rw [hm] at hs
      cases hs
    | returned =>
      rw [hm] at hs
      cases hs
    | serving i revents =>
      simp only [hm, serveStep] at hs
      cases hi : s.encdata[i]? with
      | none =>
        simp only [hi] at hs
        cases hs
        refine .thread _ _ fun i' revents' hm' _ ed hed => ?_
        rw [hm] at hm'
        cases hm'
        rw [hi] at hed
        cases hed
      | some ed =>
        simp only [hi] at hs
        by_cases hr : (revents[i]?).getD false = true
        · rw [if_pos hr] at hs
          cases count with
          | none =>
            cases hs
            exact .thread _ _ fun _ _ _ _ _ _ _ hb => by cases hb
          | some buffer =>
            cases hs
            exact .write i revents ed buffer hm hr hi _
        · rw [if_neg hr] at hs
          cases hs
          refine .thread _ _ fun i' revents' hm' hr' => ?_
          rw [hm] at hm'
          cases hm'
          exact absurd hr' hr

/-- **Step.** A step that meets the condition is one of the broadcasts. -/
theorem shInv_step {n : Nat} {s s' : ShRecord} {l : ShLbl} (h : ShInv n s) (hg : KeepsPace s l)
    (hs : shStep s l = some s') : ShInv n s' := by
  cases shStep_cases hs with
  | thread _ main _ => exact h.main main
  | accept k ed hk =>
    obtain ⟨hinv, hf⟩ := channel_accept (h.channel ed (List.mem_of_getElem? hk))
    exact shInv_set h hk hinv hf s.main
  | client k i e ed ed' hk hstep =>
    obtain ⟨hinv, hf⟩ := channel_client (h.channel ed (List.mem_of_getElem? hk)) (hg ed hk) hstep
    exact shInv_set h hk hinv hf s.main
  | write i revents ed buffer hm hr hi main =>
    obtain ⟨hinv, hf⟩ := channel_store (h.channel ed (List.mem_of_getElem? hi))
      (hg i revents hm hr ed hi buffer rfl)
    exact shInv_set h hi hinv hf main

theorem mem_encdata {encdata : List Channel} {i : Nat} {ed : Channel} (hi : encdata[i]? = some ed)
    (ed' : Channel) : ed' ∈ encdata.set i ed' :=
  List.mem_set (List.getElem?_eq_some_iff.mp hi).1 ed'

/-- A step into a state with the streams delivered meets the condition. -/
theorem keepsPace_of_streams {n : Nat} {s s' : ShRecord} {l : ShLbl} (h : ShInv n s)
    (hs : shStep s l = some s') (h' : Streams n s') : KeepsPace s l := by
  cases shStep_cases hs with
  | thread _ main hg => exact hg
  | accept k ed hk => trivial
  | client k i e ed ed' hk hstep =>
    intro ed₀ hed₀
    obtain rfl := Option.some.inj (hk.symm.trans hed₀)
    exact opensFree_of_exclusive (h.channel ed (List.mem_of_getElem? hk)) hstep
      (h'.delivers ed' (mem_encdata hk ed')).2
  | write i revents ed buffer hm hr hi main =>
    intro i' revents' hm' hr' ed' hed' buffer' hb'
    rw [hm] at hm'
    cases hm'
    obtain rfl := Option.some.inj (hi.symm.trans hed')
    cases hb'
    refine leavesRoom_of_delivers (h.channel ed (List.mem_of_getElem? hi)) ?_
    exact (h'.delivers _ (mem_encdata hi _)).1

/-! ## Runs -/

/-- **One broadcast for each encoder.** In a run of any length, with any number of encoders and of
clients: in every state each client has its own descriptor and was sent exactly the bytes read from
the fifo of its own encoder from its `ringbuffer_open` on, without a gap, and what the encoders do
is done by broadcasts side by side, exactly when every step meets `KeepsPace`. -/
theorem shRecord_iff (bufs : List (Ringbuffer × (Nat → UInt8))) (len : Nat) (hl : 0 < len)
    (run : List ShLbl) :
    shRecord.Along (Streams bufs.length) (ShRecord.init bufs len) run ↔
      shRecord.Guarded KeepsPace (ShRecord.init bufs len) run :=
  Machine.along_iff_guarded (I := ShInv bufs.length) (fun _ h => streams_of_inv h)
    (fun _ _ _ h hg hs => shInv_step h hg hs) (fun _ _ _ h hs h' => keepsPace_of_streams h hs h')
    (shInv_init bufs hl)

/-! ## A run -/

section Decidable
variable (s : ShRecord)

instance (l : ShLbl) : Decidable (KeepsPace s l) :=
  match l with
  | .launch _ => isTrue trivial
  | .poll _ => isTrue trivial
  | .accept _ => isTrue trivial
  | .client k i _ => inferInstanceAs (Decidable (∀ ed ∈ s.encdata[k]?, OpensFree ed i))
  | .serve count =>
    match hm : s.main with
    | .serving i revents =>
      decidable_of_iff ((revents[i]?).getD false = true → ∀ ed ∈ s.encdata[i]?, ∀ buffer ∈ count,
          LeavesRoom ed.rb (buffer.take BUFFER_SIZE).length)
        ⟨fun h i' revents' hm' => by
            rw [hm] at hm'
            cases hm'
            exact h,
          fun h => h i revents hm⟩
    | .launching => isTrue fun i revents hm' => by rw [hm] at hm'; cases hm'
    | .polling => isTrue fun i revents hm' => by rw [hm] at hm'; cases hm'
    | .returned => isTrue fun i revents hm' => by rw [hm] at hm'; cases hm'

end Decidable

/-- Two encoders with a client each; both fifos have something at once. -/
def twoEncoders : List ShLbl :=
  [.launch true, .accept 0, .accept 1, .client 0 0 (.call none none), .client 1 0 (.call none none),
    .poll (some [true, true]), .serve (some [1, 2]), .serve (some [3]), .serve none,
    .client 1 0 (.flag true), .client 1 0 (.call none none), .client 1 0 (.call none (some 1)),
    .poll none]

theorem shRecord_twoEncoders :
    shRecord.Along (Streams 2) (ShRecord.init [(blank, fun _ => 0), (blank, fun _ => 0)] (4096 * 16 * 32))
      twoEncoders :=
  (shRecord_iff [(blank, fun _ => 0), (blank, fun _ => 0)] (4096 * 16 * 32) (by decide) twoEncoders).mpr
    (by decide +kernel)

end Sighttpd.L2
