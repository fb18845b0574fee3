import Mathlib.Data.List.Nodup
import Mathlib.Data.List.Perm.Subperm
import Sighttpd.Core.Machine
import Sighttpd.L2Stream.Fanout

/-!
# Client sessions on one ring buffer

`fdstream_body`, `oggstdin_body` and `shrecord_body` are the same program: open a
read descriptor, wait for bytes and forward them until the stream ends or a write
fails, close the descriptor. `oggstdin_body` first waits for the header phase to
end and sends the cached headers. `Pc` says where a session stands, with the
descriptor it holds; `none` is the -1 that `ringbuffer_open` returns when all
sixteen are taken, which no body looks at.

`server` interleaves any number of sessions, one ring-buffer call a step, with a
producer that changes the storage and the writer's position.

* `exclusive_step`: a step keeps every held descriptor in 0..15, unshared and with
  its bit in the mask, unless a session opens when sixteen are connected.
* `exclusive_iff`: a run keeps them so exactly when no step does that.
-/
namespace Sighttpd.L2

/-- Where a session stands. -/
inductive Pc where
  | waiting                       -- at `while (st->in_headers)`
  | sending                       -- at `sendfile`
  | opening                       -- at `ringbuffer_open`
  | looping (rd : Option Nat)     -- at `while (active)`
  | polling (rd : Option Nat)     -- at `ringbuffer_avail`
  | ready (rd : Option Nat)       -- at `ringbuffer_writefd`
  | leaving (rd : Option Nat)     -- at `ringbuffer_close`
  | done
  deriving DecidableEq, Repr

/-- The descriptor a session holds; the argument of its next ring-buffer call. -/
def Pc.held : Pc → Option (Option Nat)
  | .looping rd => some rd
  | .polling rd => some rd
  | .ready rd => some rd
  | .leaving rd => some rd
  | _ => none

/-- mirrors src/fdstream.c:48-56 -/
def fdstreamBody : Pc := .opening

/-- mirrors src/shrecord.c:260-267 -/
def shrecordBody : Pc := .opening

/-- mirrors src/ogg-stdin.c:146-164 -/
def oggstdinBody : Pc := .waiting

/-- What the world decides at a step of a session: the flag it reads, whether
`sendfile` succeeds, the results of the `write(2)` calls. -/
inductive Event where
  | flag (set : Bool)
  | sendfile (ok : Bool)
  | call (w₁ w₂ : Option Nat)
  deriving DecidableEq, Repr

/-- One step; the last component is what reached the socket. A call with -1 for the
descriptor is undefined in C and has no step.
mirrors src/fdstream.c:56-77, src/shrecord.c:267-288, src/ogg-stdin.c:154-185 -/
def sessionStep (rb : Ringbuffer) : Pc → Event → Option (Ringbuffer × Pc × List UInt8)
  | .waiting, .flag inHeaders => some (rb, if inHeaders then .waiting else .sending, [])
  | .sending, .sendfile ok => some (rb, if ok then .opening else .done, [])
  | .opening, .call _ _ => some ((ringbufferOpen rb).1, .looping (ringbufferOpen rb).2, [])
  | .looping rd, .flag active => some (rb, if active then .polling rd else .leaving rd, [])
  | .polling (some r), .call _ _ =>
    some (rb, if ringbufferAvail rb r = 0 then .polling (some r) else .ready (some r), [])
  | .ready (some r), .call w₁ w₂ =>
    let (rb', sent, n) := ringbufferWritefd rb r w₁ w₂
    some (rb', if n = -1 then .leaving (some r) else .looping (some r), sent)
  | .leaving (some r), .call _ _ => some (ringbufferClose rb r, .done, [])
  | _, _ => none

/-- The ring buffer and every session so far. -/
structure Server where
  rb : Ringbuffer
  sessions : List Pc

inductive Lbl where
  | accept (body : Pc)
  | session (i : Nat) (e : Event)
  | produce (data : Nat → UInt8) (pwrite : Nat)

def serverStep (s : Server) : Lbl → Option Server
  | .accept body =>
    if body ∈ [fdstreamBody, oggstdinBody, shrecordBody] then
      some { s with sessions := s.sessions ++ [body] }
    else none
  | .session i e =>
    match s.sessions[i]? with
    | none => none
    | some pc => (sessionStep s.rb pc e).map fun (rb, pc, _) => ⟨rb, s.sessions.set i pc⟩
  | .produce data pwrite => some { s with rb := { s.rb with data := data, pwrite := pwrite } }

def server : Machine Server Lbl := ⟨serverStep⟩

def Server.init (rb : Ringbuffer) (data : Nat → UInt8) (len : Nat) : Server :=
  ⟨ringbufferInit rb data len, []⟩

/-- The descriptors of the connected sessions. -/
def held (s : Server) : List (Option Nat) := s.sessions.filterMap Pc.held

/-- Every descriptor held is in 0..15 and held once, and the mask has exactly the
bits of the connected sessions. -/
structure Exclusive (s : Server) : Prop where
  inRange : ∀ rd ∈ held s, ∃ r, r < MAX_READERS ∧ rd = some r
  distinct : (held s).Nodup
  mask : ∀ i, s.rb.readers.getLsbD i = true ↔ some i ∈ held s

/-- The step is no `ringbuffer_open` made while sixteen sessions are connected. -/
def OpensInTime (s : Server) : Lbl → Prop
  | .session i _ => s.sessions[i]? = some .opening → (held s).length < MAX_READERS
  | _ => True

/-! ## The mask -/

/-- The open descriptors are those of the mask. -/
theorem isOpen_congr {rb rb' : Ringbuffer} (h : rb'.readers = rb.readers) (r : Nat) :
    IsOpen rb' r ↔ IsOpen rb r := by
  unfold IsOpen rdOpen
  rw [h]

theorem readers_updateMin (rb : Ringbuffer) : (ringbufferUpdateMin rb).readers = rb.readers := by
  unfold ringbufferUpdateMin
  split <;> rfl

theorem readers_writefdCall {rb rb' : Ringbuffer} {r count : Nat} {w : Option Nat} {bs : List UInt8}
    (h : writefdCall rb r count w = some (rb', bs)) : rb'.readers = rb.readers := by
  unfold writefdCall at h
  obtain ⟨n, -, e⟩ := Option.map_eq_some_iff.mp h
  have e := (Prod.mk.inj e).1
  rw [← e]
  split <;> rfl

theorem readers_writefd (rb : Ringbuffer) (r : Nat) (w₁ w₂ : Option Nat) :
    (ringbufferWritefd rb r w₁ w₂).1.readers = rb.readers := by
  unfold ringbufferWritefd
  simp only
  split
  · rfl
  · generalize (if rb.pread r + (ringbufferAvail rb r).toNat > rb.size then rb.size - rb.pread r
      else 0) = n
    split
    · rfl
    · next rb₁ sent₁ h₁ =>
      have hr₁ : rb₁.readers = rb.readers := by
        split at h₁
        · exact readers_writefdCall h₁
        · cases h₁; rfl
      split
      · split
        · exact hr₁
        · next rb₂ sent₂ h₂ => rw [readers_updateMin, readers_writefdCall h₂, hr₁]
      · rw [readers_updateMin, hr₁]

theorem readers_openAt {rb : Ringbuffer} {i : Nat} (hi : i < MAX_READERS) (j : Nat) :
    (openAt rb i).readers.getLsbD j = (rb.readers.getLsbD j || decide (j = i)) := by
  simp only [openAt, BitVec.getLsbD_or, bit_getLsbD (lt_32 hi)]

theorem readers_close {rb : Ringbuffer} {i : Nat} (hi : i < MAX_READERS) (j : Nat) :
    (ringbufferClose rb i).readers.getLsbD j = (rb.readers.getLsbD j ^^ decide (j = i)) := by
  rw [ringbufferClose_eq hi, readers_updateMin]
  simp only [closeAt, BitVec.getLsbD_xor, bit_getLsbD (lt_32 hi)]

/-! ## What a step does to the descriptors -/

/-- What a step of a session is: a flag, `sendfile` or `ringbuffer_avail`, or one of
the three calls that change the ring buffer. -/
inductive SessionCase (rb : Ringbuffer) : Pc → Event → Ringbuffer → Pc → List UInt8 → Prop where
  | idle (pc pc' : Pc) (e : Event) (hh : pc'.held = pc.held) (hne : pc ≠ .opening)
      (hready : ∀ rd, pc = .ready rd → False) : SessionCase rb pc e rb pc' []
  | opens (w₁ w₂ : Option Nat) :
    SessionCase rb .opening (.call w₁ w₂) (ringbufferOpen rb).1 (.looping (ringbufferOpen rb).2) []
  | sends (r : Nat) (w₁ w₂ : Option Nat) (pc' : Pc) (hh : pc'.held = some (some r)) :
    SessionCase rb (.ready (some r)) (.call w₁ w₂) (ringbufferWritefd rb r w₁ w₂).1 pc'
      (ringbufferWritefd rb r w₁ w₂).2.1
  | closes (r : Nat) (w₁ w₂ : Option Nat) :
    SessionCase rb (.leaving (some r)) (.call w₁ w₂) (ringbufferClose rb r) .done []

theorem sessionStep_cases {rb rb' : Ringbuffer} {pc pc' : Pc} {e : Event} {sent : List UInt8}
    (h : sessionStep rb pc e = some (rb', pc', sent)) : SessionCase rb pc e rb' pc' sent := by
  cases pc with
  | waiting =>
    cases e with
    | flag inHeaders =>
      cases h
      exact .idle _ _ _ (by cases inHeaders <;> rfl) (by decide) (fun _ e => by cases e)
    | sendfile ok => cases h
    | call w₁ w₂ => cases h
  | sending =>
    cases e with
    | flag active => cases h
    | sendfile ok =>
      cases h
      exact .idle _ _ _ (by cases ok <;> rfl) (by decide) (fun _ e => by cases e)
    | call w₁ w₂ => cases h
  | opening =>
    cases e with
    | flag active => cases h
    | sendfile ok => cases h
    | call w₁ w₂ => cases h; exact .opens w₁ w₂
  | looping rd =>
    cases e with
    | flag active =>
      cases h
      exact .idle _ _ _ (by cases active <;> rfl) (by simp) (fun _ e => by cases e)
    | sendfile ok => cases h
    | call w₁ w₂ => cases h
  | polling rd =>
    cases rd with
    | none => cases e <;> cases h
    | some r =>
      cases e with
      | flag active => cases h
      | sendfile ok => cases h
      | call w₁ w₂ =>
        cases h
        exact .idle _ _ _ (by split <;> rfl) (by simp) (fun _ e => by cases e)
  | ready rd =>
    cases rd with
    | none => cases e <;> cases h
    | some r =>
      cases e with
      | flag active => cases h
      | sendfile ok => cases h
      | call w₁ w₂ =>
        simp only [sessionStep, Option.some.injEq, Prod.mk.injEq] at h
        obtain ⟨rfl, rfl, rfl⟩ := h
        exact .sends r w₁ w₂ _ (by split <;> rfl)
  | leaving rd =>
    cases rd with
    | none => cases e <;> cases h
    | some r =>
      cases e with
      | flag active => cases h
      | sendfile ok => cases h
      | call w₁ w₂ => cases h; exact .closes r w₁ w₂
  | done => cases e <;> cases h

/-- A session moves from `pc` to `pc'` and changes the mask. -/
inductive Moves (rb rb' : Ringbuffer) : Pc → Pc → Prop where
  | same (pc pc' : Pc) (hh : pc'.held = pc.held) (hne : pc ≠ .opening)
      (hm : rb'.readers = rb.readers) : Moves rb rb' pc pc'
  | opened (i : Nat) (hi : i < MAX_READERS) (hfree : rb.readers.getLsbD i = false)
      (hm : ∀ j, rb'.readers.getLsbD j = (rb.readers.getLsbD j || decide (j = i))) :
    Moves rb rb' .opening (.looping (some i))
  | full (hall : ∀ i, i < MAX_READERS → rb.readers.getLsbD i = true) :
    Moves rb rb' .opening (.looping none)
  | closed (i : Nat) (hm : i < MAX_READERS →
      ∀ j, rb'.readers.getLsbD j = (rb.readers.getLsbD j ^^ decide (j = i))) :
    Moves rb rb' (.leaving (some i)) .done

theorem moves_of_step {rb rb' : Ringbuffer} {pc pc' : Pc} {e : Event} {sent : List UInt8}
    (h : sessionStep rb pc e = some (rb', pc', sent)) : Moves rb rb' pc pc' := by
  cases sessionStep_cases h with
  | idle _ _ _ hh hne => exact .same _ _ hh hne rfl
  | opens w₁ w₂ =>
    rcases ringbufferOpen_cases rb with ⟨i, hi, hc, eq⟩ | ⟨hall, eq⟩
    · rw [eq]
      exact .opened i hi (by rw [← rdOpen_eq hi]; exact hc) (readers_openAt hi)
    · rw [eq]
      exact .full fun i hi => by rw [← rdOpen_eq hi]; exact hall i hi
  | sends r w₁ w₂ _ hh => exact .same _ _ hh (by simp) (readers_writefd rb r w₁ w₂)
  | closes r w₁ w₂ => exact .closed r fun hr => readers_close hr

/-! ## Counting descriptors -/

/-- `x` at index `i`, with what stands around it. -/
theorem split_at {α : Type} {l : List α} {i : Nat} {a : α} (h : l[i]? = some a) :
    ∃ front back, l = front ++ a :: back ∧ ∀ x, l.set i x = front ++ x :: back := by
  obtain ⟨hi, e⟩ := List.getElem?_eq_some_iff.mp h
  refine ⟨l.take i, l.drop (i + 1), ?_, fun x => by rw [List.set_eq_take_append_cons_drop, if_pos hi]⟩
  rw [← e, List.getElem_cons_drop, List.take_append_drop]

/-- Distinct numbers below `n`: fewer than `n` of them exactly when one is missing. -/
theorem length_lt_iff {l : List (Option Nat)} {n : Nat} (hr : ∀ x ∈ l, ∃ r, r < n ∧ x = some r)
    (hd : l.Nodup) : l.length < n ↔ ∃ r, r < n ∧ some r ∉ l := by
  have hall : ((List.range n).map some).Nodup :=
    List.Nodup.map (fun _ _ e => Option.some.inj e) List.nodup_range
  constructor
  · intro hlt
    by_contra hne
    have hsub : (List.range n).map some ⊆ l := by
      intro x hx
      obtain ⟨r, hr, rfl⟩ := List.mem_map.mp hx
      by_contra hx
      exact hne ⟨r, List.mem_range.mp hr, hx⟩
    have := (List.subperm_of_subset hall hsub).length_le
    simp at this
    omega
  · intro hex
    obtain ⟨r, hlt, hnot⟩ := hex
    have hsub : some r :: l ⊆ (List.range n).map some := by
      intro x hx
      rcases List.mem_cons.mp hx with rfl | hx
      · exact List.mem_map.mpr ⟨r, List.mem_range.mpr hlt, rfl⟩
      · obtain ⟨j, hj, rfl⟩ := hr x hx
        exact List.mem_map.mpr ⟨j, List.mem_range.mpr hj, rfl⟩
    have := (List.subperm_of_subset (List.nodup_cons.mpr ⟨hnot, hd⟩) hsub).length_le
    simp at this
    omega

/-! ## One step -/

theorem exclusive_init (rb : Ringbuffer) (data : Nat → UInt8) (len : Nat) :
    Exclusive (Server.init rb data len) where
  inRange _ h := by cases h
  distinct := List.nodup_nil
  mask i := by simp [Server.init, held, ringbufferInit, ringbufferReset]

/-- With a free descriptor fewer than sixteen sessions are connected. -/
theorem free_iff {s : Server} (h : Exclusive s) :
    (held s).length < MAX_READERS ↔ ∃ r, r < MAX_READERS ∧ s.rb.readers.getLsbD r = false := by
  rw [length_lt_iff h.inRange h.distinct]
  have hmask : ∀ r, some r ∉ held s ↔ s.rb.readers.getLsbD r = false := fun r => by
    rw [← h.mask r, Bool.not_eq_true]
  simp only [hmask]

theorem exclusive_moves {s : Server} (h : Exclusive s) {rb' : Ringbuffer} {i : Nat} {pc pc' : Pc}
    (hi : s.sessions[i]? = some pc) (hm : Moves s.rb rb' pc pc')
    (hfree : pc = .opening → (held s).length < MAX_READERS) :
    Exclusive ⟨rb', s.sessions.set i pc'⟩ := by
  obtain ⟨front, back, hs, hset⟩ := split_at hi
  have hheld : held s = front.filterMap Pc.held ++ (pc :: back).filterMap Pc.held := by
    rw [held, hs, List.filterMap_append]
  have hheld' : held ⟨rb', s.sessions.set i pc'⟩ =
      front.filterMap Pc.held ++ (pc' :: back).filterMap Pc.held := by
    rw [held]; simp only [hset]; rw [List.filterMap_append]
  cases hm with
  | same _ _ hh hne hr =>
    have e : held ⟨rb', s.sessions.set i pc'⟩ = held s := by
      rw [hheld, hheld', List.filterMap_cons, List.filterMap_cons, hh]
    exact ⟨by rw [e]; exact h.inRange, by rw [e]; exact h.distinct,
      fun j => by rw [e]; simp only [hr]; exact h.mask j⟩
  | opened r hr hc hbits =>
    have hperm : (held ⟨rb', s.sessions.set i (.looping (some r))⟩).Perm (some r :: held s) := by
      rw [hheld, hheld']
      exact List.perm_middle
    have hnew : some r ∉ held s := by rw [← h.mask r, hc]; simp
    refine ⟨fun rd hrd => ?_, hperm.nodup_iff.mpr (List.nodup_cons.mpr ⟨hnew, h.distinct⟩), fun j => ?_⟩
    · rcases List.mem_cons.mp (hperm.mem_iff.mp hrd) with rfl | hrd
      · exact ⟨r, hr, rfl⟩
      · exact h.inRange rd hrd
    · rw [hperm.mem_iff, List.mem_cons, ← h.mask j]
      simp only [hbits, Bool.or_eq_true, decide_eq_true_eq, Option.some.injEq]
      exact Or.comm
  | full hall =>
    obtain ⟨r, hr, hf⟩ := (free_iff h).mp (hfree rfl)
    rw [hall r hr] at hf
    cases hf
  | closed r hbits =>
    have hperm : (held s).Perm (some r :: held ⟨rb', s.sessions.set i .done⟩) := by
      rw [hheld, hheld']
      exact List.perm_middle
    obtain ⟨hnot, hd⟩ := List.nodup_cons.mp (hperm.nodup_iff.mp h.distinct)
    obtain ⟨r', hr, e⟩ := h.inRange (some r) (hperm.mem_iff.mpr List.mem_cons_self)
    cases e
    refine ⟨fun rd hrd => h.inRange rd (hperm.mem_iff.mpr (List.mem_cons_of_mem _ hrd)), hd,
      fun j => ?_⟩
    simp only [hbits hr]
    by_cases e : j = r
    · subst e
      rw [(h.mask j).mpr (hperm.mem_iff.mpr List.mem_cons_self)]
      simpa using hnot
    · have hmem := hperm.mem_iff (a := some j)
      rw [List.mem_cons, Option.some.injEq, or_iff_right e, ← h.mask j] at hmem
      simpa [e] using hmem

/-- **Step.** The descriptors stay exclusive when no session opens too late. -/
theorem exclusive_step {s s' : Server} {l : Lbl} (h : Exclusive s) (hc : OpensInTime s l)
    (hs : serverStep s l = some s') : Exclusive s' := by
  cases l with
  | accept body =>
    simp only [serverStep] at hs
    split at hs
    · next hb =>
      cases hs
      have e : held { s with sessions := s.sessions ++ [body] } = held s := by
        have hbody : body.held = none := by
          simp only [List.mem_cons, List.not_mem_nil, or_false] at hb
          rcases hb with rfl | rfl | rfl <;> rfl
        simp [held, hbody]
      exact ⟨by rw [e]; exact h.inRange, by rw [e]; exact h.distinct, by rw [e]; exact h.mask⟩
    · cases hs
  | session i ev =>
    simp only [serverStep] at hs
    split at hs
    · cases hs
    · next pc hi =>
      obtain ⟨⟨rb', pc', sent⟩, hstep, e⟩ := Option.map_eq_some_iff.mp hs
      cases e
      exact exclusive_moves h hi (moves_of_step hstep) fun e => hc (e ▸ hi)
  | produce data pwrite => cases hs; exact ⟨h.inRange, h.distinct, h.mask⟩

/-- A session that opens when sixteen are connected holds -1. -/
theorem opensInTime_of_exclusive {s s' : Server} {l : Lbl} (h : Exclusive s)
    (hs : serverStep s l = some s') (h' : Exclusive s') : OpensInTime s l := by
  cases l with
  | accept body => trivial
  | produce data pwrite => trivial
  | session i ev =>
    intro hi
    simp only [serverStep, hi] at hs
    obtain ⟨⟨rb', pc', sent⟩, hstep, e⟩ := Option.map_eq_some_iff.mp hs
    cases e
    obtain ⟨front, back, -, hset⟩ := split_at hi
    cases moves_of_step hstep with
    | opened r hr hc hbits => exact (free_iff h).mpr ⟨r, hr, hc⟩
    | same _ _ hh hne hr => exact absurd rfl hne
    | full hall =>
      obtain ⟨r, -, e⟩ := h'.inRange none (by
        simp only [held, hset, List.filterMap_append]
        exact List.mem_append_right _ List.mem_cons_self)
      cases e

/-! ## Runs -/

/-- **Descriptors.** In a run of any length, with any number of clients, every state
has its descriptors in 0..15, unshared and matching the mask exactly when no session
calls `ringbuffer_open` while sixteen are connected. -/
theorem exclusive_iff (rb : Ringbuffer) (data : Nat → UInt8) (len : Nat) (run : List Lbl) :
    server.Along Exclusive (Server.init rb data len) run ↔
      server.Guarded OpensInTime (Server.init rb data len) run :=
  Machine.along_iff_guarded (I := Exclusive) (fun _ h => h)
    (fun _ _ _ h hc hs => exclusive_step h hc hs)
    (fun _ _ _ h hs h' => opensInTime_of_exclusive h hs h') (exclusive_init rb data len)

/-- `n` clients of the Stdin module connect one after the other. -/
def connections (n : Nat) : List Lbl :=
  (List.range n).flatMap fun i => [.accept fdstreamBody, .session i (.call none none)]

theorem connections_result :
    (server.exec (Server.init blank (fun _ => 0) 4) (connections 17)).map
        (fun s => decide (none ∈ held s)) = some true := by decide +kernel

/-- **Counterexample.** The seventeenth client holds -1. -/
theorem seventeenth_holds_none :
    ¬∀ run s, server.exec (Server.init blank (fun _ => 0) 4) run = some s → Exclusive s := by
  intro h
  have hr := connections_result
  cases e : server.exec (Server.init blank (fun _ => 0) 4) (connections 17) with
  | none => rw [e] at hr; cases hr
  | some s =>
    rw [e] at hr
    simp only [Option.map_some, Option.some.injEq, decide_eq_true_eq] at hr
    obtain ⟨r, -, e'⟩ := (h _ s e).inRange none hr
    cases e'

end Sighttpd.L2
