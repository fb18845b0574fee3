import Sighttpd.L2Stream.OggServer
import Sighttpd.L2Stream.SessionSteps

/-!
# Headers before data

* `oggInv_step`: a step keeps the invariant when the bytes it sends are of streams
  whose header pages were cached at the session's `sendfile`.
* `headersFirst_iff`: a run sends every client the headers of a stream before its
  data exactly when all its steps do that.
* `secondLink_headerless`: a client that stays across a link boundary.
-/
namespace Sighttpd.L2

/-! ## The invariant -/

/-- The page itself, for places in the chain. -/
def pagesAt (input : List (OggPage × Bool)) (pages : List Nat) : List OggPage :=
  pages.filterMap fun i => (input[i]?).map (·.1)

def IsHeader (input : List (OggPage × Bool)) (j : Nat) : Prop := ∃ hd ∈ input[j]?, hd.2 = true

structure SessionInv (numheaders : Int → Nat) (input : List (OggPage × Bool)) (rb : Ringbuffer)
    (x : OggSession) : Prop where
  sent : HeadersSent input x
  cachedThen : ∀ j, j ∈ x.sentPages ↔ IsHeader input j ∧ StillCached numheaders input x.sentAt j
  fresh : x.pc.before → x.written = [] ∧ x.forwarded = []
  ring : ∀ r, x.connected = some r →
    IsOpen rb r ∧ x.forwarded ++ unread rb r = x.written.flatMap (pageAt input)

structure OggInv (numheaders : Int → Nat) (links : List OggLink) (s : OggServer) : Prop where
  wf : Wf s.st.rb
  counting : Counting numheaders (chainSerials links)
    (headersOf ((chainPages links).take s.count)) s.st
  cache : Cached (pagesAt (chainPages links) s.cached) s.st
  cached : ∀ j, j ∈ s.cached ↔
    IsHeader (chainPages links) j ∧ StillCached numheaders (chainPages links) s.count j
  distinct : (s.sessions.filterMap OggSession.connected).Nodup
  session : ∀ x ∈ s.sessions, SessionInv numheaders (chainPages links) s.st.rb x

theorem bytes_pagesAt (input : List (OggPage × Bool)) (pages : List Nat) :
    (pagesAt input pages).flatMap OggPage.bytes = pages.flatMap (pageAt input) := by
  induction pages with
  | nil => rfl
  | cons i pages ih =>
    rw [List.flatMap_cons, ← ih, pagesAt, List.filterMap_cons]
    unfold pageAt
    cases input[i]? with
    | none => rfl
    | some og => rfl

theorem stillCached_zero (numheaders : Int → Nat) (input : List (OggPage × Bool)) (j : Nat) :
    ¬StillCached numheaders input 0 j := fun h => Nat.not_lt_zero _ h.1

/-- The next page is in the cache, and the others stay unless it renews the cache. -/
theorem stillCached_succ {numheaders : Int → Nat} {input : List (OggPage × Bool)} {n j : Nat} :
    StillCached numheaders input (n + 1) j ↔
      j = n ∨ StillCached numheaders input n j ∧ ¬Renews numheaders input n := by
  constructor
  · intro h
    by_cases e : j = n
    · exact .inl e
    · have hj : j < n := by have := h.1; omega
      exact .inr ⟨⟨hj, fun k hk hn => h.2 k hk (by omega)⟩, h.2 n hj (by omega)⟩
  · rintro (rfl | ⟨h, hn⟩)
    · exact ⟨by omega, fun k hk hk' => by omega⟩
    · have := h.1
      refine ⟨by omega, fun k hk hk' => ?_⟩
      by_cases e : k = n
      · exact e ▸ hn
      · exact h.2 k hk (by omega)

theorem oggInv_init (numheaders : Int → Nat) (links : List OggLink) (rb : Ringbuffer)
    (data : Nat → UInt8) {len : Nat} (hl : 0 < len) :
    OggInv numheaders links (OggServer.init rb data len) where
  wf := wf_init rb data hl
  counting := ⟨fun _ _ => rfl, rfl⟩
  cache := ⟨TempFile.Holds.rewind ⟨[], 0⟩, rfl⟩
  cached j := by
    refine ⟨fun h => (by cases h), fun h => absurd h.2 (stillCached_zero _ _ _)⟩
  distinct := List.nodup_nil
  session x hx := by cases hx

/-! ## A session's step -/

theorem isHeader_of {input : List (OggPage × Bool)} {i j : Nat} (h : HeaderOf input i j) :
    IsHeader input j := by
  obtain ⟨-, -, hd, hj, hb, -⟩ := h
  exact ⟨hd, hj, hb⟩

/-- Only transfers send anything. -/
theorem sent_cases {rb rb' : Ringbuffer} {pc pc' : Pc} {e : Event} {sent : List UInt8}
    (hs : sessionStep rb pc e = some (rb', pc', sent)) :
    sent = [] ∨ ∃ r w₁ w₂, pc = .ready (some r) ∧ e = .call w₁ w₂ := by
  cases sessionStep_cases hs with
  | idle => exact .inl rfl
  | opens w₁ w₂ => exact .inl rfl
  | closes r w₁ w₂ => exact .inl rfl
  | sends r w₁ w₂ _ hh => exact .inr ⟨r, w₁, w₂, rfl, rfl⟩

section Session
variable {numheaders : Int → Nat} {links : List OggLink} {s : OggServer} {x : OggSession}
  (h : OggInv numheaders links s) (hx : x ∈ s.sessions)
include h hx

theorem ring_of_session {rb' : Ringbuffer} {pc' : Pc} {e : Event} {sent : List UInt8}
    (hs : sessionStep s.st.rb x.pc e = some (rb', pc', sent)) :
    RingStep s.st.rb rb' x.pc pc' sent :=
  ring_of_step h.wf (fun r hr => ((h.session x hx).ring r hr).1) hs

/-- The session is sent the cache. -/
theorem sessionInv_sendfile (hp : x.pc = .sending) {rb' : Ringbuffer} {pc' : Pc} {sent : List UInt8}
    (hs : sessionStep s.st.rb x.pc (.sendfile true) = some (rb', pc', sent)) :
    SessionInv numheaders (chainPages links) rb'
      { x with
        pc := pc'
        headers := s.st.headersFd.contents.take s.st.headersLen
        sentPages := s.cached
        sentAt := s.count } := by
  have hsx := h.session x hx
  obtain ⟨hw, hf⟩ := hsx.fresh (hp ▸ trivial)
  rw [hp] at hs
  cases hs
  refine ⟨⟨?_, hsx.sent.forwarded, fun i hi => ?_⟩, h.cached, fun _ => ⟨hw, hf⟩, fun r hr => by cases hr⟩
  · rw [h.cache.len, h.cache.file.contents, bytes_pagesAt]
  · -- nothing is forwarded yet
    simp only [hf, List.length_nil, List.take_zero] at hi
    cases hi

/-- What a session is sent from the ring buffer. -/
theorem sessionInv_forward {rb' : Ringbuffer} {pc' : Pc} {e : Event} {sent : List UInt8}
    (hs : sessionStep s.st.rb x.pc e = some (rb', pc', sent))
    (hfirst : ∀ p ∈ ((origins (chainPages links) x.written).drop x.forwarded.length).take sent.length,
      ∀ j, HeaderOf (chainPages links) p j → j ∈ x.sentPages) :
    SessionInv numheaders (chainPages links) rb'
      { x with pc := pc', forwarded := x.forwarded ++ sent } := by
  have hsx := h.session x hx
  have hr := ring_of_session h hx hs
  have hring : ∀ r, pc'.held.join = some r → IsOpen rb' r ∧
      (x.forwarded ++ sent) ++ unread rb' r = x.written.flatMap (pageAt (chainPages links)) := by
    intro r hr'
    by_cases e : x.pc.held.join = some r
    · obtain ⟨ho, hu⟩ := hr.kept r e hr'
      rw [List.append_assoc, hu]
      exact ⟨ho, (hsx.ring r e).2⟩
    · obtain ⟨hp, hsent, ho, hu⟩ := hr.opened r e hr'
      obtain ⟨hw, hf⟩ := hsx.fresh (hp ▸ trivial)
      rw [hsent, hu, hw, hf]
      exact ⟨ho, rfl⟩
  refine ⟨⟨hsx.sent.headers, ?_, fun i hi => ?_⟩, hsx.cachedThen, fun hb => ?_, hring⟩
  · cases e : pc'.held.join with
    | none =>
      simp only [hr.silent e, List.append_nil]
      exact hsx.sent.forwarded
    | some r => exact ⟨_, (hring r e).2⟩
  · rw [List.length_append, List.take_add] at hi
    rcases List.mem_append.mp hi with hi | hi
    · exact hsx.sent.first i hi
    · exact hfirst i hi
  · obtain ⟨hw, hf⟩ := hsx.fresh (sessionStep_before hs hb)
    have hn : pc'.held.join = none := by rw [Pc.held_none.mpr (.inr hb)]; rfl
    exact ⟨hw, by simp only [hf, hr.silent hn, List.append_nil]⟩

/-- A transfer sends what the `write(2)` calls take. -/
theorem sent_ready {r : Nat} {w₁ w₂ : Option Nat} (hp : x.pc = .ready (some r)) {rb' : Ringbuffer}
    {pc' : Pc} {sent : List UInt8}
    (hs : sessionStep s.st.rb x.pc (.call w₁ w₂) = some (rb', pc', sent)) :
    sent.length = (writefdTaken s.st.rb r w₁ w₂).1 := by
  have ho := ((h.session x hx).ring r (by rw [OggSession.connected, hp]; rfl)).1
  rw [hp] at hs
  simp only [sessionStep, Option.some.injEq, Prod.mk.injEq] at hs
  obtain ⟨-, -, rfl⟩ := hs
  rw [writefd_sent h.wf ho.1, List.length_take, unread_length]
  exact Nat.min_eq_left (writefdTaken_le h.wf ho.1 w₁ w₂)

end Session

/-! ## One step -/

section Step
variable {numheaders : Int → Nat} {links : List OggLink} {s s' : OggServer}

/-- Session `i` is `x` before the step and `x'` after it. -/
theorem oggInv_session (h : OggInv numheaders links s) {i : Nat} {x x' : OggSession}
    (hi : s.sessions[i]? = some x) {rb' : Ringbuffer} {sent : List UInt8}
    (hr : RingStep s.st.rb rb' x.pc x'.pc sent)
    (hx' : SessionInv numheaders (chainPages links) rb' x') :
    OggInv numheaders links
      { s with st := { s.st with rb := rb' }, sessions := s.sessions.set i x' } := by
  obtain ⟨front, back, hs, hset⟩ := split_at hi
  have hperm : ∀ y, (front ++ y :: back).filterMap OggSession.connected |>.Perm
      ((y :: (front ++ back)).filterMap OggSession.connected) := fun y =>
    List.perm_middle.filterMap _
  have hd := (hperm x).nodup_iff.mp (hs ▸ h.distinct)
  have hothers : ∀ y ∈ front ++ back, y ∈ s.sessions ∧
      ∀ j, y.connected = some j → x.connected ≠ some j := by
    intro y hy
    refine ⟨?_, fun j hj e => ?_⟩
    · rw [hs]
      rcases List.mem_append.mp hy with hy | hy
      · exact List.mem_append_left _ hy
      · exact List.mem_append_right _ (List.mem_cons_of_mem _ hy)
    · rw [List.filterMap_cons_some e] at hd
      exact (List.nodup_cons.mp hd).1 (List.mem_filterMap.mpr ⟨y, hy, hj⟩)
  have hrest : ((front ++ back).filterMap OggSession.connected).Nodup := by
    cases e : x.connected with
    | none => rwa [List.filterMap_cons_none e] at hd
    | some r => rw [List.filterMap_cons_some e] at hd; exact (List.nodup_cons.mp hd).2
  refine ⟨hr.wf, ⟨h.counting.total, h.counting.inHeaders⟩, ⟨h.cache.file, h.cache.len⟩, h.cached, ?_, ?_⟩
  · simp only [hset]
    refine (hperm x').nodup_iff.mpr ?_
    cases e : x'.connected with
    | none => rwa [List.filterMap_cons_none e]
    | some r =>
      rw [List.filterMap_cons_some e]
      refine List.nodup_cons.mpr ⟨fun hmem => ?_, hrest⟩
      obtain ⟨y, hy, hyr⟩ := List.mem_filterMap.mp hmem
      obtain ⟨hys, hyx⟩ := hothers y hy
      exact (hr.others r ((h.session y hys).ring r hyr).1 (hyx r hyr)).1 e
  · intro y hy
    simp only [hset] at hy
    rcases List.mem_cons.mp (List.perm_middle.mem_iff.mp hy) with rfl | hy
    · exact hx'
    · obtain ⟨hys, hyx⟩ := hothers y hy
      have hsy := h.session y hys
      refine ⟨hsy.sent, hsy.cachedThen, hsy.fresh, fun r hyr => ?_⟩
      obtain ⟨ho, hu⟩ := hsy.ring r hyr
      obtain ⟨-, ho', hu'⟩ := hr.others r ho (hyx r hyr)
      exact ⟨ho', by rw [hu']; exact hu⟩

/-- The place of the next page. -/
theorem page_split {input : List (OggPage × Bool)} {n : Nat} {p : OggPage × Bool}
    (hp : input[n]? = some p) : input = input.take n ++ p :: input.drop (n + 1) := by
  obtain ⟨hn, e⟩ := List.getElem?_eq_some_iff.mp hp
  rw [← e, List.getElem_cons_drop, List.take_append_drop]

theorem headersOf_succ {input : List (OggPage × Bool)} {n : Nat} {og : OggPage} {b : Bool}
    (hp : input[n]? = some (og, b)) :
    headersOf (input.take (n + 1)) = headersOf (input.take n) ++ if b then [og] else [] := by
  rw [List.take_add_one, hp, headersOf_append]
  cases b <;> rfl

/-- A header page goes to the cache. -/
theorem oggInv_header (h : OggInv numheaders links s) {og : OggPage}
    (hp : (chainPages links)[s.count]? = some (og, true))
    (hl : Legal numheaders (chainSerials links) (headersOf ((chainPages links).take s.count)) og)
    (reading : Bool) :
    OggInv numheaders links ⟨(oggstdinReadPage numheaders s.st og).1, s.count + 1, reading,
      if Restarts s.st og then [s.count] else s.cached ++ [s.count], s.sessions⟩ := by
  have hrb := rb_header h.counting hl
  have hrenew : Restarts s.st og ↔ Renews numheaders (chainPages links) s.count := by
    have h0 := h.counting.inHeaders
    constructor
    · rintro ⟨hb, hz⟩
      exact ⟨(og, true), hp, hb, by omega⟩
    · rintro ⟨p, hp', hb, hz⟩
      rw [hp] at hp'
      cases hp'
      exact ⟨hb, by omega⟩
  have hpage : pagesAt (chainPages links) [s.count] = [og] := by simp [pagesAt, hp]
  have hcount := counting_step h.counting hl
  have hcache := cached_step h.counting hl (.inr h.cache)
  refine ⟨by rw [hrb]; exact h.wf, by rw [headersOf_succ hp]; exact hcount, ?_, fun j => ?_, h.distinct,
    by rw [hrb]; exact h.session⟩
  · by_cases hr : Restarts s.st og
    · simp only [if_pos hr] at hcache ⊢
      rwa [hpage]
    · simp only [if_neg hr] at hcache ⊢
      rwa [pagesAt, List.filterMap_append, ← pagesAt, ← pagesAt, hpage]
  · have hself : IsHeader (chainPages links) s.count := ⟨(og, true), hp, rfl⟩
    simp only [stillCached_succ, ← hrenew]
    by_cases hr : Restarts s.st og
    · simp only [hr, if_true, List.mem_singleton, not_true_eq_false, and_false, or_false]
      exact ⟨fun e => ⟨e ▸ hself, e⟩, And.right⟩
    · simp only [hr, if_false, List.mem_append, h.cached, List.mem_singleton, not_false_eq_true, and_true]
      constructor
      · rintro (hj | rfl)
        · exact ⟨hj.1, .inr hj.2⟩
        · exact ⟨hself, .inl rfl⟩
      · rintro ⟨hj, rfl | hc⟩
        · exact .inr rfl
        · exact .inl ⟨hj, hc⟩

/-- Both writes of a page, seen by a reader they leave room for. -/
theorem unread_writePage {rb : Ringbuffer} (hw : Wf rb) {og : OggPage} {r : Nat} (ho : IsOpen rb r)
    (hroom : lag rb r + og.bytes.length < rb.size) :
    IsOpen (writePage rb og) r ∧ unread (writePage rb og) r = unread rb r ++ og.bytes := by
  rw [OggPage.bytes, List.length_append] at hroom
  obtain ⟨h1, hsize⟩ := unread_write hw ho.1 (show lag rb r + og.header.length < rb.size by omega)
  have hlag : lag (ringbufferWrite rb og.header) r = lag rb r + og.header.length := by
    rw [← unread_length, h1, List.length_append, unread_length]
  have hbody : lag (ringbufferWrite rb og.header) r + og.body.length <
      (ringbufferWrite rb og.header).size := by omega
  obtain ⟨h2, -⟩ := unread_write (hw.write og.header) ho.1 hbody
  refine ⟨?_, ?_⟩
  · rw [writePage, isOpen_congr (readers_write ..), isOpen_congr (readers_write ..)]
    exact ho
  · rw [writePage, h2, h1, List.append_assoc]; rfl

theorem origins_append (input : List (OggPage × Bool)) (ps qs : List Nat) :
    origins input (ps ++ qs) = origins input ps ++ origins input qs := List.flatMap_append

theorem origins_length (input : List (OggPage × Bool)) (ps : List Nat) :
    (origins input ps).length = (ps.flatMap (pageAt input)).length := by
  rw [origins, List.length_flatMap, List.length_flatMap]
  simp only [List.length_replicate]

/-- A data page is queued for a connected session. -/
theorem sessionInv_note {input : List (OggPage × Bool)} {rb : Ringbuffer} (hw : Wf rb) {x : OggSession}
    (hx : SessionInv numheaders input rb x) {i : Nat} {og : OggPage} {b : Bool}
    (hp : input[i]? = some (og, b)) (hroom : Room rb og.bytes.length) :
    SessionInv numheaders input (writePage rb og) (x.note i) := by
  unfold OggSession.note
  split
  · next hc =>
    obtain ⟨r, hr⟩ := Option.isSome_iff_exists.mp hc
    have hbytes : (x.written ++ [i]).flatMap (pageAt input) =
        x.written.flatMap (pageAt input) ++ og.bytes := by
      simp [pageAt, hp]
    refine ⟨⟨hx.sent.headers, ?_, fun p hp' => ?_⟩, hx.cachedThen, fun hb => ?_, fun r hr => ?_⟩
    · rw [hbytes]
      exact hx.sent.forwarded.trans (List.prefix_append ..)
    · -- the forwarded bytes are older than the page
      have hle : x.forwarded.length ≤ (origins input x.written).length := by
        rw [origins_length]
        exact hx.sent.forwarded.length_le
      rw [origins_append, List.take_append_of_le_length hle] at hp'
      exact hx.sent.first p hp'
    · rw [OggSession.connected, Pc.held_none.mpr (.inr hb)] at hr
      cases hr
    · obtain ⟨ho, hu⟩ := hx.ring r hr
      obtain ⟨ho', hu'⟩ := unread_writePage hw ho (hroom r (List.mem_range.mpr ho.1) ho)
      refine ⟨ho', ?_⟩
      rw [hbytes, hu', ← List.append_assoc]
      exact congrArg (· ++ og.bytes) hu
  · next hc =>
    refine ⟨hx.sent, hx.cachedThen, hx.fresh, fun r hr => ?_⟩
    rw [hr] at hc
    exact absurd rfl hc

theorem connected_note (x : OggSession) (i : Nat) : (x.note i).connected = x.connected := by
  unfold OggSession.note
  split <;> rfl

/-- A data page goes to the ring buffer. -/
theorem oggInv_data (h : OggInv numheaders links s) {og : OggPage}
    (hp : (chainPages links)[s.count]? = some (og, false)) (hb : og.bos = false)
    (hroom : Room s.st.rb og.bytes.length) (reading : Bool) :
    OggInv numheaders links ⟨{ s.st with rb := writePage s.st.rb og }, s.count + 1, reading, s.cached,
      s.sessions.map (·.note s.count)⟩ := by
  have hnot : ¬IsHeader (chainPages links) s.count := by
    rintro ⟨p, hp', hb'⟩
    rw [hp] at hp'
    cases hp'
    cases hb'
  have hkeep : ¬Renews numheaders (chainPages links) s.count := by
    rintro ⟨p, hp', hb', -⟩
    rw [hp] at hp'
    cases hp'
    rw [hb] at hb'
    cases hb'
  refine ⟨(h.wf.write og.header).write og.body, ?_, ⟨h.cache.file, h.cache.len⟩, fun j => ?_, ?_, ?_⟩
  · rw [headersOf_succ hp]
    simp only [Bool.false_eq_true, if_false, List.append_nil]
    exact ⟨h.counting.total, h.counting.inHeaders⟩
  · rw [h.cached, stillCached_succ]
    constructor
    · exact fun hj => ⟨hj.1, .inr ⟨hj.2, hkeep⟩⟩
    · rintro ⟨hj, rfl | hc⟩
      · exact absurd hj hnot
      · exact ⟨hj, hc.1⟩
  · have e : (fun x : OggSession => (x.note s.count).connected) = OggSession.connected :=
      funext fun x => connected_note x s.count
    simp only [List.filterMap_map, Function.comp_def, e]
    exact h.distinct
  · intro y hy
    obtain ⟨x, hx, rfl⟩ := List.mem_map.mp hy
    exact sessionInv_note h.wf (h.session x hx) hp hroom

theorem sessionInv_new (input : List (OggPage × Bool)) (rb : Ringbuffer) :
    SessionInv numheaders input rb ⟨oggstdinBody, [], [], 0, [], []⟩ where
  sent := ⟨rfl, List.prefix_refl _, by simp [origins]⟩
  cachedThen j := ⟨fun hj => (by cases hj), fun hj => absurd hj.2 (stillCached_zero _ _ _)⟩
  fresh _ := ⟨rfl, rfl⟩
  ring r hr := by cases hr

/-- Where the page stands in the chain says to which branch of `oggstdin_read_page` it goes. -/
theorem oggInv_page (hc : ChainOk numheaders links) (h : OggInv numheaders links s)
    (hs : oggStep numheaders (chainPages links) s .page = some s') : OggInv numheaders links s' := by
  simp only [oggStep] at hs
  split at hs
  · cases hs
  · next og b hp =>
    split at hs
    · cases hs
    · have hfit := chain_next hc (page_split hp)
      cases b with
      | true =>
        have hl : Legal numheaders (chainSerials links)
          (headersOf ((chainPages links).take s.count)) og := hfit
        have hph := header_phase h.counting hl
        have hne : ¬(og.bos = false ∧ s.st.inHeaders = 0) := by
          rintro ⟨hb, h0⟩
          rcases hph with hb' | h0'
          · rw [hb] at hb'; cases hb'
          · exact h0' h0
        rw [if_neg hne] at hs
        cases hs
        exact oggInv_header h hp hl _
      | false =>
        obtain ⟨hb, hz⟩ : og.bos = false ∧ incomplete numheaders
          (headersOf ((chainPages links).take s.count)) = 0 := hfit
        have h0 : s.st.inHeaders = 0 := by rw [h.counting.inHeaders, hz]; rfl
        rw [if_pos ⟨hb, h0⟩] at hs
        split at hs
        · next hroom =>
          cases hs
          rw [readPage_data hb h0]
          exact oggInv_data h hp hb hroom _
        · cases hs

/-- **Step.** -/
theorem oggInv_step (hc : ChainOk numheaders links) (h : OggInv numheaders links s) {l : OggLbl}
    (hg : CachedThen numheaders (chainPages links) s l)
    (hs : oggStep numheaders (chainPages links) s l = some s') : OggInv numheaders links s' := by
  cases l with
  | accept =>
    cases hs
    refine ⟨h.wf, h.counting, h.cache, h.cached, ?_, fun x hx => ?_⟩
    · rw [List.filterMap_append]
      exact (List.append_nil _).symm ▸ h.distinct
    · rcases List.mem_append.mp hx with hx | hx
      · exact h.session x hx
      · obtain rfl := List.mem_singleton.mp hx
        exact sessionInv_new ..
  | sighandler =>
    cases hs
    exact ⟨h.wf, ⟨h.counting.total, h.counting.inHeaders⟩, ⟨h.cache.file, h.cache.len⟩, h.cached,
      h.distinct, h.session⟩
  | session i e =>
    simp only [oggStep] at hs
    split at hs
    · cases hs
    · next x hi =>
      split at hs
      · obtain ⟨⟨rb', pc', sent⟩, hstep, e'⟩ := Option.map_eq_some_iff.mp hs
        cases e'
        have hx := List.mem_of_getElem? hi
        have hr := ring_of_session h hx hstep
        unfold OggSession.after
        split
        · next hsend =>
          obtain ⟨hp, rfl⟩ := hsend
          exact oggInv_session h hi hr (sessionInv_sendfile h hx hp hstep)
        · refine oggInv_session h hi hr (sessionInv_forward h hx hstep ?_)
          rcases sent_cases hstep with rfl | ⟨r, w₁, w₂, hp, rfl⟩
          · simp
          · intro p hp' j hj
            rw [sent_ready h hx hp hstep] at hp'
            exact ((h.session x hx).cachedThen j).mpr ⟨isHeader_of hj, hg x hi r hp p hp' j hj⟩
      · cases hs
  | page => exact oggInv_page hc h hs

/-- A step into a state with headers first sends bytes of cached streams only. -/
theorem cachedThen_of_headersFirst (h : OggInv numheaders links s) {l : OggLbl}
    (hs : oggStep numheaders (chainPages links) s l = some s')
    (h' : HeadersFirst (chainPages links) s') : CachedThen numheaders (chainPages links) s l := by
  cases l with
  | page => trivial
  | accept => trivial
  | sighandler => trivial
  | session i e =>
    cases e with
    | flag b => trivial
    | sendfile ok => trivial
    | call w₁ w₂ =>
      intro x hi r hp p hp' j hj
      have hx := List.mem_of_getElem? hi
      simp only [oggStep] at hs
      rw [show s.sessions[i]? = some x from hi] at hs
      simp only at hs
      split at hs
      · obtain ⟨⟨rb', pc', sent⟩, hstep, e'⟩ := Option.map_eq_some_iff.mp hs
        cases e'
        have hne : ¬(x.pc = .sending ∧ Event.call w₁ w₂ = .sendfile true) := fun e => by cases e.2
        obtain ⟨front, back, -, hset⟩ := split_at hi
        have hfirst := (h' (x.after s (.call w₁ w₂) pc' sent) (by simp [hset])).first
        rw [OggSession.after, if_neg hne] at hfirst
        refine ((h.session x hx).cachedThen j).mp (hfirst p ?_ j hj) |>.2
        rw [List.length_append, List.take_add, sent_ready h hx hp hstep]
        exact List.mem_append_right _ hp'
      · cases hs

end Step

/-! ## Runs -/

/-- **Headers first.** In a run of any length, on a chain of any number of links and
with any number of clients: every client is sent all header pages of a stream before
any byte of its data exactly when every stream of which a session is sent bytes had
its header pages all read before the session's `sendfile`, with no renewal of the
cache behind the first of them. -/
theorem headersFirst_iff (numheaders : Int → Nat) (links : List OggLink)
    (hc : ChainOk numheaders links) (rb : Ringbuffer) (data : Nat → UInt8) (len : Nat) (hl : 0 < len)
    (run : List OggLbl) :
    (oggServer numheaders (chainPages links)).Along (HeadersFirst (chainPages links))
        (OggServer.init rb data len) run ↔
      (oggServer numheaders (chainPages links)).Guarded (CachedThen numheaders (chainPages links))
        (OggServer.init rb data len) run :=
  Machine.along_iff_guarded (I := OggInv numheaders links) (fun _ h x hx => (h.session x hx).sent)
    (fun _ _ _ h hg hs => oggInv_step hc h hg hs)
    (fun _ _ _ h hs h' => cachedThen_of_headersFirst h hs h') (oggInv_init numheaders links rb data hl)

/-- One stream of two header packets: one on its BOS page, one on the next. -/
def oneStream (serial : Int) (tag : UInt8) : OggLink where
  bosPages := [⟨serial, true, 1, pageHeader tag, [1]⟩]
  headerPages := [⟨serial, false, 1, pageHeader tag, [2]⟩]
  dataPages := [⟨serial, false, 4, pageHeader tag, [3]⟩]

theorem oneStream_wellFormed (serial : Int) (tag : UInt8) :
    (oneStream serial tag).WellFormed fun _ => 2 where
  begins := by simp [oneStream]
  bos := by simp [oneStream]
  rest := by simp [oneStream, OggLink.serials]
  unique := by simp [oneStream, OggLink.serials]
  positive := by simp
  upTo := by
    refine upTo_of_index (fun _ => 2) _ fun i hi => ?_
    have : i = 0 ∨ i = 1 := by
      have : i < 2 := hi
      omega
    rcases this with rfl | rfl
    · simp [packetsOf]
    · simp [oneStream, OggLink.headers, packetsOf]
  complete := by simp [oneStream, OggLink.serials, OggLink.headers, packetsOf]
  nonempty := by simp [oneStream, OggLink.headers, pageHeader]

/-- Two links, the pages 0 to 2 and 3 to 5. -/
def twoLinks : List OggLink := [oneStream 1 1, oneStream 2 2]

theorem twoLinks_ok : ChainOk (fun _ => 2) twoLinks where
  wellFormed := by
    intro l hl
    simp only [twoLinks, List.mem_cons, List.not_mem_nil, or_false] at hl
    rcases hl with rfl | rfl
    · exact oneStream_wellFormed 1 1
    · exact oneStream_wellFormed 2 2
  unique := by decide

/-- A client connects. -/
def connects (i : Nat) : List OggLbl :=
  [.accept, .session i (.flag false), .session i (.sendfile true), .session i (.call none none)]

/-- A connected client is sent up to `n` bytes. -/
def forwards (i n : Nat) : List OggLbl :=
  [.session i (.flag true), .session i (.call none none), .session i (.call none (some n))]

/-- A client for each link, the first gone before the second link. -/
def eachItsLink : List OggLbl :=
  [.page, .page] ++ connects 0 ++ [.page] ++ forwards 0 100 ++ [.page, .page] ++ connects 1 ++ [.page] ++
    forwards 1 20

theorem headersFirst_eachItsLink :
    (oggServer (fun _ => 2) (chainPages twoLinks)).Along (HeadersFirst (chainPages twoLinks))
      (OggServer.init noBuffer (fun _ => 0) 100) eachItsLink := by
  refine (headersFirst_iff (fun _ => 2) twoLinks twoLinks_ok noBuffer (fun _ => 0) 100 (by decide)
    eachItsLink).mpr ?_
  decide +kernel

/-- The first client stays for the second link. -/
def stays : List OggLbl :=
  [.page, .page] ++ connects 0 ++ [.page, .page, .page, .page] ++ forwards 0 100

theorem stays_result :
    ((oggServer (fun _ => 2) (chainPages twoLinks)).exec (OggServer.init noBuffer (fun _ => 0) 100)
        stays).map (fun s => s.sessions.map fun x => (x.sentPages, x.written, x.forwarded.length)) =
      some [([0, 1], [2, 5], 58)] := by decide +kernel

/-- **Counterexample.** A client that stays across the link boundary is sent data of the
second stream and none of its headers. -/
theorem secondLink_headerless :
    ¬∀ run s, (oggServer (fun _ => 2) (chainPages twoLinks)).exec
      (OggServer.init noBuffer (fun _ => 0) 100) run = some s → HeadersFirst (chainPages twoLinks) s := by
  intro h
  have hr := stays_result
  cases e : (oggServer (fun _ => 2) (chainPages twoLinks)).exec
    (OggServer.init noBuffer (fun _ => 0) 100) stays with
  | none => rw [e] at hr; cases hr
  | some s =>
    rw [e] at hr
    have hs : s.sessions.map (fun x => (x.sentPages, x.written, x.forwarded.length)) =
      [([0, 1], [2, 5], 58)] := Option.some.inj hr
    have hmem : ([0, 1], [2, 5], 58) ∈
        s.sessions.map fun x => (x.sentPages, x.written, x.forwarded.length) := by
      rw [hs]
      exact List.mem_singleton.mpr rfl
    obtain ⟨x, hx, ex⟩ := List.mem_map.mp hmem
    simp only [Prod.mk.injEq] at ex
    obtain ⟨hsent, hwritten, hlen⟩ := ex
    have hfirst := (h stays s e x hx).first
    rw [hsent, hwritten, hlen] at hfirst
    have := hfirst 5 (by decide +kernel) 3 (by decide +kernel)
    revert this
    decide

end Sighttpd.L2
