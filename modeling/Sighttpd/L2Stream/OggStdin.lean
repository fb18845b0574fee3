import Sighttpd.L2Stream.RingbufferOps

/-!
# Pages from standard input (`src/ogg-stdin.c`)

`oggstdin_read_page` is called for every page. A page that begins a logical stream,
and every page while `in_headers` is not 0, goes to a temporary file, the cache of
header pages; the others go to the ring buffer. `in_headers` is counted up by a page
that begins a stream and down when the packets seen of a stream reach the number of
its headers, which is a parameter (`oggz_stream_get_numheaders`).

Writes to the temporary file are complete.

* `readPage_header`, `readPage_data`: what one page does, for either destination.
* `trackHeaders_total`: the trackers count the packets of each stream.
-/
namespace Sighttpd.L2

structure OggPage where
  serialno : Int
  bos : Bool
  packets : Nat
  header : List UInt8
  body : List UInt8
  deriving DecidableEq, Repr

def OggPage.bytes (og : OggPage) : List UInt8 := og.header ++ og.body

/-- mirrors src/ogg-stdin.c:27-30 -/
structure HeaderTracker where
  serialno : Int
  numHeaders : Nat
  deriving DecidableEq, Repr

/-! ## The temporary file -/

/-- A regular file and the offset of its descriptor. -/
structure TempFile where
  contents : List UInt8
  offset : Nat
  deriving DecidableEq, Repr

/-- `lseek (fd, 0, SEEK_SET)` -/
def TempFile.rewind (f : TempFile) : TempFile := { f with offset := 0 }

/-- `write(2)` on a regular file; a gap in front of the offset reads as zeros. -/
def TempFile.write (f : TempFile) (bs : List UInt8) : TempFile where
  contents := f.contents.take f.offset ++ List.replicate (f.offset - f.contents.length) 0 ++ bs ++
    f.contents.drop (f.offset + bs.length)
  offset := f.offset + bs.length

/-- The file starts with `bs`, and the next write goes behind it. -/
structure TempFile.Holds (f : TempFile) (bs : List UInt8) : Prop where
  contents : f.contents.take bs.length = bs
  offset : f.offset = bs.length

theorem TempFile.Holds.rewind (f : TempFile) : f.rewind.Holds [] := ⟨rfl, rfl⟩

theorem TempFile.Holds.write {f : TempFile} {bs : List UInt8} (h : f.Holds bs) (xs : List UInt8) :
    (f.write xs).Holds (bs ++ xs) := by
  have hlen : bs.length ≤ f.contents.length := by
    have := congrArg List.length h.contents
    rw [List.length_take] at this
    omega
  refine ⟨?_, by simp [TempFile.write, h.offset]⟩
  simp only [TempFile.write, h.offset, h.contents, Nat.sub_eq_zero_of_le hlen, List.replicate_zero,
    List.append_nil]
  exact List.take_left' rfl

/-! ## The state and its step -/

/-- mirrors src/ogg-stdin.c:32-47 -/
structure OggStdin where
  active : Bool
  rb : Ringbuffer
  headersFd : TempFile
  headersLen : Nat
  inHeaders : Int
  headerTracker : List HeaderTracker

/-- The module as `oggstdin_resource` sets it up, on the uninitialised ring buffer `rb`.
mirrors src/ogg-stdin.c:231-236 -/
def OggStdin.init (rb : Ringbuffer) (data : Nat → UInt8) (len : Nat) : OggStdin where
  active := true
  rb := ringbufferInit rb data len
  headersFd := ⟨[], 0⟩
  headersLen := 0
  inHeaders := 0
  headerTracker := []

/-- Counts `packets` on the first tracker of the stream; `none` when it has none. -/
def bumpTracker : List HeaderTracker → Int → Nat → Option (List HeaderTracker × Nat)
  | [], _, _ => none
  | ht :: list, serialno, packets =>
    if ht.serialno ≠ serialno then
      (bumpTracker list serialno packets).map fun (list, n) => (ht :: list, n)
    else some ({ ht with numHeaders := ht.numHeaders + packets } :: list, ht.numHeaders + packets)

/-- The trackers and the packets of the stream so far; a new tracker goes in front.
mirrors src/ogg-stdin.c:65-74 -/
def trackHeaders (list : List HeaderTracker) (serialno : Int) (packets : Nat) :
    List HeaderTracker × Nat :=
  (bumpTracker list serialno packets).getD (⟨serialno, packets⟩ :: list, packets)

/-- The two ring-buffer writes of a page.
mirrors src/ogg-stdin.c:86-87 -/
def writePage (rb : Ringbuffer) (og : OggPage) : Ringbuffer :=
  ringbufferWrite (ringbufferWrite rb og.header) og.body

/-- mirrors src/ogg-stdin.c:57-61 -/
def beginStream (st : OggStdin) : OggStdin :=
  let st :=
    if st.inHeaders = 0 then { st with headersLen := 0, headersFd := st.headersFd.rewind } else st
  { st with inHeaders := st.inHeaders + 1 }

/-- mirrors src/ogg-stdin.c:65-84 -/
def cachePage (numheaders : Int → Nat) (st : OggStdin) (og : OggPage) : OggStdin :=
  let (headerTracker, n) := trackHeaders st.headerTracker og.serialno og.packets
  { st with
    headerTracker
    headersFd := (st.headersFd.write og.header).write og.body
    headersLen := st.headersLen + og.header.length + og.body.length
    inHeaders := if n ≥ numheaders og.serialno then st.inHeaders - 1 else st.inHeaders }

/-- The result is `OGGZ_CONTINUE`, as long as the module is active.
mirrors src/ogg-stdin.c:51-91 -/
def oggstdinReadPage (numheaders : Int → Nat) (st : OggStdin) (og : OggPage) : OggStdin × Bool :=
  let st := if og.bos then beginStream st else st
  let st :=
    if st.inHeaders ≠ 0 then cachePage numheaders st og else { st with rb := writePage st.rb og }
  (st, st.active)

/-- The state behind a sequence of pages. -/
def readPages (numheaders : Int → Nat) (st : OggStdin) (pages : List OggPage) : OggStdin :=
  pages.foldl (fun st og => (oggstdinReadPage numheaders st og).1) st

@[simp] theorem readPages_nil (numheaders : Int → Nat) (st : OggStdin) :
    readPages numheaders st [] = st := rfl

theorem readPages_append (numheaders : Int → Nat) (st : OggStdin) (ps qs : List OggPage) :
    readPages numheaders st (ps ++ qs) = readPages numheaders (readPages numheaders st ps) qs :=
  List.foldl_append

theorem readPages_snoc (numheaders : Int → Nat) (st : OggStdin) (ps : List OggPage) (og : OggPage) :
    readPages numheaders st (ps ++ [og]) =
      (oggstdinReadPage numheaders (readPages numheaders st ps) og).1 := readPages_append ..

/-! ## The trackers -/

/-- The packets counted for a stream. -/
def total (list : List HeaderTracker) (serialno : Int) : Nat :=
  ((list.find? fun ht => ht.serialno = serialno).map HeaderTracker.numHeaders).getD 0

theorem bumpTracker_none {list : List HeaderTracker} {serialno : Int} {packets : Nat} :
    bumpTracker list serialno packets = none ↔ serialno ∉ list.map HeaderTracker.serialno := by
  induction list with
  | nil => simp [bumpTracker]
  | cons ht list ih =>
    unfold bumpTracker
    by_cases e : ht.serialno = serialno
    · simp [e]
    · simp [e, ih, Ne.symm e]

theorem bumpTracker_some {list list' : List HeaderTracker} {serialno : Int} {packets n : Nat}
    (h : bumpTracker list serialno packets = some (list', n)) :
    n = total list serialno + packets ∧
      list'.map HeaderTracker.serialno = list.map HeaderTracker.serialno ∧
      ∀ s, total list' s = if s = serialno then n else total list s := by
  induction list generalizing list' with
  | nil => cases h
  | cons ht list ih =>
    unfold bumpTracker at h
    by_cases e : ht.serialno = serialno
    · rw [if_neg (by simp [e])] at h
      cases h
      refine ⟨by simp [total, e], rfl, fun s => ?_⟩
      by_cases hs : s = serialno
      · simp [total, e, hs]
      · simp [total, e, hs, Ne.symm hs]
    · rw [if_pos e] at h
      obtain ⟨⟨list₁, n₁⟩, h₁, e₁⟩ := Option.map_eq_some_iff.mp h
      cases e₁
      obtain ⟨hn, hm, ht'⟩ := ih h₁
      refine ⟨?_, by simp [hm], fun s => ?_⟩
      · rw [hn]; simp [total, e]
      · by_cases hs : s = ht.serialno
        · subst hs; simp [total, e]
        · have := ht' s
          simpa [total, Ne.symm hs] using this

/-- A page adds its packets to the count of its stream and changes no other. -/
theorem trackHeaders_total (list : List HeaderTracker) (serialno : Int) (packets : Nat) :
    (trackHeaders list serialno packets).2 = total list serialno + packets ∧
      ∀ s, total (trackHeaders list serialno packets).1 s =
        if s = serialno then total list serialno + packets else total list s := by
  unfold trackHeaders
  cases h : bumpTracker list serialno packets with
  | none =>
    have hnot := bumpTracker_none.mp h
    have h0 : total list serialno = 0 := by
      unfold total
      rw [List.find?_eq_none.mpr]
      · rfl
      · intro ht hmem
        simpa using fun e => hnot (List.mem_map.mpr ⟨ht, hmem, e⟩)
    refine ⟨by simp [h0], fun s => ?_⟩
    by_cases hs : s = serialno
    · subst hs
      rw [if_pos rfl, h0]
      simp [total]
    · simp [total, hs, Ne.symm hs]
  | some r =>
    obtain ⟨hn, -, ht⟩ := bumpTracker_some h
    exact ⟨hn, fun s => by rw [Option.getD_some, ht s, hn]⟩

/-! ## One page -/

section Step
variable {numheaders : Int → Nat} {st : OggStdin} {og : OggPage}

/-- The page restarts the cache. -/
def Restarts (st : OggStdin) (og : OggPage) : Prop := og.bos = true ∧ st.inHeaders = 0

instance (st : OggStdin) (og : OggPage) : Decidable (Restarts st og) :=
  inferInstanceAs (Decidable (_ ∧ _))

/-- A page that begins a stream, or arrives in a header phase, is cached. -/
theorem readPage_header (hn : 0 ≤ st.inHeaders) (hp : og.bos = true ∨ st.inHeaders ≠ 0) :
    (oggstdinReadPage numheaders st og).1 =
      { st with
        headerTracker := (trackHeaders st.headerTracker og.serialno og.packets).1
        headersFd :=
          ((if Restarts st og then st.headersFd.rewind else st.headersFd).write og.header).write og.body
        headersLen := (if Restarts st og then 0 else st.headersLen) + og.header.length + og.body.length
        inHeaders := st.inHeaders + (if og.bos then 1 else 0) -
          if total st.headerTracker og.serialno + og.packets ≥ numheaders og.serialno then 1 else 0 } := by
  have hcache : ∀ st : OggStdin, cachePage numheaders st og =
      { st with
        headerTracker := (trackHeaders st.headerTracker og.serialno og.packets).1
        headersFd := (st.headersFd.write og.header).write og.body
        headersLen := st.headersLen + og.header.length + og.body.length
        inHeaders := st.inHeaders -
          if total st.headerTracker og.serialno + og.packets ≥ numheaders og.serialno then 1 else 0 } := by
    intro st
    unfold cachePage
    simp only [(trackHeaders_total st.headerTracker og.serialno og.packets).1]
    split <;> simp
  unfold oggstdinReadPage
  by_cases hb : og.bos = true
  · have h1 : (beginStream st).inHeaders = st.inHeaders + 1 := by unfold beginStream; split <;> rfl
    simp only [hb, if_true, h1, show st.inHeaders + 1 ≠ 0 by omega, ne_eq, not_false_eq_true, hcache]
    by_cases h0 : st.inHeaders = 0
    · simp [beginStream, h0, show Restarts st og from ⟨hb, h0⟩]
    · simp [beginStream, h0, show ¬Restarts st og from fun h => h0 h.2]
  · have h0 : st.inHeaders ≠ 0 := hp.resolve_left hb
    simp [hb, h0, hcache, show ¬Restarts st og from fun h => h0 h.2]

/-- Any other page goes to the ring buffer. -/
theorem readPage_data (hb : og.bos = false) (h0 : st.inHeaders = 0) :
    (oggstdinReadPage numheaders st og).1 = { st with rb := writePage st.rb og } := by
  unfold oggstdinReadPage
  simp [hb, h0]

end Step

end Sighttpd.L2
