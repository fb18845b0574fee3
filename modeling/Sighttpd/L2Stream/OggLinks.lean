import Mathlib.Data.List.Count
import Mathlib.Data.List.Infix
import Mathlib.Data.List.Nodup
import Sighttpd.L2Stream.OggStdin

/-!
# The header phase of a link

A link of an Ogg stream begins its logical streams with one BOS page each, then has
their remaining header pages in any order, then data pages. The header pages of a
stream are its pages up to the one that completes its header packets (`Legal`).

`in_headers` counts the streams that have begun and are not complete (`Counting`),
so that it is 0 behind the last header page and every data page goes to the ring
buffer. But it is also 0 between two BOS pages when the streams begun so far had all
their header packets on their BOS pages, and the next BOS page then restarts the
cache.

* `counting_step`, `cached_step`: what a header page does to the counter and the cache.
* `cachesLink_iff`: a link is cached whole exactly when it has one BOS page or its
  first BOS page leaves its stream incomplete.
* `instantStreams_lost`: two streams of one header packet each; the first is lost.
-/
namespace Sighttpd.L2

/-! ## Links -/

/-- The packets of a stream on a sequence of pages. -/
def packetsOf : List OggPage → Int → Nat
  | [], _ => 0
  | og :: pages, s => (if og.serialno = s then og.packets else 0) + packetsOf pages s

/-- The streams that a sequence of pages begins. -/
def begun (pages : List OggPage) : List Int := (pages.filter (·.bos)).map (·.serialno)

structure OggLink where
  bosPages : List OggPage
  headerPages : List OggPage
  dataPages : List OggPage
  deriving Repr

def OggLink.headers (l : OggLink) : List OggPage := l.bosPages ++ l.headerPages

def OggLink.serials (l : OggLink) : List Int := l.bosPages.map (·.serialno)

/-- A link whose streams have `numheaders` header packets each. -/
structure OggLink.WellFormed (numheaders : Int → Nat) (l : OggLink) : Prop where
  begins : l.bosPages ≠ []
  bos : ∀ og ∈ l.bosPages, og.bos = true
  rest : ∀ og ∈ l.headerPages ++ l.dataPages, og.bos = false ∧ og.serialno ∈ l.serials
  unique : l.serials.Nodup
  positive : ∀ s ∈ l.serials, 1 ≤ numheaders s
  upTo : ∀ pre og post, l.headers = pre ++ og :: post →
    packetsOf pre og.serialno < numheaders og.serialno
  complete : ∀ s ∈ l.serials, numheaders s ≤ packetsOf l.headers s
  nonempty : ∀ og ∈ l.headers, og.header ≠ []

theorem packetsOf_append (ps qs : List OggPage) (s : Int) :
    packetsOf (ps ++ qs) s = packetsOf ps s + packetsOf qs s := by
  induction ps with
  | nil => simp [packetsOf]
  | cons og ps ih => simp only [List.cons_append, packetsOf, ih]; omega

theorem packetsOf_single (og : OggPage) (s : Int) :
    packetsOf [og] s = if og.serialno = s then og.packets else 0 := by simp [packetsOf]

theorem packetsOf_eq_zero {ps : List OggPage} {s : Int} (h : ∀ og ∈ ps, og.serialno ≠ s) :
    packetsOf ps s = 0 := by
  induction ps with
  | nil => rfl
  | cons og ps ih =>
    rw [packetsOf, if_neg (h og List.mem_cons_self), ih fun x hx => h x (List.mem_cons_of_mem _ hx)]

theorem begun_append (ps qs : List OggPage) : begun (ps ++ qs) = begun ps ++ begun qs := by
  simp [begun]

theorem begun_of_bos {ps : List OggPage} (h : ∀ og ∈ ps, og.bos = true) :
    begun ps = ps.map (·.serialno) := by
  rw [begun, List.filter_eq_self.mpr h]

theorem begun_of_not_bos {ps : List OggPage} (h : ∀ og ∈ ps, og.bos = false) : begun ps = [] := by
  rw [begun, List.filter_eq_nil_iff.mpr fun og hog => by simp [h og hog], List.map_nil]

/-! ## The counter -/

/-- The streams begun in `hs` whose headers are not complete. -/
def incomplete (numheaders : Int → Nat) (hs : List OggPage) : Nat :=
  (begun hs).countP fun s => packetsOf hs s < numheaders s

/-- `og` may follow the header pages `hs`, in streams among `serials`. -/
structure Legal (numheaders : Int → Nat) (serials : List Int) (hs : List OggPage) (og : OggPage) :
    Prop where
  serial : og.serialno ∈ serials
  short : packetsOf hs og.serialno < numheaders og.serialno
  kind : if og.bos then og.serialno ∉ begun hs else og.serialno ∈ begun hs
  unique : (begun hs).Nodup

/-- Behind the header pages `hs` the trackers have the packets of every stream, and
`in_headers` is the number of incomplete ones. -/
structure Counting (numheaders : Int → Nat) (serials : List Int) (hs : List OggPage) (st : OggStdin) :
    Prop where
  total : ∀ s ∈ serials, total st.headerTracker s = packetsOf hs s
  inHeaders : st.inHeaders = incomplete numheaders hs

/-- One element of a list without duplicates stops counting, or not. -/
theorem countP_change {l : List Int} {s : Int} {p q : Int → Bool} (hd : l.Nodup) (hs : s ∈ l)
    (hsame : ∀ t ∈ l, t ≠ s → p t = q t) (hp : p s = true) :
    l.countP q + (if q s then 0 else 1) = l.countP p := by
  obtain ⟨a, b, rfl⟩ := List.append_of_mem hs
  have hnot : ∀ t, t ∈ a ∨ t ∈ b → t ≠ s := by
    intro t ht e
    subst e
    have := List.nodup_append.mp hd
    rcases ht with ht | ht
    · exact this.2.2 t ht t List.mem_cons_self rfl
    · exact (List.nodup_cons.mp this.2.1).1 ht
  have ha : a.countP p = a.countP q :=
    List.countP_congr fun t ht => by rw [hsame t (by simp [ht]) (hnot t (.inl ht))]
  have hb : b.countP p = b.countP q :=
    List.countP_congr fun t ht => by rw [hsame t (by simp [ht]) (hnot t (.inr ht))]
  rw [List.countP_append, List.countP_append, List.countP_cons, List.countP_cons, ha, hb, hp]
  cases q s
  · simp; omega
  · simp

section Step
variable {numheaders : Int → Nat} {serials : List Int} {hs : List OggPage} {st : OggStdin} {og : OggPage}

/-- A header page completes its stream, or not. -/
theorem incomplete_snoc (hl : Legal numheaders serials hs og) :
    incomplete numheaders (hs ++ [og]) +
        (if numheaders og.serialno ≤ packetsOf hs og.serialno + og.packets then 1 else 0) =
      incomplete numheaders hs + (if og.bos then 1 else 0) := by
  have hself : packetsOf (hs ++ [og]) og.serialno = packetsOf hs og.serialno + og.packets := by
    rw [packetsOf_append, packetsOf_single, if_pos rfl]
  have hother : ∀ t, t ≠ og.serialno → packetsOf (hs ++ [og]) t = packetsOf hs t := fun t ht => by
    rw [packetsOf_append, packetsOf_single, if_neg (Ne.symm ht), Nat.add_zero]
  have hkind := hl.kind
  unfold incomplete
  by_cases hb : og.bos = true
  · rw [if_pos hb] at hkind ⊢
    rw [begun_append, show begun [og] = [og.serialno] by simp [begun, hb], List.countP_append,
      List.countP_singleton, hself]
    have : (begun hs).countP (fun s => packetsOf (hs ++ [og]) s < numheaders s) =
        (begun hs).countP fun s => packetsOf hs s < numheaders s :=
      List.countP_congr fun t ht => by rw [hother t fun e => hkind (e ▸ ht)]
    rw [this]
    by_cases hc : numheaders og.serialno ≤ packetsOf hs og.serialno + og.packets
    · simp [hc]
    · simp [hc, Nat.lt_of_not_le hc]
  · rw [if_neg hb] at hkind ⊢
    have hbegun : begun (hs ++ [og]) = begun hs := by
      have hnone : begun [og] = [] := begun_of_not_bos (by simpa using hb)
      rw [begun_append, hnone, List.append_nil]
    rw [hbegun, Nat.add_zero]
    have := countP_change (p := fun s => decide (packetsOf hs s < numheaders s))
      (q := fun s => decide (packetsOf (hs ++ [og]) s < numheaders s)) hl.unique hkind
      (fun t _ ht => by simp only [hother t ht]) (by simpa using hl.short)
    rw [← this, hself]
    by_cases hc : numheaders og.serialno ≤ packetsOf hs og.serialno + og.packets
    · simp [hc]
    · simp [hc, Nat.lt_of_not_le hc]

/-- A header page finds the header phase on, or begins a stream. -/
theorem header_phase (h : Counting numheaders serials hs st) (hl : Legal numheaders serials hs og) :
    og.bos = true ∨ st.inHeaders ≠ 0 := by
  by_cases hb : og.bos = true
  · exact .inl hb
  · have hmem : og.serialno ∈ begun hs := by simpa [hb] using hl.kind
    have hpos : 0 < incomplete numheaders hs :=
      List.countP_pos_iff.mpr ⟨og.serialno, hmem, by simpa using hl.short⟩
    have := h.inHeaders
    exact .inr (by omega)

theorem Counting.nonneg (h : Counting numheaders serials hs st) : 0 ≤ st.inHeaders := by
  rw [h.inHeaders]; omega

/-- **Counter step.** -/
theorem counting_step (h : Counting numheaders serials hs st) (hl : Legal numheaders serials hs og) :
    Counting numheaders serials (hs ++ [og]) (oggstdinReadPage numheaders st og).1 := by
  rw [readPage_header h.nonneg (header_phase h hl)]
  constructor
  · intro s hs'
    simp only [(trackHeaders_total ..).2, h.total og.serialno hl.serial, packetsOf_append,
      packetsOf_single]
    by_cases e : s = og.serialno
    · subst e; simp
    · simp [e, Ne.symm e, h.total s hs']
  · have := incomplete_snoc hl
    simp only [h.inHeaders, h.total og.serialno hl.serial, ge_iff_le]
    by_cases hb : og.bos = true <;>
      by_cases hc : numheaders og.serialno ≤ packetsOf hs og.serialno + og.packets <;>
      simp only [hb, hc, if_true, if_false, Bool.false_eq_true] at this ⊢ <;> omega

/-- The cache holds the pages `cs`. -/
structure Cached (cs : List OggPage) (st : OggStdin) : Prop where
  file : st.headersFd.Holds (cs.flatMap OggPage.bytes)
  len : st.headersLen = (cs.flatMap OggPage.bytes).length

/-- **Cache step.** A header page goes behind the others, or restarts the cache. -/
theorem cached_step {cs : List OggPage} (h : Counting numheaders serials hs st)
    (hl : Legal numheaders serials hs og) (hc : Restarts st og ∨ Cached cs st) :
    Cached (if Restarts st og then [og] else cs ++ [og]) (oggstdinReadPage numheaders st og).1 := by
  have hwrite : ∀ {bs : List UInt8} {f : TempFile}, f.Holds bs →
      ((f.write og.header).write og.body).Holds (bs ++ og.bytes) := by
    intro bs f hf
    have := (hf.write og.header).write og.body
    rwa [List.append_assoc] at this
  rw [readPage_header h.nonneg (header_phase h hl)]
  by_cases hr : Restarts st og
  · rw [if_pos hr]
    constructor
    · simp only [if_pos hr]
      simpa using hwrite (TempFile.Holds.rewind st.headersFd)
    · simp [if_pos hr, OggPage.bytes]
  · have hcs := hc.resolve_left hr
    rw [if_neg hr]
    constructor
    · simp only [if_neg hr, List.flatMap_append, List.flatMap_singleton]
      exact hwrite hcs.file
    · simp only [if_neg hr, List.flatMap_append, List.flatMap_singleton, List.length_append, hcs.len,
        OggPage.bytes]
      omega

theorem rb_header (h : Counting numheaders serials hs st) (hl : Legal numheaders serials hs og) :
    (oggstdinReadPage numheaders st og).1.rb = st.rb := by
  rw [readPage_header h.nonneg (header_phase h hl)]

end Step

/-- A place in two sequences, one behind the other, is in one of them. -/
theorem append_split {α : Type} {a b pre post : List α} {x : α} (e : a ++ b = pre ++ x :: post) :
    (∃ more, a = pre ++ x :: more) ∨ ∃ c, b = c ++ x :: post ∧ pre = a ++ c := by
  rcases List.append_eq_append_iff.mp e with ⟨c, hpre, hb⟩ | ⟨c, ha, hb⟩
  · exact .inr ⟨c, hb, hpre⟩
  · cases c with
    | nil => exact .inr ⟨[], by simpa using hb.symm, by simpa using ha.symm⟩
    | cons y c =>
      obtain ⟨rfl, -⟩ := List.cons.inj hb
      exact .inl ⟨c, ha⟩

/-! ## The header pages of a link -/

section Link
variable {numheaders : Int → Nat} {l : OggLink} (hw : l.WellFormed numheaders)
include hw

/-- A header page is among the BOS pages or behind all of them. -/
theorem header_split {hs post : List OggPage} {og : OggPage} (e : l.headers = hs ++ og :: post) :
    (og.bos = true ∧ ∃ more, l.bosPages = hs ++ og :: more) ∨
      og.bos = false ∧ og.serialno ∈ l.serials ∧ ∃ c, hs = l.bosPages ++ c ∧ ∀ x ∈ c, x.bos = false := by
  rw [OggLink.headers] at e
  rcases append_split e with ⟨more, hm⟩ | ⟨c, hc, hhs⟩
  · exact .inl ⟨hw.bos og (by simp [hm]), more, hm⟩
  · obtain ⟨hb, hs'⟩ := hw.rest og (by simp [hc])
    exact .inr ⟨hb, hs', c, hhs, fun x hx => (hw.rest x (by simp [hc, hx])).1⟩

theorem legal_of_link {hs post : List OggPage} {og : OggPage} (e : l.headers = hs ++ og :: post) :
    Legal numheaders l.serials hs og := by
  have hshort := hw.upTo hs og post e
  rcases header_split hw e with ⟨hb, more, hm⟩ | ⟨hb, hs', c, hc, hcb⟩
  · have hbegun : begun hs = hs.map (·.serialno) :=
      begun_of_bos fun x hx => hw.bos x (by simp [hm, hx])
    have hu := hw.unique
    rw [OggLink.serials, hm, List.map_append, List.map_cons] at hu
    obtain ⟨hu, -, hne⟩ := List.nodup_append.mp hu
    refine ⟨by simp [OggLink.serials, hm], hshort, ?_, hbegun ▸ hu⟩
    rw [if_pos hb, hbegun]
    exact fun hmem => hne _ hmem _ List.mem_cons_self rfl
  · have hbegun : begun hs = l.serials := by
      rw [hc, begun_append, begun_of_bos hw.bos, begun_of_not_bos hcb, List.append_nil]; rfl
    refine ⟨hs', hshort, ?_, hbegun ▸ hw.unique⟩
    rw [if_neg (by simp [hb]), hbegun]
    exact hs'

theorem begun_headers : begun l.headers = l.serials := by
  rw [OggLink.headers, begun_append, begun_of_bos hw.bos,
    begun_of_not_bos fun og hog => (hw.rest og (by simp [hog])).1, List.append_nil]; rfl

theorem serial_mem {og : OggPage} (hog : og ∈ l.headers) : og.serialno ∈ l.serials := by
  rcases List.mem_append.mp hog with hog | hog
  · exact List.mem_map.mpr ⟨og, hog, rfl⟩
  · exact (hw.rest og (List.mem_append_left _ hog)).2

/-- Behind the last header page no stream is incomplete. -/
theorem incomplete_headers : incomplete numheaders l.headers = 0 := by
  unfold incomplete
  rw [List.countP_eq_zero, begun_headers hw]
  intro s hs
  simpa using hw.complete s hs

end Link

/-! ## A link arriving when `in_headers` is 0 -/

section Run
variable {numheaders : Int → Nat} {l : OggLink} (hw : l.WellFormed numheaders) {st : OggStdin}
  (h0 : st.inHeaders = 0) (hnew : ∀ s ∈ l.serials, s ∉ st.headerTracker.map (·.serialno))
include hw h0 hnew

/-- **Counter run.** -/
theorem counting_run {hs : List OggPage} (hp : hs <+: l.headers) :
    Counting numheaders l.serials hs (readPages numheaders st hs) ∧
      (readPages numheaders st hs).rb = st.rb := by
  induction hs using List.reverseRecOn with
  | nil =>
    refine ⟨⟨fun s hs => ?_, h0⟩, rfl⟩
    unfold total
    rw [List.find?_eq_none.mpr]
    · rfl
    · intro ht hmem
      simpa using fun e => hnew s hs (List.mem_map.mpr ⟨ht, hmem, e⟩)
  | append_singleton hs og ih =>
    obtain ⟨post, e⟩ := hp
    rw [List.append_assoc] at e
    obtain ⟨hc, hrb⟩ := ih ⟨og :: post, e⟩
    have hl := legal_of_link hw e.symm
    rw [readPages_snoc]
    exact ⟨counting_step hc hl, (rb_header hc hl).trans hrb⟩

/-- No page but the first restarts the cache. -/
def NoRestart (numheaders : Int → Nat) (st : OggStdin) (hs : List OggPage) : Prop :=
  ∀ pre og, pre ≠ [] → pre ++ [og] <+: hs → ¬Restarts (readPages numheaders st pre) og

omit hw h0 hnew in
theorem noRestart_snoc {hs : List OggPage} {og : OggPage} :
    NoRestart numheaders st (hs ++ [og]) ↔
      NoRestart numheaders st hs ∧ (hs ≠ [] → ¬Restarts (readPages numheaders st hs) og) := by
  constructor
  · intro h
    exact ⟨fun pre x hne hp => h pre x hne (hp.trans (List.prefix_append ..)),
      fun hne => h hs og hne (List.prefix_refl _)⟩
  · intro h pre x hne hp
    rcases List.prefix_concat_iff.mp hp with e | hp
    · obtain ⟨h1, h2⟩ := List.append_inj' e rfl
      obtain ⟨h2, -⟩ := List.cons.inj h2
      rw [h1, h2]
      exact h.2 (h1 ▸ hne)
    · exact h.1 pre x hne hp

/-- **Cache run.** The cache has the last header pages, all of them without a restart. -/
theorem cached_run {hs : List OggPage} (hp : hs <+: l.headers) (hne : hs ≠ []) :
    ∃ cs, Cached cs (readPages numheaders st hs) ∧ cs <:+ hs ∧ (cs = hs ↔ NoRestart numheaders st hs) := by
  induction hs using List.reverseRecOn with
  | nil => exact absurd rfl hne
  | append_singleton hs og ih =>
    obtain ⟨post, e⟩ := hp
    rw [List.append_assoc] at e
    have hcount := (counting_run hw h0 hnew ⟨og :: post, e⟩).1
    have hl := legal_of_link hw e.symm
    rw [readPages_snoc, noRestart_snoc]
    by_cases hnil : hs = []
    · -- the first page of the link
      subst hnil
      have hb : og.bos = true := by
        have := hl.kind
        by_contra hb
        rw [if_neg hb] at this
        cases this
      have hr : Restarts (readPages numheaders st []) og := ⟨hb, h0⟩
      have hc : Cached (if _ then [og] else [] ++ [og]) _ := cached_step hcount hl (.inl hr)
      rw [if_pos hr] at hc
      refine ⟨[og], hc, List.suffix_refl _, fun _ => ⟨fun pre x hne hp => ?_, fun h => absurd rfl h⟩,
        fun _ => rfl⟩
      rw [List.prefix_nil, List.append_eq_nil_iff] at hp
      exact absurd hp.1 hne
    · obtain ⟨cs, hcs, hsuf, hiff⟩ := ih ⟨og :: post, e⟩ hnil
      have hc := cached_step hcount hl (.inr hcs)
      by_cases hr : Restarts (readPages numheaders st hs) og
      · rw [if_pos hr] at hc
        refine ⟨[og], hc, List.suffix_append .., fun h => ?_, fun h => absurd hr (h.2 hnil)⟩
        have h : [] ++ [og] = hs ++ [og] := h
        exact absurd (List.append_cancel_right h).symm hnil
      · rw [if_neg hr] at hc
        refine ⟨cs ++ [og], hc, ?_, fun h => ?_, fun h => ?_⟩
        · obtain ⟨d, hd⟩ := hsuf
          exact ⟨d, by rw [← List.append_assoc, hd]⟩
        · exact ⟨hiff.mp (List.append_cancel_right h), fun _ => hr⟩
        · rw [hiff.mpr h.1]

omit h0 hnew in
/-- The first of several BOS pages does not complete its stream. -/
theorem packetsOf_first {first : OggPage} {pre more : List OggPage}
    (e : l.bosPages = first :: (pre ++ more)) :
    packetsOf (first :: pre) first.serialno = first.packets := by
  have hu := hw.unique
  rw [OggLink.serials, e, List.map_cons] at hu
  have hnot := (List.nodup_cons.mp hu).1
  rw [packetsOf, if_pos rfl, packetsOf_eq_zero, Nat.add_zero]
  intro x hx hs
  exact hnot (hs ▸ List.mem_map.mpr ⟨x, by simp [hx], rfl⟩)

/-- One BOS page, or a first one that leaves its stream incomplete. -/
def FirstStaysOpen (numheaders : Int → Nat) (l : OggLink) : Prop :=
  ∀ first second more, l.bosPages = first :: second :: more →
    first.packets < numheaders first.serialno

theorem noRestart_iff : NoRestart numheaders st l.headers ↔ FirstStaysOpen numheaders l := by
  constructor
  · intro h first second more e
    have hp : [first] ++ [second] <+: l.headers := ⟨more ++ l.headerPages, by simp [OggLink.headers, e]⟩
    have hr := h [first] second (by simp) hp
    have hcount := (counting_run hw h0 hnew ((List.prefix_append ..).trans hp)).1
    have hb : second.bos = true := hw.bos second (by simp [e])
    have hb' : first.bos = true := hw.bos first (by simp [e])
    by_contra hlt
    refine hr ⟨hb, ?_⟩
    have hpk : packetsOf (first :: []) first.serialno = first.packets := packetsOf_first hw e
    rw [hcount.inHeaders]
    simp [incomplete, begun, hb', hpk, Nat.le_of_not_lt hlt]
  · intro h pre og hne hp hr
    obtain ⟨post, e⟩ := hp
    rw [List.append_assoc] at e
    have hcount := (counting_run hw h0 hnew ⟨og :: post, e⟩).1
    rcases header_split hw e.symm with ⟨-, more, hm⟩ | ⟨hb, -⟩
    · obtain ⟨first, pre', rfl⟩ := List.exists_cons_of_ne_nil hne
      have hfirst : first.packets < numheaders first.serialno := by
        cases pre' with
        | nil => exact h first og more hm
        | cons second pre' => exact h first second (pre' ++ og :: more) hm
      have hb : first.bos = true := hw.bos first (by simp [hm])
      have hpos : 0 < incomplete numheaders (first :: pre') := by
        refine List.countP_pos_iff.mpr ⟨first.serialno, by simp [begun, hb], ?_⟩
        rw [packetsOf_first hw hm]
        simpa using hfirst
      have := hcount.inHeaders
      rw [hr.2] at this
      omega
    · rw [hr.1] at hb; cases hb

end Run

/-- Behind the last header page `in_headers` is 0 and the cache is all header pages
of the link in their order; from then on exactly the data pages are written to the
ring buffer, which has had none of the others. -/
structure CachesLink (numheaders : Int → Nat) (st : OggStdin) (l : OggLink) : Prop where
  ended : (readPages numheaders st l.headers).inHeaders = 0
  cache : (readPages numheaders st l.headers).headersFd.contents.take
      (readPages numheaders st l.headers).headersLen = l.headers.flatMap OggPage.bytes
  data : ∀ ds, ds <+: l.dataPages → readPages numheaders st (l.headers ++ ds) =
    { readPages numheaders st l.headers with rb := ds.foldl writePage st.rb }

/-- Pages without a BOS flag, read when `in_headers` is 0. -/
theorem readPages_data {numheaders : Int → Nat} {st : OggStdin} {ds : List OggPage}
    (hb : ∀ og ∈ ds, og.bos = false) (h0 : st.inHeaders = 0) :
    readPages numheaders st ds = { st with rb := ds.foldl writePage st.rb } := by
  induction ds generalizing st with
  | nil => rfl
  | cons og ds ih =>
    have hog : (oggstdinReadPage numheaders st og).1 = _ := readPage_data (hb og List.mem_cons_self) h0
    rw [readPages, List.foldl_cons, hog]
    exact ih (fun x hx => hb x (List.mem_cons_of_mem _ hx)) h0

/-- A proper suffix of the header pages has fewer bytes. -/
theorem suffix_bytes {cs hs : List OggPage} (hn : ∀ og ∈ hs, og.header ≠ []) (hs' : cs <:+ hs)
    (he : cs.flatMap OggPage.bytes = hs.flatMap OggPage.bytes) : cs = hs := by
  obtain ⟨d, rfl⟩ := hs'
  rw [List.flatMap_append] at he
  have hd : d.flatMap OggPage.bytes = [] := by
    apply List.append_cancel_right
    exact he.symm
  cases d with
  | nil => rfl
  | cons og d =>
    rw [List.flatMap_cons, List.append_eq_nil_iff, OggPage.bytes, List.append_eq_nil_iff] at hd
    exact absurd hd.1.1 (hn og (by simp))

/-- **Header phase.** For every well-formed link of new streams that arrives when
`in_headers` is 0: it is cached whole, and exactly its data pages go to the ring
buffer, precisely when it has a single BOS page or its first BOS page does not hold
all header packets of its stream. -/
theorem cachesLink_iff (numheaders : Int → Nat) (st : OggStdin) (l : OggLink)
    (hw : l.WellFormed numheaders) (h0 : st.inHeaders = 0)
    (hnew : ∀ s ∈ l.serials, s ∉ st.headerTracker.map (·.serialno)) :
    CachesLink numheaders st l ↔ FirstStaysOpen numheaders l := by
  have hne : l.headers ≠ [] := by simp [OggLink.headers, hw.begins]
  obtain ⟨hcount, hrb⟩ := counting_run hw h0 hnew (List.prefix_refl l.headers)
  obtain ⟨cs, hcs, hsuf, hiff⟩ := cached_run hw h0 hnew (List.prefix_refl l.headers) hne
  have hover : (readPages numheaders st l.headers).inHeaders = 0 := by
    rw [hcount.inHeaders, incomplete_headers hw]; rfl
  have hcache : (readPages numheaders st l.headers).headersFd.contents.take
      (readPages numheaders st l.headers).headersLen = cs.flatMap OggPage.bytes := by
    rw [hcs.len]; exact hcs.file.contents
  rw [← noRestart_iff hw h0 hnew, ← hiff]
  constructor
  · intro h
    exact suffix_bytes hw.nonempty hsuf (hcache.symm.trans h.cache)
  · intro h
    refine ⟨hover, by rw [hcache, h], fun ds hds => ?_⟩
    rw [readPages_append, readPages_data ?_ hover, hrb]
    intro og hog
    exact (hw.rest og (List.mem_append_right _ (hds.subset hog))).1

/-! ## Two links -/

theorem upTo_of_index (numheaders : Int → Nat) (hs : List OggPage)
    (h : ∀ i, (hi : i < hs.length) →
      packetsOf (hs.take i) hs[i].serialno < numheaders hs[i].serialno) :
    ∀ pre og post, hs = pre ++ og :: post → packetsOf pre og.serialno < numheaders og.serialno := by
  rintro pre og post rfl
  have := h pre.length (by simp)
  simpa using this

/-- An uninitialised ring buffer. -/
def noBuffer : Ringbuffer := ⟨fun _ => 0, 0, 0, fun _ => 0, 0, 0⟩

/-- A page header with one segment, for stream `s`. -/
def pageHeader (s : UInt8) : List UInt8 := [79, 103, 103, 83] ++ List.replicate 24 s

/-- Two streams of three header packets each, the first on the BOS page. -/
def setupPages : OggLink where
  bosPages := [⟨1, true, 1, pageHeader 1, [1]⟩, ⟨2, true, 1, pageHeader 2, [2]⟩]
  headerPages := [⟨2, false, 2, pageHeader 2, [3]⟩, ⟨1, false, 1, pageHeader 1, [4]⟩,
    ⟨1, false, 1, pageHeader 1, [5]⟩]
  dataPages := [⟨1, false, 4, pageHeader 1, [6]⟩]

theorem setupPages_wellFormed : setupPages.WellFormed fun _ => 3 where
  begins := by decide
  bos := by decide
  rest := by decide
  unique := by decide
  positive := by decide
  upTo := upTo_of_index (fun _ => 3) setupPages.headers (by decide)
  complete := by decide
  nonempty := by decide

theorem cachesLink_iff_setupPages :
    CachesLink (fun _ => 3) (OggStdin.init noBuffer (fun _ => 0) 64) setupPages := by
  refine (cachesLink_iff (fun _ => 3) _ setupPages setupPages_wellFormed rfl (by decide)).mpr ?_
  intro first second more e
  obtain ⟨rfl, -⟩ := List.cons.inj e
  decide

/-- Two streams that have their only header packet on the BOS page. -/
def instantStreams : OggLink where
  bosPages := [⟨1, true, 1, pageHeader 1, [1]⟩, ⟨2, true, 1, pageHeader 2, [2]⟩]
  headerPages := []
  dataPages := [⟨1, false, 4, pageHeader 1, [6]⟩]

theorem instantStreams_wellFormed : instantStreams.WellFormed fun _ => 1 where
  begins := by decide
  bos := by decide
  rest := by decide
  unique := by decide
  positive := by decide
  upTo := upTo_of_index (fun _ => 1) instantStreams.headers (by decide)
  complete := by decide
  nonempty := by decide

/-- **Counterexample.** The second BOS page restarts the cache. -/
theorem instantStreams_lost :
    ¬∀ numheaders st l, OggLink.WellFormed numheaders l → st.inHeaders = 0 →
      (∀ s ∈ l.serials, s ∉ st.headerTracker.map (·.serialno)) → CachesLink numheaders st l := by
  intro h
  have hc := (h (fun _ => 1) (OggStdin.init noBuffer (fun _ => 0) 64) instantStreams
    instantStreams_wellFormed rfl (by decide)).cache
  exact absurd hc (by decide)

end Sighttpd.L2
