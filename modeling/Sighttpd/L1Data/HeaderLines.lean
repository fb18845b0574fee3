import Sighttpd.L1Data.RoundTrip

/-!
# Header text, line by line

What `headers_canonicalize` makes of a text that is put together from parts: it may be
read in two steps where the second part starts with a word, and a text that ends in a
line end comes out as lines.

* `text_induction`: text as words, blanks, line ends that go on with blanks, and line
  ends that start a line.
* `canonLoop_append`: the loop over a text in two parts.
* `canonLoop_lines`: the lines stored for a text, and what an empty line behind it does.
* `Reads.block`: a header block with some text among its lines.
-/
namespace Sighttpd.L1
open Sighttpd.CString

/-! ## Induction over text -/

/-- Text is made of words, blanks, line ends in front of blanks, and line ends that start
a line or end the text. -/
theorem text_induction {P : Bytes → Prop} (nil : P [])
    (word : ∀ a c, a ∉ lws → P c → P (a :: c))
    (blanks : ∀ b c, b ≠ [] → (∀ a ∈ b, a ∈ spht) → (∀ a t, c = a :: t → a ∉ spht) → P c → P (b ++ c))
    (fold : ∀ r b c, r ≠ [] → (∀ a ∈ r, a ∈ crlf) → b ≠ [] → (∀ a ∈ b, a ∈ spht) →
      (∀ a t, c = a :: t → a ∉ spht) → P c → P (r ++ (b ++ c)))
    (newline : ∀ r c, r ≠ [] → (∀ a ∈ r, a ∈ crlf) → (∀ a t, c = a :: t → a ∉ lws) → P c → P (r ++ c))
    (s : Bytes) : P s := by
  induction hk : s.length using Nat.strong_induction_on generalizing s with
  | _ k ih =>
  subst hk
  -- a span at the front of a text, and what is behind it
  have hspan : ∀ (p : UInt8 → Bool) (a : UInt8) (t : Bytes), p a = true →
      ∃ b c, a :: t = b ++ c ∧ b ≠ [] ∧ (∀ d ∈ b, p d = true) ∧ (∀ d u, c = d :: u → p d = false) ∧
        c.length ≤ t.length := by
    intro p a t ha
    refine ⟨(a :: t).takeWhile p, (a :: t).dropWhile p, (List.takeWhile_append_dropWhile).symm, ?_,
      fun d hd => List.mem_takeWhile_imp hd, fun d u he => dropWhile_stop he, ?_⟩
    · rw [List.takeWhile_cons_of_pos ha]
      exact List.cons_ne_nil _ _
    · rw [List.dropWhile_cons_of_pos ha]
      exact List.length_dropWhile_le ..
  cases s with
  | nil => exact nil
  | cons a t =>
    by_cases hlws : a ∈ lws
    · rcases mem_lws.mp hlws with hsp | hcr
      · obtain ⟨b, c, heq, hne, hb, hc, hlen⟩ := hspan (· ∈ spht) a t (by simpa using hsp)
        rw [heq]
        exact blanks b c hne (by simpa using hb) (fun d u he => by simpa using hc d u he)
          (ih _ (Nat.lt_succ_of_le hlen) c rfl)
      · obtain ⟨r, c, heq, hne, hr, hc, hlen⟩ := hspan (· ∈ crlf) a t (by simpa using hcr)
        rw [heq]
        by_cases hblank : ∃ d u, c = d :: u ∧ d ∈ spht
        · obtain ⟨d, u, rfl, hd⟩ := hblank
          obtain ⟨b, c', heq', hbne, hb, hc', hlen'⟩ := hspan (· ∈ spht) d u (by simpa using hd)
          rw [List.length_cons] at hlen
          rw [heq']
          exact fold r b c' hne (by simpa using hr) hbne (by simpa using hb)
            (fun d u he => by simpa using hc' d u he)
            (ih _ (by simp only [List.length_cons]; omega) c' rfl)
        · refine newline r c hne (by simpa using hr) (fun d u he hl => ?_)
            (ih _ (Nat.lt_succ_of_le hlen) c rfl)
          rcases mem_lws.mp hl with hsp | hcr
          · exact hblank ⟨d, u, he, hsp⟩
          · exact absurd hcr (by simpa using hc d u he)
    · exact word a t hlws (ih _ (Nat.lt_succ_self _) t rfl)

/-! ## Text in two parts -/

theorem head_append {c z : Bytes} {q : UInt8 → Prop} (hc : ∀ a t, c = a :: t → q a)
    (hz : ∀ a t, z = a :: t → q a) : ∀ a t, c ++ z = a :: t → q a := by
  intro a t he
  cases c with
  | nil => exact hz a t he
  | cons d c => exact hc a c (by rw [(List.cons.inj he).1])

/-- The loop may be stopped in front of a word and restarted there. -/
theorem canonLoop_append {z : Bytes} (hz : ∀ a t, z = a :: t → a ∉ lws) (k : Bytes) :
    ∀ n, canonLoop (k ++ z) n =
      if (canonLoop k n).2 then canonLoop k n else canonLoop z (canonLoop k n).1 := by
  have hsp : ∀ a t, z = a :: t → a ∉ spht := fun a t he h => hz a t he (mem_lws.mpr (.inl h))
  induction k using text_induction with
  | nil => intro n; simp [canonLoop_nil]
  | word a c ha ih => intro n; rw [List.cons_append, canonLoop_cons ha, canonLoop_cons ha, ih]
  | blanks b c hne hb hc ih =>
    intro n
    rw [List.append_assoc, canonLoop_blanks hne hb (head_append hc hsp), canonLoop_blanks hne hb hc, ih]
  | fold r b c hne hr hbne hb hc ih =>
    intro n
    rw [List.append_assoc, List.append_assoc]
    by_cases hend : endsBlock r
    · rw [canonLoop_ends hr hend, canonLoop_ends hr hend, if_pos rfl]
    · rw [canonLoop_fold hne hr hend hbne hb (head_append hc hsp), canonLoop_fold hne hr hend hbne hb hc,
        ih]
  | newline r c hne hr hc ih =>
    intro n
    rw [List.append_assoc]
    by_cases hend : endsBlock r
    · rw [canonLoop_ends hr hend, canonLoop_ends hr hend, if_pos rfl]
    · rw [canonLoop_newline hne hr hend (head_append hc hz), canonLoop_newline hne hr hend hc, ih]

theorem count_free {s : Bytes} (hs : ∀ c ∈ s, c ∉ crlf) : s.count 13 = 0 ∧ s.count 10 = 0 :=
  ⟨List.count_eq_zero.mpr fun hm => hs 13 hm (mem_crlf.mpr (.inl rfl)),
    List.count_eq_zero.mpr fun hm => hs 10 hm (mem_crlf.mpr (.inr rfl))⟩

/-- It takes two CRs or two LFs to end the header. -/
theorem canonLoop_open (k : Bytes) :
    ∀ n, k.count 13 ≤ 1 → k.count 10 ≤ 1 → (canonLoop k n).2 = false := by
  have hrun : ∀ {r s : Bytes}, (r ++ s).count 13 ≤ 1 → (r ++ s).count 10 ≤ 1 →
      ¬ endsBlock r ∧ s.count 13 ≤ 1 ∧ s.count 10 ≤ 1 := by
    intro r s h1 h2
    simp only [List.count_append] at h1 h2
    simp only [endsBlock, Bool.or_eq_true, decide_eq_true_eq]
    omega
  induction k using text_induction with
  | nil => intro n _ _; rw [canonLoop_nil]
  | word a c ha ih =>
    intro n h1 h2
    rw [canonLoop_cons ha]
    exact ih _ (Nat.le_trans List.count_le_count_cons h1) (Nat.le_trans List.count_le_count_cons h2)
  | blanks b c hne hb hc ih =>
    intro n h1 h2
    rw [canonLoop_blanks hne hb hc]
    exact ih _ (hrun h1 h2).2.1 (hrun h1 h2).2.2
  | fold r b c hne hr hbne hb hc ih =>
    intro n h1 h2
    obtain ⟨hend, h1, h2⟩ := hrun h1 h2
    rw [canonLoop_fold hne hr hend hbne hb hc]
    exact ih _ (hrun h1 h2).2.1 (hrun h1 h2).2.2
  | newline r c hne hr hc ih =>
    intro n h1 h2
    obtain ⟨hend, h1, h2⟩ := hrun h1 h2
    rw [canonLoop_newline hne hr hend hc]
    exact ih _ h1 h2

/-! ## Lines -/

def IsLine (l : Bytes) : Prop := l ≠ [] ∧ ∀ c ∈ l, c ∉ crlf

/-- What the loop stores for `k` is the rest `x` of a line and the lines `ls` behind it,
and an empty line behind `k` ends the header. -/
structure Stored (k n x : Bytes) (ls : List Bytes) : Prop where
  first : ∀ c ∈ x, c ∉ crlf
  lines : ∀ l ∈ ls, IsLine l
  word : (∀ a t, k = a :: t → a ∉ lws) → x ≠ []
  loop : canonLoop k n = (n ++ linesText (x :: ls), false)
  ended : ∀ post, canonLoop (k ++ (crlf ++ post)) n = (n ++ crlf.intercalate (x :: ls), true)

section Stored
variable {k c n x : Bytes} {ls : List Bytes}

/-- A character is stored, and then the rest of the line. -/
theorem Stored.cons {a : UInt8} (ha : a ∉ crlf) (hk : canonLoop k n = canonLoop c (n ++ [a]))
    (hpost : ∀ post, canonLoop (k ++ (crlf ++ post)) n = canonLoop (c ++ (crlf ++ post)) (n ++ [a]))
    (h : Stored c (n ++ [a]) x ls) : Stored k n (a :: x) ls where
  first := List.forall_mem_cons.mpr ⟨ha, h.first⟩
  lines := h.lines
  word _ := List.cons_ne_nil a x
  loop := by
    rw [hk, h.loop]
    simp
  ended post := by
    rw [hpost, h.ended]
    cases ls <;> simp

theorem endsBlock_crlf {r : Bytes} (hne : r ≠ []) (hr : ∀ a ∈ r, a ∈ crlf) : endsBlock (r ++ crlf) := by
  obtain ⟨a, r, rfl⟩ := List.exists_cons_of_ne_nil hne
  rcases mem_crlf.mp (hr a (List.mem_cons_self ..)) with rfl | rfl <;> simp [endsBlock, crlf, ascii]

/-- Behind a part without line ends, a text still ends in the same way. -/
theorem getLast?_behind {b c : Bytes} (hb : ∀ a ∈ b, a ∉ crlf) (h : (b ++ c).getLast? = some 10) :
    c.getLast? = some 10 := by
  cases c with
  | nil =>
    rw [List.append_nil] at h
    exact absurd (by decide : (10 : UInt8) ∈ crlf) (hb 10 (List.mem_of_getLast? h))
  | cons d c => simpa using h

/-- A text that ends in a line end, and does not end the header, is stored as lines. -/
theorem canonLoop_lines (k : Bytes) :
    ∀ n, k.getLast? = some 10 → (canonLoop k n).2 = false → ∃ x ls, Stored k n x ls := by
  have hblank : ∀ {b : Bytes}, (∀ a ∈ b, a ∈ spht) → ∀ a ∈ b, a ∉ crlf :=
    fun hb a ha hc => crlf_notMem_spht hc (hb a ha)
  have hcrlf : ∀ (post : Bytes) (a : UInt8) (t : Bytes), crlf ++ post = a :: t → a ∉ spht :=
    fun post a t he => (List.cons.inj he).1 ▸ by decide
  induction k using text_induction with
  | nil => intro n h; exact absurd h (by simp)
  | word a c ha ih =>
    intro n hlast h
    have hcr : a ∉ crlf := fun hc => ha (mem_lws.mpr (.inr hc))
    rw [canonLoop_cons ha] at h
    obtain ⟨x, ls, hx⟩ := ih _ (getLast?_behind (b := [a]) (by simpa using hcr) hlast) h
    exact ⟨a :: x, ls, hx.cons hcr (canonLoop_cons ha c n) fun post => canonLoop_cons ha _ n⟩
  | blanks b c hne hb hc ih =>
    intro n hlast h
    rw [canonLoop_blanks hne hb hc] at h
    obtain ⟨x, ls, hx⟩ := ih _ (getLast?_behind (hblank hb) hlast) h
    refine ⟨32 :: x, ls, hx.cons (by decide) (canonLoop_blanks hne hb hc n) fun post => ?_⟩
    rw [List.append_assoc]
    exact canonLoop_blanks hne hb (head_append hc (hcrlf post)) n
  | fold r b c hne hr hbne hb hc ih =>
    intro n hlast h
    by_cases hend : endsBlock r
    · rw [canonLoop_ends hr hend] at h
      exact absurd h (by simp)
    · rw [canonLoop_fold hne hr hend hbne hb hc] at h
      have hlast' : (b ++ c).getLast? = some 10 := by
        obtain ⟨d, b, rfl⟩ := List.exists_cons_of_ne_nil hbne
        simpa [List.getLast?_append] using hlast
      obtain ⟨x, ls, hx⟩ := ih _ (getLast?_behind (hblank hb) hlast') h
      refine ⟨32 :: x, ls, hx.cons (by decide) (canonLoop_fold hne hr hend hbne hb hc n)
        fun post => ?_⟩
      rw [List.append_assoc, List.append_assoc]
      exact canonLoop_fold hne hr hend hbne hb (head_append hc (hcrlf post)) n
  | newline r c hne hr hc ih =>
    intro n hlast h
    by_cases hend : endsBlock r
    · rw [canonLoop_ends hr hend] at h
      exact absurd h (by simp)
    rw [canonLoop_newline hne hr hend hc] at h
    have hfirst : ¬ ∀ a t, r ++ c = a :: t → a ∉ lws := by
      obtain ⟨a, r, rfl⟩ := List.exists_cons_of_ne_nil hne
      exact fun hhead => hhead a (r ++ c) rfl (mem_lws.mpr (.inr (hr a (List.mem_cons_self ..))))
    cases c with
    | nil =>
      refine ⟨[], [], by simp, by simp, fun hh => absurd hh hfirst, ?_, fun post => ?_⟩
      · rw [canonLoop_newline hne hr hend hc, canonLoop_nil]
        simp
      · have hrun : ∀ a ∈ r ++ crlf, a ∈ crlf := fun a ha => (List.mem_append.mp ha).elim (hr a) id
        rw [List.append_nil, ← List.append_assoc, canonLoop_ends hrun (endsBlock_crlf hne hr)]
        simp
    | cons d c =>
      obtain ⟨x, ls, hx⟩ := ih _ (by simpa using hlast) h
      refine ⟨[], x :: ls, by simp, List.forall_mem_cons.mpr ⟨⟨hx.word hc, hx.first⟩, hx.lines⟩,
        fun hh => absurd hh hfirst, ?_, fun post => ?_⟩
      · rw [canonLoop_newline hne hr hend hc, hx.loop, linesText_cons [] (x :: ls)]
        simp
      · have hc' : ∀ a t, d :: c ++ (crlf ++ post) = a :: t → a ∉ lws := by
          intro a t he
          rw [List.cons_append] at he
          exact hc a c (by rw [(List.cons.inj he).1])
        rw [List.append_assoc, canonLoop_newline hne hr hend hc', hx.ended, List.intercalate_cons_cons]
        simp

end Stored

/-- What is stored for a text does not depend on what was stored before. -/
theorem canonLoop_behind (k : Bytes) :
    ∀ n, canonLoop k n = (n ++ (canonLoop k []).1, (canonLoop k []).2) := by
  -- with something stored in front of the rest
  have hstep : ∀ {c m : Bytes}, (∀ n, canonLoop c n = (n ++ (canonLoop c []).1, (canonLoop c []).2)) →
      ∀ n, canonLoop c (n ++ m) = (n ++ (canonLoop c m).1, (canonLoop c m).2) := by
    intro c m ih n
    rw [ih (n ++ m), ih m, List.append_assoc]
  induction k using text_induction with
  | nil => intro n; simp [canonLoop_nil]
  | word a c ha ih => intro n; rw [canonLoop_cons ha, canonLoop_cons ha, hstep ih]; rfl
  | blanks b c hne hb hc ih =>
    intro n
    rw [canonLoop_blanks hne hb hc, canonLoop_blanks hne hb hc, hstep ih]
    rfl
  | fold r b c hne hr hbne hb hc ih =>
    intro n
    by_cases hend : endsBlock r
    · simp [canonLoop_ends hr hend]
    · rw [canonLoop_fold hne hr hend hbne hb hc, canonLoop_fold hne hr hend hbne hb hc, hstep ih]
      rfl
  | newline r c hne hr hc ih =>
    intro n
    by_cases hend : endsBlock r
    · simp [canonLoop_ends hr hend]
    · rw [canonLoop_newline hne hr hend hc, canonLoop_newline hne hr hend hc, hstep ih]
      rfl

theorem linesText_inj {ls ls' : List Bytes} (h : ∀ l ∈ ls, ∀ c ∈ l, c ∉ crlf)
    (h' : ∀ l ∈ ls', ∀ c ∈ l, c ∉ crlf) (heq : linesText ls = linesText ls') : ls = ls' := by
  induction ls generalizing ls' with
  | nil =>
    cases ls' with
    | nil => rfl
    | cons l' ls' => exact absurd (congrArg List.length heq) (by simp [crlf, ascii])
  | cons l ls ih =>
    cases ls' with
    | nil => exact absurd (congrArg List.length heq) (by simp [crlf, ascii])
    | cons l' ls' =>
      obtain ⟨hl, hls⟩ := List.forall_mem_cons.mp h
      obtain ⟨hl', hls'⟩ := List.forall_mem_cons.mp h'
      have hword : ∀ (l : Bytes) (ls : List Bytes), (∀ c ∈ l, c ∉ crlf) →
          (linesText (l :: ls)).takeWhile (· ∉ crlf) = l := by
        intro l ls hl
        rw [linesText_cons]
        exact takeWhile_append_eq (by simpa using hl)
          fun c t he => by rw [← (List.cons.inj he).1]; decide
      have hfirst : l = l' := by rw [← hword l ls hl, heq, hword l' ls' hl']
      subst hfirst
      rw [linesText_cons, linesText_cons] at heq
      rw [ih hls hls' (List.append_cancel_left (List.append_cancel_left heq))]

/-! ## Text that is read as lines -/

/-- The text `m` starts with a word, ends in a line end, and is stored as the lines `ls`. -/
structure Reads (m : Bytes) (ls : List Bytes) : Prop where
  last : m.getLast? = some 10
  head : ∀ a t, m = a :: t → a ∉ lws
  lines : ∀ l ∈ ls, IsLine l
  loop : ∀ n, canonLoop m n = (n ++ linesText ls, false)

theorem reads_of_open {m : Bytes} (hlast : m.getLast? = some 10) (hhead : ∀ a t, m = a :: t → a ∉ lws)
    (hopen : (canonLoop m []).2 = false) : ∃ l ls, Reads m (l :: ls) := by
  obtain ⟨x, ls, hx⟩ := canonLoop_lines m [] hlast hopen
  refine ⟨x, ls, hlast, hhead, List.forall_mem_cons.mpr ⟨⟨hx.word hhead, hx.first⟩, hx.lines⟩,
    fun n => ?_⟩
  rw [canonLoop_behind, hx.loop]
  rfl

theorem isLine_headerLine {e : Param} (he : EntryOk .headers e) : IsLine (headerLine e) :=
  ⟨(headerLine_ok he).1.1.1, fun c hc hm => (headerLine_ok he).1.1.2 c hc (List.mem_append_left _ hm)⟩

theorem isLine_headerLines {es : List Param} (hes : ∀ e ∈ es, EntryOk .headers e) :
    ∀ l ∈ headerLines es, IsLine l := by
  intro l hl
  obtain ⟨e, he, rfl⟩ := List.mem_map.mp hl
  exact isLine_headerLine (hes e he)

theorem getLast?_linesText {ls : List Bytes} (hne : ls ≠ []) : (linesText ls).getLast? = some 10 := by
  obtain ⟨ls, l, rfl⟩ := (List.eq_nil_or_concat ls).resolve_left hne
  rw [List.concat_eq_append, linesText_append, linesText_cons, linesText_nil, List.append_nil,
    ← List.append_assoc, List.getLast?_append]
  rfl

/-- A line of a header, a run of line ends that starts a line, and lines behind it. -/
theorem Reads.behind {e : Param} (he : EntryOk .headers e) {r c : Bytes} {ls : List Bytes}
    (hne : r ≠ []) (hr : ∀ a ∈ r, a ∈ crlf) (hend : ¬ endsBlock r) (h : Reads c ls) :
    Reads (headerLine e ++ (r ++ c)) (headerLine e :: ls) where
  last := by
    rw [List.getLast?_append, List.getLast?_append, h.last]
    rfl
  head a t hat := headerLine_head he hat
  lines := List.forall_mem_cons.mpr ⟨isLine_headerLine he, h.lines⟩
  loop n := by
    have hstart : ∀ a t, r ++ c = a :: t → a ∈ crlf := by
      obtain ⟨a, r, rfl⟩ := List.exists_cons_of_ne_nil hne
      exact fun b t hbt => (List.cons.inj hbt).1 ▸ hr a (List.mem_cons_self ..)
    rw [canonLoop_headerLine he hstart, canonLoop_newline hne hr hend h.head, h.loop, linesText_cons]
    simp

/-- Text among header lines: the block is the lines in front, those of the text, and
those behind it. -/
theorem Reads.block {m : Bytes} {l : Bytes} {ls : List Bytes} (h : Reads m (l :: ls))
    {es es' : List Param} (hes : ∀ e ∈ es, EntryOk .headers e) (hes' : ∀ e ∈ es', EntryOk .headers e)
    (post : Bytes) :
    canonLoop (linesText (headerLines es) ++ (m ++ (entryText .headers es' ++ post))) [] =
      (crlf.intercalate (headerLines es ++ (l :: ls ++ headerLines es')), true) := by
  have hhead' : ∀ a t, linesText (headerLines es') = a :: t → a ∉ lws := by
    intro a t hat
    cases es' with
    | nil => exact absurd hat (by simp)
    | cons e es' =>
      rw [headerLines_cons, linesText_cons] at hat
      exact headerLine_head (List.forall_mem_cons.mp hes').1 hat
  have hmne : m ≠ [] := by
    intro heq
    subst heq
    exact absurd h.last (by simp)
  have hhead : ∀ a t, m ++ linesText (headerLines es') = a :: t → a ∉ lws := by
    obtain ⟨b, m, rfl⟩ := List.exists_cons_of_ne_nil hmne
    exact fun a t hat => h.head a m (by rw [(List.cons.inj hat).1])
  -- the lines stored up to the empty line
  have hloop : canonLoop (linesText (headerLines es) ++ (m ++ linesText (headerLines es'))) [] =
      ([] ++ linesText (headerLines es ++ (l :: ls ++ headerLines es')), false) := by
    rw [canonLoop_entries hes hhead, canonLoop_append hhead', h.loop]
    have hend := canonLoop_entries hes' (z := []) (by simp)
      (linesText (headerLines es) ++ linesText (l :: ls))
    rw [List.append_nil, canonLoop_nil] at hend
    simp only [List.nil_append, Bool.false_eq_true, if_false, hend]
    simp
  have hlast : (linesText (headerLines es) ++ (m ++ linesText (headerLines es'))).getLast? =
      some 10 := by
    rw [List.getLast?_append, List.getLast?_append, h.last]
    cases hes'' : headerLines es' with
    | nil => rfl
    | cons l' ls' => rw [getLast?_linesText (by simp)]; rfl
  obtain ⟨x, xs, hx⟩ := canonLoop_lines _ [] hlast (by rw [hloop])
  have hfree : ∀ l ∈ x :: xs, ∀ c ∈ l, c ∉ crlf :=
    List.forall_mem_cons.mpr ⟨hx.first, fun l hl => (hx.lines l hl).2⟩
  have hall : ∀ y ∈ headerLines es ++ (l :: ls ++ headerLines es'), ∀ c ∈ y, c ∉ crlf := by
    intro y hy
    rw [List.mem_append, List.mem_append] at hy
    rcases hy with hy | hy | hy
    · exact (isLine_headerLines hes y hy).2
    · exact (h.lines y hy).2
    · exact (isLine_headerLines hes' y hy).2
  have heq : x :: xs = headerLines es ++ (l :: ls ++ headerLines es') := by
    apply linesText_inj hfree hall
    have hloop' := hx.loop.symm.trans hloop
    simpa using congrArg Prod.fst hloop'
  have hended := hx.ended post
  rw [heq] at hended
  rw [entryText_headers, List.append_assoc]
  simpa using hended

end Sighttpd.L1
