import Sighttpd.L1Data.HeaderInsert

/-!
# Header blocks over stale bytes

`http_response` moves what it has of a header block to the front of its array and reads
the rest behind the place where the text ended before the move. Between the two stand
the last bytes of the old text, as many as the request line had.

* `shown`: what the array holds when `d` bytes of the block have been moved.
* `linesText_cut`: where a cut among header lines lies.
* `shown_differs`: when the block is cut, other parameters are read, unless the cut is
  in its last four bytes and the text ends the header before the rest has come.
-/
namespace Sighttpd.L1
open Sighttpd.CString

/-- The text `x` is read as a header, but not as one with the entries `es`. -/
def Differs (x : Bytes) (es : List Param) : Prop :=
  ∃ text, canonLoop x [] = (text, true) ∧ ∃ k, weight k (headerItems text) ≠ weight k es

/-- The text `x` ends the header with the entries `es`, whatever is behind it. -/
def Ends (x : Bytes) (es : List Param) : Prop :=
  ∀ post, canonLoop (x ++ post) [] = (crlf.intercalate (headerLines es), true)

/-- The first `d` bytes of the block, and behind them what was there before. -/
def shown (line block : Bytes) (d : Nat) : Bytes :=
  block.take d ++ (line ++ (crlf ++ block.take d)).drop d

theorem shown_append {line block : Bytes} {d : Nat} (hd : d ≤ block.length) :
    shown line block d ++ block.drop d = block.take d ++ (line ++ (crlf ++ block)).drop d := by
  have hsplit : line ++ (crlf ++ block) = line ++ (crlf ++ block.take d) ++ block.drop d := by simp
  rw [hsplit, List.drop_append_of_le_length, shown, List.append_assoc]
  simp only [List.length_append, List.length_take_of_le hd]
  omega

/-! ## Cuts -/

theorem line_cut {w j h : Bytes} (hcut : w ++ crlf = j ++ h) (hne : h ≠ []) :
    (∃ g, w = j ++ g ∧ h = g ++ crlf) ∨ (j = w ++ [13] ∧ h = [10]) := by
  rcases List.append_eq_append_iff.mp hcut with ⟨k, rfl, hk⟩ | ⟨g, rfl, hg⟩
  · rcases k with _ | ⟨a, _ | ⟨b, k⟩⟩
    · exact .inl ⟨[], by simp, by simpa using hk.symm⟩
    · obtain ⟨rfl, rfl⟩ : 13 = a ∧ [10] = h := by simpa [crlf, ascii] using hk
      exact .inr ⟨rfl, rfl⟩
    · obtain ⟨-, -, -, hnil⟩ : 13 = a ∧ 10 = b ∧ k = [] ∧ h = [] := by simpa [crlf, ascii] using hk
      exact absurd hnil hne
  · exact .inl ⟨g, rfl, hg⟩

/-- A cut among header lines is a cut of one of them, with its line end. -/
theorem linesText_cut {es : List Param} {d : Nat} (hd : d < (linesText (headerLines es)).length) :
    ∃ es1 e es2 j h, es = es1 ++ e :: es2 ∧ headerLine e ++ crlf = j ++ h ∧ h ≠ [] ∧
      (linesText (headerLines es)).take d = linesText (headerLines es1) ++ j ∧
      (linesText (headerLines es)).drop d = h ++ linesText (headerLines es2) := by
  induction es generalizing d with
  | nil => exact absurd hd (by simp)
  | cons e es ih =>
    rw [headerLines_cons, linesText_cons, ← List.append_assoc] at hd ⊢
    by_cases hlt : d < (headerLine e ++ crlf).length
    · refine ⟨[], e, es, (headerLine e ++ crlf).take d, (headerLine e ++ crlf).drop d, rfl,
        (List.take_append_drop ..).symm, ?_, ?_, ?_⟩
      · rw [← List.length_pos_iff, List.length_drop]
        omega
      · rw [List.take_append_of_le_length (by omega)]
        rfl
      · rw [List.drop_append_of_le_length (by omega)]
    · rw [List.length_append] at hd
      obtain ⟨es1, e', es2, j, h, rfl, hcut, hne, htake, hdrop⟩ :=
        ih (d := d - (headerLine e ++ crlf).length) (by omega)
      refine ⟨e :: es1, e', es2, j, h, rfl, hcut, hne, ?_, ?_⟩
      · rw [List.take_append, htake, List.take_of_length_le (by omega)]
        simp
      · rw [List.drop_append, hdrop, List.drop_of_length_le (by omega)]
        rfl

/-- Behind the cut of a line without a value there is at most its blank. -/
theorem value_of_cut {e : Param} (he : EntryOk .headers e) {u g : Bytes} (hline : headerLine e = u ++ g)
    (hblank : ∃ c t, g = c :: t ∧ c ∈ spht) (hlen : 2 ≤ g.length) : e.value ≠ [] := by
  intro hv
  obtain ⟨c, t, rfl, hc⟩ := hblank
  have hkey : e.key ++ [58] ++ [32] = u ++ c :: t := by
    rw [← hline, headerLine, hv]
    simp [ascii]
  have hfree : ∀ a ∈ e.key ++ [58], a ∉ spht := by
    intro a ha hm
    rcases List.mem_append.mp ha with ha | ha
    · exact (key_free he a ha).2 (mem_lws.mpr (.inl hm))
    · rw [List.mem_singleton.mp ha] at hm
      exact absurd hm (by decide)
  rcases List.append_eq_append_iff.mp hkey with ⟨k, -, h⟩ | ⟨k, hk, h⟩
  · have := congrArg List.length h
    simp only [List.length_append, List.length_cons, List.length_nil] at this hlen
    omega
  · cases k with
    | nil =>
      have := congrArg List.length h
      simp only [List.nil_append, List.length_cons, List.length_nil] at this hlen
      omega
    | cons a k =>
      rw [List.cons_append] at h
      exact hfree a (by rw [hk]; simp) ((List.cons.inj h).1 ▸ hc)

/-! ## Text among header lines -/

section Differs
variable {es es2 es' : List Param}

/-- Lines that are there on top of those of the header, or longer. -/
theorem Reads.differs {m l : Bytes} {ls : List Bytes} (h : Reads m (l :: ls)) {hs : List Param}
    (hes : ∀ e ∈ es, EntryOk .headers e) (hes' : ∀ e ∈ es', EntryOk .headers e) {k : Bytes}
    (hk : weight k hs ≠ weight k (es ++ (lineItems (l :: ls) ++ es'))) :
    Differs (linesText (headerLines es) ++ (m ++ entryText .headers es')) hs := by
  have hblock := h.block hes hes' []
  rw [List.append_nil] at hblock
  refine ⟨_, hblock, k, ?_⟩
  have hlines : ∀ y ∈ headerLines es ++ (l :: ls ++ headerLines es'), IsLine y := by
    intro y hy
    rw [List.mem_append, List.mem_append] at hy
    rcases hy with hy | hy | hy
    · exact isLine_headerLines hes y hy
    · exact h.lines y hy
    · exact isLine_headerLines hes' y hy
  rw [headerItems_intercalate hlines, lineItems_append, lineItems_append, lineItems_headerLines hes,
    lineItems_headerLines hes']
  exact hk.symm

/-- A text that starts with a word, with one line end. -/
theorem open_differs {m : Bytes} (hlast : m.getLast? = some 10) (hhead : ∀ a t, m = a :: t → a ∉ lws)
    (h13 : m.count 13 ≤ 1) (h10 : m.count 10 ≤ 1) (hes : ∀ e ∈ es, EntryOk .headers e)
    (hes2 : ∀ e ∈ es2, EntryOk .headers e) (hes' : ∀ e ∈ es', EntryOk .headers e) :
    Differs (linesText (headerLines es) ++ (m ++ entryText .headers (es2 ++ es'))) (es ++ es') := by
  obtain ⟨l, ls, hl⟩ := reads_of_open hlast hhead (canonLoop_open m [] h13 h10)
  refine hl.differs hes (List.forall_mem_append.mpr ⟨hes2, hes'⟩)
    (k := lower (splitItem (ascii ": ") l).key) ?_
  have := weight_self_pos (splitItem (ascii ": ") l) (lineItems ls)
  simp only [lineItems_cons, weight_append]
  omega

/-- Text behind a line and a line end. -/
theorem continued_differs {e : Param} (he : EntryOk .headers e) {r w : Bytes} (hne : r ≠ [])
    (hr : ∀ a ∈ r, a ∈ crlf) (hend : ¬ endsBlock r) (hw : w ≠ []) (hfree : ∀ c ∈ w, c ∉ crlf)
    (hmore : es2 ≠ [] ∨ ∀ c t, w = c :: t → c ∈ spht → e.value ≠ [])
    (hes : ∀ e ∈ es, EntryOk .headers e) (hes2 : ∀ e ∈ es2, EntryOk .headers e)
    (hes' : ∀ e ∈ es', EntryOk .headers e) :
    Differs (linesText (headerLines es) ++
      (headerLine e ++ (r ++ (w ++ crlf)) ++ entryText .headers (es2 ++ es'))) (es ++ e :: es') := by
  obtain ⟨l, ls, hl, hle, hlt⟩ := reads_continued he hne hr hend hw hfree
  have hes2' := List.forall_mem_append.mpr ⟨hes2, hes'⟩
  rcases hmore with hmore | hmore
  · obtain ⟨e2, es2, rfl⟩ := List.exists_cons_of_ne_nil hmore
    apply hl.differs hes hes2' (k := lower e2.key)
    have := weight_self_pos e2 es2
    have := hle (lower e2.key)
    rw [← List.singleton_append (x := e) (l := es')]
    simp only [weight_append]
    omega
  · obtain ⟨k, hk⟩ := hlt hmore
    apply hl.differs hes hes2' (k := k)
    rw [← List.singleton_append (l := es')]
    simp only [weight_append]
    omega

/-- The header ends too early, or when all its lines are there. -/
theorem ended_differs {e : Param} (hes : ∀ x ∈ es ++ e :: es', EntryOk .headers x) {r x post : Bytes}
    (hr : ∀ a ∈ r, a ∈ crlf) (hend : endsBlock r)
    (hx : x = linesText (headerLines es) ++ (headerLine e ++ (r ++ post))) :
    (es' = [] ∧ Ends x (es ++ e :: es')) ∨
      ∀ post, Differs (x ++ post) (es ++ e :: es') := by
  have hsplit : es ++ e :: es' = (es ++ [e]) ++ es' := by simp
  rw [hsplit] at hes ⊢
  have hes1 := (List.forall_mem_append.mp hes).1
  have hloop : Ends x (es ++ [e]) := by
    intro post'
    have h := canonLoop_entriesEnd hes1 hr hend (post ++ post') []
    rw [hx]
    simpa using h
  cases es' with
  | nil => exact .inl ⟨rfl, by simpa using hloop⟩
  | cons e' es' =>
    refine .inr fun post' => ⟨_, hloop post', lower e'.key, ?_⟩
    rw [headerItems_intercalate (isLine_headerLines hes1), lineItems_headerLines hes1,
      weight_append _ (e' :: es')]
    have := weight_self_pos e' es'
    omega

end Differs

/-! ## The stale bytes -/

section Stale
variable {line h : Bytes} {es es2 es' : List Param} {e : Param}

/-- What is left of a line: its line end or a part of that, behind some of the line. -/
inductive LineRest : Bytes → Prop
  | lf : LineRest [10]
  | rest (g : Bytes) (hg : ∀ c ∈ g, c ∉ crlf) : LineRest (g ++ crlf)

theorem lineRest_of_cut {w j : Bytes} (hw : ∀ c ∈ w, c ∉ crlf) (hcut : w ++ crlf = j ++ h)
    (hne : h ≠ []) : LineRest h := by
  rcases line_cut hcut hne with ⟨g, rfl, rfl⟩ | ⟨-, rfl⟩
  · exact .rest g fun c hc => hw c (List.mem_append_right _ hc)
  · exact .lf

theorem LineRest.getLast? (h' : LineRest h) : h.getLast? = some 10 := by
  cases h' with
  | lf => rfl
  | rest g => rw [List.getLast?_append]; rfl

theorem LineRest.count_lf (h' : LineRest h) : h.count 10 ≤ 1 := by
  cases h' with
  | lf => decide
  | rest g hg =>
    rw [List.count_append, (count_free hg).2]
    decide

theorem LineRest.count_cr (h' : LineRest h) : h.count 13 ≤ 1 := by
  cases h' with
  | lf => decide
  | rest g hg =>
    rw [List.count_append, (count_free hg).1]
    decide

/-- The bytes behind `d` of a request line and header lines. The last line that was cut
is said to be one of the block, where no line follows it. -/
theorem stale_cut (hline : ∀ c ∈ line, c ∉ crlf) (hes : ∀ x ∈ es, EntryOk .headers x) {d : Nat}
    (hd : d < (line ++ (crlf ++ linesText (headerLines es))).length) :
    ∃ h es2, (line ++ (crlf ++ linesText (headerLines es))).drop d = h ++ linesText (headerLines es2) ∧
      LineRest h ∧ (∀ x ∈ es2, EntryOk .headers x) ∧
      (es2 ≠ [] ∨ es = [] ∨ ∃ es1 e u, es = es1 ++ [e] ∧ headerLine e ++ crlf = u ++ h) := by
  rw [← List.append_assoc] at hd ⊢
  by_cases hlt : d < (line ++ crlf).length
  · refine ⟨(line ++ crlf).drop d, es, ?_, ?_, hes, ?_⟩
    · rw [List.drop_append_of_le_length (by omega)]
    · apply lineRest_of_cut hline (List.take_append_drop d _).symm
      rw [← List.length_pos_iff, List.length_drop]
      omega
    · by_cases hnil : es = []
      · exact .inr (.inl hnil)
      · exact .inl hnil
  · rw [List.length_append] at hd
    have hd' : d - (line ++ crlf).length < (linesText (headerLines es)).length := by omega
    obtain ⟨es1, e, es2, j, h, rfl, hcut, hne, -, hdrop⟩ := linesText_cut hd'
    obtain ⟨-, hes'⟩ := List.forall_mem_append.mp hes
    obtain ⟨he, hes2⟩ := List.forall_mem_cons.mp hes'
    refine ⟨h, es2, ?_, lineRest_of_cut (isLine_headerLine he).2 hcut hne, hes2, ?_⟩
    · rw [List.drop_append, List.drop_of_length_le (by omega), hdrop]
      rfl
    · by_cases hnil : es2 = []
      · exact .inr (.inr ⟨es1, e, j, by rw [hnil], hcut⟩)
      · exact .inl hnil

/-- The block is cut between two lines. -/
theorem between_differs (hes : ∀ x ∈ es ++ e :: es', EntryOk .headers x)
    (hes2 : ∀ x ∈ es2, EntryOk .headers x) (hrest : LineRest h)
    (hmore : es2 ≠ [] ∨ (4 ≤ h.length ∧ ∃ u, headerLine e ++ crlf = u ++ h)) {x : Bytes}
    (hx : x = linesText (headerLines (es ++ [e])) ++ (h ++ linesText (headerLines es2))) :
    (es' = [] ∧ Ends x (es ++ e :: es')) ∨
      Differs (x ++ entryText .headers es') (es ++ e :: es') := by
  obtain ⟨hes1, hee⟩ := List.forall_mem_append.mp hes
  obtain ⟨he, hes'⟩ := List.forall_mem_cons.mp hee
  have hended : ∀ {r : Bytes}, (∀ a ∈ r, a ∈ crlf) → endsBlock (crlf ++ r) →
      x = linesText (headerLines es) ++ (headerLine e ++ (crlf ++ r ++ linesText (headerLines es2))) →
      (es' = [] ∧ Ends x (es ++ e :: es')) ∨
        Differs (x ++ entryText .headers es') (es ++ e :: es') := by
    intro r hr hend hx
    have hrun : ∀ a ∈ crlf ++ r, a ∈ crlf := fun a ha => (List.mem_append.mp ha).elim id (hr a)
    exact (ended_differs hes hrun hend hx).imp id fun hd => hd _
  cases hrest with
  | lf => exact hended (r := [10]) (by decide) (by decide) (by simp [hx])
  | rest g hg =>
    cases g with
    | nil => exact hended (r := crlf) (by decide) (by decide) (by simp [hx])
    | cons c g =>
      right
      have hcr := hg c (List.mem_cons_self ..)
      by_cases hc : c ∈ spht
      · -- the last line goes on
        have htext : x ++ entryText .headers es' = linesText (headerLines es) ++
            (headerLine e ++ (crlf ++ (c :: g ++ crlf)) ++ entryText .headers (es2 ++ es')) := by
          simp [hx, entryText_headers]
        rw [htext]
        refine continued_differs he (by decide) (by decide) (by decide) (List.cons_ne_nil c g) hg
          (hmore.imp id ?_) hes1 hes2 hes'
        rintro ⟨hlen, u, hu⟩ - - - -
        rw [← List.append_assoc] at hu
        rw [List.length_append, show crlf.length = 2 from rfl] at hlen
        exact value_of_cut he (List.append_cancel_right hu) ⟨c, g, rfl, hc⟩ (by omega)
      · have htext : x ++ entryText .headers es' = linesText (headerLines (es ++ [e])) ++
            (c :: g ++ crlf ++ entryText .headers (es2 ++ es')) := by
          simp [hx, entryText_headers]
        have hhead : ∀ a t, c :: g ++ crlf = a :: t → a ∉ lws :=
          fun a t h => (List.cons.inj h).1 ▸ fun hl => (mem_lws.mp hl).elim hc hcr
        have hrest := LineRest.rest _ hg
        rw [htext, List.append_cons es e es']
        exact open_differs hrest.getLast? hhead hrest.count_cr hrest.count_lf
          (List.forall_mem_append.mpr ⟨hes1, by simpa using he⟩) hes2 hes'

/-- The block is cut in a line, and all of its part comes back behind the stale bytes. -/
theorem within_differs (hes : ∀ x ∈ es ++ e :: es', EntryOk .headers x)
    (hes2 : ∀ x ∈ es2, EntryOk .headers x) (hrest : LineRest h) {j z : Bytes} (hj : j ≠ [])
    (hz : z ≠ []) (hcut : headerLine e ++ crlf = j ++ z)
    {x : Bytes} (hx : x = linesText (headerLines es) ++ (j ++ (h ++ linesText (headerLines es2) ++ j))) :
    (es' = [] ∧ z.length = 1 ∧
        Ends x (es ++ e :: es')) ∨
      Differs (x ++ (z ++ entryText .headers es')) (es ++ e :: es') := by
  obtain ⟨hes1, hee⟩ := List.forall_mem_append.mp hes
  obtain ⟨he, hes'⟩ := List.forall_mem_cons.mp hee
  -- the line is there as a whole behind the stale bytes
  have htext : x ++ (z ++ entryText .headers es') =
      linesText (headerLines es) ++ (j ++ h ++ entryText .headers (es2 ++ e :: es')) := by
    have hline : j ++ (z ++ entryText .headers es') =
        headerLine e ++ (crlf ++ entryText .headers es') := by
      rw [← List.append_assoc, ← hcut, List.append_assoc]
    simp only [hx, List.append_assoc, hline]
    simp [entryText_headers]
  have hopen : (j ++ h).count 13 ≤ 1 → (j ++ h).count 10 ≤ 1 →
      Differs (x ++ (z ++ entryText .headers es')) (es ++ e :: es') := by
    intro h13 h10
    have hlast : (j ++ h).getLast? = some 10 := by rw [List.getLast?_append, hrest.getLast?]; rfl
    have hhead : ∀ a t, j ++ h = a :: t → a ∉ lws := by
      obtain ⟨b, j, rfl⟩ := List.exists_cons_of_ne_nil hj
      exact fun a t hat => (List.cons.inj hat).1 ▸ headerLine_head he hcut
    rw [htext]
    exact open_differs hlast hhead h13 h10 hes1 hes2 hee
  rcases line_cut hcut hz with ⟨g, hg, -⟩ | ⟨rfl, rfl⟩
  · -- no line end in the part
    have hfree : ∀ c ∈ j, c ∉ crlf := fun c hc =>
      (isLine_headerLine he).2 c (by rw [hg]; exact List.mem_append_left _ hc)
    obtain ⟨h13, h10⟩ := count_free hfree
    exact .inr (hopen (by rw [List.count_append, h13, Nat.zero_add]; exact hrest.count_cr)
      (by rw [List.count_append, h10, Nat.zero_add]; exact hrest.count_lf))
  · cases hrest with
    | lf =>
      obtain ⟨h13, h10⟩ := count_free (isLine_headerLine he).2
      refine .inr (hopen ?_ ?_)
      · rw [List.count_append, List.count_append, h13]
        decide
      · rw [List.count_append, List.count_append, h10]
        decide
    | rest g hg =>
      by_cases hnil : g = []
      · -- two CRs
        subst hnil
        have hx' : x = linesText (headerLines es) ++ (headerLine e ++
            ([13, 13, 10] ++ (linesText (headerLines es2) ++ (headerLine e ++ [13])))) := by
          simp [hx, crlf, ascii]
        rcases ended_differs hes (r := [13, 13, 10]) (by decide) (by decide) hx'
          with ⟨hnil, hall⟩ | hdiff
        · exact .inl ⟨hnil, rfl, hall⟩
        · exact .inr (hdiff _)
      · have htext' : headerLine e ++ [13] ++ (g ++ crlf) =
            headerLine e ++ ([13] ++ (g ++ crlf)) := by simp
        rw [htext, htext', List.append_cons es2 e es']
        exact .inr (continued_differs he (by decide) (by decide) (by decide) hnil hg (.inl (by simp))
          hes1 (List.forall_mem_append.mpr ⟨hes2, by simpa using he⟩) hes')

/-- The block is cut in a line so far behind its start that only bytes of this line come
back. -/
theorem inside_differs (hes : ∀ x ∈ es ++ e :: es', EntryOk .headers x) {u y z : Bytes}
    (hy : 4 ≤ y.length) (hz : z ≠ []) (hcut : headerLine e ++ crlf = u ++ y ++ z) :
    Differs (linesText (headerLines es) ++ (u ++ y ++ y) ++ (z ++ entryText .headers es'))
      (es ++ e :: es') := by
  obtain ⟨hes1, hee⟩ := List.forall_mem_append.mp hes
  obtain ⟨he, hes'⟩ := List.forall_mem_cons.mp hee
  rcases line_cut hcut hz with ⟨g, hg, rfl⟩ | ⟨hcr, rfl⟩
  · rw [List.append_assoc] at hg
    obtain ⟨l, hl, k, hk⟩ := reads_doubled he hg hy
    have htext : linesText (headerLines es) ++ (u ++ y ++ y) ++ (g ++ crlf ++ entryText .headers es') =
        linesText (headerLines es) ++ (u ++ (y ++ (y ++ g)) ++ crlf ++ entryText .headers es') := by simp
    rw [htext]
    apply hl.differs hes1 hes' (k := k)
    rw [← List.singleton_append (x := e) (l := es')]
    simp only [weight_append]
    omega
  · -- the CR comes back, too
    obtain ⟨w, c, rfl⟩ := (List.eq_nil_or_concat y).resolve_left (List.length_pos_iff.mp (by omega))
    rw [List.concat_eq_append] at *
    rw [← List.append_assoc] at hcr
    obtain ⟨hline, hc⟩ := List.append_inj' hcr rfl
    obtain rfl := List.singleton_inj.mp hc
    have hlen : 3 ≤ w.length := by
      rw [List.length_append, List.length_singleton] at hy
      omega
    have hfree : ∀ a ∈ w, a ∉ crlf := fun a ha =>
      (isLine_headerLine he).2 a (by rw [← hline]; exact List.mem_append_right _ ha)
    have htext : linesText (headerLines es) ++ (u ++ (w ++ [13]) ++ (w ++ [13])) ++
        ([10] ++ entryText .headers es') =
        linesText (headerLines es) ++
          (headerLine e ++ ([13] ++ (w ++ crlf)) ++ entryText .headers ([] ++ es')) := by
      rw [← hline]
      simp [crlf, ascii]
    rw [htext]
    have hwne : w ≠ [] := List.length_pos_iff.mp (by omega)
    exact continued_differs he (by decide) (by decide) (by decide) hwne hfree
      (.inr fun c t hw hc => value_of_cut he hline.symm ⟨c, t, hw, hc⟩ (by omega)) hes1 (by simp) hes'

/-- What stands behind the part of a block, where the part of its last line is short. -/
theorem shown_stale (hline : ∀ c ∈ line, c ∉ crlf) (hes : ∀ x ∈ es, EntryOk .headers x) {block j : Bytes}
    {d : Nat} (hd : d ≤ block.length) (htake : block.take d = linesText (headerLines es) ++ j)
    (hj : j.length < line.length + 2) :
    ∃ h es2, shown line block d =
        linesText (headerLines es) ++ (j ++ (h ++ linesText (headerLines es2) ++ j)) ∧
      LineRest h ∧ (∀ x ∈ es2, EntryOk .headers x) ∧
      (h ++ linesText (headerLines es2)).length + j.length = line.length + 2 ∧
      (es2 ≠ [] ∨ es = [] ∨ ∃ es1 e u, es = es1 ++ [e] ∧ headerLine e ++ crlf = u ++ h) := by
  have h2 : crlf.length = 2 := rfl
  have hlen : (line ++ (crlf ++ linesText (headerLines es))).length =
      line.length + 2 + (linesText (headerLines es)).length := by
    simp only [List.length_append, h2]
    omega
  have hdlen : d = (linesText (headerLines es)).length + j.length := by
    rw [← List.length_append, ← htake, List.length_take_of_le hd]
  obtain ⟨h, es2, hdrop, hrest, hes2, hmore⟩ := stale_cut hline hes (d := d) (by omega)
  refine ⟨h, es2, ?_, hrest, hes2, ?_, hmore⟩
  · have hsplit : line ++ (crlf ++ (linesText (headerLines es) ++ j)) =
        line ++ (crlf ++ linesText (headerLines es)) ++ j := by simp
    rw [shown, htake, hsplit, List.drop_append_of_le_length (by omega), hdrop, List.append_assoc]
  · rw [← hdrop, List.length_drop, hlen]
    omega

theorem shown_between (hline : ∀ c ∈ line, c ∉ crlf) (hlen : 2 ≤ line.length)
    (hes : ∀ x ∈ es ++ e :: es', EntryOk .headers x) {block : Bytes} {d : Nat}
    (htake : block.take d = linesText (headerLines (es ++ [e])))
    (hdrop : block.drop d = entryText .headers es') :
    (es' = [] ∧ Ends (shown line block d) (es ++ e :: es')) ∨
      Differs (shown line block d ++ block.drop d) (es ++ e :: es') := by
  have hes1 : ∀ x ∈ es ++ [e], EntryOk .headers x := fun x hx => hes x (by
    rw [List.mem_append, List.mem_singleton] at hx
    rw [List.mem_append, List.mem_cons]
    exact hx.imp id .inl)
  have hd : d ≤ block.length := by
    refine Nat.le_of_not_lt fun hlt => ?_
    have hnil := List.drop_of_length_le (Nat.le_of_lt hlt)
    rw [hdrop, entryText_headers] at hnil
    exact absurd hnil (by simp [crlf, ascii])
  obtain ⟨h, es2, hx, hrest, hes2, hsize, hmore⟩ :=
    shown_stale hline hes1 (j := []) hd (by simpa using htake) (by simp)
  rw [hdrop]
  refine between_differs hes hes2 hrest ?_ (by simpa using hx)
  by_cases hnil : es2 = []
  · refine .inr ⟨?_, ?_⟩
    · rw [hnil] at hsize
      simp only [headerLines_nil, linesText_nil, List.append_nil, List.length_nil] at hsize
      omega
    · rcases hmore with hmore | hmore | ⟨es1, e1, u, heq, hu⟩
      · exact absurd hnil hmore
      · exact absurd hmore (by simp)
      · obtain ⟨-, he⟩ := List.append_inj' heq rfl
        obtain rfl := List.singleton_inj.mp he
        exact ⟨u, hu⟩
  · exact .inl hnil

/-- The cut is in a line, behind some of it. -/
theorem shown_within (hline : ∀ c ∈ line, c ∉ crlf) (hlen : 2 ≤ line.length)
    (hhs : ∀ x ∈ es ++ e :: es', EntryOk .headers x) {block j z : Bytes} {d : Nat}
    (hj : j ≠ []) (hz : z ≠ []) (hcut : headerLine e ++ crlf = j ++ z)
    (htake : block.take d = linesText (headerLines es) ++ j)
    (hdrop : block.drop d = z ++ entryText .headers es') :
    (es' = [] ∧ z.length = 1 ∧ Ends (shown line block d) (es ++ e :: es')) ∨
      Differs (shown line block d ++ block.drop d) (es ++ e :: es') := by
  have h2 : crlf.length = 2 := rfl
  have hd : d ≤ block.length := by
    have hpos := List.length_pos_iff.mpr hz
    have hsize := congrArg List.length hdrop
    rw [List.length_drop, List.length_append] at hsize
    omega
  rw [hdrop]
  by_cases hshort : j.length < line.length + 2
  · obtain ⟨h, es2, hx, hrest, hes2, -, -⟩ :=
      shown_stale hline (List.forall_mem_append.mp hhs).1 hd htake hshort
    exact within_differs hhs hes2 hrest hj hz hcut hx
  · -- only bytes of the line that is cut are behind its part
    obtain ⟨u, y, rfl, hy⟩ : ∃ u y, j = u ++ y ∧ y.length = line.length + 2 :=
      ⟨j.take (j.length - (line.length + 2)), j.drop (j.length - (line.length + 2)),
        (List.take_append_drop ..).symm, by rw [List.length_drop]; omega⟩
    have hdlen : d = (linesText (headerLines es)).length + (u ++ y).length := by
      rw [← List.length_append, ← htake, List.length_take_of_le hd]
    have hstale : (line ++ (crlf ++ (linesText (headerLines es) ++ (u ++ y)))).drop d = y := by
      have hsplit : line ++ (crlf ++ (linesText (headerLines es) ++ (u ++ y))) =
          line ++ (crlf ++ (linesText (headerLines es) ++ u)) ++ y := by simp
      rw [hsplit]
      apply List.drop_left'
      simp only [List.length_append, h2] at hdlen ⊢
      omega
    have hshown : shown line block d = linesText (headerLines es) ++ (u ++ y ++ y) := by
      rw [shown, htake, hstale, List.append_assoc]
    rw [hshown]
    exact .inr (inside_differs hhs (by omega) hz hcut)

/-- All lines are there, and the first byte of the empty line may be. -/
theorem shown_last (hline : ∀ c ∈ line, c ∉ crlf) (hlen : 2 ≤ line.length)
    (hhs : ∀ x ∈ es ++ [e], EntryOk .headers x) {d : Nat}
    (hd : d = (linesText (headerLines (es ++ [e]))).length ∨
      d = (linesText (headerLines (es ++ [e]))).length + 1) :
    Ends (shown line (entryText .headers (es ++ [e])) d) (es ++ [e]) ∨
      Differs (shown line (entryText .headers (es ++ [e])) d ++ (entryText .headers (es ++ [e])).drop d)
        (es ++ [e]) := by
  rcases hd with heq | heq
  · have htake : (entryText .headers (es ++ [e])).take d = linesText (headerLines (es ++ [e])) := by
      rw [entryText_headers, heq, List.take_left]
    have hdrop : (entryText .headers (es ++ [e])).drop d = entryText .headers [] := by
      rw [entryText_headers, heq, List.drop_left]
      rfl
    exact (shown_between hline hlen hhs htake hdrop).imp And.right id
  · -- two CRs
    refine .inl fun post => ?_
    have htake : (entryText .headers (es ++ [e])).take d =
        linesText (headerLines es) ++ (headerLine e ++ [13, 10, 13]) := by
      rw [entryText_headers, heq, List.take_length_add_append]
      simp [crlf, ascii]
    have hend := canonLoop_entriesEnd hhs (r := [13, 10, 13]) (by decide) (by decide)
      ((line ++ (crlf ++ (entryText .headers (es ++ [e])).take d)).drop d ++ post) []
    rw [shown]
    simp only [htake] at hend ⊢
    simpa using hend

/-- Nothing of the block has been moved: the request line is read as a header line. -/
theorem shown_none (hline : ∀ c ∈ line, c ∉ crlf) (hhead : ∀ c t, line = c :: t → c ∉ lws)
    (hlen : 2 ≤ line.length) {hs : List Param} (hhs : ∀ e ∈ hs, EntryOk .headers e) :
    Differs (shown line (entryText .headers hs) 0 ++ entryText .headers hs) hs := by
  have hword : ∀ a t, line ++ crlf = a :: t → a ∉ lws := by
    have hne : line ≠ [] := List.length_pos_iff.mp (by omega)
    obtain ⟨c, l, rfl⟩ := List.exists_cons_of_ne_nil hne
    exact fun a t hat => hhead a l (by rw [(List.cons.inj hat).1])
  have htext : shown line (entryText .headers hs) 0 ++ entryText .headers hs =
      linesText (headerLines []) ++ (line ++ crlf ++ entryText .headers ([] ++ hs)) := by
    rw [shown]
    simp
  have hrest := LineRest.rest line hline
  rw [htext]
  exact open_differs hrest.getLast? hword hrest.count_cr hrest.count_lf (by simp) (by simp) hhs

/-- **A cut block.** With `d` bytes of the block in front of what was there before and the
rest of the block behind, other entries are read. Only where the block is cut in its last
bytes may the header end too early, with all entries there. -/
theorem shown_differs (hline : ∀ c ∈ line, c ∉ crlf) (hhead : ∀ c t, line = c :: t → c ∉ lws)
    (hlen : 2 ≤ line.length) {hs : List Param} (hne : hs ≠ []) (hhs : ∀ e ∈ hs, EntryOk .headers e)
    {d : Nat} (hd : d < (entryText .headers hs).length) :
    ((entryText .headers hs).length ≤ d + 3 ∧ Ends (shown line (entryText .headers hs) d) hs) ∨
      Differs (shown line (entryText .headers hs) d ++ (entryText .headers hs).drop d) hs := by
  have h2 : crlf.length = 2 := rfl
  by_cases hlt : d < (linesText (headerLines hs)).length
  · obtain ⟨es, e, es', j, z, rfl, hcut, hz, htake, hdrop⟩ := linesText_cut hlt
    have htake' : (entryText .headers (es ++ e :: es')).take d = linesText (headerLines es) ++ j := by
      rw [entryText_headers, List.take_append_of_le_length (by omega), htake]
    have hdrop' : (entryText .headers (es ++ e :: es')).drop d = z ++ entryText .headers es' := by
      rw [entryText_headers, List.drop_append_of_le_length (by omega), hdrop, List.append_assoc,
        ← entryText_headers]
    by_cases hj : j = []
    · -- between two lines, of which at least one has not been moved
      right
      subst hj
      obtain rfl : headerLine e ++ crlf = z := hcut
      rw [List.append_nil] at htake'
      have hnext : (entryText .headers (es ++ e :: es')).drop d = entryText .headers (e :: es') := by
        rw [hdrop', entryText_headers, entryText_headers, headerLines_cons, linesText_cons]
        simp
      rcases List.eq_nil_or_concat es with rfl | ⟨es0, e0, rfl⟩
      · obtain rfl : d = 0 := by
          have := congrArg List.length htake'
          rw [List.length_take_of_le (Nat.le_of_lt hd)] at this
          simpa using this
        exact shown_none hline hhead hlen hhs
      · rw [List.concat_eq_append] at *
        have hsplit : es0 ++ [e0] ++ e :: es' = es0 ++ e0 :: (e :: es') := by simp
        have hhs' : ∀ x ∈ es0 ++ e0 :: (e :: es'), EntryOk .headers x := hsplit ▸ hhs
        rw [hsplit] at htake' hnext ⊢
        exact (shown_between hline hlen hhs' htake' hnext).resolve_left
          fun hall => absurd hall.1 (by simp)
    · refine (shown_within hline hlen hhs hj hz hcut htake' hdrop').imp ?_ id
      intro hall
      obtain ⟨rfl, hz1, hall⟩ := hall
      refine ⟨?_, hall⟩
      have hsize := congrArg List.length hdrop'
      rw [List.length_drop, List.length_append, hz1, show entryText .headers [] = crlf from rfl,
        h2] at hsize
      omega
  · obtain ⟨es, e, rfl⟩ := (List.eq_nil_or_concat hs).resolve_left hne
    rw [List.concat_eq_append] at *
    have hsize := congrArg List.length (entryText_headers (es ++ [e]))
    rw [List.length_append, h2] at hsize
    exact (shown_last hline hlen hhs (by omega)).imp (fun hall => ⟨by omega, hall⟩) id

end Stale

end Sighttpd.L1
