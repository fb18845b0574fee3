import Sighttpd.L1Data.ParamsWeight

/-!
# Text inserted into a header block

A piece of text behind a header line is a line of its own, or goes on with that line
where it starts with a blank; a piece of a line that is there twice makes its name or its
value longer.

* `reads_continued`: a line, line ends, and text behind them.
* `reads_doubled`: a line of which a part is there twice.
-/
namespace Sighttpd.L1
open Sighttpd.CString

/-- The entries of lines as they are stored. -/
def lineItems (ls : List Bytes) : List Param := ls.map (splitItem (ascii ": "))

theorem headerItems_intercalate {ls : List Bytes} (h : ∀ l ∈ ls, IsLine l) :
    headerItems (crlf.intercalate ls) = lineItems ls := by
  rw [headerItems, delimItems_intercalate (by decide) (by decide) h, lineItems]

theorem splitItem_headerLine {e : Param} (he : EntryOk .headers e) :
    splitItem (ascii ": ") (headerLine e) = e := (headerLine_ok he).2

theorem lineItems_headerLines {es : List Param} (hes : ∀ e ∈ es, EntryOk .headers e) :
    lineItems (headerLines es) = es := by
  rw [lineItems, headerLines, List.map_map]
  exact (List.map_congr_left fun e he => splitItem_headerLine (hes e he)).trans (List.map_id es)

@[simp] theorem lineItems_cons (l : Bytes) (ls : List Bytes) :
    lineItems (l :: ls) = splitItem (ascii ": ") l :: lineItems ls := rfl

@[simp] theorem lineItems_nil : lineItems [] = [] := rfl

@[simp] theorem lineItems_append (ls ls' : List Bytes) :
    lineItems (ls ++ ls') = lineItems ls ++ lineItems ls' := by
  simp [lineItems]

/-! ## Text behind a line -/

section Line
variable {e : Param}

theorem key_free (he : EntryOk .headers e) : ∀ c ∈ e.key, c ∉ ascii ": " ∧ c ∉ lws := by
  intro c hc
  have hk := he.1.2 c hc
  constructor
  · exact fun hm => hk (by simp [ascii] at hm ⊢; rcases hm with h | h <;> simp [h])
  · exact fun hm => hk (by simp [lws, ascii] at hm ⊢; rcases hm with h | h | h | h <;> simp [h])

/-- The line of an entry, split at its name. -/
theorem splitItem_append_line (he : EntryOk .headers e) (y : Bytes) :
    splitItem (ascii ": ") (headerLine e ++ y) =
      ⟨e.key, (e.value ++ y).dropWhile (· ∈ ascii ": ")⟩ := by
  have hline : headerLine e ++ y = e.key ++ 58 :: 32 :: (e.value ++ y) := by
    simp [headerLine, ascii]
  rw [hline, splitItem_cons (fun c hc => (key_free he c hc).1) (by decide)]
  rfl

/-- A value is not shorter with something behind it, and longer if it was not empty. -/
theorem length_continued (he : EntryOk .headers e) (y : Bytes) :
    e.value.length ≤ ((e.value ++ y).dropWhile (· ∈ ascii ": ")).length ∧
      (e.value ≠ [] → y ≠ [] →
        e.value.length < ((e.value ++ y).dropWhile (· ∈ ascii ": ")).length) := by
  cases hv : e.value with
  | nil => simp
  | cons c v =>
    have hc : c ∉ ascii ": " := he.2.2.2 c (by rw [hv]; rfl)
    rw [List.cons_append, List.dropWhile_cons_of_neg (by simpa using hc)]
    refine ⟨by simp, fun _ hy => ?_⟩
    have := List.length_pos_iff.mpr hy
    simp only [List.length_cons, List.length_append]
    omega

/-- The line of an entry with more behind it weighs no less than the entry. -/
theorem weight_continued (he : EntryOk .headers e) (y : Bytes) (ls : List Bytes) (k : Bytes) :
    weight k [e] ≤ weight k (lineItems ((headerLine e ++ y) :: ls)) := by
  have hlen := (length_continued he y).1
  rw [lineItems_cons, splitItem_append_line he]
  simp only [weight_cons, weight_nil]
  split <;> omega

theorem weight_continued_lt (he : EntryOk .headers e) (hv : e.value ≠ []) {y : Bytes} (hy : y ≠ [])
    (ls : List Bytes) :
    weight (lower e.key) [e] < weight (lower e.key) (lineItems ((headerLine e ++ y) :: ls)) := by
  have hlen := (length_continued he y).2 hv hy
  rw [lineItems_cons, splitItem_append_line he]
  simp only [weight_cons, weight_nil, if_true]
  omega

theorem canonLoop_oneLine {s : Bytes} (hs : ∀ c ∈ s, c ∉ crlf) (n : Bytes) :
    (canonLoop (s ++ crlf) n).2 = false := by
  obtain ⟨h13, h10⟩ := count_free hs
  refine canonLoop_open _ n ?_ ?_
  · rw [List.count_append, h13]
    decide
  · rw [List.count_append, h10]
    decide

/-- A line goes on behind a line end, with the first blank of the text that follows. -/
theorem reads_folded (he : EntryOk .headers e) {r b w : Bytes} (hne : r ≠ [])
    (hr : ∀ a ∈ r, a ∈ crlf) (hend : ¬ endsBlock r) (hbne : b ≠ []) (hb : ∀ a ∈ b, a ∈ spht)
    (hw : ∀ a u, w = a :: u → a ∉ spht) (hfree : ∀ a ∈ w, a ∉ crlf) :
    ∃ y ls, y ≠ [] ∧ Reads (headerLine e ++ (r ++ (b ++ (w ++ crlf)))) ((headerLine e ++ y) :: ls) := by
  have hhead : ∀ a u, w ++ crlf = a :: u → a ∉ spht :=
    head_append hw fun a u h => (List.cons.inj h).1 ▸ by decide
  obtain ⟨x, ls, hx⟩ := canonLoop_lines (w ++ crlf) [] (by rw [List.getLast?_append]; rfl)
    (canonLoop_oneLine hfree [])
  have hstart : ∀ a u, r ++ (b ++ (w ++ crlf)) = a :: u → a ∈ crlf := by
    obtain ⟨a, r, rfl⟩ := List.exists_cons_of_ne_nil hne
    exact fun d u h => (List.cons.inj h).1 ▸ hr a (List.mem_cons_self ..)
  have hline : IsLine (headerLine e ++ (ascii " " ++ x)) := by
    obtain ⟨h1, h2⟩ := isLine_headerLine he
    refine ⟨by simp [h1], fun a ha => ?_⟩
    rw [List.mem_append, List.mem_append] at ha
    rcases ha with ha | ha | ha
    · exact h2 a ha
    · exact List.mem_singleton.mp ha ▸ by decide
    · exact hx.first a ha
  refine ⟨ascii " " ++ x, ls, by simp [ascii], ?_, fun a u h => headerLine_head he h,
    List.forall_mem_cons.mpr ⟨hline, hx.lines⟩, fun n => ?_⟩
  · rw [List.getLast?_append, List.getLast?_append, List.getLast?_append, List.getLast?_append]
    rfl
  · rw [canonLoop_headerLine he hstart, canonLoop_fold hne hr hend hbne hb hhead, canonLoop_behind,
      hx.loop]
    simp

/-- Text behind a line and a line end: another line, or more of the value. -/
theorem reads_continued (he : EntryOk .headers e) {r w : Bytes} (hne : r ≠ [])
    (hr : ∀ a ∈ r, a ∈ crlf) (hend : ¬ endsBlock r) (hw : w ≠ []) (hfree : ∀ c ∈ w, c ∉ crlf) :
    ∃ l ls, Reads (headerLine e ++ (r ++ (w ++ crlf))) (l :: ls) ∧
      (∀ k, weight k [e] ≤ weight k (lineItems (l :: ls))) ∧
      ((∀ c t, w = c :: t → c ∈ spht → e.value ≠ []) →
        ∃ k, weight k [e] < weight k (lineItems (l :: ls))) := by
  obtain ⟨c, t, rfl⟩ := List.exists_cons_of_ne_nil hw
  by_cases hc : c ∈ spht
  · have hsplit : c :: t = (c :: t).takeWhile (· ∈ spht) ++ (c :: t).dropWhile (· ∈ spht) :=
      List.takeWhile_append_dropWhile.symm
    have hbne : (c :: t).takeWhile (· ∈ spht) ≠ [] := by
      rw [List.takeWhile_cons_of_pos (by simpa using hc)]
      exact List.cons_ne_nil _ _
    obtain ⟨y, ls, hy, hreads⟩ := reads_folded he hne hr hend hbne
      (fun a ha => by simpa using List.mem_takeWhile_imp ha)
      (fun a u hau => by simpa using dropWhile_stop hau)
      fun a ha => hfree a (hsplit ▸ List.mem_append_right _ ha)
    rw [← List.append_assoc ((c :: t).takeWhile _), ← hsplit] at hreads
    exact ⟨_, ls, hreads, weight_continued he y ls,
      fun hv => ⟨lower e.key, weight_continued_lt he (hv c t rfl hc) hy ls⟩⟩
  · -- a new line
    have hhead : ∀ a u, c :: t ++ crlf = a :: u → a ∉ lws :=
      fun a u h => (List.cons.inj h).1 ▸ fun hl =>
        (mem_lws.mp hl).elim hc (hfree c (List.mem_cons_self ..))
    obtain ⟨l, ls, hl⟩ := reads_of_open (m := c :: t ++ crlf)
      (by rw [List.getLast?_append]; rfl) hhead (canonLoop_oneLine hfree [])
    have hitems : lineItems (headerLine e :: l :: ls) = [e] ++ lineItems (l :: ls) := by
      rw [lineItems_cons, splitItem_headerLine he]
      rfl
    refine ⟨headerLine e, l :: ls, hl.behind he hne hr hend, fun k => ?_, fun _ =>
      ⟨lower (splitItem (ascii ": ") l).key, ?_⟩⟩
    · rw [hitems, weight_append]
      omega
    · have := weight_self_pos (splitItem (ascii ": ") l) (lineItems ls)
      rw [hitems, weight_append, lineItems_cons]
      omega

/-! ## A part of a line twice -/

/-- Of two blanks where plain texts meet, one is stored. -/
theorem canonLoop_joined {x y z : Bytes} (hx : ∀ c ∈ x, c ∉ ascii "\t\r\n")
    (hx2 : ¬ ascii "  " <:+: x) (hy : ∀ c ∈ y, c ∉ ascii "\t\r\n") (hy2 : ¬ ascii "  " <:+: y)
    (hz : ∀ c t, z = c :: t → c ∉ spht) :
    ∃ y', (y' = y ∨ y = 32 :: y') ∧
      ∀ n, canonLoop (x ++ (y ++ z)) n = canonLoop z (n ++ (x ++ y')) := by
  have hword : ∀ {y : Bytes}, (∀ c ∈ y, c ∉ ascii "\t\r\n") → (∀ y', y ≠ 32 :: y') →
      ∀ c t, y ++ z = c :: t → c ∉ spht := by
    intro y hy hfirst
    refine head_append (fun c t hc hm => ?_) hz
    subst hc
    rcases mem_spht.mp hm with rfl | rfl
    · exact hfirst t rfl
    · exact hy 9 (List.mem_cons_self ..) (by decide)
  by_cases hlast : x.getLast? = some 32
  · by_cases hfirst : ∃ y', y = 32 :: y'
    · -- the first of the two blanks is that of `x`
      obtain ⟨y, rfl⟩ := hfirst
      obtain ⟨x, rfl⟩ := List.getLast?_eq_some_iff.mp hlast
      have hxlast : x.getLast? ≠ some 32 := by
        intro h
        obtain ⟨x', rfl⟩ := List.getLast?_eq_some_iff.mp h
        exact hx2 ⟨x', [], by simp [ascii]⟩
      have hyfirst : ∀ y', y ≠ 32 :: y' := by
        rintro y' rfl
        exact hy2 ⟨[], y', rfl⟩
      obtain ⟨-, hy'⟩ := List.forall_mem_cons.mp hy
      refine ⟨y, .inr rfl, fun n => ?_⟩
      have hblanks : x ++ [32] ++ (32 :: y ++ z) = x ++ ([32, 32] ++ (y ++ z)) := by simp
      rw [hblanks, canonLoop_plain (fun c hc => hx c (List.mem_append_left _ hc))
        (fun h => hx2 (h.trans ⟨[], [32], rfl⟩)) (fun h => absurd h hxlast),
        canonLoop_blanks (by simp) (by decide) (hword hy' hyfirst),
        canonLoop_plain hy' (fun h => hy2 (List.infix_cons h)) (fun _ => hz)]
      simp [ascii]
    · refine ⟨y, .inl rfl, fun n => ?_⟩
      rw [canonLoop_plain hx hx2 fun _ => hword hy fun y' h => hfirst ⟨y', h⟩,
        canonLoop_plain hy hy2 fun _ => hz, List.append_assoc]
  · refine ⟨y, .inl rfl, fun n => ?_⟩
    rw [canonLoop_plain hx hx2 fun h => absurd h hlast, canonLoop_plain hy hy2 fun _ => hz,
      List.append_assoc]

theorem plain_headerLine (he : EntryOk .headers e) :
    (∀ c ∈ headerLine e, c ∉ ascii "\t\r\n") ∧ ¬ ascii "  " <:+: headerLine e := by
  have hkey := key_free he
  obtain ⟨-, hv, h2, hhead⟩ := he
  constructor
  · intro c hc hm
    rw [headerLine, List.mem_append, List.mem_append] at hc
    rcases hc with (hc | hc) | hc
    · exact (hkey c hc).2 (by simp [lws, ascii] at hm ⊢; rcases hm with h | h | h <;> simp [h])
    · revert c
      decide
    · exact hv c hc (List.mem_append_left _ hm)
  · have hblank : ¬ ascii "  " <:+: e.key := fun h =>
      (hkey 32 (h.subset (by decide))).1 (by decide)
    refine not_infix_append (not_infix_append hblank (by decide) fun _ => by decide) h2 fun _ h => ?_
    exact hhead 32 h (by decide)

/-- The name is longer where the part that is there twice ends in it. -/
theorem splitItem_doubled_key {x y z : Bytes} (he : EntryOk .headers e)
    (hline : headerLine e = x ++ (y ++ z)) (hkey : ∀ c ∈ x ++ y, c ∉ ascii ": ") :
    (splitItem (ascii ": ") (x ++ y ++ (y ++ z))).key.length = e.key.length + y.length := by
  have hfree : ∀ c ∈ x ++ y, decide (c ∉ ascii ": ") = true := fun c hc => by simpa using hkey c hc
  have hx : ∀ c ∈ x, decide (c ∉ ascii ": ") = true := fun c hc => hfree c (List.mem_append_left _ hc)
  have hname : e.key = x ++ (y ++ z).takeWhile (· ∉ ascii ": ") := by
    have h := congrArg Param.key (splitItem_headerLine he)
    rw [← h, hline, splitItem]
    exact List.takeWhile_append_of_pos hx
  have hname' : (splitItem (ascii ": ") (x ++ y ++ (y ++ z))).key =
      x ++ y ++ (y ++ z).takeWhile (· ∉ ascii ": ") := List.takeWhile_append_of_pos hfree
  rw [hname', hname]
  simp only [List.length_append]
  omega

/-- A part that is longer than the delimiter it ends in starts in the name. -/
theorem head_of_part {k x y u : Bytes} (hu : x ++ y = k ++ u) (hlen : u.length < y.length) :
    ∃ d t, y = d :: t ∧ d ∈ k := by
  have hyne : y ≠ [] := List.length_pos_iff.mp (by omega)
  obtain ⟨d, t, rfl⟩ := List.exists_cons_of_ne_nil hyne
  refine ⟨d, t, rfl, ?_⟩
  rcases List.append_eq_append_iff.mp hu with ⟨a, ha, h⟩ | ⟨a, -, rfl⟩
  · cases a with
    | nil =>
      rw [List.nil_append] at h
      rw [h] at hlen
      exact absurd hlen (Nat.lt_irrefl _)
    | cons b a =>
      rw [List.cons_append] at h
      rw [ha, (List.cons.inj h).1]
      simp
  · rw [List.length_append] at hlen
    omega

/-- Else the value is longer. -/
theorem splitItem_doubled_value {x y z y' u : Bytes} (he : EntryOk .headers e)
    (hline : headerLine e = x ++ (y ++ z)) (hy : 4 ≤ y.length) (hu : x ++ y = e.key ++ u) (hune : u ≠ [])
    (hy' : y' = y ++ z ∨ y ++ z = 32 :: y') :
    ∃ v, splitItem (ascii ": ") (x ++ y ++ y') = ⟨e.key, v⟩ ∧ e.value.length < v.length := by
  have hlen : y.length + z.length ≤ y'.length + 1 := by
    rw [← List.length_append]
    rcases hy' with h | h <;> simp [h]
  have hsplit : u ++ z = 58 :: 32 :: e.value := by
    have h : e.key ++ (u ++ z) = e.key ++ (58 :: 32 :: e.value) := by
      rw [← List.append_assoc, ← hu, List.append_assoc, ← hline]
      simp [headerLine, ascii]
    exact List.append_cancel_left h
  obtain ⟨c, u, rfl⟩ := List.exists_cons_of_ne_nil hune
  rw [List.cons_append] at hsplit
  obtain ⟨rfl, hrest⟩ := List.cons.inj hsplit
  clear hsplit
  have hkey : ∀ c ∈ e.key, c ∉ ascii ": " := fun c hc => (key_free he c hc).1
  refine ⟨_, by rw [hu, List.append_assoc, List.cons_append, splitItem_cons hkey (by decide)], ?_⟩
  rw [List.dropWhile_cons_of_pos (by decide)]
  -- the part ends in the value, or in the delimiter
  have hcases : (∃ d u', u = 32 :: d :: u') ∨ u = [] ∨ u = [32] := by
    rcases u with _ | ⟨d, _ | ⟨d', u⟩⟩
    · exact .inr (.inl rfl)
    · rw [List.cons_append] at hrest
      rw [(List.cons.inj hrest).1]
      exact .inr (.inr rfl)
    · rw [List.cons_append] at hrest
      rw [(List.cons.inj hrest).1]
      exact .inl ⟨d', u, rfl⟩
  rcases hcases with ⟨d, u, rfl⟩ | hshort
  · have hvalue : d :: (u ++ z) = e.value := by simpa using hrest
    have hd : d ∉ ascii ": " := he.2.2.2 d (by rw [← hvalue]; rfl)
    rw [List.cons_append, List.cons_append, List.dropWhile_cons_of_pos (by decide),
      List.dropWhile_cons_of_neg (by simpa using hd), ← hvalue]
    simp only [List.length_cons, List.length_append]
    omega
  · have hulen : u.length ≤ 1 := by rcases hshort with rfl | rfl <;> decide
    obtain ⟨d, y, rfl, hd⟩ := head_of_part hu (by rw [List.length_cons]; omega)
    have hdd := (key_free he d hd).1
    have heq : y' = d :: (y ++ z) := by
      rcases hy' with h | h
      · exact h
      · rw [List.cons_append] at h
        exact absurd ((List.cons.inj h).1 ▸ by decide : d ∈ ascii ": ") hdd
    have hvalue : e.value.length + 1 = u.length + z.length := by
      have := congrArg List.length hrest
      simpa using this.symm
    have hdrop : (u ++ y').dropWhile (· ∈ ascii ": ") = y' := by
      have hstop : (d :: (y ++ z)).dropWhile (· ∈ ascii ": ") = d :: (y ++ z) :=
        List.dropWhile_cons_of_neg (by simpa using hdd)
      rw [heq]
      rcases hshort with rfl | rfl
      · exact hstop
      · rw [List.cons_append, List.dropWhile_cons_of_pos (by decide)]
        exact hstop
    rw [hdrop]
    omega

/-- The line in which a part is there twice, but for a blank that may be dropped between. -/
theorem weight_doubled (he : EntryOk .headers e) {x y z y' : Bytes}
    (hline : headerLine e = x ++ (y ++ z)) (hy : 4 ≤ y.length)
    (hy' : y' = y ++ z ∨ y ++ z = 32 :: y') :
    ∃ k, weight k [e] < weight k (lineItems [x ++ y ++ y']) := by
  have hyne : y ≠ [] := List.length_pos_iff.mp (by omega)
  by_cases hkey : ∀ c ∈ x ++ y, c ∉ ascii ": "
  · have hfirst : y' = y ++ z := by
      refine hy'.resolve_right fun h => ?_
      obtain ⟨c, w, rfl⟩ := List.exists_cons_of_ne_nil hyne
      rw [List.cons_append] at h
      exact hkey c (by simp) ((List.cons.inj h).1 ▸ by decide)
    have hlen := splitItem_doubled_key he hline hkey
    rw [hfirst, lineItems_cons, lineItems_nil]
    refine ⟨_, Nat.lt_of_le_of_lt ?_ (weight_self_pos _ _)⟩
    rw [weight_cons, if_neg, weight_nil]
    intro hlower
    have := congrArg List.length hlower
    simp only [lower, List.length_map] at this
    omega
  · obtain ⟨u, hu, hune⟩ : ∃ u, x ++ y = e.key ++ u ∧ u ≠ [] := by
      have heq : x ++ y ++ z = e.key ++ (ascii ": " ++ e.value) := by
        simpa [headerLine] using hline.symm
      rcases List.append_eq_append_iff.mp heq with ⟨u, h, -⟩ | ⟨u, h, -⟩
      · exact absurd (fun c hc => (key_free he c (h ▸ List.mem_append_left _ hc)).1) hkey
      · refine ⟨u, h, ?_⟩
        intro heq
        subst heq
        rw [List.append_nil] at h
        exact hkey fun c hc => (key_free he c (h ▸ hc)).1
    obtain ⟨v, hsplit, hlen⟩ := splitItem_doubled_value he hline hy hu hune hy'
    refine ⟨lower e.key, ?_⟩
    rw [lineItems_cons, lineItems_nil, hsplit]
    simp only [weight_cons, weight_nil, if_true]
    omega

/-- A line with a part of it, of at least four bytes, twice: its name or its value is longer. -/
theorem reads_doubled (he : EntryOk .headers e) {x y z : Bytes} (hline : headerLine e = x ++ (y ++ z))
    (hy : 4 ≤ y.length) :
    ∃ l, Reads (x ++ (y ++ (y ++ z)) ++ crlf) [l] ∧
      ∃ k, weight k [e] < weight k (lineItems [l]) := by
  obtain ⟨hplain, hblank⟩ := plain_headerLine he
  have hxy : x ++ y <:+: headerLine e := ⟨[], z, by simp [hline]⟩
  have hyz : y ++ z <:+: headerLine e := ⟨x, [], by simp [hline]⟩
  obtain ⟨y', hy', hloop⟩ := canonLoop_joined (x := x ++ y) (y := y ++ z) (z := crlf)
    (fun c hc => hplain c (hxy.subset hc)) (fun h => hblank (h.trans hxy))
    (fun c hc => hplain c (hyz.subset hc)) (fun h => hblank (h.trans hyz))
    fun c t h => (List.cons.inj h).1 ▸ by decide
  have htext : x ++ (y ++ (y ++ z)) ++ crlf = x ++ y ++ (y ++ z ++ crlf) := by simp
  have hxyne : x ++ y ≠ [] :=
    List.append_ne_nil_of_right_ne_nil x (List.length_pos_iff.mp (by omega))
  have hsub : ∀ c ∈ x ++ y ++ y', c ∈ headerLine e := by
    intro c hc
    rcases List.mem_append.mp hc with hc | hc
    · exact hxy.subset hc
    · apply hyz.subset
      rcases hy' with rfl | h
      · exact hc
      · exact h ▸ List.mem_cons_of_mem _ hc
  refine ⟨x ++ y ++ y', ⟨?_, fun a t h => ?_, ?_, fun n => ?_⟩, weight_doubled he hline hy hy'⟩
  · rw [List.getLast?_append]
    rfl
  · obtain ⟨b, w, hbw⟩ := List.exists_cons_of_ne_nil hxyne
    rw [htext, hbw, List.cons_append] at h
    obtain ⟨rfl, -⟩ := List.cons.inj h
    apply headerLine_head he (s := []) (t := w ++ z)
    rw [List.append_nil, hline, ← List.append_assoc, hbw]
    rfl
  · rw [List.forall_mem_singleton]
    exact ⟨List.append_ne_nil_of_left_ne_nil hxyne _,
      fun c hc => (isLine_headerLine he).2 c (hsub c hc)⟩
  · have hend := canonLoop_crlf (c := []) (by simp) (n ++ (x ++ y ++ y'))
    rw [List.append_nil] at hend
    rw [htext, hloop, hend, canonLoop_nil]
    simp

end Line

end Sighttpd.L1
