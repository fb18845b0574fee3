import Sighttpd.L1Data.ParamsParse

/-!
# How much `headers_canonicalize` stores

The function allocates `strlen (headers) + 1` bytes. Collapsing white space makes
text shorter, but a line end of one byte, CR or LF alone, is stored as two.

* `canonLoop_length`: what is stored, plus what is dropped, is what was read plus
  one byte for each lone line end.
* `canonLoop_cons`, `canonLoop_blanks`, `canonLoop_run`: the loop read as a rule for
  each kind of byte at the front of the text.
* `canonLoop_ends`, `canonLoop_fold`, `canonLoop_newline`: the three things a run of
  line ends may do.
* `stored_le_iff`: the stored bytes fit the allocation exactly when there are no
  more lone line ends than dropped bytes.
* `loneLf_overflows`: the text of a single LF does not fit.
-/
namespace Sighttpd.L1
open Sighttpd.CString

/-- `lone` counts the line ends of one byte that start a new line; `dropped` the
bytes that leave no byte of their own. -/
structure Tally where
  lone : Nat
  dropped : Nat
  deriving DecidableEq, Repr

/-- The tally of a text that follows the byte `prev`. A blank behind a blank is
dropped, so is a line end in front of a blank, and everything from the line ends
that end the header on. -/
def tally (prev : UInt8) : Bytes → Tally
  | [] => ⟨0, 0⟩
  | c :: t =>
    let rest := tally c t
    if c ∈ spht then
      if prev ∈ spht then { rest with dropped := rest.dropped + 1 } else rest
    else if c ∈ crlf ∧ prev ∉ crlf then
      let run := (c :: t).takeWhile (· ∈ crlf)
      if endsBlock run then ⟨0, (c :: t).length⟩
      else if 0 < strspn ((c :: t).dropWhile (· ∈ crlf)) spht then
        { rest with dropped := rest.dropped + run.length }
      else if run.length = 1 then { rest with lone := rest.lone + 1 }
      else rest
    else rest

/-- The line ends of `headers` that are stored longer than they are. -/
def loneEnds (headers : Bytes) : Nat := (tally 0 headers).lone

/-- The bytes of `headers` that are not stored. -/
def droppedBytes (headers : Bytes) : Nat := (tally 0 headers).dropped

/-! ## The tally of each piece of the text -/

/-- Only a blank behind a blank, or a line end behind one, depends on what is before. -/
theorem tally_prev {prev : UInt8} {s : Bytes} (hsp : ∀ c t, s = c :: t → c ∈ spht → prev ∉ spht)
    (hcr : ∀ c t, s = c :: t → c ∈ crlf → prev ∉ crlf) : tally prev s = tally 0 s := by
  cases s with
  | nil => rfl
  | cons c t =>
    by_cases h1 : c ∈ spht
    · simp only [tally, h1, hsp c t rfl h1, zero_notMem_spht, if_true, if_false]
    · by_cases h2 : c ∈ crlf
      · simp only [tally, h1, h2, hcr c t rfl h2, zero_notMem_crlf, if_false, not_false_iff,
          true_and, if_true]
      · simp only [tally, h1, h2, false_and, if_false]

theorem tally_word {w s : Bytes} (hw : ∀ c ∈ w, c ∉ lws) {prev : UInt8} (hp : prev ∉ lws) :
    tally prev (w ++ s) = tally 0 s := by
  induction w generalizing prev with
  | nil =>
    exact tally_prev (fun _ _ _ _ h => hp (mem_lws.mpr (.inl h)))
      (fun _ _ _ _ h => hp (mem_lws.mpr (.inr h)))
  | cons c w ih =>
    obtain ⟨hc, hw'⟩ := List.forall_mem_cons.mp hw
    have h1 : c ∉ spht := fun h => hc (mem_lws.mpr (.inl h))
    have h2 : c ∉ crlf := fun h => hc (mem_lws.mpr (.inr h))
    simp only [List.cons_append, tally, h1, h2, false_and, if_false]
    exact ih hw' hc

theorem tally_blanks_behind {b s : Bytes} (hb : ∀ c ∈ b, c ∈ spht)
    (hs : ∀ c t, s = c :: t → c ∉ spht) {prev : UInt8} (hp : prev ∈ spht) :
    tally prev (b ++ s) = ⟨(tally 0 s).lone, (tally 0 s).dropped + b.length⟩ := by
  induction b generalizing prev with
  | nil =>
    exact tally_prev (fun c t he h => absurd h (hs c t he))
      (fun _ _ _ _ h => crlf_notMem_spht h hp)
  | cons c b ih =>
    obtain ⟨hc, hb'⟩ := List.forall_mem_cons.mp hb
    simp only [List.cons_append, tally, hc, hp, if_true, ih hb' hc, List.length_cons]
    rfl

theorem tally_blanks {b s : Bytes} (hb : ∀ c ∈ b, c ∈ spht) (hs : ∀ c t, s = c :: t → c ∉ spht) :
    tally 0 (b ++ s) = ⟨(tally 0 s).lone, (tally 0 s).dropped + (b.length - 1)⟩ := by
  cases b with
  | nil => rfl
  | cons c b =>
    obtain ⟨hc, hb'⟩ := List.forall_mem_cons.mp hb
    simp only [List.cons_append, tally, hc, zero_notMem_spht, if_true, if_false,
      tally_blanks_behind hb' hs hc]
    rfl

theorem tally_run_behind {r s : Bytes} (hr : ∀ c ∈ r, c ∈ crlf)
    (hs : ∀ c t, s = c :: t → c ∉ crlf) {prev : UInt8} (hp : prev ∈ crlf) :
    tally prev (r ++ s) = tally 0 s := by
  induction r generalizing prev with
  | nil =>
    exact tally_prev (fun _ _ _ _ h => crlf_notMem_spht hp h)
      (fun c t he h => absurd h (hs c t he))
  | cons c r ih =>
    obtain ⟨hc, hr'⟩ := List.forall_mem_cons.mp hr
    have h1 : c ∉ spht := crlf_notMem_spht hc
    simp only [List.cons_append, tally, hc, h1, hp, not_true_eq_false, and_false, if_false]
    exact ih hr' hc

/-- A run of line ends, by what the scanner does with it. -/
theorem tally_run {r s : Bytes} (hne : r ≠ []) (hr : ∀ c ∈ r, c ∈ crlf)
    (hs : ∀ c t, s = c :: t → c ∉ crlf) :
    tally 0 (r ++ s) =
      if endsBlock r then ⟨0, (r ++ s).length⟩
      else if 0 < strspn s spht then ⟨(tally 0 s).lone, (tally 0 s).dropped + r.length⟩
      else if r.length = 1 then ⟨(tally 0 s).lone + 1, (tally 0 s).dropped⟩
      else tally 0 s := by
  obtain ⟨c, r, rfl⟩ := List.exists_cons_of_ne_nil hne
  obtain ⟨hc, hr'⟩ := List.forall_mem_cons.mp hr
  have h1 : c ∉ spht := crlf_notMem_spht hc
  have htake : (c :: (r ++ s)).takeWhile (· ∈ crlf) = c :: r :=
    takeWhile_append_eq (x := c :: r) (by simpa using hr) fun a t he => by simpa using hs a t he
  have hdrop : (c :: (r ++ s)).dropWhile (· ∈ crlf) = s :=
    dropWhile_append_eq (x := c :: r) (by simpa using hr) fun a t he => by simpa using hs a t he
  simp only [List.cons_append, tally, h1, hc, zero_notMem_crlf, not_false_iff, and_self, if_true,
    if_false, htake, hdrop, tally_run_behind hr' hs hc]

/-- A run that does not end the header has one CR and one LF at most. -/
theorem length_of_not_endsBlock {r : Bytes} (hr : ∀ c ∈ r, c ∈ crlf) (h : ¬ endsBlock r) :
    r.length ≤ 2 := by
  have hlen : ∀ r : Bytes, (∀ c ∈ r, c ∈ crlf) → r.length = r.count 13 + r.count 10 := by
    intro r hr
    induction r with
    | nil => rfl
    | cons c r ih =>
      obtain ⟨hc, hr'⟩ := List.forall_mem_cons.mp hr
      have hc' := mem_crlf.mp hc
      rcases hc' with rfl | rfl <;> simp [ih hr'] <;> omega
  rw [hlen r hr]
  simp only [endsBlock, Bool.or_eq_true, decide_eq_true_eq, not_or] at h
  omega

/-! ## The tally along the loop -/

/-- One blank is stored for the blanks at the front of `s`, none if there are none. -/
theorem tally_span_blanks (s : Bytes) :
    tally 0 s = ⟨(tally 0 (s.dropWhile (· ∈ spht))).lone,
      (tally 0 (s.dropWhile (· ∈ spht))).dropped + (strspn s spht - 1)⟩ := by
  conv_lhs => rw [← List.takeWhile_append_dropWhile (p := (· ∈ spht)) (l := s)]
  exact tally_blanks (fun c hc => by simpa using List.mem_takeWhile_imp hc)
    (fun c t he => by simpa using dropWhile_stop he)

theorem tally_span_word (s : Bytes) : tally 0 s = tally 0 (s.dropWhile (· ∉ lws)) := by
  conv_lhs => rw [← List.takeWhile_append_dropWhile (p := (· ∉ lws)) (l := s)]
  exact tally_word (fun c hc => by simpa using List.mem_takeWhile_imp hc) (by decide)

theorem tally_span_run {s : Bytes} (h : strspn s crlf > 0) :
    tally 0 s =
      if endsBlock (s.takeWhile (· ∈ crlf)) then ⟨0, s.length⟩
      else if 0 < strspn (s.dropWhile (· ∈ crlf)) spht then
        ⟨(tally 0 (s.dropWhile (· ∈ crlf))).lone,
          (tally 0 (s.dropWhile (· ∈ crlf))).dropped + strspn s crlf⟩
      else if strspn s crlf = 1 then
        ⟨(tally 0 (s.dropWhile (· ∈ crlf))).lone + 1, (tally 0 (s.dropWhile (· ∈ crlf))).dropped⟩
      else tally 0 (s.dropWhile (· ∈ crlf)) := by
  have hrun := tally_run (List.length_pos_iff.mp h)
    (fun c hc => by simpa using List.mem_takeWhile_imp hc)
    (fun c t he => by simpa using dropWhile_stop (s := s) (p := (· ∈ crlf)) he)
  rwa [List.takeWhile_append_dropWhile] at hrun

theorem canonLoop_length (c n : Bytes) :
    (canonLoop c n).1.length + (tally 0 c).dropped = n.length + c.length + (tally 0 c).lone := by
  induction hk : c.length using Nat.strong_induction_on generalizing c n with
  | _ k ih =>
  subst hk
  by_cases hc : c = []
  · subst hc
    rw [canonLoop, if_pos rfl]
    rfl
  -- `c` is a word, blanks, and the rest `afterBlanks c`
  have htally := tally_span_word c
  rw [tally_span_blanks (c.dropWhile (· ∉ lws))] at htally
  change tally 0 c = ⟨(tally 0 (afterBlanks c)).lone, (tally 0 (afterBlanks c)).dropped + _⟩ at htally
  have hword := length_dropWhile_add_strcspn c lws
  have hblanks : (afterBlanks c).length + strspn (c.dropWhile (· ∉ lws)) spht = _ :=
    length_dropWhile_add_strspn (c.dropWhile (· ∉ lws)) spht
  have hstored : (if strspn (c.dropWhile (· ∉ lws)) spht > 0 then
      n ++ c.takeWhile (· ∉ lws) ++ ascii " " else n ++ c.takeWhile (· ∉ lws)).length +
        (strspn (c.dropWhile (· ∉ lws)) spht - 1) + (afterBlanks c).length =
      n.length + c.length := by
    have hw : (c.takeWhile (· ∉ lws)).length = strcspn c lws := rfl
    split
    · simp only [List.length_append, hw, show (ascii " ").length = 1 from rfl]; omega
    · simp only [List.length_append, hw]; omega
  rw [canonLoop, if_neg hc]
  simp only [htally]
  generalize (if strspn (c.dropWhile (· ∉ lws)) spht > 0 then
    n ++ c.takeWhile (· ∉ lws) ++ ascii " " else n ++ c.takeWhile (· ∉ lws)) = n1 at hstored ⊢
  by_cases hspan : strspn (afterBlanks c) crlf > 0
  · have hrun := length_dropWhile_add_strspn (afterBlanks c) crlf
    rw [if_pos hspan, tally_span_run hspan]
    by_cases hend : endsBlock ((afterBlanks c).takeWhile (· ∈ crlf))
    · simp only [if_pos hend]
      omega
    · have h2 := length_of_not_endsBlock (r := (afterBlanks c).takeWhile (· ∈ crlf))
        (fun c hc => by simpa using List.mem_takeWhile_imp hc) hend
      change strspn (afterBlanks c) crlf ≤ 2 at h2
      simp only [if_neg hend]
      by_cases hsp : strspn ((afterBlanks c).dropWhile (· ∈ crlf)) spht > 0
      · -- the line goes on: line ends and blanks become one SP
        have hrest := ih _ (Nat.lt_of_le_of_lt (List.length_dropWhile_le (· ∈ spht) _)
          (length_afterBreak_lt hspan)) _ (n1 ++ ascii " ") rfl
        have hb := length_dropWhile_add_strspn ((afterBlanks c).dropWhile (· ∈ crlf)) spht
        rw [if_pos hsp, if_pos hsp, tally_span_blanks ((afterBlanks c).dropWhile (· ∈ crlf))]
        simp only [List.length_append, show (ascii " ").length = 1 from rfl] at hrest ⊢
        omega
      · -- a new line: the run becomes CRLF
        have hrest := ih _ (length_afterBreak_lt hspan) _ (n1 ++ crlf) rfl
        simp only [List.length_append, show crlf.length = 2 from rfl] at hrest
        rw [if_neg hsp, if_neg hsp]
        split
        · simp only; omega
        · omega
  · have hrest := ih _ (length_afterBlanks_lt hc hspan) _ n1 rfl
    rw [if_neg hspan]
    omega

/-! ## The loop, byte by byte -/

/-- A text that starts with a line end has no word and no blanks in front. -/
theorem afterBlanks_of_crlf {a : UInt8} {t : Bytes} (ha : a ∈ crlf) :
    afterBlanks (a :: t) = a :: t := by
  rw [afterBlanks, List.dropWhile_cons_of_neg (by simpa using mem_lws.mpr (.inr ha)),
    List.dropWhile_cons_of_neg (by simpa using crlf_notMem_spht ha)]

/-- The loop may be stopped and restarted behind the blanks. -/
theorem canonLoop_afterBlanks (c n : Bytes) :
    canonLoop c n = canonLoop (afterBlanks c) (if strspn (c.dropWhile (· ∉ lws)) spht > 0 then
      n ++ c.takeWhile (· ∉ lws) ++ ascii " " else n ++ c.takeWhile (· ∉ lws)) := by
  by_cases hc : c = []
  · subst hc
    simp [afterBlanks, strspn]
  conv_lhs => rw [canonLoop, if_neg hc]
  simp only
  generalize (if strspn (c.dropWhile (· ∉ lws)) spht > 0 then
    n ++ c.takeWhile (· ∉ lws) ++ ascii " " else n ++ c.takeWhile (· ∉ lws)) = n1
  by_cases hspan : strspn (afterBlanks c) crlf > 0
  · -- the same line ends are found again, now at the front
    obtain ⟨a, t, he⟩ : ∃ a t, afterBlanks c = a :: t := by
      refine List.exists_cons_of_ne_nil fun he => ?_
      rw [he] at hspan
      exact absurd hspan (by decide)
    have ha : a ∈ crlf := by
      by_contra hna
      rw [he, strspn, List.takeWhile_cons_of_neg (by simpa using hna)] at hspan
      exact absurd hspan (by simp)
    rw [he] at hspan ⊢
    have hword : (a :: t).takeWhile (· ∉ lws) = [] :=
      List.takeWhile_cons_of_neg (by simpa using mem_lws.mpr (.inr ha))
    have hblanks : strspn ((a :: t).dropWhile (· ∉ lws)) spht = 0 := by
      rw [List.dropWhile_cons_of_neg (by simpa using mem_lws.mpr (.inr ha)), strspn,
        List.takeWhile_cons_of_neg (by simpa using crlf_notMem_spht ha)]
      rfl
    conv_rhs => rw [canonLoop, if_neg (List.cons_ne_nil a t)]
    simp only [hword, hblanks, List.append_nil, gt_iff_lt, Nat.lt_irrefl, if_false,
      afterBlanks_of_crlf ha]
  · rw [if_neg hspan]

theorem canonLoop_cons {a : UInt8} (ha : a ∉ lws) (c n : Bytes) :
    canonLoop (a :: c) n = canonLoop c (n ++ [a]) := by
  rw [canonLoop_afterBlanks (a :: c) n, canonLoop_afterBlanks c (n ++ [a])]
  have hd : (a :: c).dropWhile (· ∉ lws) = c.dropWhile (· ∉ lws) :=
    List.dropWhile_cons_of_pos (by simpa using ha)
  rw [hd, List.takeWhile_cons_of_pos (by simpa using ha)]
  simp only [afterBlanks, hd, List.append_assoc, List.singleton_append]

/-- Blanks at the front become one SP. -/
theorem canonLoop_blanks {b c : Bytes} (hne : b ≠ []) (hb : ∀ a ∈ b, a ∈ spht)
    (hc : ∀ a t, c = a :: t → a ∉ spht) (n : Bytes) :
    canonLoop (b ++ c) n = canonLoop c (n ++ ascii " ") := by
  obtain ⟨a, b, rfl⟩ := List.exists_cons_of_ne_nil hne
  have hlws : a ∈ lws := mem_lws.mpr (.inl (hb a (List.mem_cons_self ..)))
  have hword : (a :: b ++ c).takeWhile (· ∉ lws) = [] :=
    List.takeWhile_cons_of_neg (by simpa using hlws)
  have hd : (a :: b ++ c).dropWhile (· ∉ lws) = a :: b ++ c :=
    List.dropWhile_cons_of_neg (by simpa using hlws)
  have hspan : strspn (a :: b ++ c) spht = (a :: b).length := strspn_append hb hc
  have hrest : afterBlanks (a :: b ++ c) = c := by
    rw [afterBlanks, hd]
    exact dropWhile_append_eq (by simpa using hb) fun a t he => by simpa using hc a t he
  rw [canonLoop_afterBlanks, hword, hd, hspan, hrest, if_pos (by simp), List.append_nil]

/-- Line ends at the front end the header, continue the line, or end it. -/
theorem canonLoop_run {r c : Bytes} (hne : r ≠ []) (hr : ∀ a ∈ r, a ∈ crlf)
    (hc : ∀ a t, c = a :: t → a ∉ crlf) (n : Bytes) :
    canonLoop (r ++ c) n =
      if endsBlock r then (n, true)
      else if strspn c spht > 0 then canonLoop (c.dropWhile (· ∈ spht)) (n ++ ascii " ")
      else canonLoop c (n ++ crlf) := by
  obtain ⟨a, r, rfl⟩ := List.exists_cons_of_ne_nil hne
  have ha : a ∈ crlf := hr a (List.mem_cons_self ..)
  have hlws : a ∈ lws := mem_lws.mpr (.inr ha)
  have hword : (a :: r ++ c).takeWhile (· ∉ lws) = [] :=
    List.takeWhile_cons_of_neg (by simpa using hlws)
  have hblanks : strspn ((a :: r ++ c).dropWhile (· ∉ lws)) spht = 0 := by
    rw [List.cons_append, List.dropWhile_cons_of_neg (by simpa using hlws), strspn,
      List.takeWhile_cons_of_neg (by simpa using crlf_notMem_spht ha)]
    rfl
  have hspan : strspn (a :: r ++ c) crlf = (a :: r).length := strspn_append hr hc
  have htake : (a :: r ++ c).takeWhile (· ∈ crlf) = a :: r :=
    takeWhile_append_eq (by simpa using hr) fun a t he => by simpa using hc a t he
  have hdrop : (a :: r ++ c).dropWhile (· ∈ crlf) = c :=
    dropWhile_append_eq (by simpa using hr) fun a t he => by simpa using hc a t he
  have hrest : afterBlanks (a :: r ++ c) = a :: r ++ c := afterBlanks_of_crlf ha
  rw [canonLoop, if_neg (by simp)]
  simp only [hrest, hspan, htake, hdrop, hword, hblanks, List.append_nil, gt_iff_lt,
    Nat.lt_irrefl, if_false, List.length_cons, Nat.succ_pos, if_true]

theorem strspn_pos_iff {s a : Bytes} : strspn s a > 0 ↔ ∃ c t, s = c :: t ∧ c ∈ a := by
  cases s with
  | nil => simp [strspn]
  | cons c t =>
    by_cases hc : c ∈ a
    · simp [strspn, List.takeWhile_cons_of_pos (p := (decide <| · ∈ a)) (by simpa using hc), hc]
    · simp [strspn, List.takeWhile_cons_of_neg (p := (decide <| · ∈ a)) (by simpa using hc), hc]

theorem endsBlock_append {r : Bytes} (h : endsBlock r) (s : Bytes) : endsBlock (r ++ s) := by
  simp only [endsBlock, List.count_append, Bool.or_eq_true, decide_eq_true_eq] at h ⊢
  omega

theorem canonLoop_nil (n : Bytes) : canonLoop [] n = (n, false) := by
  rw [canonLoop, if_pos rfl]

/-- A run that ends the header, whatever is behind it. -/
theorem canonLoop_ends {r : Bytes} (hr : ∀ a ∈ r, a ∈ crlf) (hend : endsBlock r) (post n : Bytes) :
    canonLoop (r ++ post) n = (n, true) := by
  have hsplit : r ++ post = (r ++ post.takeWhile (· ∈ crlf)) ++ post.dropWhile (· ∈ crlf) := by
    rw [List.append_assoc, List.takeWhile_append_dropWhile]
  have hne : r ≠ [] := by
    intro heq
    subst heq
    exact absurd hend (by decide)
  rw [hsplit, canonLoop_run (by simp [hne]) (fun a ha => ?_)
    (fun a t he => by simpa using dropWhile_stop he), if_pos (endsBlock_append hend _)]
  rcases List.mem_append.mp ha with ha | ha
  · exact hr a ha
  · simpa using List.mem_takeWhile_imp ha

/-- A run with blanks behind it is one SP. -/
theorem canonLoop_fold {r b c : Bytes} (hne : r ≠ []) (hr : ∀ a ∈ r, a ∈ crlf) (hend : ¬ endsBlock r)
    (hbne : b ≠ []) (hb : ∀ a ∈ b, a ∈ spht) (hc : ∀ a t, c = a :: t → a ∉ spht) (n : Bytes) :
    canonLoop (r ++ (b ++ c)) n = canonLoop c (n ++ ascii " ") := by
  obtain ⟨a, b, rfl⟩ := List.exists_cons_of_ne_nil hbne
  have hblank := hb a (List.mem_cons_self ..)
  have hdrop : (a :: b ++ c).dropWhile (· ∈ spht) = c :=
    dropWhile_append_eq (by simpa using hb) fun d t he => by simpa using hc d t he
  have hpos : strspn (a :: b ++ c) spht > 0 := strspn_pos_iff.mpr ⟨a, b ++ c, rfl, hblank⟩
  rw [canonLoop_run hne hr, if_neg hend, if_pos hpos, hdrop]
  intro d t he hd
  rw [List.cons_append] at he
  exact crlf_notMem_spht hd ((List.cons.inj he).1 ▸ hblank)

/-- A run with a word, or nothing, behind it is a CRLF. -/
theorem canonLoop_newline {r c : Bytes} (hne : r ≠ []) (hr : ∀ a ∈ r, a ∈ crlf) (hend : ¬ endsBlock r)
    (hc : ∀ a t, c = a :: t → a ∉ lws) (n : Bytes) :
    canonLoop (r ++ c) n = canonLoop c (n ++ crlf) := by
  rw [canonLoop_run hne hr fun a t he hcr => hc a t he (mem_lws.mpr (.inr hcr)), if_neg hend, if_neg]
  rw [strspn_pos_iff]
  intro hall
  obtain ⟨a, t, he, hsp⟩ := hall
  exact hc a t he (mem_lws.mpr (.inl hsp))

theorem canonLoop_crlf {c : Bytes} (hc : ∀ a t, c = a :: t → a ∉ lws) (n : Bytes) :
    canonLoop (crlf ++ c) n = canonLoop c (n ++ crlf) :=
  canonLoop_newline (by decide) (by decide) (by decide) hc n

/-! ## The bound -/

/-- **Stored bytes.** `headers_canonicalize` stays within the `strlen (headers) + 1`
bytes it allocates exactly when `headers` has no more lone line ends than bytes
that are dropped. -/
theorem stored_le_iff (headers : Bytes) :
    (canonStored headers).length ≤ (cstr headers).length + 1 ↔
      loneEnds (cstr headers) ≤ droppedBytes (cstr headers) := by
  have h := canonLoop_length (cstr headers) []
  simp only [canonStored, loneEnds, droppedBytes, List.length_append, List.length_nil,
    List.length_singleton] at h ⊢
  omega

/-- **A lone line end.** The header text of one LF is stored as CR, LF and NUL, one
byte more than was allocated. -/
theorem loneLf_overflows :
    ¬ ∀ headers : Bytes, (canonStored headers).length ≤ (cstr headers).length + 1 := by
  intro h
  exact absurd (h [10]) (by decide +kernel)

end Sighttpd.L1
