import Sighttpd.L3Config.CfgChars
import Sighttpd.L3Config.CfgParse

/-!
# The scanner as a stream of characters

On input without backslashes the scanner hands out the non-NUL bytes of the window, as the
reads fill it one after the other. A read that is shorter than the window leaves the end of
the window as it was, and the refill test looks at the size of the window and not at how
much was read: bytes of an earlier, longer read are handed out again.

* `Hands p cs a`: the parser input `p` hands out `cs` and then the end; `Scan p cs a` the same
  without 0xFF bytes.
* `handsStream`, `scanStream`: one call of `copa_next` is all that depends on the window.
* `scan_skip`, `scan_slurp`: the loops as functions of the characters to come.
-/
namespace Sighttpd.L3

/-- The characters that the reads to come put in the window. -/
def delivered (window : Bytes) : List (Option Bytes) → Bytes
  | [] => []
  | none :: _ => []
  | some bytes :: fd =>
    (bytes ++ window.drop bytes.length).filter (· ≠ 0) ++
      delivered (bytes ++ window.drop bytes.length) fd

def CopaInput.rest (p : CopaInput) : Bytes :=
  (p.readBuffer.drop p.offset).filter (· ≠ 0) ++ delivered p.readBuffer p.fd

/-- The characters to come, a pushed back one first. -/
def CopaInput.chars (p : CopaInput) : Bytes :=
  (if p.pushback = 0 then [] else [p.pushback]) ++ p.rest

/-- A read that gives at least one byte and no more than was asked for. -/
def GoodRead (r : Option Bytes) : Prop :=
  ∃ bytes, r = some bytes ∧ bytes ≠ [] ∧ bytes.length ≤ bufferSize

/-- A character that is neither NUL nor a backslash nor the end. -/
def PlainChar (c : UInt8) : Prop := c ≠ 0 ∧ c ≠ 92 ∧ c ≠ eof

/-- `p` hands out the plain characters `cs` and then the end; `a` is its `active` flag. -/
structure Scan (p : CopaInput) (cs : Bytes) (a : Bool) : Prop where
  window : p.readBuffer.length = bufferSize
  reads : ∀ r ∈ p.fd, GoodRead r
  escape : p.escape = false
  octal : p.octal = 0
  hex : p.hex = 0
  chars : p.chars = cs
  plain : ∀ c ∈ cs, PlainChar c
  active : p.active = a

/-! ## One character -/

/-- Reading on in the window or in the next one; NULs are stepped over by the caller. -/
theorem rawNext_rest {p : CopaInput} (hw : p.readBuffer.length = bufferSize)
    (hr : ∀ r ∈ p.fd, GoodRead r) :
    (p.rest = [] ∧ rawNext p = (none, { p with nread := 0, active := false })) ∨
    ∃ c buf fd n off, rawNext p = (some c, { p with readBuffer := buf, fd, nread := n, offset := off }) ∧
      buf.length = bufferSize ∧ (∀ r ∈ fd, GoodRead r) ∧
      p.rest = [c].filter (· ≠ 0) ++ ((buf.drop off).filter (· ≠ 0) ++ delivered buf fd) := by
  -- reading the byte at `off` of a window
  have hstep : ∀ (buf : Bytes) (off : Nat), buf.length = bufferSize → off < bufferSize →
      (buf.drop off).filter (· ≠ 0) =
        [buf.getD off 0].filter (· ≠ 0) ++ (buf.drop (off + 1)).filter (· ≠ 0) := by
    intro buf off hb ho
    have hlt : off < buf.length := by omega
    rw [List.drop_eq_getElem_cons hlt, ← List.singleton_append, List.filter_append,
      List.getD_eq_getElem?_getD, List.getElem?_eq_getElem hlt, Option.getD_some]
  by_cases hoff : p.offset ≥ bufferSize
  · have hdrop : p.readBuffer.drop p.offset = [] := List.drop_eq_nil_of_le (by omega)
    cases hfd : p.fd with
    | nil =>
      refine .inl ⟨by simp [CopaInput.rest, hdrop, hfd, delivered], ?_⟩
      rw [rawNext, if_pos hoff]
      simp [copaRefill, hfd]
    | cons r fd =>
      obtain ⟨bytes, rfl, hne, hle⟩ := hr r (by rw [hfd]; exact List.mem_cons_self ..)
      have hlen : (bytes ++ p.readBuffer.drop bytes.length).length = bufferSize := by
        rw [List.length_append, List.length_drop]; omega
      refine .inr ⟨(bytes ++ p.readBuffer.drop bytes.length).getD 0 0,
        bytes ++ p.readBuffer.drop bytes.length, fd, bytes.length, 1, ?_, hlen,
        fun r hm => hr r (by rw [hfd]; exact List.mem_cons_of_mem _ hm), ?_⟩
      · rw [rawNext, if_pos hoff]
        simp only [copaRefill, hfd, if_neg hne]
      · simp only [CopaInput.rest, hdrop, hfd, delivered, List.filter_nil, List.nil_append]
        rw [← List.append_assoc, ← hstep _ 0 hlen (by decide), List.drop_zero]
  · refine .inr ⟨p.readBuffer.getD p.offset 0, p.readBuffer, p.fd, p.nread, p.offset + 1, ?_, hw, hr, ?_⟩
    · rw [rawNext, if_neg hoff]
    · rw [CopaInput.rest, hstep _ _ hw (by omega), List.append_assoc]

theorem copaDecode_plain {p : CopaInput} (he : p.escape = false) (ho : p.octal = 0) (hx : p.hex = 0)
    {c : UInt8} (hc : c ≠ 92) : copaDecode p c = (c, p) := by
  simp [copaDecode, he, ho, hx, hc]

/-- The loop of `copa_next`: the end, or the next character of the stream. -/
theorem copaNextLoop_rest (p : CopaInput) (hw : p.readBuffer.length = bufferSize)
    (hr : ∀ r ∈ p.fd, GoodRead r) (he : p.escape = false) (ho : p.octal = 0) (hx : p.hex = 0)
    (hplain : ∀ c ∈ p.rest, c ≠ 92) :
    ∃ buf fd n off, buf.length = bufferSize ∧ (∀ r ∈ fd, GoodRead r) ∧
      ((p.rest = [] ∧ (buf.drop off).filter (· ≠ 0) ++ delivered buf fd = [] ∧
        copaNextLoop p =
          (eof, { p with readBuffer := buf, fd, nread := n, offset := off, active := false })) ∨
      ∃ c, p.rest = c :: ((buf.drop off).filter (· ≠ 0) ++ delivered buf fd) ∧
        copaNextLoop p = (c, { p with readBuffer := buf, fd, nread := n, offset := off })) := by
  induction hk : p.left using Nat.strong_induction_on generalizing p with
  | _ k ih =>
  rcases rawNext_rest hw hr with ⟨hnil, hraw⟩ | ⟨c, buf, fd, n, off, hraw, hb, hfd, hrest⟩
  · refine ⟨p.readBuffer, p.fd, 0, p.offset, hw, hr, .inl ⟨hnil, hnil, ?_⟩⟩
    rw [copaNextLoop, hraw]
  · have hlt := (rawNext_left p).1 c (by rw [hraw])
    rw [hraw] at hlt
    by_cases hc : c = 0
    · subst hc
      have hrest' : p.rest =
          ({ p with readBuffer := buf, fd, nread := n, offset := off } : CopaInput).rest := hrest
      obtain ⟨buf', fd', n', off', hb', hfd', hcase⟩ := ih _ (hk ▸ hlt)
        { p with readBuffer := buf, fd, nread := n, offset := off } hb hfd he ho hx
        (hrest' ▸ hplain) rfl
      refine ⟨buf', fd', n', off', hb', hfd', ?_⟩
      rw [copaNextLoop, hraw]
      simp only [copaDecode_plain (p := { p with readBuffer := buf, fd, nread := n, offset := off })
        he ho hx (show (0 : UInt8) ≠ 92 by decide), if_true, hrest']
      exact hcase
    · have hmem : c ∈ p.rest := by rw [hrest]; simp [hc]
      refine ⟨buf, fd, n, off, hb, hfd, .inr ⟨c, by rw [hrest]; simp [hc], ?_⟩⟩
      rw [copaNextLoop, hraw]
      simp only [copaDecode_plain (p := { p with readBuffer := buf, fd, nread := n, offset := off })
        he ho hx (hplain c hmem), if_neg hc]

/-- `p` hands out `cs` and then the end; the byte 0xFF may be among them. -/
structure Hands (p : CopaInput) (cs : Bytes) (a : Bool) : Prop where
  window : p.readBuffer.length = bufferSize
  reads : ∀ r ∈ p.fd, GoodRead r
  escape : p.escape = false
  octal : p.octal = 0
  hex : p.hex = 0
  chars : p.chars = cs
  plain : ∀ c ∈ p.rest, c ≠ 92
  pushback : p.pushback ≠ eof
  active : p.active = a

section Hands
variable {p : CopaInput} {c : UInt8} {cs : Bytes} {a : Bool}

theorem Hands.pending (h : Hands p cs a) (hpb : p.pushback ≠ 0) :
    cs.head? = some p.pushback ∧ p.pushback ≠ eof := by
  have hchars := h.chars
  rw [CopaInput.chars, if_neg hpb] at hchars
  subst hchars
  exact ⟨rfl, h.pushback⟩

theorem Hands.rest_eq (h : Hands p cs a) (hpb : p.pushback = 0) : p.rest = cs := by
  have hchars := h.chars
  rwa [CopaInput.chars, if_pos hpb, List.nil_append] at hchars

theorem hands_next_nil (h : Hands p [] a) : (copaNext p).1 = eof ∧ Hands (copaNext p).2 [] false := by
  have hpb : p.pushback = 0 := by
    by_contra hne
    exact absurd (h.pending hne).1 (by simp)
  have hrest := h.rest_eq hpb
  rw [copaNext, if_neg (by simpa using hpb)]
  obtain ⟨buf, fd, n, off, hb, hfd, ⟨-, hnil, heq⟩ | ⟨c, hcons, -⟩⟩ :=
    copaNextLoop_rest p h.window h.reads h.escape h.octal h.hex h.plain
  · rw [heq]
    refine ⟨rfl, hb, hfd, h.escape, h.octal, h.hex, by rw [CopaInput.chars, if_pos hpb]; exact hnil,
      fun c hc => ?_, h.pushback, rfl⟩
    have hc' : c ∈ (buf.drop off).filter (· ≠ 0) ++ delivered buf fd := hc
    rw [hnil] at hc'
    exact absurd hc' (by simp)
  · rw [hrest] at hcons
    exact absurd hcons (by simp)

theorem hands_next_cons (h : Hands p (c :: cs) a) :
    (copaNext p).1 = c ∧ Hands (copaNext p).2 cs a ∧ (copaNext p).2.pushback = 0 := by
  rw [copaNext]
  by_cases hpb : p.pushback = 0
  · have hrest := h.rest_eq hpb
    rw [if_neg (by simpa using hpb)]
    obtain ⟨buf, fd, n, off, hb, hfd, ⟨hnil, -⟩ | ⟨d, hcons, heq⟩⟩ :=
      copaNextLoop_rest p h.window h.reads h.escape h.octal h.hex h.plain
    · rw [hnil] at hrest
      exact absurd hrest (by simp)
    · have hplain := h.plain
      rw [hrest] at hcons hplain
      obtain ⟨rfl, hcs⟩ := List.cons.inj hcons
      rw [heq]
      refine ⟨rfl, ⟨hb, hfd, h.escape, h.octal, h.hex, ?_, ?_, h.pushback, h.active⟩, hpb⟩
      · rw [CopaInput.chars, if_pos hpb, hcs]
        rfl
      · exact fun e he => hplain e (List.mem_cons_of_mem _ (hcs ▸ he))
  · have hchars := h.chars
    rw [CopaInput.chars, if_neg hpb] at hchars
    obtain ⟨hc, hcs⟩ := List.cons.inj hchars
    rw [if_pos hpb]
    exact ⟨hc, ⟨h.window, h.reads, h.escape, h.octal, h.hex,
      by rw [CopaInput.chars, if_pos rfl]; exact hcs, h.plain, (by decide : (0 : UInt8) ≠ eof), h.active⟩, rfl⟩

theorem Hands.unread (h : Hands p cs a) (hpb : p.pushback = 0) (h0 : c ≠ 0) (hc : c ≠ eof) :
    Hands (p.unread c) (c :: cs) a := by
  refine ⟨h.window, h.reads, h.escape, h.octal, h.hex, ?_, h.plain, hc, h.active⟩
  have hrest := h.rest_eq hpb
  rw [CopaInput.chars, CopaInput.unread, if_neg h0, ← hrest]
  rfl

theorem Hands.stop (h : Hands p cs a) : Hands { p with active := false } cs false :=
  ⟨h.window, h.reads, h.escape, h.octal, h.hex, h.chars, h.plain, h.pushback, rfl⟩

theorem handsStream : CharStream Hands where
  next_nil h := hands_next_nil h
  next_cons h := ⟨(hands_next_cons h).1, (hands_next_cons h).2.1⟩
  unread {p _ _ _} h hc := by
    obtain ⟨h1, h2, h3⟩ := hands_next_cons h
    exact h2.unread h3 (h1 ▸ copaNext_ne_zero p) hc
  stop h := h.stop
  active h := h.active
  pending h hpb := h.pending hpb

end Hands

section Scan
variable {p : CopaInput} {c : UInt8} {cs : Bytes} {a : Bool}

theorem Scan.hands (h : Scan p cs a) : Hands p cs a := by
  have hmem : ∀ c ∈ p.rest, c ∈ cs := fun c hc => h.chars ▸ List.mem_append_right _ hc
  refine ⟨h.window, h.reads, h.escape, h.octal, h.hex, h.chars, fun c hc => (h.plain c (hmem c hc)).2.1,
    ?_, h.active⟩
  by_cases hpb : p.pushback = 0
  · rw [hpb]
    decide
  · refine (h.plain p.pushback ?_).2.2
    rw [← h.chars, CopaInput.chars, if_neg hpb]
    exact List.mem_cons_self ..

theorem Hands.scan (h : Hands p cs a) (hplain : ∀ c ∈ cs, PlainChar c) : Scan p cs a :=
  ⟨h.window, h.reads, h.escape, h.octal, h.hex, h.chars, hplain, h.active⟩

theorem scan_next_nil (h : Scan p [] a) : (copaNext p).1 = eof ∧ Scan (copaNext p).2 [] false := by
  obtain ⟨h1, h2⟩ := hands_next_nil h.hands
  exact ⟨h1, h2.scan h.plain⟩

theorem scan_next_cons (h : Scan p (c :: cs) a) :
    (copaNext p).1 = c ∧ Scan (copaNext p).2 cs a ∧ (copaNext p).2.pushback = 0 := by
  obtain ⟨h1, h2, h3⟩ := hands_next_cons h.hands
  exact ⟨h1, h2.scan (List.forall_mem_cons.mp h.plain).2, h3⟩

theorem Scan.stop (h : Scan p cs a) : Scan { p with active := false } cs false :=
  h.hands.stop.scan h.plain

theorem scanStream : CleanStream Scan where
  next_nil h := scan_next_nil h
  next_cons h := ⟨(scan_next_cons h).1, (scan_next_cons h).2.1⟩
  unread h hc := (handsStream.unread h.hands hc).scan h.plain
  stop h := h.stop
  active h := h.active
  pending h hpb := handsStream.pending h.hands hpb
  ne_eof h c hc := (h.plain c hc).2.2

/-! ## The loops on all characters to come -/

/-- Without 0xFF bytes the loops need not look for them. -/
theorem dropWhile_clean (keep : UInt8 → Bool) (hcs : ∀ c ∈ cs, c ≠ eof) :
    (cs.dropWhile fun c => keep c && c != eof) = cs.dropWhile keep ∧
      (cs.takeWhile fun c => keep c && c != eof) = cs.takeWhile keep := by
  induction cs with
  | nil => exact ⟨rfl, rfl⟩
  | cons c cs ih =>
    obtain ⟨hc, hcs⟩ := List.forall_mem_cons.mp hcs
    obtain ⟨hdrop, htake⟩ := ih hcs
    cases hk : keep c <;> simp [hk, hc, hdrop, htake]

theorem peeked_clean (hcs : ∀ c ∈ cs, c ≠ eof) : peeked cs = cs := by
  cases cs with
  | nil => rfl
  | cons c cs => exact if_neg (List.forall_mem_cons.mp hcs).1

theorem scan_skip (stop : UInt8 → Bool) (h : Scan p cs a) :
    Scan (copaSkip stop p) (cs.dropWhile fun c => !stop c)
      (a && !(cs.dropWhile fun c => !stop c).isEmpty) := by
  have hclean : ∀ c ∈ cs, c ≠ eof := scanStream.ne_eof h
  have hskip : Scan (copaSkip stop p) _ _ := scanStream.skip_drop h fun c => rfl
  rw [(dropWhile_clean (fun c => !stop c) hclean).1,
    peeked_clean fun c hc => hclean c (List.dropWhile_subset _ hc)] at hskip
  exact hskip

/-- Up to the first character of either class, or to the end. -/
def slurpWord (g b : List CharClass) (cs : Bytes) : Bytes :=
  cs.takeWhile fun c => !copaCin c g && !copaCin c b

def slurpRest (g b : List CharClass) (cs : Bytes) : Bytes :=
  cs.dropWhile fun c => !copaCin c g && !copaCin c b

/-- A bad character behind the word. -/
def slurpFails (g : List CharClass) : Bytes → Bool
  | [] => false
  | c :: _ => !copaCin c g

theorem scan_slurp (g b : List CharClass) (ret : Bytes) (h : Scan p cs a) :
    (copaSlurp g b ret p).1 =
      (if slurpFails g (slurpRest g b cs) then none else some (ret ++ slurpWord g b cs)) ∧
    Scan (copaSlurp g b ret p).2 (slurpRest g b cs)
      (a && !(slurpRest g b cs).isEmpty && !slurpFails g (slurpRest g b cs)) := by
  have hclean : ∀ c ∈ cs, c ≠ eof := scanStream.ne_eof h
  obtain ⟨hdrop, htake⟩ := dropWhile_clean (fun c => !copaCin c g && !copaCin c b) hclean
  obtain ⟨hbad, hgood⟩ := scanStream.slurp_drop (g := g) (b := b) ret h fun c => rfl
  rw [hdrop, ← slurpRest] at hbad hgood
  have hrest : ∀ c ∈ slurpRest g b cs, c ≠ eof := fun c hc => hclean c (List.dropWhile_subset _ hc)
  rw [htake, ← slurpWord, peeked_clean hrest] at hgood
  cases hr : slurpRest g b cs with
  | nil => simpa [slurpFails, hr] using hgood (by simp [hr])
  | cons c r =>
    rw [hr] at hbad hgood hrest
    cases hg : copaCin c g with
    | true => simpa [slurpFails, hg] using hgood fun d hd => Or.inl (Option.some.inj hd ▸ hg)
    | false => simpa [slurpFails, hg] using hbad ⟨c, rfl, hg, hrest c (List.mem_cons_self ..)⟩

end Scan

/-! ## Two windows over the same characters -/

/-- `p` and `q` hand out the same characters. -/
def Twin (p q : CopaInput) : Prop := ∃ cs a, Scan p cs a ∧ Scan q cs a

section Twin
variable {p q : CopaInput}

theorem Twin.active (h : Twin p q) : q.active = p.active := by
  obtain ⟨cs, a, hp, hq⟩ := h
  rw [hp.active, hq.active]

theorem Twin.stop (h : Twin p q) : Twin { p with active := false } { q with active := false } := by
  obtain ⟨cs, a, hp, hq⟩ := h
  exact ⟨cs, false, hp.stop, hq.stop⟩

theorem twin_next (h : Twin p q) :
    (copaNext p).1 = (copaNext q).1 ∧ Twin (copaNext p).2 (copaNext q).2 := by
  obtain ⟨cs, a, hp, hq⟩ := h
  cases cs with
  | nil =>
    exact ⟨(scan_next_nil hp).1.trans (scan_next_nil hq).1.symm, _, _, (scan_next_nil hp).2,
      (scan_next_nil hq).2⟩
  | cons c cs =>
    exact ⟨(scan_next_cons hp).1.trans (scan_next_cons hq).1.symm, _, _, (scan_next_cons hp).2.1,
      (scan_next_cons hq).2.1⟩

theorem twin_peek (h : Twin p q) :
    (copaPeek p).1 = (copaPeek q).1 ∧ Twin (copaPeek p).2 (copaPeek q).2 := by
  obtain ⟨cs, a, hp, hq⟩ := h
  cases cs with
  | nil =>
    obtain ⟨hp1, hp2⟩ := scanStream.peek_nil hp
    obtain ⟨hq1, hq2⟩ := scanStream.peek_nil hq
    exact ⟨hp1.trans hq1.symm, _, _, hp2, hq2⟩
  | cons c cs =>
    have hc : c ≠ eof := scanStream.ne_eof hp c (List.mem_cons_self ..)
    obtain ⟨hp1, hp2⟩ := scanStream.peek_cons hp hc
    obtain ⟨hq1, hq2⟩ := scanStream.peek_cons hq hc
    exact ⟨hp1.trans hq1.symm, _, _, hp2, hq2⟩

theorem twin_skipWhitespace (h : Twin p q) : Twin (copaSkipWhitespace p) (copaSkipWhitespace q) := by
  rw [copaSkipWhitespace, copaSkipWhitespace, copaSkipOver, copaSkipOver, h.active]
  split
  · exact h
  · obtain ⟨cs, a, hp, hq⟩ := h
    exact ⟨_, _, scan_skip _ hp, scan_skip _ hq⟩

theorem twin_skipTo (k : List CharClass) (h : Twin p q) : Twin (copaSkipTo p k) (copaSkipTo q k) := by
  rw [copaSkipTo, copaSkipTo, h.active]
  split
  · exact h
  · obtain ⟨cs, a, hp, hq⟩ := h
    exact ⟨_, _, scan_skip _ hp, scan_skip _ hq⟩

theorem twin_slurpTo (g b : List CharClass) (h : Twin p q) :
    (copaSlurpTo p g b).1 = (copaSlurpTo q g b).1 ∧
      Twin (copaSlurpTo p g b).2 (copaSlurpTo q g b).2 := by
  rw [copaSlurpTo, copaSlurpTo, h.active]
  split
  · exact ⟨rfl, h⟩
  · obtain ⟨cs, a, hp, hq⟩ := h
    exact ⟨(scan_slurp g b [] hp).1.trans (scan_slurp g b [] hq).1.symm, _, _, (scan_slurp g b [] hp).2,
      (scan_slurp g b [] hq).2⟩

theorem twin_assertAndPass (k : List CharClass) (h : Twin p q) :
    (copaAssertAndPass p k).1 = (copaAssertAndPass q k).1 ∧
      Twin (copaAssertAndPass p k).2 (copaAssertAndPass q k).2 := by
  obtain ⟨hc, ht⟩ := twin_next h
  rw [copaAssertAndPass, copaAssertAndPass, h.active, hc]
  split
  · exact ⟨rfl, h⟩
  · split
    · exact ⟨rfl, ht.stop⟩
    · exact ⟨rfl, ht⟩

theorem twin_slurpQuoted (h : Twin p q) :
    (copaSlurpQuoted p).1 = (copaSlurpQuoted q).1 ∧
      Twin (copaSlurpQuoted p).2 (copaSlurpQuoted q).2 := by
  obtain ⟨hc, ht⟩ := twin_next h
  rw [copaSlurpQuoted, copaSlurpQuoted, h.active]
  split
  · exact ⟨rfl, h⟩
  · simp only [hc]
    generalize (if copaCin (copaNext q).1 [.squote] then [CharClass.squote] else [.dquote]) = quote
    have hs := twin_slurpTo quote [] ht
    generalize copaSlurpTo (copaNext p).2 quote [] = xp1 at *
    obtain ⟨r, p'⟩ := xp1
    generalize copaSlurpTo (copaNext q).2 quote [] = xq1 at *
    obtain ⟨r', q'⟩ := xq1
    obtain ⟨rfl, ht'⟩ : r = r' ∧ Twin p' q' := hs
    cases r with
    | none => exact ⟨rfl, ht'⟩
    | some ret =>
      have ha := twin_assertAndPass quote ht'
      simp only
      generalize copaAssertAndPass p' quote = xp2 at *
      obtain ⟨ok, p''⟩ := xp2
      generalize copaAssertAndPass q' quote = xq2 at *
      obtain ⟨ok', q''⟩ := xq2
      obtain ⟨rfl, ht''⟩ : ok = ok' ∧ Twin p'' q'' := ha
      cases ok with
      | false => exact ⟨rfl, ht''⟩
      | true => exact ⟨rfl, ht''⟩

theorem twin_slurpLineval (h : Twin p q) :
    (copaSlurpLineval p).1 = (copaSlurpLineval q).1 ∧
      Twin (copaSlurpLineval p).2 (copaSlurpLineval q).2 := by
  rw [copaSlurpLineval, copaSlurpLineval, h.active]
  split
  · exact ⟨rfl, h⟩
  · exact twin_slurpTo _ _ h

theorem twin_slurpValue (h : Twin p q) :
    (copaSlurpValue p).1 = (copaSlurpValue q).1 ∧ Twin (copaSlurpValue p).2 (copaSlurpValue q).2 := by
  obtain ⟨hc, h2⟩ := twin_peek (twin_skipWhitespace h)
  unfold copaSlurpValue
  simp only [hc]
  split
  · exact twin_slurpQuoted h2
  · exact twin_slurpLineval h2

end Twin

section Parser
variable {σ : Type} {cb : Callbacks σ} {i j : CopaInput} {s : CopaStatus} {u : σ} {t : List CopaEvent}

/-- Two parsers that differ in the window only. -/
inductive TwinParser : CopaParser σ → CopaParser σ → Prop where
  | mk {i j : CopaInput} (h : Twin i j) (s : CopaStatus) (u : σ) (t : List CopaEvent) :
      TwinParser ⟨i, s, u, t⟩ ⟨j, s, u, t⟩

theorem twin_reportAssign (h : Twin i j) (name value : Bytes) :
    TwinParser (reportAssign cb ⟨i, s, u, t⟩ name value) (reportAssign cb ⟨j, s, u, t⟩ name value) := by
  unfold reportAssign
  cases cb.assign with
  | none => exact .mk h ..
  | some f => simp only; split <;> exact .mk h ..

theorem twin_reportBlock (h : Twin i j) (isEnd : Bool) (block : Bytes) :
    TwinParser (reportBlock cb ⟨i, s, u, t⟩ isEnd block) (reportBlock cb ⟨j, s, u, t⟩ isEnd block) := by
  unfold reportBlock
  cases (if isEnd then cb.blockEnd else cb.blockStart) with
  | none => exact .mk h ..
  | some f => exact .mk h ..

theorem twin_parseAssignment (h : Twin i j) :
    TwinParser (copaParseAssignment cb ⟨i, s, u, t⟩).2 (copaParseAssignment cb ⟨j, s, u, t⟩).2 := by
  unfold copaParseAssignment
  simp only [h.active]
  split
  · exact .mk h ..
  · have hs := twin_slurpTo [.whitespace] [.comment, .newline] h
    generalize copaSlurpTo i [.whitespace] [.comment, .newline] = xi1 at *
    obtain ⟨r, i'⟩ := xi1
    generalize copaSlurpTo j [.whitespace] [.comment, .newline] = xj1 at *
    obtain ⟨r', j'⟩ := xj1
    obtain ⟨rfl, h'⟩ : r = r' ∧ Twin i' j' := hs
    cases r with
    | none => exact .mk h' ..
    | some name =>
      have hv := twin_slurpValue h'
      simp only
      generalize copaSlurpValue i' = xi2 at *
      obtain ⟨v, i''⟩ := xi2
      generalize copaSlurpValue j' = xj2 at *
      obtain ⟨v', j''⟩ := xj2
      obtain ⟨rfl, h3⟩ : v = v' ∧ Twin i'' j'' := hv
      cases v with
      | none => exact .mk h3.stop ..
      | some value => exact twin_reportAssign h3 name value

theorem twin_parseBlock (h : Twin i j) :
    TwinParser (copaParseBlock cb ⟨i, s, u, t⟩).2 (copaParseBlock cb ⟨j, s, u, t⟩).2 := by
  unfold copaParseBlock
  simp only [h.active]
  split
  · exact .mk h ..
  · have hl := twin_assertAndPass [.lbracket] h
    generalize copaAssertAndPass i [.lbracket] = xi1 at *
    obtain ⟨ok, i'⟩ := xi1
    generalize copaAssertAndPass j [.lbracket] = xj1 at *
    obtain ⟨ok', j'⟩ := xj1
    obtain ⟨rfl, h'⟩ : ok = ok' ∧ Twin i' j' := hl
    cases ok with
    | false => exact .mk h' ..
    | true =>
      obtain ⟨hc, h2⟩ := twin_peek h'
      have h3 : Twin (if copaCin (copaPeek i').1 [.slash] then (copaNext (copaPeek i').2).2
            else (copaPeek i').2)
          (if copaCin (copaPeek j').1 [.slash] then (copaNext (copaPeek j').2).2
            else (copaPeek j').2) := by
        rw [hc]
        split
        · exact (twin_next h2).2
        · exact h2
      simp only [hc] at h3 ⊢
      generalize copaCin (copaPeek j').1 [.slash] = isEnd at h3 ⊢
      generalize (if isEnd = true then (copaNext (copaPeek i').2).2 else (copaPeek i').2) = i2 at h3 ⊢
      generalize (if isEnd = true then (copaNext (copaPeek j').2).2 else (copaPeek j').2) = j2 at h3 ⊢
      have hs := twin_slurpTo [.rbracket] [.comment, .newline] h3
      generalize copaSlurpTo i2 [.rbracket] [.comment, .newline] = xi30 at *
      obtain ⟨r, i3⟩ := xi30
      generalize copaSlurpTo j2 [.rbracket] [.comment, .newline] = xj30 at *
      obtain ⟨r', j3⟩ := xj30
      obtain ⟨rfl, h4⟩ : r = r' ∧ Twin i3 j3 := hs
      cases r with
      | none => exact .mk h4 ..
      | some block =>
        have hr := twin_assertAndPass [.rbracket] h4
        simp only
        generalize copaAssertAndPass i3 [.rbracket] = xi40 at *
        obtain ⟨ok, i4⟩ := xi40
        generalize copaAssertAndPass j3 [.rbracket] = xj40 at *
        obtain ⟨ok', j4⟩ := xj40
        obtain ⟨rfl, h5⟩ : ok = ok' ∧ Twin i4 j4 := hr
        cases ok with
        | false => exact .mk h5 ..
        | true => exact twin_reportBlock h5 isEnd block

theorem twin_parseLine {p q : CopaParser σ} (h : TwinParser p q) :
    TwinParser (copaParseLine cb p) (copaParseLine cb q) := by
  obtain ⟨h, s, u, t⟩ := h
  obtain ⟨hc, h2⟩ := twin_peek (twin_skipWhitespace h)
  unfold copaParseLine
  simp only [hc]
  split
  · exact .mk (twin_skipTo _ h2) ..
  · split
    · exact twin_parseBlock h2
    · exact twin_parseAssignment h2

theorem TwinParser.active {p q : CopaParser σ} (h : TwinParser p q) :
    q.input.active = p.input.active := by
  obtain ⟨h, s, u, t⟩ := h
  exact h.active

theorem twin_loop (cb : Callbacks σ) (p : CopaParser σ) :
    ∀ q, TwinParser p q → TwinParser (copaLoop cb p) (copaLoop cb q) := by
  induction p using copaLoop.induct cb with
  | case1 p ha ih =>
    intro q h
    rw [copaLoop_active cb ha, copaLoop_active cb (h.active.trans ha)]
    exact ih _ (twin_parseLine h)
  | case2 p ha =>
    intro q h
    rwa [copaLoop_stopped cb ha, copaLoop_stopped cb (by rwa [h.active])]

end Parser

end Sighttpd.L3
