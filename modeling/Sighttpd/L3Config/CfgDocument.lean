import Sighttpd.L3Config.CfgCuts

/-!
# Configuration documents

A document is a sequence of lines as the manual page describes them: comments run from
`#` to the end of the line, a directive is a keyword, whitespace and a value that is
quoted or runs to the end of the line or to a comment, and block tags stand in brackets.
The parser has no lines of its own: it stops behind a value or a tag, and what is left
of the line is skipped, or is the comment, of the next call of `copa_parse_line`.

* `stream_firstChar`, `stream_word`: blanks in front of a character, and a word up to one.
* `parseLine_comment`, `parseLine_block`, `parseLine_directive`: what one call reports.
* `loop_line`, `loop_document`: a line, and a whole document behind any blanks.
* `document_reported`: the callbacks are called for the lines, in their order, with what
  is written there.
-/
namespace Sighttpd.L3

/-- The value of a directive, `quoted` in double or single quotes. -/
inductive CfgValue where
  | unquoted (text : Bytes)
  | quoted (quote : UInt8) (text : Bytes)
  deriving DecidableEq, Repr

/-- What a line says, less blanks and comments. -/
inductive CfgBody where
  | blank
  | directive (name blanks : Bytes) (value : CfgValue)
  | blockStart (name : Bytes)
  | blockEnd (name : Bytes)
  deriving DecidableEq, Repr

structure CfgLine where
  lead : Bytes
  body : CfgBody
  trail : Bytes
  comment : Option Bytes
  deriving DecidableEq, Repr

/-! ## Text -/

def CfgValue.text : CfgValue → Bytes
  | unquoted text => text
  | quoted _ text => text

def CfgValue.print : CfgValue → Bytes
  | unquoted text => text
  | quoted quote text => quote :: (text ++ [quote])

def CfgBody.print : CfgBody → Bytes
  | blank => []
  | directive name blanks value => name ++ (blanks ++ value.print)
  | blockStart name => 60 :: (name ++ [62])
  | blockEnd name => 60 :: 47 :: (name ++ [62])

def printComment : Option Bytes → Bytes
  | none => []
  | some text => 35 :: text

def CfgLine.print (l : CfgLine) : Bytes :=
  l.lead ++ (l.body.print ++ (l.trail ++ (printComment l.comment ++ [10])))

def printDocument (doc : List CfgLine) : Bytes := doc.flatMap CfgLine.print

/-! ## Well-formed lines -/

def Blanks (s : Bytes) : Prop := ∀ c ∈ s, isspace c = true

/-- An unquoted value starts with neither a blank nor a quote. -/
def CfgValue.Ok : CfgValue → Prop
  | unquoted text =>
    text ≠ [] ∧ (∀ c ∈ text.head?, isspace c = false ∧ c ≠ 34 ∧ c ≠ 39) ∧
      ∀ c ∈ text, c ≠ 35 ∧ c ≠ 10 ∧ c ≠ 13
  | quoted quote text => (quote = 34 ∨ quote = 39) ∧ quote ∉ text

/-- The name of a block. -/
def TagName (name : Bytes) : Prop := ∀ c ∈ name, c ≠ 62 ∧ c ≠ 35 ∧ c ≠ 10 ∧ c ≠ 13

def CfgBody.Ok : CfgBody → Prop
  | blank => True
  | directive name blanks value =>
    (name ≠ [] ∧ (∀ c ∈ name, isspace c = false ∧ c ≠ 35) ∧ name.head? ≠ some 60) ∧
      (blanks ≠ [] ∧ Blanks blanks) ∧ value.Ok
  | blockStart name => TagName name ∧ name.head? ≠ some 47
  | blockEnd name => TagName name

/-- An unquoted value: blanks behind it are part of it. -/
def CfgBody.runsOn : CfgBody → Bool
  | directive _ _ (.unquoted _) => true
  | _ => false

structure CfgLine.Ok (l : CfgLine) : Prop where
  lead : Blanks l.lead
  body : l.body.Ok
  trail : Blanks l.trail
  runsOn : l.body.runsOn = true → l.trail = []
  comment : ∀ text, l.comment = some text → ∀ c ∈ text, c ≠ 10 ∧ c ≠ 13

/-! ## What a line means -/

/-- What the callbacks do, all of which return `COPA_OK`. -/
structure Handlers (σ : Type) where
  blockStart : Bytes → σ → σ
  blockEnd : Bytes → σ → σ
  assign : Bytes → Bytes → σ → σ

def Handlers.callbacks {σ : Type} (h : Handlers σ) : Callbacks σ where
  blockStart := some fun name user => (.ok, h.blockStart name user)
  blockEnd := some fun name user => (.ok, h.blockEnd name user)
  assign := some h.assign

/-- The call that a line stands for. -/
def CfgBody.events : CfgBody → List CopaEvent
  | blank => []
  | directive name _ value => [.assign name value.text true]
  | blockStart name => [.blockStart name (some .ok)]
  | blockEnd name => [.blockEnd name (some .ok)]

def CfgBody.run {σ : Type} (h : Handlers σ) : CfgBody → σ → σ
  | blank => id
  | directive name _ value => h.assign name value.text
  | blockStart name => h.blockStart name
  | blockEnd name => h.blockEnd name

/-! ## Blanks and words -/

section Chars
variable {R : CopaInput → Bytes → Bool → Prop} (hR : CleanStream R) {i : CopaInput} {ws cs w : Bytes}
  {c : UInt8}
include hR

theorem stream_skipBlanks (h : R i (ws ++ c :: cs) true) (hws : Blanks ws) (hc : isspace c = false) :
    R (copaSkipWhitespace i) (c :: cs) true := by
  rw [copaSkipWhitespace, copaSkipOver, if_neg (by simp [hR.active h])]
  refine hR.skip_stop h (fun d hd => ⟨?_, hR.ne_eof h d (List.mem_append_left _ hd)⟩) ?_ ?_
  · simp [copaCin, CharClass.has, hws d hd]
  · simp [copaCin, CharClass.has, hc]
  · exact hR.ne_eof h c (List.mem_append_right _ (List.mem_cons_self ..))

/-- The character a line starts with, behind its blanks. -/
theorem stream_firstChar (h : R i (ws ++ c :: cs) true) (hws : Blanks ws) (hc : isspace c = false) :
    (copaPeek (copaSkipWhitespace i)).1 = c ∧ R (copaPeek (copaSkipWhitespace i)).2 (c :: cs) true :=
  hR.peek_cons (stream_skipBlanks hR h hws hc) (hR.ne_eof h c (List.mem_append_right _ (List.mem_cons_self ..)))

/-- A word up to a character that may end it. -/
theorem stream_word {g b : List CharClass} (h : R i (w ++ c :: cs) true)
    (hw : ∀ c ∈ w, copaCin c g = false ∧ copaCin c b = false) (hc : copaCin c g = true) :
    (copaSlurpTo i g b).1 = some w ∧ R (copaSlurpTo i g b).2 (c :: cs) true := by
  rw [copaSlurpTo, if_neg (by simp [hR.active h])]
  refine hR.slurp_good [] h (fun d hd => ?_) hc
  obtain ⟨hg, hb⟩ := hw d hd
  exact ⟨hg, hb, hR.ne_eof h d (List.mem_append_left _ hd)⟩

/-- The slash of a tag is passed, or none is seen. -/
theorem stream_slash {slash name : Bytes} (hslash : slash = [47] ∨ slash = [] ∧ name.head? ≠ some 47)
    (h : R i (slash ++ (name ++ 62 :: cs)) true) : copaCin (copaPeek i).1 [.slash] = !slash.isEmpty ∧
      R (if copaCin (copaPeek i).1 [.slash] = true then (copaNext (copaPeek i).2).2
        else (copaPeek i).2) (name ++ 62 :: cs) true := by
  rcases hslash with rfl | ⟨rfl, hhead⟩
  · obtain ⟨hp1, hp2⟩ := hR.peek_cons h (by decide)
    rw [hp1]
    exact ⟨by decide, (hR.next_cons hp2).2⟩
  · obtain ⟨c, d, hcd⟩ := List.exists_cons_of_ne_nil (l := name ++ 62 :: cs) (by simp)
    have hc : c ≠ 47 := by
      intro heq
      subst heq
      cases name with
      | nil => exact absurd (List.cons.inj hcd).1 (by decide)
      | cons b name => exact hhead (by rw [← (List.cons.inj hcd).1]; rfl)
    rw [List.nil_append, hcd] at h
    obtain ⟨hp1, hp2⟩ := hR.peek_cons h (hR.ne_eof h c (List.mem_cons_self ..))
    have hno : copaCin c [.slash] = false := by simp [copaCin, CharClass.has, hc]
    rw [hp1, hno, hcd]
    exact ⟨rfl, by simpa using hp2⟩

theorem stream_unquoted {text : Bytes} (hv : (CfgValue.unquoted text).Ok) (hws : Blanks ws)
    (hc : c = 35 ∨ c = 10) (h : R i (ws ++ (text ++ c :: cs)) true) :
    (copaSlurpValue i).1 = some text ∧ R (copaSlurpValue i).2 (c :: cs) true := by
  obtain ⟨hne, hhead, htext⟩ := hv
  obtain ⟨d, t, rfl⟩ := List.exists_cons_of_ne_nil hne
  obtain ⟨hd, hdq, hsq⟩ := hhead d rfl
  have h0 : R i (ws ++ d :: (t ++ c :: cs)) true := h
  obtain ⟨h1, h2⟩ := stream_firstChar hR h0 hws hd
  unfold copaSlurpValue
  generalize copaPeek (copaSkipWhitespace i) = x at *
  obtain ⟨d', i'⟩ := x
  obtain rfl : d' = d := h1
  have h3 : R i' (d' :: (t ++ c :: cs)) true := h2
  have hquote : copaCin d' [.dquote, .squote] = false := by simp [copaCin, CharClass.has, hdq, hsq]
  simp only [hquote, Bool.false_eq_true, if_false]
  rw [copaSlurpLineval, if_neg (by simp [hR.active h3])]
  refine stream_word hR h3 (fun e he => ?_) (by rcases hc with rfl | rfl <;> decide)
  obtain ⟨h35, h10, h13⟩ := htext e he
  simp [copaCin, CharClass.has, h35, h10, h13]

theorem stream_quoted {quote : UInt8} {text : Bytes} (hv : (CfgValue.quoted quote text).Ok)
    (hws : Blanks ws) (h : R i (ws ++ (quote :: (text ++ [quote]) ++ cs)) true) :
    (copaSlurpValue i).1 = some text ∧ R (copaSlurpValue i).2 cs true := by
  obtain ⟨hq, htext⟩ := hv
  have h' : R i (ws ++ quote :: (text ++ quote :: cs)) true := by simpa using h
  have hspace : isspace quote = false := by rcases hq with rfl | rfl <;> decide
  obtain ⟨h1, h2⟩ := stream_firstChar hR h' hws hspace
  unfold copaSlurpValue
  generalize copaPeek (copaSkipWhitespace i) = x at *
  obtain ⟨d, i1⟩ := x
  obtain rfl : d = quote := h1
  have h3 : R i1 (d :: (text ++ d :: cs)) true := h2
  have hquote : copaCin d [.dquote, .squote] = true := by rcases hq with rfl | rfl <;> decide
  simp only [hquote, if_true]
  obtain ⟨hn1, hn2⟩ := hR.next_cons h3
  rw [copaSlurpQuoted, if_neg (by simp [hR.active h3])]
  simp only [hn1]
  -- the class that ends the value is that of the quote it started with
  generalize hk : (if copaCin d [.squote] = true then [CharClass.squote] else [.dquote]) = k
  have hk' : ∀ c, copaCin c k = (c == d) := by
    intro c
    rw [← hk]
    rcases hq with rfl | rfl <;> simp [copaCin, CharClass.has]
  have hword : ∀ e ∈ text, copaCin e k = false ∧ copaCin e [] = false := fun e he =>
    ⟨by rw [hk']; simpa using fun heq : e = d => htext (heq ▸ he), rfl⟩
  obtain ⟨hs1, hs2⟩ := stream_word hR hn2 hword (by rw [hk']; simp)
  generalize copaSlurpTo (copaNext i1).2 k [] = y at *
  obtain ⟨r, i2⟩ := y
  obtain rfl : r = some text := hs1
  obtain ⟨ha1, ha2⟩ := hR.assertAndPass_cons k hs2
  simp only
  generalize copaAssertAndPass i2 k = z at *
  obtain ⟨ok, i3⟩ := z
  obtain rfl : ok = true := ha1.trans (by rw [hk']; simp)
  exact ⟨rfl, by simpa [hk'] using ha2⟩

end Chars

/-! ## One call of `copa_parse_line` -/

section Lines
variable {R : CopaInput → Bytes → Bool → Prop} (hR : CleanStream R) {σ : Type} (cb : Callbacks σ)
  {i : CopaInput} {ws cs : Bytes} {u : σ} {t : List CopaEvent}
include hR

theorem parseLine_comment {text : Bytes} (hws : Blanks ws) (htext : ∀ c ∈ text, c ≠ 10 ∧ c ≠ 13)
    (h : R i (ws ++ 35 :: (text ++ 10 :: cs)) true) :
    ∃ i', R i' (10 :: cs) true ∧ copaParseLine cb ⟨i, .ok, u, t⟩ = ⟨i', .ok, u, t⟩ := by
  obtain ⟨h1, h2⟩ := stream_firstChar hR h hws (by decide)
  have h3 : R (copaPeek (copaSkipWhitespace i)).2 (35 :: text ++ 10 :: cs) true := h2
  have hs : R (copaSkipTo (copaPeek (copaSkipWhitespace i)).2 [.newline]) (10 :: cs) true := by
    rw [copaSkipTo, if_neg (by simp [hR.active h2])]
    refine hR.skip_stop h3 (fun c hc => ⟨?_, hR.ne_eof h3 c (List.mem_append_left _ hc)⟩) (by rfl) (by decide)
    rcases List.mem_cons.mp hc with rfl | hc
    · rfl
    · simp [copaCin, CharClass.has, htext c hc]
  refine ⟨_, hs, ?_⟩
  unfold copaParseLine
  simp only [h1]
  rfl

/-- A tag: `slash` is the `/` of a block end, or nothing. -/
theorem parseLine_block {slash name : Bytes} (hws : Blanks ws) (hname : TagName name)
    (hslash : slash = [47] ∨ slash = [] ∧ name.head? ≠ some 47)
    (h : R i (ws ++ 60 :: (slash ++ (name ++ 62 :: cs))) true) :
    ∃ i', R i' cs true ∧ copaParseLine cb ⟨i, .ok, u, t⟩ =
      reportBlock cb ⟨i', .ok, u, t⟩ (!slash.isEmpty) name := by
  obtain ⟨h1, h2⟩ := stream_firstChar hR h hws (by decide)
  unfold copaParseLine
  simp only [h1]
  generalize (copaPeek (copaSkipWhitespace i)).2 = i1 at *
  rw [if_neg (by decide), if_pos (by decide), copaParseBlock, if_neg (by simp [hR.active h2])]
  obtain ⟨hl1, hl2⟩ := hR.assertAndPass_cons [.lbracket] h2
  simp only
  generalize copaAssertAndPass i1 [.lbracket] = x at *
  obtain ⟨ok, i2⟩ := x
  obtain rfl : ok = true := hl1
  have hl3 : R i2 (slash ++ (name ++ 62 :: cs)) true := hl2
  simp only
  obtain ⟨he1, he2⟩ := stream_slash hR hslash hl3
  rw [he1] at he2 ⊢
  generalize (if (!slash.isEmpty) = true then (copaNext (copaPeek i2).2).2
    else (copaPeek i2).2) = i3 at *
  have hword : ∀ e ∈ name, copaCin e [.rbracket] = false ∧ copaCin e [.comment, .newline] = false := by
    intro e he
    obtain ⟨h62, h35, h10, h13⟩ := hname e he
    simp [copaCin, CharClass.has, h62, h35, h10, h13]
  obtain ⟨hs1, hs2⟩ := stream_word hR he2 hword (by rfl)
  generalize copaSlurpTo i3 [.rbracket] [.comment, .newline] = y at *
  obtain ⟨r, i4⟩ := y
  obtain rfl : r = some name := hs1
  obtain ⟨hr1, hr2⟩ := hR.assertAndPass_cons [.rbracket] hs2
  simp only
  generalize copaAssertAndPass i4 [.rbracket] = z at *
  obtain ⟨ok, i5⟩ := z
  obtain rfl : ok = true := hr1
  exact ⟨i5, hr2, rfl⟩

theorem parseLine_directive {name blanks : Bytes} {value : CfgValue} (hws : Blanks ws)
    (hok : (CfgBody.directive name blanks value).Ok)
    (hrun : (CfgBody.directive name blanks value).runsOn = true →
      ∃ c cs', cs = c :: cs' ∧ (c = 35 ∨ c = 10))
    (h : R i (ws ++ (name ++ (blanks ++ value.print) ++ cs)) true) :
    ∃ i', R i' cs true ∧ copaParseLine cb ⟨i, .ok, u, t⟩ =
      reportAssign cb ⟨i', .ok, u, t⟩ name value.text := by
  obtain ⟨⟨hne, hname, hhead⟩, ⟨hbne, hblanks⟩, hv⟩ := hok
  obtain ⟨b, bs, rfl⟩ := List.exists_cons_of_ne_nil hbne
  obtain ⟨c, cs', rfl⟩ := List.exists_cons_of_ne_nil hne
  obtain ⟨hsp, h35⟩ := hname c (List.mem_cons_self ..)
  have h60 : c ≠ 60 := by simpa using hhead
  have h' : R i (ws ++ c :: (cs' ++ b :: (bs ++ (value.print ++ cs)))) true := by simpa using h
  obtain ⟨h1, h2⟩ := stream_firstChar hR h' hws hsp
  unfold copaParseLine
  simp only [h1]
  generalize (copaPeek (copaSkipWhitespace i)).2 = i1 at *
  rw [if_neg (by simp [copaCin, CharClass.has, h35]), if_neg (by simp [copaCin, CharClass.has, h60]),
    copaParseAssignment, if_neg (by simp [hR.active h2])]
  have hword : ∀ e ∈ c :: cs', copaCin e [.whitespace] = false ∧ copaCin e [.comment, .newline] = false := by
    intro e he
    obtain ⟨hsp, h35⟩ := hname e he
    have h10 : e ≠ 10 := by rintro rfl; exact absurd hsp (by decide)
    have h13 : e ≠ 13 := by rintro rfl; exact absurd hsp (by decide)
    simp [copaCin, CharClass.has, hsp, h35, h10, h13]
  obtain ⟨hs1, hs2⟩ := stream_word hR h2 hword
    (by simpa [copaCin, CharClass.has] using hblanks b (List.mem_cons_self ..))
  simp only
  generalize copaSlurpTo i1 [.whitespace] [.comment, .newline] = x at *
  obtain ⟨r, i2⟩ := x
  obtain rfl : r = some (c :: cs') := hs1
  have hval : (copaSlurpValue i2).1 = some value.text ∧ R (copaSlurpValue i2).2 cs true := by
    rw [← List.cons_append] at hs2
    cases value with
    | unquoted text =>
      obtain ⟨d, ds, rfl, hd⟩ := hrun rfl
      exact stream_unquoted hR hv hblanks hd hs2
    | quoted quote text => exact stream_quoted hR hv hblanks hs2
  simp only
  generalize copaSlurpValue i2 = y at *
  obtain ⟨r, i3⟩ := y
  obtain rfl : r = some value.text := hval.1
  exact ⟨i3, hval.2, rfl⟩

/-- Only blanks are left: the end of the input is found, and the parser stops. -/
theorem loop_end (hws : Blanks ws) (h : R i ws true) :
    ∃ i', copaLoop cb ⟨i, .ok, u, t⟩ = ⟨i', .ok, u, t⟩ := by
  have hs : R (copaSkipWhitespace i) [] false := by
    rw [copaSkipWhitespace, copaSkipOver, if_neg (by simp [hR.active h])]
    exact hR.skip_end h fun c hc => ⟨by simp [copaCin, CharClass.has, hws c hc], hR.ne_eof h c hc⟩
  obtain ⟨h1, h2⟩ := hR.peek_nil hs
  have hline : copaParseLine cb ⟨i, .ok, u, t⟩ =
      ⟨(copaPeek (copaSkipWhitespace i)).2, .ok, u, t⟩ := by
    unfold copaParseLine
    simp only [h1, copaCin_eof]
    rw [if_neg (by simp), if_neg (by simp), copaParseAssignment,
      if_pos (by simp [hR.active h2])]
  refine ⟨(copaPeek (copaSkipWhitespace i)).2, ?_⟩
  rw [copaLoop_active _ (hR.active h), hline,
    copaLoop_stopped _ (by simp [hR.active h2])]

end Lines

/-! ## Lines and documents -/

section Documents
variable {σ : Type} (hd : Handlers σ) {i : CopaInput} {ws cs : Bytes} {u : σ} {t : List CopaEvent}

/-- What a line says, with the blanks left in front of it. -/
theorem loop_body {body : CfgBody} (hws : Blanks ws) (hok : body.Ok)
    (hrun : body.runsOn = true → ∃ c cs', cs = c :: cs' ∧ (c = 35 ∨ c = 10))
    (h : Scan i (ws ++ (body.print ++ cs)) true) :
    ∃ i' ws', Blanks ws' ∧ Scan i' (ws' ++ cs) true ∧ copaLoop hd.callbacks ⟨i, .ok, u, t⟩ =
      copaLoop hd.callbacks ⟨i', .ok, body.run hd u, t ++ body.events⟩ := by
  have hnil : Blanks [] := fun c hc => (by cases hc)
  cases body with
  | blank => exact ⟨i, ws, hws, h, by rw [CfgBody.events, List.append_nil]; rfl⟩
  | directive name blanks value =>
    obtain ⟨i', hi', heq⟩ := parseLine_directive scanStream hd.callbacks (u := u) (t := t) hws hok hrun h
    refine ⟨i', [], hnil, hi', ?_⟩
    rw [copaLoop_active _ h.active, heq]
    rfl
  | blockStart name =>
    have hline : Scan i (ws ++ 60 :: ([] ++ (name ++ 62 :: cs))) true := by
      simpa [CfgBody.print] using h
    obtain ⟨i', hi', heq⟩ := parseLine_block scanStream hd.callbacks (u := u) (t := t) hws hok.1 (.inr ⟨rfl, hok.2⟩) hline
    refine ⟨i', [], hnil, hi', ?_⟩
    rw [copaLoop_active _ h.active, heq]
    rfl
  | blockEnd name =>
    have hline : Scan i (ws ++ 60 :: ([47] ++ (name ++ 62 :: cs))) true := by
      simpa [CfgBody.print] using h
    obtain ⟨i', hi', heq⟩ := parseLine_block scanStream hd.callbacks (u := u) (t := t) hws hok (.inl rfl) hline
    refine ⟨i', [], hnil, hi', ?_⟩
    rw [copaLoop_active _ h.active, heq]
    rfl

theorem loop_comment {comment : Option Bytes} (hws : Blanks ws)
    (htext : ∀ text, comment = some text → ∀ c ∈ text, c ≠ 10 ∧ c ≠ 13)
    (h : Scan i (ws ++ (printComment comment ++ 10 :: cs)) true) :
    ∃ i' ws', Blanks ws' ∧ Scan i' (ws' ++ 10 :: cs) true ∧
      copaLoop hd.callbacks ⟨i, .ok, u, t⟩ = copaLoop hd.callbacks ⟨i', .ok, u, t⟩ := by
  cases comment with
  | none => exact ⟨i, ws, hws, h, rfl⟩
  | some text =>
    obtain ⟨i', hi', heq⟩ := parseLine_comment scanStream hd.callbacks (u := u) (t := t) hws (htext text rfl) h
    exact ⟨i', [], fun c hc => (by cases hc), hi', by rw [copaLoop_active _ h.active, heq]⟩

theorem Blanks.append {s s' : Bytes} (h : Blanks s) (h' : Blanks s') : Blanks (s ++ s') :=
  List.forall_mem_append.mpr ⟨h, h'⟩

theorem loop_line {l : CfgLine} (hws : Blanks ws) (hok : l.Ok)
    (h : Scan i (ws ++ (l.print ++ cs)) true) :
    ∃ i' ws', Blanks ws' ∧ Scan i' (ws' ++ cs) true ∧ copaLoop hd.callbacks ⟨i, .ok, u, t⟩ =
      copaLoop hd.callbacks ⟨i', .ok, l.body.run hd u, t ++ l.body.events⟩ := by
  obtain ⟨lead, body, trail, comment⟩ := l
  obtain ⟨hlead, hbody, htrail, hrun, hcomment⟩ := hok
  -- the blanks in front, what the line says, and what follows that
  have hline : Scan i (ws ++ lead ++
      (body.print ++ (trail ++ (printComment comment ++ 10 :: cs)))) true := by
    simpa [CfgLine.print] using h
  obtain ⟨i1, ws1, hws1, h1, heq1⟩ := loop_body hd (u := u) (t := t) (hws.append hlead) hbody
    (fun hb => by
      rw [show trail = [] from hrun hb]
      cases comment with
      | none => exact ⟨10, cs, rfl, .inr rfl⟩
      | some text => exact ⟨35, text ++ 10 :: cs, rfl, .inl rfl⟩)
    hline
  obtain ⟨i2, ws2, hws2, h2, heq2⟩ := loop_comment hd (u := body.run hd u) (t := t ++ body.events)
    (hws1.append htrail) hcomment (by simpa using h1)
  -- the newline is a blank of the next line
  exact ⟨i2, ws2 ++ [10], hws2.append fun c hc => by rw [List.mem_singleton.mp hc]; decide,
    by simpa using h2, heq1.trans heq2⟩

theorem loop_document (doc : List CfgLine) (hok : ∀ l ∈ doc, l.Ok) :
    ∀ {i : CopaInput} {ws : Bytes} {u : σ} {t : List CopaEvent}, Blanks ws →
      Scan i (ws ++ printDocument doc) true →
      ∃ i', copaLoop hd.callbacks ⟨i, .ok, u, t⟩ =
        ⟨i', .ok, doc.foldl (fun u l => l.body.run hd u) u,
          t ++ doc.flatMap fun l => l.body.events⟩ := by
  induction doc with
  | nil =>
    intro i ws u t hws h
    rw [printDocument, List.flatMap_nil, List.append_nil] at h
    simpa using loop_end scanStream hd.callbacks hws h
  | cons l doc ih =>
    intro i ws u t hws h
    obtain ⟨hl, hdoc⟩ := List.forall_mem_cons.mp hok
    rw [printDocument, List.flatMap_cons] at h
    obtain ⟨i1, ws1, hws1, h1, heq1⟩ := loop_line hd (u := u) (t := t) hws hl h
    obtain ⟨i2, heq2⟩ := ih hdoc hws1 h1
    refine ⟨i2, heq1.trans (heq2.trans ?_)⟩
    rw [List.foldl_cons, List.flatMap_cons, List.append_assoc]

end Documents

theorem rising_of_full {m : Nat} (hm : m ≤ bufferSize) {pieces : List Bytes}
    (h : ∀ q ∈ pieces, q.length = bufferSize) : Rising m pieces := by
  induction pieces generalizing m with
  | nil => trivial
  | cons q pieces ih =>
    obtain ⟨hq, h'⟩ := List.forall_mem_cons.mp h
    exact ⟨by omega, ih (by omega) h'⟩

/-- **Documents.** A document of well-formed lines, read eight bytes at a time: the
callbacks are called for its lines, in their order and with what they say, and nothing
else is called. -/
theorem document_reported {σ : Type} (hd : Handlers σ) (user : σ) {doc : List CfgLine}
    {pieces : List Bytes} (hok : ∀ l ∈ doc, l.Ok)
    (hascii : ∀ c ∈ printDocument doc, c < 128 ∧ c ≠ 0 ∧ c ≠ 92)
    (hne : pieces ≠ []) (hfull : ∀ q ∈ pieces, q.length = 8)
    (hread : pieces.flatten = printDocument doc) :
    (copaReadFd hd.callbacks (pieces.map some) user).1 = .ok ∧
    (copaReadFd hd.callbacks (pieces.map some) user).2.trace = doc.flatMap (fun l => l.body.events) ∧
    (copaReadFd hd.callbacks (pieces.map some) user).2.user =
      doc.foldl (fun u l => l.body.run hd u) user := by
  have hsize : ∀ q ∈ pieces, q ≠ [] ∧ q.length ≤ bufferSize := fun q hq =>
    ⟨by rintro rfl; exact absurd (hfull [] hq) (by decide), (hfull q hq).le⟩
  have hplain : ∀ c ∈ pieces.flatten, PlainChar c := fun c hc => by
    obtain ⟨h128, h0, h92⟩ := hascii c (hread ▸ hc)
    exact ⟨h0, h92, by rintro rfl; exact absurd h128 (by decide)⟩
  have hpl0 : ∀ q ∈ pieces, ∀ c ∈ q, c ≠ 0 :=
    fun q hq c hcq => (hplain c (List.mem_flatten.mpr ⟨q, hq, hcq⟩)).1
  obtain ⟨h1, h2⟩ := refill_start hne hsize hplain
  rw [delivered_rising hsize hpl0 [] (rising_of_full (Nat.zero_le _) hfull), hread] at h2
  have h3 : Scan (cfgStart pieces) ([] ++ printDocument doc) true := h2
  obtain ⟨i', heq⟩ := loop_document hd doc hok (u := user) (t := []) (fun c hc => (by cases hc)) h3
  rw [readFd_status hd.callbacks h1, readFd_loop, ← cfgStart, heq]
  exact ⟨rfl, rfl, rfl⟩

/-- A comment, a block with a quoted `#` in it, and a value that a comment ends. -/
def sampleDocument : List CfgLine :=
  [⟨[], .blank, [], some (ascii " a")⟩,
   ⟨[], .blockStart (ascii "B"), [], none⟩,
   ⟨ascii " ", .directive (ascii "P") (ascii " ") (.quoted 39 (ascii "x#y")), [], none⟩,
   ⟨[], .blockEnd (ascii "B"), [], none⟩,
   ⟨[9], .directive (ascii "L") (ascii " ") (.unquoted (ascii "30 ")), [], some (ascii " c")⟩]

def sampleReads : List Bytes :=
  [ascii "# a\n<B>\n", ascii " P 'x#y'", ascii "\n</B>\n\tL", ascii " 30 # c\n"]

/-- Callbacks that keep what they were given. -/
def keepAll : Handlers (List Bytes) where
  blockStart name user := user ++ [name]
  blockEnd name user := user ++ [name]
  assign name value user := user ++ [name, value]

theorem sampleDocument_ok : ∀ l ∈ sampleDocument, l.Ok := by
  simp only [sampleDocument, List.forall_mem_cons]
  refine ⟨⟨?_, ?_, ?_, ?_, ?_⟩, ⟨?_, ?_, ?_, ?_, ?_⟩, ⟨?_, ?_, ?_, ?_, ?_⟩, ⟨?_, ?_, ?_, ?_, ?_⟩,
    ⟨?_, ?_, ?_, ?_, ?_⟩, by simp⟩ <;>
  simp [Blanks, CfgBody.Ok, CfgValue.Ok, TagName, CfgBody.runsOn, ascii, isspace]

theorem document_reported_sample :
    (copaReadFd keepAll.callbacks (sampleReads.map some) []).1 = .ok ∧
    (copaReadFd keepAll.callbacks (sampleReads.map some) []).2.trace =
      [.blockStart (ascii "B") (some .ok), .assign (ascii "P") (ascii "x#y") true,
       .blockEnd (ascii "B") (some .ok), .assign (ascii "L") (ascii "30 ") true] ∧
    (copaReadFd keepAll.callbacks (sampleReads.map some) []).2.user =
      [ascii "B", ascii "P", ascii "x#y", ascii "B", ascii "L", ascii "30 "] :=
  document_reported keepAll [] sampleDocument_ok (by decide) (by decide) (by decide) (by decide)

end Sighttpd.L3
