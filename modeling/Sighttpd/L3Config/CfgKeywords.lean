import Sighttpd.Core.Machine
import Sighttpd.L3Config.CfgQuoted

/-!
# Keywords without a value

`copa_slurp_to` is asked for a name that whitespace ends and a newline makes bad; newlines
are whitespace, and that is what is tested first. The blanks behind a name are skipped
together with the newlines among them, and the value is taken from a later line.

* `lineAssigns_iff`: when a line calls `assign`, told from the characters to come.
* `keepsLine_iff`: when the value starts on the line of its name.
* `keywords_iff`: all lines of a run.
-/
namespace Sighttpd.L3

/-- From the name on: blanks are skipped, and the next character is looked at. -/
def nameChars (cs : Bytes) : Bytes := peeked (peeked (cs.dropWhile isspace))

/-- The character that decides what a line is. -/
def lineHead (cs : Bytes) : UInt8 := (peeked (cs.dropWhile isspace)).headD eof

/-- A character that can stand in a name. -/
def inName (c : UInt8) : Bool := !isspace c && c != 35 && c != eof

/-- From the character on that ends the name. -/
def nameEnd (cs : Bytes) : Bytes := (nameChars cs).dropWhile inName

def behindName (cs : Bytes) : Bytes := peeked (nameEnd cs)

/-- The blanks between a name and its value. -/
def blanksBehind (cs : Bytes) : Bytes := (behindName cs).takeWhile isspace

def valueChars (cs : Bytes) : Bytes := peeked ((behindName cs).dropWhile isspace)

/-- A text that is a value: it is not empty, and ends with a quote if it starts with one. -/
def isValue : Bytes → Bool
  | [] => false
  | c :: r =>
    if c = 34 ∨ c = 39 then (peeked (r.dropWhile fun d => d != c && d != eof)).head? == some c else true

/-- The name does not run into a comment, and a value follows. -/
def GivesValue (cs : Bytes) : Prop := (nameEnd cs).head? ≠ some 35 ∧ isValue (valueChars cs) = true

instance : DecidablePred GivesValue := fun _ => inferInstanceAs (Decidable (_ ∧ _))

/-- The text to come at the start of a line: the blanks behind a name that is given a value
have no newline among them. -/
def KeywordOk (cs : Bytes) : Prop :=
  lineHead cs ≠ 35 → lineHead cs ≠ 60 → isValue (valueChars cs) = true →
    ∀ c ∈ blanksBehind cs, c ≠ 10 ∧ c ≠ 13

instance : DecidablePred KeywordOk := fun _ => inferInstanceAs (Decidable (_ → _ → _ → _))

/-! ## What a line does -/

/-- The input at the first character of a name. -/
def nameStart (p : CopaInput) : CopaInput := (copaPeek (copaSkipWhitespace p)).2

/-- The input at the first character of a value. -/
def valueStart (p : CopaInput) : CopaInput :=
  (copaPeek (copaSkipWhitespace (copaSlurpTo (nameStart p) [.whitespace] [.comment, .newline]).2)).2

/-- No newline between two places of the input. -/
def OnOneLine (p q : CopaInput) : Prop :=
  ∀ c ∈ p.chars.take (p.chars.length - q.chars.length), copaCin c [.newline] = false

instance (p q : CopaInput) : Decidable (OnOneLine p q) := inferInstanceAs (Decidable (∀ c ∈ _, _))

section Keywords
variable {σ : Type} (cb : Callbacks σ)

/-- A line calls `assign`. -/
def LineAssigns (p : CopaParser σ) : Prop :=
  ∃ name value, (copaParseLine cb p).trace = p.trace ++ [.assign name value true]

/-- A value that is given to `assign` starts on the line of its name. -/
def KeepsLine (p : CopaParser σ) : Prop :=
  LineAssigns cb p → OnOneLine (nameStart p.input) (valueStart p.input)

/-- The condition on a line. -/
def LineOk (p : CopaParser σ) : Prop :=
  cb.assign.isSome = true → p.status = .ok → KeywordOk p.input.chars

instance : DecidablePred (LineOk cb) := fun _ => inferInstanceAs (Decidable (_ → _ → _))

/-- The lines of a file, one after the other. -/
def lines : Machine (CopaParser σ) Unit :=
  ⟨fun p _ => if p.input.active then some (copaParseLine cb p) else none⟩

end Keywords

/-! ## The scanner with 0xFF bytes -/

/-- There is nothing behind the end. -/
theorem peeked_of_empty {cs : Bytes} (h : (!cs.isEmpty) = false) : peeked cs = [] := by
  cases cs with
  | nil => rfl
  | cons c cs => cases h

/-- Where no character is bad there is a word. -/
theorem slurp_isSome (g : List CharClass) (ret : Bytes) (p : CopaInput) :
    (copaSlurp g [] ret p).1.isSome = true := by
  induction ret, p using copaSlurp.induct g [] with
  | case1 ret p he => rw [copaSlurp, dif_pos he]; rfl
  | case2 ret p he hg => rw [copaSlurp, dif_neg he, if_pos hg]; rfl
  | case3 ret p he hg hb => exact absurd hb (by simp [copaCin])
  | case4 ret p he hg hb ih => rw [copaSlurp, dif_neg he, if_neg hg, if_neg hb]; exact ih

namespace CharStream
variable {R : CopaInput → Bytes → Bool → Prop} (hR : CharStream R) {p : CopaInput} {cs : Bytes} {a : Bool}
include hR

theorem peek (h : R p cs a) :
    (copaPeek p).1 = cs.headD eof ∧ R (copaPeek p).2 (peeked cs) (a && !cs.isEmpty) := by
  cases cs with
  | nil => simpa [peeked] using hR.peek_nil h
  | cons c r =>
    by_cases hc : c = eof
    · subst hc
      simpa [peeked] using hR.peek_eof h
    · simpa [peeked, hc] using hR.peek_cons h hc

theorem skipWhitespace (h : R p cs a) (ha : a = false → cs = []) :
    R (copaSkipWhitespace p) (peeked (cs.dropWhile isspace)) (!(cs.dropWhile isspace).isEmpty) := by
  rw [copaSkipWhitespace, copaSkipOver]
  cases a with
  | false =>
    obtain rfl := ha rfl
    rw [if_pos (by simp [hR.active h])]
    exact h
  | true =>
    rw [if_neg (by simp [hR.active h])]
    refine hR.skip_drop h fun c => ?_
    by_cases hc : c = eof
    · subst hc
      decide
    · simp [copaCin, CharClass.has, hc]

theorem slurpTo {g b : List CharClass} {keep : UInt8 → Bool} (h : R p cs true)
    (hkeep : ∀ c, keep c = (!copaCin c g && !copaCin c b && c != eof)) :
    ((∃ c, (cs.dropWhile keep).head? = some c ∧ copaCin c g = false ∧ c ≠ eof) →
      (copaSlurpTo p g b).1 = none) ∧
    ((∀ c, (cs.dropWhile keep).head? = some c → copaCin c g = true ∨ c = eof) →
      (copaSlurpTo p g b).1 = some (cs.takeWhile keep) ∧
        R (copaSlurpTo p g b).2 (peeked (cs.dropWhile keep)) (!(cs.dropWhile keep).isEmpty)) := by
  rw [copaSlurpTo, if_neg (by simp [hR.active h])]
  obtain ⟨hbad, hgood⟩ := hR.slurp_drop [] h hkeep
  exact ⟨fun hc => (hbad hc).1, hgood⟩

theorem assertAndPass (k : List CharClass) (h : R p cs a) (ha : a = false → cs = []) :
    (copaAssertAndPass p k).1 = cs.head?.any fun c => copaCin c k := by
  cases a with
  | false =>
    rw [ha rfl, copaAssertAndPass, if_pos (by simp [hR.active h])]
    rfl
  | true =>
    cases cs with
    | cons c cs => exact (hR.assertAndPass_cons k h).1
    | nil =>
      rw [copaAssertAndPass, if_neg (by simp [hR.active h]), (hR.next_nil h).1, copaCin_eof]
      rfl

/-- A quoted text is a value when the quote is closed. -/
theorem slurpQuoted {c : UInt8} (h : R p (c :: cs) true) (hc : c = 34 ∨ c = 39) :
    (copaSlurpQuoted p).1.isSome = isValue (c :: cs) := by
  obtain ⟨h1, h2⟩ := hR.next_cons h
  -- the class of the quote that ends the text
  obtain ⟨k, hk, hclass⟩ : ∃ k : CharClass, (∀ d, copaCin d [k] = (d == c)) ∧
      (if copaCin c [.squote] then [CharClass.squote] else [.dquote]) = [k] := by
    rcases hc with rfl | rfl
    · exact ⟨.dquote, fun d => by simp [copaCin, CharClass.has], by decide⟩
    · exact ⟨.squote, fun d => by simp [copaCin, CharClass.has], by decide⟩
  have hkeep : ∀ d, (d != c && d != eof) = (!copaCin d [k] && !copaCin d [] && d != eof) := by
    intro d
    rw [hk]
    simp [copaCin, bne]
  obtain ⟨hword, hrest⟩ := (hR.slurpTo h2 hkeep).2 fun d hd => by
    have hd := CString.dropWhile_stop (List.head?_eq_some_iff.mp hd).choose_spec
    rw [hk]
    simpa [or_iff_not_imp_left] using hd
  have hclose := hR.assertAndPass [k] hrest peeked_of_empty
  rw [copaSlurpQuoted, if_neg (by simp [hR.active h])]
  simp only [h1, hclass]
  generalize copaSlurpTo (copaNext p).2 [k] [] = x at hword hclose ⊢
  obtain ⟨ret, q⟩ := x
  obtain rfl : ret = _ := hword
  simp only at hclose ⊢
  generalize copaAssertAndPass q [k] = y at hclose ⊢
  obtain ⟨ok, r⟩ := y
  rw [isValue, if_pos hc]
  simp only [hk] at hclose
  generalize hend : peeked (cs.dropWhile fun d => d != c && d != eof) = e at hclose ⊢
  obtain rfl : ok = _ := hclose
  cases e with
  | nil => rfl
  | cons d e => cases hd : d == c <;> simp [hd]

theorem slurpValue (h : R p cs a) (ha : a = false → cs = []) :
    (copaSlurpValue p).1.isSome = isValue (peeked (cs.dropWhile isspace)) := by
  have hskip := hR.skipWhitespace h ha
  obtain ⟨h1, h2⟩ := hR.peek hskip
  have hvalue : peeked (cs.dropWhile isspace) ≠ [] → (!(cs.dropWhile isspace).isEmpty) = true := by
    intro hne
    by_contra hnil
    exact hne (peeked_of_empty (by simpa using hnil))
  rw [copaSlurpValue]
  simp only [h1]
  generalize copaPeek (copaSkipWhitespace p) = x at h2 ⊢
  generalize peeked (cs.dropWhile isspace) = v at h2 hvalue ⊢
  cases v with
  | nil =>
    have hstopped : x.2.active = false := by simpa using hR.active h2
    rw [List.headD_nil, copaCin_eof, if_neg (by simp), copaSlurpLineval, if_pos (by simp [hstopped])]
    rfl
  | cons c r =>
    rw [hvalue (by simp)] at h2
    rw [List.headD_cons]
    by_cases hc : c = 34 ∨ c = 39
    · have hne : c ≠ eof := by rcases hc with rfl | rfl <;> decide
      rw [if_pos (by simpa [copaCin, CharClass.has] using hc)]
      rw [peeked, if_neg hne] at h2
      exact hR.slurpQuoted h2 hc
    · rw [if_neg (by simpa [copaCin, CharClass.has] using hc), isValue, if_neg hc, copaSlurpLineval,
        if_neg (by simp [hR.active h2]), copaSlurpTo, if_neg (by simp [hR.active h2])]
      exact slurp_isSome ..

end CharStream

section Parser
variable {R : CopaInput → Bytes → Bool → Prop} (hR : CharStream R) {σ : Type} (cb : Callbacks σ)
  {p : CopaParser σ}
include hR

theorem stays_parseAssignment (h : ∃ cs a, R p.input cs a) :
    ∃ cs a, R (copaParseAssignment cb p).2.input cs a := by
  unfold copaParseAssignment
  split
  · exact h
  · have hname := hR.stays_slurpTo [.whitespace] [.comment, .newline] h
    generalize copaSlurpTo p.input [.whitespace] [.comment, .newline] = x at hname ⊢
    obtain ⟨name, q⟩ := x
    cases name with
    | none => exact hname
    | some name =>
      have hvalue := hR.stays_slurpValue hname
      simp only at hvalue ⊢
      generalize copaSlurpValue q = y at hvalue ⊢
      obtain ⟨value, r⟩ := y
      cases value with
      | none => exact hR.stays_stop hvalue
      | some value =>
        simp only [reportAssign_input]
        exact hvalue

theorem stays_parseBlock (h : ∃ cs a, R p.input cs a) :
    ∃ cs a, R (copaParseBlock cb p).2.input cs a := by
  unfold copaParseBlock
  split
  · exact h
  · have hopen := hR.stays_assertAndPass [.lbracket] h
    generalize copaAssertAndPass p.input [.lbracket] = x at hopen ⊢
    obtain ⟨ok, q⟩ := x
    cases ok with
    | false => exact hopen
    | true =>
      have hslash : ∃ cs a, R (if copaCin (copaPeek q).1 [.slash] then (copaNext (copaPeek q).2).2
          else (copaPeek q).2) cs a := by
        split
        · exact hR.stays_next (hR.stays_peek hopen)
        · exact hR.stays_peek hopen
      simp only
      generalize (if copaCin (copaPeek q).1 [.slash] then (copaNext (copaPeek q).2).2
        else (copaPeek q).2) = r at hslash ⊢
      have hblock := hR.stays_slurpTo [.rbracket] [.comment, .newline] hslash
      generalize copaSlurpTo r [.rbracket] [.comment, .newline] = y at hblock ⊢
      obtain ⟨block, t⟩ := y
      cases block with
      | none => exact hblock
      | some block =>
        have hclose := hR.stays_assertAndPass [.rbracket] hblock
        simp only at hclose ⊢
        generalize copaAssertAndPass t [.rbracket] = z at hclose ⊢
        obtain ⟨ok, u⟩ := z
        cases ok with
        | false => exact hclose
        | true =>
          simp only [reportBlock_input]
          exact hclose

/-- A line leaves the input on the stream. -/
theorem stays_parseLine (h : ∃ cs a, R p.input cs a) : ∃ cs a, R (copaParseLine cb p).input cs a := by
  have h' := hR.stays_peek (hR.stays_skipWhitespace h)
  unfold copaParseLine
  simp only
  split
  · exact hR.stays_skipTo _ h'
  · split
    · exact stays_parseBlock hR cb h'
    · exact stays_parseAssignment hR cb h'

end Parser

/-! ## One line -/

section Line
variable {R : CopaInput → Bytes → Bool → Prop} (hR : CharStream R) {σ : Type} (cb : Callbacks σ)
  {p : CopaParser σ} {i : CopaInput} {cs : Bytes} {a : Bool}

theorem inName_eq (c : UInt8) :
    inName c = (!copaCin c [.whitespace] && !copaCin c [.comment, .newline] && c != eof) := by
  by_cases hspace : isspace c = true
  · simp [inName, copaCin, CharClass.has, hspace]
  · have hlf : (c == 10) = false := beq_false_of_ne fun h => hspace (by rw [h]; rfl)
    have hcr : (c == 13) = false := beq_false_of_ne fun h => hspace (by rw [h]; rfl)
    simp [inName, copaCin, CharClass.has, hspace, hlf, hcr, bne]

/-- Without a name there is no value. -/
theorem not_gives_of_empty (h : nameChars cs = []) : ¬ GivesValue cs := by
  rw [GivesValue, valueChars, behindName, nameEnd, h]
  simp [peeked, isValue]

theorem nameEnd_good {c : UInt8} (hend : (nameEnd cs).head? ≠ some 35) (hc : (nameEnd cs).head? = some c) :
    copaCin c [.whitespace] = true ∨ c = eof := by
  have hstop : inName c = false := CString.dropWhile_stop (List.head?_eq_some_iff.mp hc).choose_spec
  have h35 : c ≠ 35 := fun heq => hend (heq ▸ hc)
  simpa [inName, h35, copaCin, CharClass.has, or_iff_not_imp_left] using hstop

theorem reportAssign_calls (q : CopaInput) (name value : Bytes) :
    (∃ n v, (reportAssign cb { p with input := q } name value).trace = p.trace ++ [.assign n v true]) ↔
      cb.assign.isSome = true ∧ p.status = .ok := by
  rw [reportAssign]
  cases cb.assign with
  | none => simp
  | some assign => by_cases hok : p.status = .ok <;> simp [hok]

theorem parseBlock_ne_assign (p : CopaParser σ) (input : CopaInput) (name value : Bytes) :
    (copaParseBlock cb { p with input }).2.trace ≠ p.trace ++ [.assign name value true] := by
  rcases parseBlock_cases cb p input with ⟨q, heq⟩ | ⟨q, isEnd, block, heq⟩
  · rw [heq]
    simp
  · rw [heq, reportBlock]
    split
    · cases isEnd <;> simp
    · cases isEnd <;> simp

section Stream
include hR

theorem nameStart_stream (h : R i cs true) : (copaPeek (copaSkipWhitespace i)).1 = lineHead cs ∧
    ∃ a, R (nameStart i) (nameChars cs) a ∧ (a = false → nameChars cs = []) := by
  obtain ⟨h1, h2⟩ := hR.peek (hR.skipWhitespace h (fun ha => (by cases ha)))
  refine ⟨h1, _, h2, fun ha => ?_⟩
  rcases Bool.and_eq_false_iff.mp ha with ha | ha
  · rw [nameChars, peeked_of_empty ha]
    rfl
  · exact peeked_of_empty ha

/-- An assignment is reported when a value is given, and nothing otherwise. -/
theorem parseAssignment_gives (h : R i (nameChars cs) a) (ha : a = false → nameChars cs = []) :
    (GivesValue cs ∧ ∃ q name value,
      (copaParseAssignment cb { p with input := i }).2 = reportAssign cb { p with input := q } name value) ∨
    (¬ GivesValue cs ∧ ∃ q, (copaParseAssignment cb { p with input := i }).2 = { p with input := q }) := by
  rw [copaParseAssignment]
  cases a with
  | false =>
    rw [if_pos (by simp [hR.active h])]
    exact .inr ⟨not_gives_of_empty (ha rfl), i, rfl⟩
  | true =>
    obtain ⟨hbad, hgood⟩ := hR.slurpTo h inName_eq
    rw [if_neg (by simp [hR.active h])]
    by_cases hend : (nameEnd cs).head? = some 35
    · have hname := hbad ⟨35, hend, by decide, by decide⟩
      generalize copaSlurpTo i [.whitespace] [.comment, .newline] = x at hname ⊢
      obtain ⟨name, q⟩ := x
      obtain rfl : name = none := hname
      exact .inr ⟨fun hgives => hgives.1 hend, q, rfl⟩
    · obtain ⟨hname, hrest⟩ := hgood fun c hc => nameEnd_good hend hc
      have hvalue := hR.slurpValue hrest peeked_of_empty
      generalize copaSlurpTo i [.whitespace] [.comment, .newline] = x at hname hvalue ⊢
      obtain ⟨name, q⟩ := x
      obtain rfl : name = _ := hname
      simp only at hvalue ⊢
      generalize copaSlurpValue q = y at hvalue ⊢
      obtain ⟨value, r⟩ := y
      cases value with
      | none => exact .inr ⟨fun hgives => absurd (hvalue.trans hgives.2) (by simp), _, rfl⟩
      | some value => exact .inl ⟨⟨hend, hvalue.symm⟩, r, _, value, rfl⟩

/-- When a line calls `assign`, told from the characters to come. -/
theorem lineAssigns_iff (h : R p.input cs true) : LineAssigns cb p ↔
    lineHead cs ≠ 35 ∧ lineHead cs ≠ 60 ∧ GivesValue cs ∧ cb.assign.isSome = true ∧ p.status = .ok := by
  obtain ⟨h1, a, h2, ha⟩ := nameStart_stream hR h
  rw [LineAssigns, copaParseLine]
  simp only [h1]
  by_cases h35 : lineHead cs = 35
  · rw [if_pos (by rw [h35]; decide)]
    refine ⟨fun hcall => ?_, fun hall => absurd h35 hall.1⟩
    obtain ⟨_, _, heq⟩ := hcall
    exact absurd heq (by simp)
  · rw [if_neg (by simpa [copaCin, CharClass.has] using h35)]
    by_cases h60 : lineHead cs = 60
    · rw [if_pos (by rw [h60]; decide)]
      refine ⟨fun hcall => ?_, fun hall => absurd h60 hall.2.1⟩
      obtain ⟨name, value, heq⟩ := hcall
      exact absurd heq (parseBlock_ne_assign cb p _ name value)
    · rw [if_neg (by simpa [copaCin, CharClass.has] using h60)]
      have hcases := parseAssignment_gives hR cb (p := p) h2 ha
      rw [nameStart] at hcases
      rcases hcases with ⟨hgives, q, name, value, heq⟩ | ⟨hno, q, heq⟩
      · rw [heq, reportAssign_calls]
        exact ⟨fun hcall => ⟨h35, h60, hgives, hcall⟩, fun hall => hall.2.2.2⟩
      · rw [heq]
        refine ⟨fun hcall => ?_, fun hall => absurd hall.2.2.1 hno⟩
        obtain ⟨_, _, hsame⟩ := hcall
        exact absurd hsame (by simp)

/-- Where the value starts, when there is one. -/
theorem valueStart_stream (h : R i cs true) (hgives : GivesValue cs) :
    ∃ a, R (valueStart i) (peeked (valueChars cs)) a := by
  obtain ⟨-, a, h2, ha⟩ := nameStart_stream hR h
  cases a with
  | false => exact absurd hgives (not_gives_of_empty (ha rfl))
  | true =>
    obtain ⟨-, hrest⟩ := (hR.slurpTo h2 inName_eq).2 fun c hc => nameEnd_good hgives.1 hc
    exact ⟨_, (hR.peek (hR.skipWhitespace hrest peeked_of_empty)).2⟩

end Stream

theorem peeked_split (cs : Bytes) : ∃ e, (∀ c ∈ e, c = eof) ∧ cs = e ++ peeked cs := by
  cases cs with
  | nil => exact ⟨[], fun c hc => (by cases hc), rfl⟩
  | cons c r =>
    rw [peeked]
    split
    · exact ⟨[c], fun d hd => (List.mem_singleton.mp hd).trans ‹_›, rfl⟩
    · exact ⟨[], fun d hd => (by cases hd), rfl⟩

/-- From a name to its value: the newlines are those among the blanks. -/
theorem between_split (cs : Bytes) : ∃ w, nameChars cs = w ++ peeked (valueChars cs) ∧
    ((∀ c ∈ w, copaCin c [.newline] = false) ↔ ∀ c ∈ blanksBehind cs, c ≠ 10 ∧ c ≠ 13) := by
  obtain ⟨e, he, hend⟩ := peeked_split (nameEnd cs)
  obtain ⟨e', he', hdrop⟩ := peeked_split ((behindName cs).dropWhile isspace)
  rw [← behindName] at hend
  rw [← valueChars] at hdrop
  obtain ⟨e'', he'', hvalue⟩ := peeked_split (valueChars cs)
  have hname := List.takeWhile_append_dropWhile (p := inName) (l := nameChars cs)
  have hblanks := List.takeWhile_append_dropWhile (p := isspace) (l := behindName cs)
  have hline : ∀ c, copaCin c [.newline] = false ↔ c ≠ 10 ∧ c ≠ 13 := fun c => by
    simp [copaCin, CharClass.has]
  have heof : ∀ c, c = eof → c ≠ 10 ∧ c ≠ 13 := by
    rintro c rfl
    decide
  refine ⟨(nameChars cs).takeWhile inName ++ (e ++ (blanksBehind cs ++ (e' ++ e''))), ?_, ?_⟩
  · calc nameChars cs = (nameChars cs).takeWhile inName ++ nameEnd cs := hname.symm
      _ = (nameChars cs).takeWhile inName ++
          (e ++ (blanksBehind cs ++ (e' ++ (e'' ++ peeked (valueChars cs))))) := by
        rw [← hvalue, ← hdrop, blanksBehind, hblanks, ← hend]
      _ = _ := by simp only [List.append_assoc]
  · simp only [hline]
    constructor
    · intro hall c hc
      exact hall c (by simp [hc])
    · intro hall c hc
      simp only [List.mem_append] at hc
      rcases hc with hc | hc | hc | hc | hc
      · have hin := List.mem_takeWhile_imp hc
        refine ⟨?_, ?_⟩ <;> rintro rfl <;> exact absurd hin (by decide)
      · exact heof c (he c hc)
      · exact hall c hc
      · exact heof c (he' c hc)
      · exact heof c (he'' c hc)

theorem oneLine_iff (h : Hands i cs true) (hgives : GivesValue cs) :
    OnOneLine (nameStart i) (valueStart i) ↔ ∀ c ∈ blanksBehind cs, c ≠ 10 ∧ c ≠ 13 := by
  obtain ⟨-, a, hname, -⟩ := nameStart_stream handsStream h
  obtain ⟨a', hvalue⟩ := valueStart_stream handsStream h hgives
  obtain ⟨w, hsplit, hiff⟩ := between_split cs
  rw [← hiff, OnOneLine, hname.chars, hvalue.chars, hsplit, List.length_append, Nat.add_sub_cancel,
    List.take_left']
  rfl

/-- When a line keeps to itself, told from the characters to come. -/
theorem keepsLine_iff (h : Hands p.input cs true) : KeepsLine cb p ↔ LineOk cb p := by
  rw [KeepsLine, lineAssigns_iff handsStream cb h, LineOk, h.chars]
  constructor
  · intro hkeeps hassign hok h35 h60 hvalue
    by_cases hend : (nameEnd cs).head? = some 35
    · -- a name that a comment ends: there are no blanks
      obtain ⟨r, hr⟩ := List.head?_eq_some_iff.mp hend
      rw [blanksBehind, behindName, hr, peeked, if_neg (by decide), List.takeWhile_cons_of_neg (by decide)]
      exact fun c hc => absurd hc (by simp)
    · exact (oneLine_iff h ⟨hend, hvalue⟩).mp (hkeeps ⟨h35, h60, ⟨hend, hvalue⟩, hassign, hok⟩)
  · rintro hline ⟨h35, h60, hgives, hassign, hok⟩
    exact (oneLine_iff h hgives).mpr (hline hassign hok h35 h60 hgives.2)

end Line

/-! ## The lines of a file -/

section Files
variable {σ : Type} (cb : Callbacks σ) {p p' : CopaParser σ} {pieces : List Bytes}

/-- The loop of `copa_read_fd` is a run. -/
theorem exists_lines_loop (p : CopaParser σ) :
    ∃ n, (lines cb).exec p (List.replicate n ()) = some (copaLoop cb p) := by
  induction p using copaLoop.induct cb with
  | case1 p ha ih =>
    obtain ⟨n, hn⟩ := ih
    have hstep : (lines cb).step p () = some (copaParseLine cb p) := if_pos ha
    refine ⟨n + 1, ?_⟩
    rw [List.replicate_succ, Machine.exec_cons, hstep, copaLoop_active cb ha]
    exact hn
  | case2 p ha => exact ⟨0, by rw [copaLoop_stopped cb ha]; rfl⟩

theorem lines_step (hstep : (lines cb).step p () = some p') :
    p.input.active = true ∧ copaParseLine cb p = p' := by
  change (if p.input.active then some (copaParseLine cb p) else none) = some p' at hstep
  split at hstep
  · exact ⟨‹_›, Option.some.inj hstep⟩
  · exact absurd hstep (by simp)

theorem cfgStart_stays (hsize : ∀ q ∈ pieces, q ≠ [] ∧ q.length ≤ bufferSize)
    (hpl : ∀ c ∈ pieces.flatten, c ≠ 92) : ∃ cs a, Hands (cfgStart pieces) cs a := by
  cases pieces with
  | nil =>
    exact ⟨[], false, rfl, fun r hr => (by cases hr), rfl, rfl, rfl, rfl, fun c hc => (by cases hc),
      by decide, rfl⟩
  | cons q pieces => exact ⟨_, _, (hands_start (by simp) hsize hpl).2⟩

/-- **Keywords.** In every run over a text without backslashes, the lines all keep to themselves
if and only if no keyword that is given a value has a newline behind it; the run may be the
whole of `copa_read_fd`. -/
theorem keywords_iff (user : σ) (hsize : ∀ q ∈ pieces, q ≠ [] ∧ q.length ≤ bufferSize)
    (hpl : ∀ c ∈ pieces.flatten, c ≠ 92) :
    (∃ n, (lines cb).exec ⟨cfgStart pieces, .ok, user, []⟩ (List.replicate n ()) =
      some (copaReadFd cb (pieces.map some) user).2) ∧
    ∀ rounds, (lines cb).Guarded (fun p _ => KeepsLine cb p) ⟨cfgStart pieces, .ok, user, []⟩ rounds ↔
      (lines cb).Guarded (fun p _ => LineOk cb p) ⟨cfgStart pieces, .ok, user, []⟩ rounds := by
  constructor
  · rw [readFd_loop]
    exact exists_lines_loop cb _
  · intro rounds
    refine Machine.guarded_congr (I := fun p => ∃ cs a, Hands p.input cs a)
      (fun p _ p' hinv _ hstep => ?_) (fun p _ p' hinv hstep => ?_) (cfgStart_stays hsize hpl)
    · obtain ⟨-, rfl⟩ := lines_step cb hstep
      exact stays_parseLine handsStream cb hinv
    · obtain ⟨cs, a, h⟩ := hinv
      obtain rfl : a = true := h.active.symm.trans (lines_step cb hstep).1
      exact keepsLine_iff cb h

end Files

/-- Both lines of the file are read. -/
theorem keywords_iff_lines : (lines keepAssigns).Guarded (fun p _ => KeepsLine keepAssigns p)
    ⟨cfgStart [ascii "A b\nC d\n"], .ok, [], []⟩ [(), ()] :=
  ((keywords_iff keepAssigns [] (by decide) (by decide)).2 _).mpr (by decide +kernel)

/-- The keyword takes the block tag of the next line. -/
theorem bareKeyword_takes : ¬ (lines keepAssigns).Guarded (fun p _ => KeepsLine keepAssigns p)
    ⟨cfgStart [ascii "Path\n<a>"], .ok, [], []⟩ [()] := by
  intro h
  have hkeeps := (h _ rfl).1 ⟨ascii "Path", ascii "<a>", by decide +kernel⟩
  exact absurd hkeeps (by decide +kernel)

end Sighttpd.L3
