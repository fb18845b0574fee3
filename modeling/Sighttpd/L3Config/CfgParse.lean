import Sighttpd.L3Config.CfgScan

/-!
# The configuration parser (`cfg-parse.c`, from line 530)

A line is blank, a comment, a block tag or an assignment. A block tag sets
`status` to what the callback returned, if there is one; an assignment is reported
only while `status` is `COPA_OK`. `trace` records what was found, with what the
block callbacks returned (`none` when there was none) and whether `assign` was
called. The callbacks share one state `σ`, the user data.

* `copaParseLine_usesUp`: a line that leaves the parser active has used up input, so
  that `copa_read_fd` ends on every input.
* `lineResult_parseLine`, `copaLoop_preserves`: what one line reports, and the
  induction over the lines of a file.
-/
namespace Sighttpd.L3

/-- mirrors src/cfg-parse.h (`CopaStatus`) -/
inductive CopaStatus where
  | stopErr
  | sysErr
  | ok
  | stop
  | skipBlock
  deriving DecidableEq, Repr

/-- The callbacks given to `copa_read_fd`; the status `assign` returns is not looked at. -/
structure Callbacks (σ : Type) where
  blockStart : Option (Bytes → σ → CopaStatus × σ)
  blockEnd : Option (Bytes → σ → CopaStatus × σ)
  assign : Option (Bytes → Bytes → σ → σ)

inductive CopaEvent where
  | blockStart (name : Bytes) (ret : Option CopaStatus)
  | blockEnd (name : Bytes) (ret : Option CopaStatus)
  | assign (name value : Bytes) (called : Bool)
  deriving DecidableEq, Repr

/-- mirrors src/cfg-parse.c:77-95 (`struct _CopaParser`) -/
structure CopaParser (σ : Type) where
  input : CopaInput
  status : CopaStatus
  user : σ
  trace : List CopaEvent

section Parser
variable {σ : Type} (cb : Callbacks σ)

/-- The callback of an assignment; mirrors src/cfg-parse.c:564-567 -/
def reportAssign (p : CopaParser σ) (name value : Bytes) : CopaParser σ :=
  match cb.assign with
  | some assign =>
    if p.status = .ok then
      { p with user := assign name value p.user, trace := p.trace ++ [.assign name value true] }
    else { p with trace := p.trace ++ [.assign name value false] }
  | none => { p with trace := p.trace ++ [.assign name value false] }

/-- The callback of a block tag; mirrors src/cfg-parse.c:613-619 -/
def reportBlock (p : CopaParser σ) (isEnd : Bool) (block : Bytes) : CopaParser σ :=
  match if isEnd then cb.blockEnd else cb.blockStart with
  | some f =>
    { p with status := (f block p.user).1, user := (f block p.user).2,
             trace := p.trace ++ [if isEnd then .blockEnd block (some (f block p.user).1)
                                  else .blockStart block (some (f block p.user).1)] }
  | none =>
    { p with trace := p.trace ++ [if isEnd then .blockEnd block none else .blockStart block none] }

/-- mirrors src/cfg-parse.c:530-580 (`copa_parse_assignment`) -/
def copaParseAssignment (p : CopaParser σ) : Int × CopaParser σ :=
  if !p.input.active then (-1, p)
  else
    match copaSlurpTo p.input [.whitespace] [.comment, .newline] with
    | (none, input) => (-1, { p with input })
    | (some name, input) =>
      match copaSlurpValue input with
      | (none, input) => (-1, { p with input := { input with active := false } })
      | (some value, input) => (0, reportAssign cb { p with input } name value)

/-- mirrors src/cfg-parse.c:582-622 (`copa_parse_block`) -/
def copaParseBlock (p : CopaParser σ) : Int × CopaParser σ :=
  if !p.input.active then (-1, p)
  else
    match copaAssertAndPass p.input [.lbracket] with
    | (false, input) => (-1, { p with input })
    | (true, input) =>
      let (c, input) := copaPeek input
      let isEnd := copaCin c [.slash]
      let input := if isEnd then (copaNext input).2 else input
      match copaSlurpTo input [.rbracket] [.comment, .newline] with
      | (none, input) => (-1, { p with input })
      | (some block, input) =>
        match copaAssertAndPass input [.rbracket] with
        | (false, input) => (-1, { p with input })
        | (true, input) => (0, reportBlock cb { p with input } isEnd block)

/-- mirrors src/cfg-parse.c:624-654 (`copa_parse_line`), less the constant 0 it returns -/
def copaParseLine (p : CopaParser σ) : CopaParser σ :=
  let (c, input) := copaPeek (copaSkipWhitespace p.input)
  if copaCin c [.comment] then { p with input := copaSkipTo input [.newline] }
  else if copaCin c [.lbracket] then (copaParseBlock cb { p with input }).2
  else (copaParseAssignment cb { p with input }).2

/-! ## Every line uses up input -/

@[simp] theorem reportAssign_input (p : CopaParser σ) (name value : Bytes) :
    (reportAssign cb p name value).input = p.input := by
  unfold reportAssign
  split
  · split <;> rfl
  · rfl

@[simp] theorem reportBlock_input (p : CopaParser σ) (isEnd : Bool) (block : Bytes) :
    (reportBlock cb p isEnd block).input = p.input := by
  unfold reportBlock
  split <;> rfl

/-- What an assignment reads behind its name. -/
theorem reads_behindName {p : CopaParser σ} (ha : p.input.active = true) :
    Reads (copaSlurpTo p.input [.whitespace] [.comment, .newline]).2
      (copaParseAssignment cb p).2.input := by
  unfold copaParseAssignment
  rw [if_neg (by simp [ha])]
  rcases copaSlurpTo p.input [.whitespace] [.comment, .newline] with ⟨name, q⟩
  cases name with
  | none => exact .rfl
  | some name =>
    have hv := reads_slurpValue q
    simp only
    generalize copaSlurpValue q = x at hv ⊢
    obtain ⟨value, r⟩ := x
    cases value with
    | none => exact ⟨hv.1, fun h => (by cases h)⟩
    | some value =>
      simp only [reportAssign_input]
      exact hv

theorem reads_parseAssignment (p : CopaParser σ) :
    Reads p.input (copaParseAssignment cb p).2.input := by
  by_cases ha : p.input.active = true
  · exact (reads_slurpTo _ _ _).trans (reads_behindName cb ha)
  · rw [copaParseAssignment, if_pos (by simpa using ha)]
    exact .rfl

theorem usesUp_parseBlock (p : CopaParser σ) : UsesUp p.input (copaParseBlock cb p).2.input := by
  unfold copaParseBlock
  by_cases ha : p.input.active = true
  · rw [if_neg (by simp [ha])]
    have h1 := usesUp_assertAndPass p.input [.lbracket]
    rcases hl : copaAssertAndPass p.input [.lbracket] with ⟨ok, q⟩
    rw [hl] at h1
    cases ok with
    | false => exact h1
    | true =>
      have h2 : Reads q (if copaCin (copaPeek q).1 [.slash] then (copaNext (copaPeek q).2).2
          else (copaPeek q).2) := by
        split
        · exact (reads_peek q).trans (usesUp_next _).1
        · exact reads_peek q
      simp only
      generalize (if copaCin (copaPeek q).1 [.slash] then (copaNext (copaPeek q).2).2
        else (copaPeek q).2) = r at h2 ⊢
      have h3 := reads_slurpTo r [.rbracket] [.comment, .newline]
      rcases hs : copaSlurpTo r [.rbracket] [.comment, .newline] with ⟨block, t⟩
      rw [hs] at h3
      cases block with
      | none => exact (h1.trans h2).trans h3
      | some block =>
        have h4 := (usesUp_assertAndPass t [.rbracket]).1
        rcases hr : copaAssertAndPass t [.rbracket] with ⟨ok, u⟩
        rw [hr] at h4
        cases ok with
        | false => simp only [hr]; exact ((h1.trans h2).trans h3).trans h4
        | true =>
          simp only [hr, reportBlock_input]
          exact ((h1.trans h2).trans h3).trans h4
  · rw [if_pos (by simpa using ha)]
    exact .of_stopped .rfl (by simpa using ha)

/-- A name has at least the character the line starts with. -/
theorem usesUp_parseAssignment {p : CopaParser σ} (hp : p.input.pushback ≠ 0)
    (hws : isspace p.input.pushback = false) :
    UsesUp p.input (copaParseAssignment cb p).2.input := by
  by_cases ha : p.input.active = true
  · refine UsesUp.trans ?_ (reads_behindName cb ha)
    rw [copaSlurpTo, if_neg (by simp [ha])]
    apply usesUp_slurp
    rw [copaNext, if_pos hp]
    simpa [copaCin, CharClass.has] using hws
  · rw [copaParseAssignment, if_pos (by simpa using ha)]
    exact .of_stopped .rfl (by simpa using ha)

theorem usesUp_skipTo_newline {p : CopaInput} (hp : p.pushback = 35) :
    UsesUp p (copaSkipTo p [.newline]) := by
  unfold copaSkipTo
  split
  · exact .of_stopped .rfl (by simpa using ‹(!p.active) = true›)
  · apply usesUp_skip
    rw [copaNext, if_pos (by rw [hp]; decide), hp]
    exact (by decide : copaCin 35 [.newline] = false)

/-- **Progress.** A line either stops the parser or uses up input. -/
theorem copaParseLine_usesUp {p : CopaParser σ} (ha : p.input.active = true) :
    UsesUp p.input (copaParseLine cb p).input := by
  have hskip : copaSkipWhitespace p.input = copaSkip (fun c => !copaCin c [.whitespace]) p.input := by
    rw [copaSkipWhitespace, copaSkipOver, if_neg (by simp [ha])]
  unfold copaParseLine
  simp only
  rcases skip_stops (fun c => !copaCin c [.whitespace]) p.input with h | ⟨h0, hws⟩
  · -- blanks were used up, or the end was found
    rw [← hskip] at h
    have h' := h.trans (reads_peek (copaSkipWhitespace p.input))
    split
    · exact h'.trans (reads_skipTo _ _)
    · split
      · exact h'.trans (usesUp_parseBlock cb _).1
      · exact h'.trans (reads_parseAssignment cb _)
  · -- the first character of the line is pushed back
    rw [← hskip] at h0 hws
    have hname : isspace (copaSkipWhitespace p.input).pushback = false := by
      simpa [copaCin, CharClass.has] using hws
    have hread := reads_skipWhitespace p.input
    have hpeek : copaPeek (copaSkipWhitespace p.input) =
        ((copaSkipWhitespace p.input).pushback, copaSkipWhitespace p.input) := by
      rw [copaPeek, if_pos h0]
    simp only [hpeek]
    split
    · rename_i hc
      have h35 : (copaSkipWhitespace p.input).pushback = 35 := by
        simpa [copaCin, CharClass.has] using hc
      exact hread.trans_usesUp (usesUp_skipTo_newline h35)
    · split
      · exact hread.trans_usesUp (usesUp_parseBlock cb ⟨_, p.status, p.user, p.trace⟩)
      · exact hread.trans_usesUp (usesUp_parseAssignment cb (p := ⟨_, p.status, p.user, p.trace⟩) h0
          hname)

/-! ## What a line reports -/

/-- One line of the file: nothing, an assignment or a block tag is reported. -/
inductive LineResult (p : CopaParser σ) : CopaParser σ → Prop where
  | silent (input : CopaInput) : LineResult p { p with input }
  | assign (input : CopaInput) (name value : Bytes) :
      LineResult p (reportAssign cb { p with input } name value)
  | block (input : CopaInput) (isEnd : Bool) (block : Bytes) :
      LineResult p (reportBlock cb { p with input } isEnd block)

/-- What an assignment comes to: the name was slurped, where one is reported. -/
theorem parseAssignment_cases (p : CopaParser σ) (input : CopaInput) :
    (∃ q, (copaParseAssignment cb { p with input }).2 = { p with input := q }) ∨
    ∃ q name value, (copaSlurpTo input [.whitespace] [.comment, .newline]).1 = some name ∧
      (copaParseAssignment cb { p with input }).2 = reportAssign cb { p with input := q } name value := by
  unfold copaParseAssignment
  split
  · exact .inl ⟨input, rfl⟩
  · rcases copaSlurpTo input [.whitespace] [.comment, .newline] with ⟨name, q⟩
    cases name with
    | none => exact .inl ⟨q, rfl⟩
    | some name =>
      simp only
      rcases copaSlurpValue q with ⟨value, r⟩
      cases value with
      | none => exact .inl ⟨_, rfl⟩
      | some value => exact .inr ⟨r, name, value, rfl, rfl⟩

theorem parseBlock_cases (p : CopaParser σ) (input : CopaInput) :
    (∃ q, (copaParseBlock cb { p with input }).2 = { p with input := q }) ∨
    ∃ q isEnd block,
      (copaParseBlock cb { p with input }).2 = reportBlock cb { p with input := q } isEnd block := by
  unfold copaParseBlock
  split
  · exact .inl ⟨input, rfl⟩
  · rcases copaAssertAndPass input [.lbracket] with ⟨ok, q⟩
    cases ok with
    | false => exact .inl ⟨q, rfl⟩
    | true =>
      simp only
      generalize (if copaCin (copaPeek q).1 [.slash] then (copaNext (copaPeek q).2).2
        else (copaPeek q).2) = r
      rcases copaSlurpTo r [.rbracket] [.comment, .newline] with ⟨block, t⟩
      cases block with
      | none => exact .inl ⟨t, rfl⟩
      | some block =>
        simp only
        rcases copaAssertAndPass t [.rbracket] with ⟨ok, u⟩
        cases ok with
        | false => exact .inl ⟨u, rfl⟩
        | true => exact .inr ⟨u, _, block, rfl⟩

theorem lineResult_parseAssignment (p : CopaParser σ) (input : CopaInput) :
    LineResult cb p (copaParseAssignment cb { p with input }).2 := by
  rcases parseAssignment_cases cb p input with ⟨q, heq⟩ | ⟨q, name, value, -, heq⟩
  · rw [heq]
    exact .silent q
  · rw [heq]
    exact .assign q name value

theorem lineResult_parseBlock (p : CopaParser σ) (input : CopaInput) :
    LineResult cb p (copaParseBlock cb { p with input }).2 := by
  rcases parseBlock_cases cb p input with ⟨q, heq⟩ | ⟨q, isEnd, block, heq⟩
  · rw [heq]
    exact .silent q
  · rw [heq]
    exact .block q isEnd block

theorem lineResult_parseLine (p : CopaParser σ) : LineResult cb p (copaParseLine cb p) := by
  unfold copaParseLine
  simp only
  split
  · exact .silent _
  · split
    · exact lineResult_parseBlock cb p _
    · exact lineResult_parseAssignment cb p _

/-! ## Whole files -/

/-- The `while` loop of `copa_read_fd` -/
def copaLoop (p : CopaParser σ) : CopaParser σ :=
  if _ha : p.input.active = true then copaLoop (copaParseLine cb p) else p
termination_by if p.input.active then p.input.fuel + 1 else 0
decreasing_by
  have h := copaParseLine_usesUp cb _ha
  rw [if_pos _ha]
  split
  · have := h.2 ‹_›
    omega
  · omega

theorem copaLoop_active {p : CopaParser σ} (ha : p.input.active = true) :
    copaLoop cb p = copaLoop cb (copaParseLine cb p) := by
  rw [copaLoop, dif_pos ha]

theorem copaLoop_stopped {p : CopaParser σ} (ha : ¬ p.input.active = true) : copaLoop cb p = p := by
  rw [copaLoop, dif_neg ha]

/-- What every line preserves holds when the loop ends. -/
theorem copaLoop_preserves {P : CopaParser σ → Prop}
    (hline : ∀ p, P p → P (copaParseLine cb p)) (p : CopaParser σ) (h : P p) : P (copaLoop cb p) := by
  induction p using copaLoop.induct cb with
  | case1 p ha ih => rw [copaLoop_active cb ha]; exact ih (hline p h)
  | case2 p ha => rwa [copaLoop_stopped cb ha]

/-- The parser as `copa_read_fd` sets it up; mirrors src/cfg-parse.c:664-680 -/
def CopaInput.init (fd : List (Option Bytes)) : CopaInput where
  readBuffer := List.replicate bufferSize 0
  fd := fd
  active := true
  pushback := 0
  numchar := 0
  escape := false
  octal := 0
  hex := 0
  nread := 0
  offset := 0

/-- mirrors src/cfg-parse.c:656-691 (`copa_read_fd`); the status and the parser left -/
def copaReadFd (fd : List (Option Bytes)) (user : σ) : CopaStatus × CopaParser σ :=
  match copaRefill (.init fd) with
  | (false, input) => (.sysErr, ⟨input, .ok, user, []⟩)
  | (true, input) =>
    let p := copaLoop cb ⟨input, .ok, user, []⟩
    -- a parse that ends in a skipped block is all right
    (if p.status = .skipBlock then .ok else p.status, p)

/-- Where nothing can be read the loop has nothing to do. -/
theorem readFd_loop (fd : List (Option Bytes)) (user : σ) :
    (copaReadFd cb fd user).2 = copaLoop cb ⟨(copaRefill (.init fd)).2, .ok, user, []⟩ := by
  have hstopped := (copaRefill_left (.init fd)).2
  unfold copaReadFd
  generalize copaRefill (.init fd) = x at hstopped ⊢
  obtain ⟨ok, input⟩ := x
  cases ok with
  | true => rfl
  | false =>
    have hoff : input.active = false := (hstopped rfl).2
    exact (copaLoop_stopped cb (by simp [hoff])).symm

theorem readFd_status {fd : List (Option Bytes)} (h : (copaRefill (.init fd)).1 = true) (user : σ) :
    (copaReadFd cb fd user).1 = if (copaReadFd cb fd user).2.status = .skipBlock then .ok
      else (copaReadFd cb fd user).2.status := by
  unfold copaReadFd
  generalize copaRefill (.init fd) = x at h ⊢
  obtain ⟨ok, input⟩ := x
  obtain rfl : ok = true := h
  rfl

/-- mirrors src/cfg-parse.c:693-707 (`copa_read`); `none` when the file cannot be opened.
The status of `copa_read_fd` is dropped. -/
def copaRead (file : Option (List (Option Bytes))) (user : σ) : CopaStatus × CopaParser σ :=
  match file with
  | none => (.sysErr, ⟨.init [], .ok, user, []⟩)
  | some fd => (.ok, (copaReadFd cb fd user).2)

end Parser

end Sighttpd.L3
