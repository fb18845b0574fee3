import Sighttpd.L3Config.CfgDocument

/-!
# What a file says, whoever reads it

What `copa_parse_line` finds depends on the input alone: no callback and no status has a
say in it, and the loop goes on to the end of the input whatever they return. So a file is
a list of reports, and a run of the parser hands these to the callbacks one by one.

* `parseLine_reports`: the reports of a line.
* `readFd_replays`: a whole file, for any callbacks.
* `found_document`: the reports of a document.
-/
namespace Sighttpd.L3

/-- A directive or a tag, as it is found. -/
inductive CfgReport where
  | assign (name value : Bytes)
  | tag (isEnd : Bool) (block : Bytes)
  deriving DecidableEq, Repr

def CopaEvent.report : CopaEvent → CfgReport
  | .blockStart name _ => .tag false name
  | .blockEnd name _ => .tag true name
  | .assign name value _ => .assign name value

section Callbacks
variable {σ : Type} (cb : Callbacks σ)

def CopaParser.take (p : CopaParser σ) : CfgReport → CopaParser σ
  | .assign name value => reportAssign cb p name value
  | .tag isEnd block => reportBlock cb p isEnd block

/-- What a report does to the status and the user data. -/
def Callbacks.handle (s : CopaStatus × σ) : CfgReport → CopaStatus × σ
  | .assign name value =>
    match cb.assign with
    | some assign => if s.1 = .ok then (.ok, assign name value s.2) else s
    | none => s
  | .tag isEnd block =>
    match if isEnd then cb.blockEnd else cb.blockStart with
    | some f => f block s.2
    | none => s

/-- The run of the callbacks over a list of reports. -/
def Callbacks.replay (user : σ) (reports : List CfgReport) : CopaStatus × σ :=
  reports.foldl cb.handle (.ok, user)

/-! ## Taking reports -/

@[simp] theorem take_input (p : CopaParser σ) (r : CfgReport) : (p.take cb r).input = p.input := by
  cases r with
  | assign name value => exact reportAssign_input cb p name value
  | tag isEnd block => exact reportBlock_input cb p isEnd block

theorem take_trace (p : CopaParser σ) (r : CfgReport) :
    (p.take cb r).trace.map CopaEvent.report = p.trace.map CopaEvent.report ++ [r] := by
  cases r with
  | assign name value =>
    simp only [CopaParser.take, reportAssign]
    split
    · split <;> simp [CopaEvent.report]
    · simp [CopaEvent.report]
  | tag isEnd block =>
    simp only [CopaParser.take, reportBlock]
    cases isEnd <;> split <;> simp [CopaEvent.report]

theorem take_handle (p : CopaParser σ) (r : CfgReport) :
    ((p.take cb r).status, (p.take cb r).user) = cb.handle (p.status, p.user) r := by
  cases r with
  | assign name value =>
    simp only [CopaParser.take, reportAssign, Callbacks.handle]
    cases cb.assign with
    | none => rfl
    | some assign =>
      by_cases hok : p.status = .ok
      · simp [hok]
      · simp [hok]
  | tag isEnd block =>
    simp only [CopaParser.take, reportBlock, Callbacks.handle]
    cases (if isEnd then cb.blockEnd else cb.blockStart) <;> rfl

/-- The input is not looked at. -/
theorem take_withInput (p : CopaParser σ) (r : CfgReport) (i : CopaInput) :
    ({ p with input := i } : CopaParser σ).take cb r = { p.take cb r with input := i } := by
  cases r with
  | assign name value =>
    simp only [CopaParser.take, reportAssign]
    split
    · split <;> rfl
    · rfl
  | tag isEnd block =>
    simp only [CopaParser.take, reportBlock]
    split <;> rfl

theorem takeAll_withInput (reports : List CfgReport) (p : CopaParser σ) (i : CopaInput) :
    reports.foldl (CopaParser.take cb) { p with input := i } =
      { reports.foldl (CopaParser.take cb) p with input := i } := by
  induction reports generalizing p with
  | nil => rfl
  | cons r reports ih => rw [List.foldl_cons, List.foldl_cons, take_withInput, ih]

theorem takeAll_trace (reports : List CfgReport) (p : CopaParser σ) :
    (reports.foldl (CopaParser.take cb) p).trace.map CopaEvent.report =
      p.trace.map CopaEvent.report ++ reports := by
  induction reports generalizing p with
  | nil => simp
  | cons r reports ih => rw [List.foldl_cons, ih, take_trace, List.append_assoc, List.singleton_append]

theorem takeAll_handle (reports : List CfgReport) (p : CopaParser σ) :
    ((reports.foldl (CopaParser.take cb) p).status, (reports.foldl (CopaParser.take cb) p).user) =
      reports.foldl cb.handle (p.status, p.user) := by
  induction reports generalizing p with
  | nil => rfl
  | cons r reports ih => rw [List.foldl_cons, List.foldl_cons, ih, take_handle]

end Callbacks

/-! ## One line -/

/-- From `i`, these reports are made and `i'` is left, for any callbacks and in any state. -/
def Reports (step : ∀ {σ : Type}, Callbacks σ → CopaParser σ → CopaParser σ) (i i' : CopaInput)
    (reports : List CfgReport) : Prop :=
  ∀ {σ : Type} (cb : Callbacks σ) (s : CopaStatus) (u : σ) (t : List CopaEvent),
    step cb ⟨i, s, u, t⟩ = reports.foldl (CopaParser.take cb) ⟨i', s, u, t⟩

theorem parseAssignment_reports (i : CopaInput) :
    ∃ i' reports, Reports (fun cb p => (copaParseAssignment cb p).2) i i' reports := by
  by_cases hoff : (!i.active) = true
  · exact ⟨i, [], fun cb s u t => by simp [copaParseAssignment, hoff]⟩
  · rcases hname : copaSlurpTo i [.whitespace] [.comment, .newline] with ⟨name, i1⟩
    cases name with
    | none => exact ⟨i1, [], fun cb s u t => by simp [copaParseAssignment, hoff, hname]⟩
    | some name =>
      rcases hvalue : copaSlurpValue i1 with ⟨value, i2⟩
      cases value with
      | none =>
        exact ⟨{ i2 with active := false }, [],
          fun cb s u t => by simp [copaParseAssignment, hoff, hname, hvalue]⟩
      | some value =>
        exact ⟨i2, [.assign name value],
          fun cb s u t => by simp [copaParseAssignment, hoff, hname, hvalue, CopaParser.take]⟩

theorem parseBlock_reports (i : CopaInput) :
    ∃ i' reports, Reports (fun cb p => (copaParseBlock cb p).2) i i' reports := by
  by_cases hoff : (!i.active) = true
  · exact ⟨i, [], fun cb s u t => by simp [copaParseBlock, hoff]⟩
  · rcases hopen : copaAssertAndPass i [.lbracket] with ⟨ok, i1⟩
    cases ok with
    | false => exact ⟨i1, [], fun cb s u t => by simp [copaParseBlock, hoff, hopen]⟩
    | true =>
      -- a slash is passed
      obtain ⟨i2, hslash⟩ : ∃ i2, i2 = if copaCin (copaPeek i1).1 [.slash] = true then
          (copaNext (copaPeek i1).2).2 else (copaPeek i1).2 := ⟨_, rfl⟩
      rcases hblock : copaSlurpTo i2 [.rbracket] [.comment, .newline] with ⟨block, i3⟩
      cases block with
      | none => exact ⟨i3, [], fun cb s u t => by simp [copaParseBlock, hoff, hopen, ← hslash, hblock]⟩
      | some block =>
        rcases hclose : copaAssertAndPass i3 [.rbracket] with ⟨ok, i4⟩
        cases ok with
        | false =>
          exact ⟨i4, [], fun cb s u t => by simp [copaParseBlock, hoff, hopen, ← hslash, hblock, hclose]⟩
        | true =>
          exact ⟨i4, [.tag (copaCin (copaPeek i1).1 [.slash]) block],
            fun cb s u t => by
              simp [copaParseBlock, hoff, hopen, ← hslash, hblock, hclose, CopaParser.take]⟩

/-- A line makes no report or one. -/
theorem parseLine_reports (i : CopaInput) : ∃ i' reports, Reports copaParseLine i i' reports := by
  by_cases hcomment : copaCin (copaPeek (copaSkipWhitespace i)).1 [.comment] = true
  · exact ⟨copaSkipTo (copaPeek (copaSkipWhitespace i)).2 [.newline], [],
      fun cb s u t => by simp [copaParseLine, hcomment]⟩
  · by_cases htag : copaCin (copaPeek (copaSkipWhitespace i)).1 [.lbracket] = true
    · obtain ⟨i', reports, h⟩ := parseBlock_reports (copaPeek (copaSkipWhitespace i)).2
      refine ⟨i', reports, fun cb s u t => ?_⟩
      rw [← h cb s u t]
      simp [copaParseLine, hcomment, htag]
    · obtain ⟨i', reports, h⟩ := parseAssignment_reports (copaPeek (copaSkipWhitespace i)).2
      refine ⟨i', reports, fun cb s u t => ?_⟩
      rw [← h cb s u t]
      simp [copaParseLine, hcomment, htag]

/-! ## Whole files -/

/-- No callbacks at all: what is found goes to the trace alone. -/
def noCallbacks : Callbacks Unit := ⟨none, none, none⟩

/-- What is found in a file. -/
def found (fd : List (Option Bytes)) : List CfgReport :=
  (copaReadFd noCallbacks fd ()).2.trace.map CopaEvent.report

theorem loop_reports (i : CopaInput) : ∃ i' reports, Reports copaLoop i i' reports := by
  -- the rounds are those of the loop without callbacks
  suffices h : ∀ p : CopaParser Unit, ∃ i' reports, Reports copaLoop p.input i' reports from
    h ⟨i, .ok, (), []⟩
  intro p
  induction p using copaLoop.induct noCallbacks with
  | case1 p ha ih =>
    obtain ⟨i1, first, hline⟩ := parseLine_reports p.input
    have hinput : (copaParseLine noCallbacks p).input = i1 := by
      have h := takeAll_withInput noCallbacks first ⟨i1, p.status, p.user, p.trace⟩ i1
      exact (congrArg CopaParser.input (hline noCallbacks p.status p.user p.trace)).trans
        (congrArg CopaParser.input h)
    rw [hinput] at ih
    obtain ⟨i2, rest, hrest⟩ := ih
    refine ⟨i2, first ++ rest, fun {σ} cb s u t => ?_⟩
    have hround := copaLoop_active cb (p := ⟨p.input, s, u, t⟩) ha
    have hfirst := takeAll_withInput cb first ⟨i1, s, u, t⟩ i1
    have hlast := takeAll_withInput cb first ⟨i1, s, u, t⟩ i2
    rw [List.foldl_append, hlast]
    exact hround.trans (((congrArg (copaLoop cb) (hline cb s u t)).trans
      (congrArg (copaLoop cb) hfirst)).trans (hrest cb _ _ _))
  | case2 p ha => exact ⟨p.input, [], fun cb s u t => copaLoop_stopped cb ha⟩

theorem readFd_reports (fd : List (Option Bytes)) : ∃ (i' : CopaInput) (reports : List CfgReport),
    ∀ {σ : Type} (cb : Callbacks σ) (user : σ),
      (copaReadFd cb fd user).2 = reports.foldl (CopaParser.take cb) ⟨i', .ok, user, []⟩ := by
  obtain ⟨i', reports, h⟩ := loop_reports (copaRefill (.init fd)).2
  exact ⟨i', reports, fun cb user => (readFd_loop cb fd user).trans (h cb .ok user [])⟩

/-- **Replay.** For every file in any pieces and all callbacks, the trace is what is found in the
file, which is the same for all, and the status and the user data left are those of the callbacks
called for it in turn. -/
theorem readFd_replays {σ : Type} (cb : Callbacks σ) (fd : List (Option Bytes)) (user : σ) :
    (copaReadFd cb fd user).2.trace.map CopaEvent.report = found fd ∧
      ((copaReadFd cb fd user).2.status, (copaReadFd cb fd user).2.user) =
        cb.replay user (found fd) := by
  obtain ⟨i', reports, h⟩ := readFd_reports fd
  have hfound : found fd = reports := by
    rw [found, h noCallbacks (), takeAll_trace]
    rfl
  rw [hfound, h cb user]
  exact ⟨takeAll_trace cb reports _, takeAll_handle cb reports _⟩

/-! ## Documents -/

def CfgBody.reports : CfgBody → List CfgReport
  | blank => []
  | directive name _ value => [.assign name value.text]
  | blockStart name => [.tag false name]
  | blockEnd name => [.tag true name]

theorem CfgBody.report_events (body : CfgBody) : body.events.map CopaEvent.report = body.reports := by
  cases body <;> rfl

theorem found_document {doc : List CfgLine} {pieces : List Bytes} (hok : ∀ l ∈ doc, l.Ok)
    (hascii : ∀ c ∈ printDocument doc, c < 128 ∧ c ≠ 0 ∧ c ≠ 92) (hne : pieces ≠ [])
    (hfull : ∀ q ∈ pieces, q.length = 8) (hread : pieces.flatten = printDocument doc) :
    found (pieces.map some) = doc.flatMap fun l => l.body.reports := by
  -- the trace of one set of callbacks is known
  obtain ⟨-, htrace, -⟩ := document_reported keepAll [] hok hascii hne hfull hread
  rw [← (readFd_replays keepAll.callbacks (pieces.map some) []).1, htrace, List.map_flatMap]
  exact congrArg (doc.flatMap ·) (funext fun l => l.body.report_events)

end Sighttpd.L3
