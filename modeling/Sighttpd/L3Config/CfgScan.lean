import Sighttpd.Core.CString

/-!
# The configuration scanner (`cfg-parse.c`, up to line 528)

The scanner reads through a window of 8 bytes that is filled by `read(2)`, decodes
backslash escapes, and keeps one character of pushback. The results of `read(2)`
are a list: the bytes of each call, or `none` for an error; a call behind the end
of the list returns 0.

`char` is signed, so that the byte 255 is the -1 that `copa_next` returns at the end
of the input, and NUL is no character at all.

* `copaNext_cases`: a call of `copa_next` that returns a character uses up input;
  with it the loops over `copa_next` end.
-/
namespace Sighttpd.L3

def bufferSize : Nat := 8

/-- The members of `CopaParser` the scanner works on; mirrors src/cfg-parse.c:77-95 -/
structure CopaInput where
  readBuffer : Bytes
  fd : List (Option Bytes)
  active : Bool
  pushback : UInt8
  numchar : UInt8
  escape : Bool
  octal : Nat
  hex : Nat
  nread : Nat
  offset : Nat
  deriving Repr

/-- `-1` as a `char` -/
def eof : UInt8 := 255

/-! ## Character classes -/

/-- mirrors src/cfg-parse.c:102-110; a set of classes is a list -/
inductive CharClass where
  | newline
  | whitespace
  | comment
  | lbracket
  | rbracket
  | dquote
  | squote
  | slash
  deriving DecidableEq, Repr

/-- `isspace` of the C locale -/
def isspace (c : UInt8) : Bool := c ∈ [32, 9, 10, 11, 12, 13]

def CharClass.has (c : UInt8) : CharClass → Bool
  | newline => c == 10 || c == 13
  | whitespace => isspace c
  | comment => c == 35
  | lbracket => c == 60
  | rbracket => c == 62
  | dquote => c == 34
  | squote => c == 39
  | slash => c == 47

/-- mirrors src/cfg-parse.c:112-140 (`copa_cin`) -/
def copaCin (c : UInt8) (charClass : List CharClass) : Bool := charClass.any fun k => k.has c

/-! ## Reading characters -/

/-- mirrors src/cfg-parse.c:167-191 (`copa_refill`); `false` is the result -1 -/
def copaRefill (p : CopaInput) : Bool × CopaInput :=
  match p.fd with
  | [] => (false, { p with nread := 0, active := false })
  | none :: fd => (false, { p with fd, nread := 2 ^ 64 - 1, active := false })
  | some bytes :: fd =>
    if bytes = [] then (false, { p with fd, nread := 0, active := false })
    else
      (true, { p with fd, readBuffer := bytes ++ p.readBuffer.drop bytes.length,
                      nread := bytes.length, offset := 0 })

/-- mirrors src/cfg-parse.c:193-210 (`copa_octal`) -/
def copaOctal (c : UInt8) : Option UInt8 := if 48 ≤ c ∧ c ≤ 55 then some (c - 48) else none

/-- mirrors src/cfg-parse.c:212-239 (`copa_hex`) -/
def copaHex (c : UInt8) : Option UInt8 :=
  if 48 ≤ c ∧ c ≤ 57 then some (c - 48)
  else if 97 ≤ c ∧ c ≤ 102 then some (c - 97 + 10)
  else if 65 ≤ c ∧ c ≤ 70 then some (c - 65 + 10)
  else none

/-- The test for a refill and the byte read from the window; mirrors
src/cfg-parse.c:267-274. `none` when there is nothing left to read. -/
def rawNext (p : CopaInput) : Option UInt8 × CopaInput :=
  if p.offset ≥ bufferSize then
    match copaRefill p with
    | (true, p) => (some (p.readBuffer.getD p.offset 0), { p with offset := p.offset + 1 })
    | (false, p) => (none, p)
  else (some (p.readBuffer.getD p.offset 0), { p with offset := p.offset + 1 })

/-- A digit, or the end, of a numeric escape in the given base. -/
def copaDigit (p : CopaInput) (c base : UInt8) (num : Option UInt8) (left : Nat) : UInt8 × CopaInput :=
  match num with
  | none =>
    -- the character behind the number is parsed next
    if c = 92 then (p.numchar, { p with escape := true }) else (p.numchar, { p with pushback := c })
  | some num =>
    let numchar := p.numchar * base + num
    (if left = 0 then numchar else 0, { p with numchar })

/-- The named escapes; the others stand for themselves. -/
def escapes : List (UInt8 × UInt8) :=
  [(97, 7), (98, 8), (102, 12), (110, 10), (114, 13), (116, 9), (118, 11)]

/-- The character behind a backslash; mirrors src/cfg-parse.c:325-360 -/
def copaEscape (p : CopaInput) (c : UInt8) : UInt8 × CopaInput :=
  match escapes.lookup c with
  | some d => (d, p)
  | none =>
    -- continuation
    if c = 10 ∨ c = 13 then (0, p)
    else if c = 120 then (0, { p with hex := 2, numchar := 0 })
    else match copaOctal c with
      | some num => (0, { p with octal := 3, numchar := num })
      | none => (c, p)

/-- What a byte of the window means; NUL when it is no character yet. Mirrors
src/cfg-parse.c:276-366 -/
def copaDecode (p : CopaInput) (c : UInt8) : UInt8 × CopaInput :=
  if p.octal > 0 then
    let left := if (copaOctal c).isNone then 0 else p.octal - 1
    copaDigit { p with octal := left } c 8 (copaOctal c) left
  else if p.hex > 0 then
    let left := if (copaHex c).isNone then 0 else p.hex - 1
    copaDigit { p with hex := left } c 16 (copaHex c) left
  else if p.escape then copaEscape { p with escape := false } c
  else if c = 92 then (0, { p with escape := true })
  else (c, p)

/-- The bytes of the window and of the reads to come, at most. -/
def CopaInput.left (p : CopaInput) : Nat := bufferSize * p.fd.length + (bufferSize - p.offset)

theorem copaRefill_left (p : CopaInput) :
    ((copaRefill p).1 = true → (copaRefill p).2.offset = 0 ∧ (copaRefill p).2.left ≤ p.left) ∧
    ((copaRefill p).1 = false → (copaRefill p).2.left ≤ p.left ∧ (copaRefill p).2.active = false) := by
  unfold copaRefill
  cases hfd : p.fd with
  | nil => simp [CopaInput.left, hfd]
  | cons r fd =>
    cases r with
    | none =>
      simp only [CopaInput.left, hfd, List.length_cons, bufferSize, Bool.false_eq_true,
        false_implies, true_and, forall_const, and_true]
      omega
    | some bytes =>
      by_cases hb : bytes = []
      · simp only [CopaInput.left, hfd, hb, if_true, List.length_cons, bufferSize,
          Bool.false_eq_true, false_implies, true_and, forall_const, and_true]
        omega
      · simp only [CopaInput.left, hfd, hb, if_false, List.length_cons, bufferSize, true_and,
          forall_const, Bool.true_eq_false, false_implies, and_true]
        omega

/-- A byte read uses up input; none is read only when the scanner stops. -/
theorem rawNext_left (p : CopaInput) :
    (∀ c, (rawNext p).1 = some c → (rawNext p).2.left < p.left) ∧
    ((rawNext p).1 = none → (rawNext p).2.left ≤ p.left ∧ (rawNext p).2.active = false) := by
  unfold rawNext
  by_cases hoff : p.offset ≥ bufferSize
  · have hr := copaRefill_left p
    rw [if_pos hoff]
    rcases hc : copaRefill p with ⟨ok, p'⟩
    rw [hc] at hr
    cases ok with
    | true =>
      obtain ⟨h0, hle⟩ : p'.offset = 0 ∧ p'.left ≤ p.left := hr.1 rfl
      refine ⟨fun c _ => ?_, fun h => (by cases h)⟩
      simp only [CopaInput.left, bufferSize] at hle ⊢
      omega
    | false => exact ⟨fun c h => (by cases h), fun _ => hr.2 rfl⟩
  · rw [if_neg hoff]
    refine ⟨fun c _ => ?_, fun h => (by cases h)⟩
    simp only [CopaInput.left, bufferSize] at hoff ⊢
    omega

theorem copaDigit_left (p : CopaInput) (c base : UInt8) (num : Option UInt8) (left : Nat) :
    (copaDigit p c base num left).2.left = p.left := by
  unfold copaDigit
  cases num with
  | none => simp only; split <;> rfl
  | some num => rfl

theorem copaEscape_left (p : CopaInput) (c : UInt8) : (copaEscape p c).2.left = p.left := by
  unfold copaEscape
  cases escapes.lookup c with
  | some d => rfl
  | none =>
    simp only
    split
    · rfl
    · split
      · rfl
      · cases copaOctal c <;> rfl

theorem copaDecode_left (p : CopaInput) (c : UInt8) : (copaDecode p c).2.left = p.left := by
  unfold copaDecode
  by_cases h1 : p.octal > 0
  · rw [if_pos h1, copaDigit_left]; rfl
  rw [if_neg h1]
  by_cases h2 : p.hex > 0
  · rw [if_pos h2, copaDigit_left]; rfl
  rw [if_neg h2]
  by_cases h3 : p.escape = true
  · rw [if_pos h3, copaEscape_left]; rfl
  rw [if_neg h3]
  split <;> rfl

/-- The `while` loop of `copa_next`; mirrors src/cfg-parse.c:266-369 -/
def copaNextLoop (p : CopaInput) : UInt8 × CopaInput :=
  match _hr : rawNext p with
  | (none, p') => (eof, p')
  | (some c, p') =>
    if (copaDecode p' c).1 = 0 then copaNextLoop (copaDecode p' c).2 else copaDecode p' c
termination_by p.left
decreasing_by
  have h := (rawNext_left p).1 c (by rw [_hr])
  rw [_hr] at h
  rw [copaDecode_left]
  exact h

/-- mirrors src/cfg-parse.c:247-370 (`copa_next`) -/
def copaNext (p : CopaInput) : UInt8 × CopaInput :=
  if p.pushback ≠ 0 then (p.pushback, { p with pushback := 0 }) else copaNextLoop p

theorem rawNext_pushback (p : CopaInput) : (rawNext p).2.pushback = p.pushback := by
  unfold rawNext copaRefill
  split
  · cases p.fd with
    | nil => rfl
    | cons r fd =>
      cases r with
      | none => rfl
      | some bytes => by_cases hb : bytes = [] <;> simp [hb]
  · rfl

theorem copaNextLoop_left (p : CopaInput) :
    ((copaNextLoop p).2.left < p.left) ∨
    ((copaNextLoop p).1 = eof ∧ (copaNextLoop p).2.left ≤ p.left ∧
      (copaNextLoop p).2.pushback = p.pushback ∧ (copaNextLoop p).2.active = false) := by
  induction p using copaNextLoop.induct with
  | case1 p p' hr =>
    have h : p'.left ≤ p.left ∧ p'.active = false := by
      simpa [hr] using (rawNext_left p).2 (by rw [hr])
    have hp : p'.pushback = p.pushback := by simpa [hr] using rawNext_pushback p
    rw [copaNextLoop, hr]
    exact .inr ⟨rfl, h.1, hp, h.2⟩
  | case2 p c p' hr h0 ih =>
    have h : p'.left < p.left := by simpa [hr] using (rawNext_left p).1 c (by rw [hr])
    rw [copaDecode_left] at ih
    rw [copaNextLoop, hr]
    simp only [if_pos h0]
    exact .inl (by rcases ih with ih | ⟨-, ih, -⟩ <;> omega)
  | case3 p c p' hr h0 =>
    have h : p'.left < p.left := by simpa [hr] using (rawNext_left p).1 c (by rw [hr])
    rw [copaNextLoop, hr]
    simp only [if_neg h0, copaDecode_left]
    exact .inl h

/-- Input still to come, a pushed back character counting half a byte. -/
def CopaInput.fuel (p : CopaInput) : Nat := 2 * p.left + if p.pushback = 0 then 0 else 1

theorem fuel_bounds (p : CopaInput) : 2 * p.left ≤ p.fuel ∧ p.fuel ≤ 2 * p.left + 1 := by
  unfold CopaInput.fuel
  split <;> omega

def CopaInput.unread (p : CopaInput) (c : UInt8) : CopaInput := { p with pushback := c }

theorem copaNext_cases (p : CopaInput) :
    (copaNext p).2.left < p.left ∨
    (p.pushback ≠ 0 ∧ (copaNext p).2.left = p.left ∧ (copaNext p).2.pushback = 0) ∨
    ((copaNext p).1 = eof ∧ (copaNext p).2.fuel ≤ p.fuel ∧ (copaNext p).2.active = false) := by
  unfold copaNext
  by_cases hp : p.pushback = 0
  · rw [if_neg (by simpa using hp)]
    rcases copaNextLoop_left p with h | ⟨h1, h2, h3, h4⟩
    · exact .inl h
    · refine .inr (.inr ⟨h1, ?_, h4⟩)
      simp only [CopaInput.fuel, h3]
      omega
  · rw [if_pos hp]
    exact .inr (.inl ⟨hp, rfl, rfl⟩)

/-- A call of `copa_next` uses up input, unless it finds the end. -/
theorem copaNext_fuel (p : CopaInput) :
    (copaNext p).2.fuel < p.fuel ∨
      (copaNext p).1 = eof ∧ (copaNext p).2.fuel ≤ p.fuel ∧ (copaNext p).2.active = false := by
  have h1 := fuel_bounds p
  have h2 := fuel_bounds (copaNext p).2
  rcases copaNext_cases p with h | ⟨hp, hl, hpb⟩ | h
  · exact .inl (by omega)
  · refine .inl ?_
    simp only [CopaInput.fuel, hl, hpb, if_true, if_neg hp]
    omega
  · exact .inr h

/-- The character that was read may be pushed back. -/
theorem copaNext_unread {p : CopaInput} (h : (copaNext p).1 ≠ eof) (c : UInt8) :
    ((copaNext p).2.unread c).fuel ≤ p.fuel := by
  have h1 := fuel_bounds p
  have h2 : ((copaNext p).2.unread c).fuel ≤ 2 * (copaNext p).2.left + 1 :=
    (fuel_bounds ((copaNext p).2.unread c)).2
  rcases copaNext_cases p with hl | ⟨hp, hl, -⟩ | ⟨he, -⟩
  · omega
  · simp only [CopaInput.fuel, if_neg hp] at h1 ⊢ h2
    omega
  · exact absurd he h

/-! ## The loops over `copa_next` -/

/-- mirrors src/cfg-parse.c:372-398 (`copa_peek`) -/
def copaPeek (p : CopaInput) : UInt8 × CopaInput :=
  if p.pushback ≠ 0 then (p.pushback, p)
  else if (copaNext p).1 = eof then (eof, (copaNext p).2)
  else ((copaNext p).1, (copaNext p).2.unread (copaNext p).1)

/-- Reads up to a character that `stop` holds of, and pushes it back; the loop of
`copa_skip_over` and `copa_skip_to`. -/
def copaSkip (stop : UInt8 → Bool) (p : CopaInput) : CopaInput :=
  if _he : (copaNext p).1 = eof then (copaNext p).2
  else if stop (copaNext p).1 then (copaNext p).2.unread (copaNext p).1
  else copaSkip stop (copaNext p).2
termination_by p.fuel
decreasing_by exact (copaNext_fuel p).resolve_right fun h => _he h.1

/-- mirrors src/cfg-parse.c:400-413 (`copa_skip_over`) -/
def copaSkipOver (p : CopaInput) (charClass : List CharClass) : CopaInput :=
  if !p.active then p else copaSkip (fun c => !copaCin c charClass) p

/-- mirrors src/cfg-parse.c:415-419 (`copa_skip_whitespace`) -/
def copaSkipWhitespace (p : CopaInput) : CopaInput := copaSkipOver p [.whitespace]

/-- mirrors src/cfg-parse.c:421-436 (`copa_skip_to`) -/
def copaSkipTo (p : CopaInput) (charClass : List CharClass) : CopaInput :=
  if !p.active then p else copaSkip (fun c => copaCin c charClass) p

/-- The loop of `copa_slurp_to`; `ret` holds the characters read so far. -/
def copaSlurp (goodEnd badEnd : List CharClass) (ret : Bytes) (p : CopaInput) :
    Option Bytes × CopaInput :=
  if _he : (copaNext p).1 = eof then (some ret, (copaNext p).2)
  else if copaCin (copaNext p).1 goodEnd then (some ret, (copaNext p).2.unread (copaNext p).1)
  else if copaCin (copaNext p).1 badEnd then
    (none, { (copaNext p).2.unread (copaNext p).1 with active := false })
  else copaSlurp goodEnd badEnd (ret ++ [(copaNext p).1]) (copaNext p).2
termination_by p.fuel
decreasing_by exact (copaNext_fuel p).resolve_right fun h => _he h.1

/-- mirrors src/cfg-parse.c:438-475 (`copa_slurp_to`); `none` is NULL -/
def copaSlurpTo (p : CopaInput) (goodEnd badEnd : List CharClass) : Option Bytes × CopaInput :=
  if !p.active then (none, p) else copaSlurp goodEnd badEnd [] p

/-- mirrors src/cfg-parse.c:477-492 (`copa_assert_and_pass`) -/
def copaAssertAndPass (p : CopaInput) (charClass : List CharClass) : Bool × CopaInput :=
  if !p.active then (false, p)
  else if !copaCin (copaNext p).1 charClass then (false, { (copaNext p).2 with active := false })
  else (true, (copaNext p).2)

/-- mirrors src/cfg-parse.c:494-514 (`copa_slurp_quoted`) -/
def copaSlurpQuoted (p : CopaInput) : Option Bytes × CopaInput :=
  if !p.active then (none, p)
  else
    let (c, p) := copaNext p
    let quote := if copaCin c [.squote] then [CharClass.squote] else [.dquote]
    match copaSlurpTo p quote [] with
    | (none, p) => (none, p)
    | (some ret, p) =>
      match copaAssertAndPass p quote with
      | (false, p) => (none, p)
      | (true, p) => (some ret, p)

/-- mirrors src/cfg-parse.c:516-528 (`copa_slurp_lineval`) -/
def copaSlurpLineval (p : CopaInput) : Option Bytes × CopaInput :=
  if !p.active then (none, p) else copaSlurpTo p [.comment, .newline] []

/-- The value of an assignment, behind the blanks; mirrors src/cfg-parse.c:545-551 -/
def copaSlurpValue (p : CopaInput) : Option Bytes × CopaInput :=
  let (c, p) := copaPeek (copaSkipWhitespace p)
  if copaCin c [.dquote, .squote] then copaSlurpQuoted p else copaSlurpLineval p

/-! ## What the functions leave of the input -/

/-- `q` has no more input left than `p`, and has not become active again. -/
def Reads (p q : CopaInput) : Prop := q.fuel ≤ p.fuel ∧ (q.active = true → p.active = true)

/-- As `Reads`, and some input is used up unless the scanner has stopped. -/
def UsesUp (p q : CopaInput) : Prop := Reads p q ∧ (q.active = true → q.fuel < p.fuel)

theorem Reads.rfl {p : CopaInput} : Reads p p := ⟨Nat.le_refl _, id⟩

theorem Reads.trans {p q r : CopaInput} (h : Reads p q) (h' : Reads q r) : Reads p r :=
  ⟨Nat.le_trans h'.1 h.1, fun ha => h.2 (h'.2 ha)⟩

theorem UsesUp.trans {p q r : CopaInput} (h : UsesUp p q) (h' : Reads q r) : UsesUp p r :=
  ⟨h.1.trans h', fun ha => Nat.lt_of_le_of_lt h'.1 (h.2 (h'.2 ha))⟩

theorem Reads.trans_usesUp {p q r : CopaInput} (h : Reads p q) (h' : UsesUp q r) : UsesUp p r :=
  ⟨h.trans h'.1, fun ha => Nat.lt_of_lt_of_le (h'.2 ha) h.1⟩

/-- A stopped scanner uses up nothing and stays stopped. -/
theorem UsesUp.of_stopped {p q : CopaInput} (h : Reads p q) (hq : q.active = false) : UsesUp p q :=
  ⟨h, fun ha => absurd ha (by simp [hq])⟩

theorem rawNext_active (p : CopaInput) : (rawNext p).2.active = true → p.active = true := by
  unfold rawNext copaRefill
  split
  · cases p.fd with
    | nil => exact fun h => (by cases h)
    | cons r fd =>
      cases r with
      | none => exact fun h => (by cases h)
      | some bytes => by_cases hb : bytes = [] <;> simp [hb]
  · exact id

theorem copaDecode_active (p : CopaInput) (c : UInt8) : (copaDecode p c).2.active = p.active := by
  unfold copaDecode copaDigit copaEscape
  by_cases h1 : p.octal > 0
  · rw [if_pos h1]
    cases copaOctal c with
    | none => simp only; split <;> rfl
    | some num => rfl
  rw [if_neg h1]
  by_cases h2 : p.hex > 0
  · rw [if_pos h2]
    cases copaHex c with
    | none => simp only; split <;> rfl
    | some num => rfl
  rw [if_neg h2]
  by_cases h3 : p.escape = true
  · rw [if_pos h3]
    cases escapes.lookup c with
    | some d => rfl
    | none =>
      simp only
      split
      · rfl
      · split
        · rfl
        · cases copaOctal c <;> rfl
  rw [if_neg h3]
  split <;> rfl

theorem copaNext_active (p : CopaInput) : (copaNext p).2.active = true → p.active = true := by
  have hloop : ∀ p : CopaInput, (copaNextLoop p).2.active = true → p.active = true := by
    intro p
    induction p using copaNextLoop.induct with
    | case1 p p' hr =>
      rw [copaNextLoop, hr]
      simpa [hr] using rawNext_active p
    | case2 p c p' hr h0 ih =>
      rw [copaNextLoop, hr]
      simp only [if_pos h0]
      intro h
      have := ih h
      rw [copaDecode_active] at this
      exact rawNext_active p (by rw [hr]; exact this)
    | case3 p c p' hr h0 =>
      rw [copaNextLoop, hr]
      simp only [if_neg h0, copaDecode_active]
      simpa [hr] using rawNext_active p
  unfold copaNext
  split
  · exact id
  · exact hloop p

theorem usesUp_next (p : CopaInput) : UsesUp p (copaNext p).2 := by
  rcases copaNext_fuel p with h | ⟨-, hle, ha⟩
  · exact ⟨⟨Nat.le_of_lt h, copaNext_active p⟩, fun _ => h⟩
  · exact .of_stopped ⟨hle, copaNext_active p⟩ ha

theorem reads_unread {p : CopaInput} (h : (copaNext p).1 ≠ eof) (c : UInt8) :
    Reads p ((copaNext p).2.unread c) :=
  ⟨copaNext_unread h c, copaNext_active p⟩

theorem reads_peek (p : CopaInput) : Reads p (copaPeek p).2 := by
  unfold copaPeek
  split
  · exact .rfl
  · split
    · exact (usesUp_next p).1
    · exact reads_unread ‹_› _

theorem reads_skip (stop : UInt8 → Bool) (p : CopaInput) : Reads p (copaSkip stop p) := by
  induction p using copaSkip.induct stop with
  | case1 p he => rw [copaSkip, dif_pos he]; exact (usesUp_next p).1
  | case2 p he hs => rw [copaSkip, dif_neg he, if_pos hs]; exact reads_unread he _
  | case3 p he hs ih => rw [copaSkip, dif_neg he, if_neg hs]; exact (usesUp_next p).1.trans ih

theorem usesUp_skip {stop : UInt8 → Bool} {p : CopaInput} (h : stop (copaNext p).1 = false) :
    UsesUp p (copaSkip stop p) := by
  rw [copaSkip]
  split
  · exact usesUp_next p
  · rw [if_neg (by simp [h])]
    exact (usesUp_next p).trans (reads_skip stop _)

theorem reads_slurp (g b : List CharClass) (ret : Bytes) (p : CopaInput) :
    Reads p (copaSlurp g b ret p).2 := by
  induction ret, p using copaSlurp.induct g b with
  | case1 ret p he => rw [copaSlurp, dif_pos he]; exact (usesUp_next p).1
  | case2 ret p he hg => rw [copaSlurp, dif_neg he, if_pos hg]; exact reads_unread he _
  | case3 ret p he hg hb =>
    rw [copaSlurp, dif_neg he, if_neg hg, if_pos hb]
    exact ⟨copaNext_unread he _, fun h => (by cases h)⟩
  | case4 ret p he hg hb ih =>
    rw [copaSlurp, dif_neg he, if_neg hg, if_neg hb]
    exact (usesUp_next p).1.trans ih

theorem usesUp_slurp {g b : List CharClass} {ret : Bytes} {p : CopaInput}
    (h : copaCin (copaNext p).1 g = false) : UsesUp p (copaSlurp g b ret p).2 := by
  rw [copaSlurp]
  split
  · exact usesUp_next p
  · rename_i he
    rw [if_neg (by simp [h])]
    split
    · exact .of_stopped ⟨copaNext_unread he _, fun h => (by cases h)⟩ rfl
    · exact (usesUp_next p).trans (reads_slurp g b _ _)

theorem reads_slurpTo (p : CopaInput) (g b : List CharClass) : Reads p (copaSlurpTo p g b).2 := by
  unfold copaSlurpTo
  split
  · exact .rfl
  · exact reads_slurp g b [] p

theorem usesUp_assertAndPass (p : CopaInput) (k : List CharClass) :
    UsesUp p (copaAssertAndPass p k).2 := by
  unfold copaAssertAndPass
  split
  · exact .of_stopped .rfl (by simpa using ‹(!p.active) = true›)
  · split
    · exact .of_stopped ⟨(usesUp_next p).1.1, fun h => (by cases h)⟩ rfl
    · exact usesUp_next p

theorem reads_slurpQuoted (p : CopaInput) : Reads p (copaSlurpQuoted p).2 := by
  unfold copaSlurpQuoted
  split
  · exact .rfl
  · simp only
    have h1 := (usesUp_next p).1
    generalize (if copaCin (copaNext p).1 [.squote] then [CharClass.squote] else [.dquote]) = quote
    have h2 := reads_slurpTo (copaNext p).2 quote []
    rcases hs : copaSlurpTo (copaNext p).2 quote [] with ⟨ret, q⟩
    rw [hs] at h2
    cases ret with
    | none => exact h1.trans h2
    | some ret =>
      have h3 := (usesUp_assertAndPass q quote).1
      rcases ha : copaAssertAndPass q quote with ⟨ok, r⟩
      rw [ha] at h3
      cases ok <;> simp only [ha] <;> exact (h1.trans h2).trans h3

theorem reads_slurpLineval (p : CopaInput) : Reads p (copaSlurpLineval p).2 := by
  unfold copaSlurpLineval
  split
  · exact .rfl
  · exact reads_slurpTo p _ _

theorem reads_skipTo (p : CopaInput) (k : List CharClass) : Reads p (copaSkipTo p k) := by
  unfold copaSkipTo
  split
  · exact .rfl
  · exact reads_skip _ _

theorem reads_skipWhitespace (p : CopaInput) : Reads p (copaSkipWhitespace p) := by
  unfold copaSkipWhitespace copaSkipOver
  split
  · exact .rfl
  · exact reads_skip _ _

theorem reads_slurpValue (p : CopaInput) : Reads p (copaSlurpValue p).2 := by
  have hpeek := (reads_skipWhitespace p).trans (reads_peek (copaSkipWhitespace p))
  unfold copaSlurpValue
  simp only
  split
  · exact hpeek.trans (reads_slurpQuoted _)
  · exact hpeek.trans (reads_slurpLineval _)

theorem copaNext_ne_zero (p : CopaInput) : (copaNext p).1 ≠ 0 := by
  have hloop : ∀ p : CopaInput, (copaNextLoop p).1 ≠ 0 := by
    intro p
    induction p using copaNextLoop.induct with
    | case1 p p' hr => rw [copaNextLoop, hr]; exact (by decide : eof ≠ 0)
    | case2 p c p' hr h0 ih => rw [copaNextLoop, hr]; simpa only [if_pos h0] using ih
    | case3 p c p' hr h0 => rw [copaNextLoop, hr]; simpa only [if_neg h0] using h0
  unfold copaNext
  split
  · exact ‹p.pushback ≠ 0›
  · exact hloop p

/-- Where `copa_skip_over` or `copa_skip_to` stopped: at a character that was pushed
back, unless input was used up or the end found. -/
theorem skip_stops (stop : UInt8 → Bool) (p : CopaInput) :
    UsesUp p (copaSkip stop p) ∨
      ((copaSkip stop p).pushback ≠ 0 ∧ stop (copaSkip stop p).pushback = true) := by
  by_cases h : stop (copaNext p).1 = true
  · rw [copaSkip, if_pos h]
    split
    · exact .inl (usesUp_next p)
    · exact .inr ⟨copaNext_ne_zero p, h⟩
  · exact .inl (usesUp_skip (by simpa using h))

end Sighttpd.L3
