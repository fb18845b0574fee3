import Sighttpd.Core.Lines
import Sighttpd.L4Http.Kongou

/-!
# What `kgctrl` prints (`kongou.c`, `shell.c`)

`shell_copy` stores what a command prints in a local buffer and leaves the rest of the buffer
as it was. The loops over the lines look for a NUL, which `shell_copy` does not store, and
take the number at the front of a line as an index.

* `outputLoop_fits`: with a NUL in what is stored, and numbers of fields on the lines, the loop
  reads the lines and nothing else.
* `kongou_iff`: exactly then the controls do not depend on what the buffers held before.
-/
namespace Sighttpd.L4
open Sighttpd.CString Sighttpd.Numeral Sighttpd.Lines

/-! ## `sscanf` -/

/-- The value of a digit, in bases up to 16. -/
def digitValue (c : UInt8) : Nat :=
  if isDigit c then c.toNat - 48
  else if 97 ≤ c ∧ c ≤ 102 then c.toNat - 87
  else if 65 ≤ c ∧ c ≤ 70 then c.toNat - 55
  else 16

def scanDigits (base : Nat) (s : Bytes) : Option (Nat × Bytes) :=
  let digits := s.takeWhile (digitValue · < base)
  if digits = [] then none
  else some (digits.foldl (fun n c => base * n + digitValue c) 0, s.dropWhile (digitValue · < base))

def scanSign : Bytes → Bool × Bytes
  | [] => (false, [])
  | c :: t => if c = 45 then (true, t) else if c = 43 then (false, t) else (false, c :: t)

/-- The base of a number without its sign, and the digits. A 0 alone is the same in every base;
`0x` alone is no number, as the C standard has it (glibc 2.36 converts it to 0). -/
def scanBase : Bytes → Nat × Bytes
  | 48 :: x :: t => if x = 120 ∨ x = 88 then (16, t) else (8, 48 :: x :: t)
  | s => (10, s)

/-- `%i`: the number is held to the range of a `long`, and stored as an `int`. -/
def scanInt (s : Bytes) : Option (Int × Bytes) := do
  let (neg, s) := scanSign (s.dropWhile isSpace)
  let (base, s) := scanBase s
  let (value, rest) ← scanDigits base s
  let long := max (-9223372036854775808) (min 9223372036854775807 (if neg then -value else value : Int))
  return (long.bmod 4294967296, rest)

/-- `%s` -/
def scanString (s : Bytes) : Option (Bytes × Bytes) :=
  let s := s.dropWhile isSpace
  let word := s.takeWhile (!isSpace ·)
  if word = [] then none else some (word, s.dropWhile (!isSpace ·))

/-- White space and the character `c`. -/
def scanChar (c : UInt8) (s : Bytes) : Option Bytes :=
  match s.dropWhile isSpace with
  | [] => none
  | d :: t => if d = c then some t else none

/-- `"%i %i"`, when both are converted -/
def scanGot (line : Bytes) : Option (Int × Int) := do
  let (no, s) ← scanInt line
  let (value, _) ← scanInt s
  return (no, value)

/-- `"%i %s"`, the front of the longer format, and what follows. -/
def scanName (line : Bytes) : Option (Int × Bytes × Bytes) := do
  let (no, s) ← scanInt line
  let (name, s) ← scanString s
  return (no, name, s)

/-- What the six conversions of a line of `kgctrl info` give, without `plen`. -/
structure InfoLine where
  no : Int
  name : Bytes
  rangeMin : Int
  rangeMax : Int
  dflt : Int
  deriving DecidableEq, Repr

/-- `"%i %s %i %i - %i %i"`, when all are converted -/
def scanInfo (line : Bytes) : Option InfoLine := do
  let (no, name, s) ← scanName line
  let (_, s) ← scanInt s
  let (rangeMin, s) ← scanInt s
  let s ← scanChar 45 s
  let (rangeMax, s) ← scanInt s
  let (dflt, _) ← scanInt s
  return ⟨no, name, rangeMin, rangeMax, dflt⟩

example : scanInfo (ascii "5 EZOOM 2 0x0000 - 0x00e0 0") = some ⟨5, ascii "EZOOM", 0, 0xe0, 0⟩ := by
  decide

/-! ## Model -/

/-- The size of `buf` -/
def maxOutput : Nat := 8192

/-- The size of the local `name` -/
def nameSize : Nat := 64

/-- What a local buffer held before. -/
structure Stale where
  bytes : Bytes
  length_eq : bytes.length = maxOutput

/-- mirrors src/shell.c:34-56 (`shell_copy`), with the bytes stored. `fread` gives less than is
asked for at the end only, so that there is one round; no output when there is no command. -/
def shellCopy (output : Bytes) (stale : Stale) : Bytes × Nat :=
  let stored := output.take maxOutput
  (stored ++ stale.bytes.drop stored.length, stored.length)

/-- What leaves an array: a string without its NUL, an index that is no field's, a name that is
longer than its array. -/
inductive KongouFault where
  | outside
  | field (no : Int)
  | name (length : Nat)
  deriving DecidableEq, Repr

/-- `&control->fields[no]` -/
def fieldIndex (no : Int) : Except KongouFault (Fin maxField) :=
  if h : 0 ≤ no ∧ no.toNat < maxField then .ok ⟨no.toNat, h.2⟩ else .error (.field no)

/-- mirrors src/kongou.c:91-93 -/
def gotLine (line : Bytes) : Except KongouFault (Option (Fin maxField × Int)) :=
  match scanGot line with
  | none => .ok none
  | some (no, value) => (fieldIndex no).map fun no => some (no, value)

/-- mirrors src/kongou.c:131-135; `%s` stores the name also when the line is not read further -/
def infoLine (line : Bytes) : Except KongouFault (Option FieldInfo) :=
  match scanName line with
  | none => .ok none
  | some (_, name, _) =>
    if nameSize ≤ name.length then .error (.name name.length)
    else match scanInfo line with
      | none => .ok none
      | some f => (fieldIndex f.no).map fun no => some ⟨no, f.name, f.rangeMin, f.rangeMax, f.dflt⟩

section Loop
variable {α : Type} (parse : Bytes → Except KongouFault (Option α))
  (apply : KongouControl → α → KongouControl)

/-- The body of a loop: what is read of a line goes into the controls. -/
def readLine (control : KongouControl) (line : Bytes) : Except KongouFault KongouControl :=
  (parse line).map fun read => read.elim control (apply control)

/-- The output is copied, and its lines are read unless it is empty; with the number of bytes
of the buffer that were looked at. -/
def outputLoop (output : Bytes) (stale : Stale) (empty control : KongouControl) :
    Option (Nat × Except KongouFault KongouControl) :=
  let (buf, n) := shellCopy output stale
  if n = 0 then some (0, .ok empty) else lineLoop (readLine parse apply) .outside buf control

end Loop

/-- A run of `kongou_control_init`: how much of the two buffers was looked at, and the controls. -/
structure KongouRun where
  got : Nat
  info : Nat
  control : Except KongouFault KongouControl

/-- mirrors src/kongou.c:76-98 (`kongou_control_get_all`) with what `kgctrl get-all` prints -/
def kongouControlGetAllRun (got : Bytes) (stale : Stale) (control : KongouControl) :
    Option (Nat × Except KongouFault KongouControl) :=
  outputLoop gotLine kongouFieldGot got stale control control

/-- mirrors src/kongou.c:119-139, the part of `kongou_control_init` behind
`kongou_control_get_all` -/
def kongouInfoRun (full : Bool) (info : Bytes) (stale : Stale) (control : KongouControl) :
    Option (Nat × Except KongouFault KongouControl) :=
  let short := shortFields.foldl kongouFieldInit control
  if !full then some (0, .ok short)
  else outputLoop infoLine kongouFieldInit info stale short control

/-- mirrors src/kongou.c:110-140 (`kongou_control_init`) with what `kgctrl get-all` and
`kgctrl info` print -/
def kongouControlInitRun (full : Bool) (got info : Bytes) (staleGot staleInfo : Stale) :
    Option KongouRun := do
  let (looked, control) ← kongouControlGetAllRun got staleGot .zeroed
  match control with
  | .error fault => return ⟨looked, 0, .error fault⟩
  | .ok control =>
    let (lookedInfo, control) ← kongouInfoRun full info staleInfo control
    return ⟨looked, lookedInfo, control⟩

/-! ## The lines of an output -/

/-- What is read of an output. -/
def outputLines (output : Bytes) : List Bytes := textLines (cstr (output.take maxOutput))

def readOutput {α : Type} (parse : Bytes → Except KongouFault (Option α)) (output : Bytes) : List α :=
  (outputLines output).filterMap fun line => (parse line).toOption.join

/-- The output is empty, or there is a NUL in what is stored of it and the lines in front are
all right. -/
def OutputFits (fits : Bytes → Prop) (output : Bytes) : Prop :=
  output = [] ∨ 0 ∈ output.take maxOutput ∧ ∀ line ∈ outputLines output, fits line

/-- A line of `kgctrl get-all`: the number is that of a field. -/
def GotFits (line : Bytes) : Prop :=
  ∀ no value, scanGot line = some (no, value) → 0 ≤ no ∧ no < maxField

/-- A line of `kgctrl info`: so it is, and the name fits. -/
def InfoFits (line : Bytes) : Prop :=
  (∀ no name rest, scanName line = some (no, name, rest) → name.length < nameSize) ∧
    ∀ f, scanInfo line = some f → 0 ≤ f.no ∧ f.no < maxField

theorem fieldIndex_ok {α : Type} (no : Int) (f : Fin maxField → α) :
    (∃ read, (fieldIndex no).map f = .ok read) ↔ 0 ≤ no ∧ no < maxField := by
  unfold fieldIndex
  constructor
  · intro h
    obtain ⟨read, hread⟩ := h
    split at hread
    · omega
    · exact nomatch hread
  · intro h
    rw [dif_pos ⟨h.1, by omega⟩]
    exact ⟨_, rfl⟩

theorem gotLine_ok {line : Bytes} : (∃ read, gotLine line = .ok read) ↔ GotFits line := by
  unfold gotLine GotFits
  cases scanGot line with
  | none => exact ⟨fun _ no value h => (nomatch h), fun _ => ⟨none, rfl⟩⟩
  | some got =>
    apply (fieldIndex_ok got.1 _).trans
    constructor
    · intro h no value hgot
      rwa [Option.some.inj hgot] at h
    · intro h
      exact h got.1 got.2 rfl

theorem infoLine_ok {line : Bytes} : (∃ read, infoLine line = .ok read) ↔ InfoFits line := by
  unfold infoLine InfoFits
  cases hname : scanName line with
  | none =>
    have hinfo : scanInfo line = none := by
      unfold scanInfo
      rw [hname]
      rfl
    rw [hinfo]
    exact ⟨fun _ => ⟨fun no name rest h => (nomatch h), fun f h => (nomatch h)⟩,
      fun _ => ⟨none, rfl⟩⟩
  | some front =>
    obtain ⟨no, name, rest⟩ := front
    have hlength : (∀ no' name' rest', some (no, name, rest) = some (no', name', rest') →
        name'.length < nameSize) ↔ name.length < nameSize := by
      constructor
      · intro h
        exact h no name rest rfl
      · intro h no' name' rest' heq
        cases heq
        exact h
    rw [hlength]
    by_cases hlong : nameSize ≤ name.length
    · simp only [if_pos hlong]
      constructor
      · intro h
        obtain ⟨read, hread⟩ := h
        exact nomatch hread
      · intro h
        exact absurd h.1 (Nat.not_lt.2 hlong)
    · have hshort := Nat.lt_of_not_le hlong
      simp only [if_neg hlong]
      cases scanInfo line with
      | none => exact ⟨fun _ => ⟨hshort, fun f h => (nomatch h)⟩, fun _ => ⟨none, rfl⟩⟩
      | some f =>
        apply (fieldIndex_ok f.no _).trans
        constructor
        · intro h
          refine ⟨hshort, fun f' hf => ?_⟩
          rwa [Option.some.inj hf] at h
        · intro h
          exact h.2 f rfl

/-! ## The loops -/

section Loop
variable {α : Type} {parse : Bytes → Except KongouFault (Option α)}
  {apply : KongouControl → α → KongouControl}

/-- Lines that are all right are read one after the other. -/
theorem foldlM_readLine {lines : List Bytes} (h : ∀ line ∈ lines, ∃ read, parse line = .ok read)
    (control : KongouControl) :
    lines.foldlM (readLine parse apply) control =
      .ok ((lines.filterMap fun line => (parse line).toOption.join).foldl apply control) := by
  induction lines generalizing control with
  | nil => rfl
  | cons line lines ih =>
    obtain ⟨⟨read, hread⟩, hlines⟩ := List.forall_mem_cons.1 h
    have hbody : readLine parse apply control line = .ok (read.elim control (apply control)) := by
      rw [readLine, hread]
      rfl
    rw [List.foldlM_cons, hbody]
    cases read with
    | none => rw [List.filterMap_cons_none (by rw [hread]; rfl)]; exact ih hlines control
    | some a => rw [List.filterMap_cons_some (by rw [hread]; rfl)]; exact ih hlines (apply control a)

theorem of_foldlM_readLine {lines : List Bytes} {control control' : KongouControl}
    (h : lines.foldlM (readLine parse apply) control = .ok control') :
    ∀ line ∈ lines, ∃ read, parse line = .ok read := by
  induction lines generalizing control with
  | nil => exact fun line hline => absurd hline List.not_mem_nil
  | cons line lines ih =>
    rw [List.foldlM_cons, readLine] at h
    cases hread : parse line with
    | error fault =>
      rw [hread] at h
      exact nomatch h
    | ok read =>
      rw [hread] at h
      exact List.forall_mem_cons.2 ⟨⟨read, hread⟩, ih h⟩

variable {output : Bytes} {stale : Stale}

theorem shellCopy_stored (output : Bytes) (stale : Stale) :
    (shellCopy output stale).2 = (output.take maxOutput).length := rfl

theorem stored_eq_zero : (output.take maxOutput).length = 0 ↔ output = [] := by
  rw [List.length_eq_zero_iff, List.take_eq_nil_iff]
  exact ⟨fun h => h.resolve_left (by decide), .inr⟩

/-- A NUL in what is stored ends the string, whatever the buffer held before. -/
theorem holdsStr_shellCopy (hnul : 0 ∈ output.take maxOutput) (stale : Stale) :
    HoldsStr (shellCopy output stale).1 0 (cstr (output.take maxOutput)) ∧
      (cstr (output.take maxOutput)).length < (shellCopy output stale).2 := by
  obtain ⟨h0, post, hd⟩ := holdsStr_cstr hnul
  rw [List.drop_zero] at hd
  constructor
  · refine ⟨h0, post ++ stale.bytes.drop (output.take maxOutput).length, ?_⟩
    rw [List.drop_zero, shellCopy, ← List.cons_append, ← List.append_assoc, ← hd]
  · have hlength := congrArg List.length hd
    rw [List.length_append, List.length_cons] at hlength
    rw [shellCopy_stored]
    omega

variable (parse apply) in
/-- The loop on a buffer that holds a string, wherever its NUL comes from. -/
theorem outputLoop_holds {t : Bytes} (h : HoldsStr (shellCopy output stale).1 0 t)
    (hne : output ≠ []) (empty control : KongouControl) :
    ∃ looked, outputLoop parse apply output stale empty control =
      some (looked, (textLines t).foldlM (readLine parse apply) control) ∧
        looked ≤ t.length + 1 := by
  obtain ⟨looked, hrun, hle⟩ := lineLoop_holds (readLine parse apply) .outside h control
  refine ⟨looked, ?_, hle⟩
  unfold outputLoop
  dsimp only
  rw [shellCopy_stored, if_neg (fun h0 => hne (stored_eq_zero.1 h0)), hrun]

/-- The controls after a loop. -/
def afterLoop (parse : Bytes → Except KongouFault (Option α))
    (apply : KongouControl → α → KongouControl) (output : Bytes) (empty control : KongouControl) :
    KongouControl :=
  if output = [] then empty else (readOutput parse output).foldl apply control

variable (parse apply) in
theorem outputLoop_ends (output : Bytes) (stale : Stale) (empty control : KongouControl) :
    ∃ r, outputLoop parse apply output stale empty control = some r := by
  unfold outputLoop
  dsimp only
  split
  · exact ⟨_, rfl⟩
  · exact lineLoop_ends _ _ _ _

variable (parse apply) in
/-- **The loop keeps to what is stored.** -/
theorem outputLoop_fits {fits : Bytes → Prop} (hok : ∀ line, fits line → ∃ read, parse line = .ok read)
    (h : OutputFits fits output) (stale : Stale) (empty control : KongouControl) :
    ∃ looked, outputLoop parse apply output stale empty control =
      some (looked, .ok (afterLoop parse apply output empty control)) ∧
        looked ≤ (shellCopy output stale).2 := by
  unfold afterLoop
  by_cases hne : output = []
  · refine ⟨0, ?_, Nat.zero_le _⟩
    unfold outputLoop
    dsimp only
    rw [shellCopy_stored, if_pos (stored_eq_zero.2 hne), if_pos hne]
  · obtain ⟨hnul, hlines⟩ := h.resolve_left hne
    obtain ⟨hbuf, hlt⟩ := holdsStr_shellCopy hnul stale
    obtain ⟨looked, hrun, hle⟩ := outputLoop_holds parse apply hbuf hne empty control
    have hfold : (textLines (cstr (output.take maxOutput))).foldlM (readLine parse apply) control =
        .ok ((readOutput parse output).foldl apply control) :=
      foldlM_readLine (fun line hline => hok line (hlines line hline)) control
    refine ⟨looked, ?_, by omega⟩
    rw [hrun, if_neg hne, hfold]

/-- What the lines preserve, whatever is printed and the buffer held before. -/
theorem outputLoop_invariant {I : KongouControl → Prop}
    (happly : ∀ control a, I control → I (apply control a)) {empty control control' : KongouControl}
    {looked : Nat}
    (h : outputLoop parse apply output stale empty control = some (looked, .ok control'))
    (hempty : I empty) (hcontrol : I control) : I control' := by
  have hline : ∀ s line s', readLine parse apply s line = .ok s' → I s → I s' := by
    intro s line s' hs hI
    unfold readLine at hs
    cases hread : parse line with
    | error fault =>
      rw [hread] at hs
      exact nomatch hs
    | ok read =>
      rw [hread] at hs
      obtain rfl := Except.ok.inj hs
      cases read with
      | none => exact hI
      | some a => exact happly s a hI
  unfold outputLoop at h
  dsimp only at h
  split at h
  · obtain ⟨-, hsame⟩ := Prod.mk.inj (Option.some.inj h)
    exact Except.ok.inj hsame ▸ hempty
  · exact lineLoop_invariant hline h hcontrol

/-- A buffer without a NUL. -/
def noNul : Stale := ⟨List.replicate maxOutput 1, List.length_replicate⟩

/-- A loop that comes to its end on such a buffer keeps to what is stored. -/
theorem fits_of_outputLoop {fits : Bytes → Prop}
    (hok : ∀ line, (∃ read, parse line = .ok read) → fits line)
    {empty control control' : KongouControl} {looked : Nat}
    (h : outputLoop parse apply output noNul empty control = some (looked, .ok control')) :
    OutputFits fits output := by
  by_cases hne : output = []
  · exact .inl hne
  · have hnul : 0 ∈ output.take maxOutput := by
      by_contra h0
      have hbuf : 0 ∉ (shellCopy output noNul).1 := by
        intro hmem
        rcases List.mem_append.1 hmem with hmem | hmem
        · exact h0 hmem
        · exact absurd (List.eq_of_mem_replicate (List.mem_of_mem_drop hmem)) (by decide)
      unfold outputLoop at h
      dsimp only at h
      rw [shellCopy_stored, if_neg (fun h0 => hne (stored_eq_zero.1 h0))] at h
      exact lineLoop_no_nul _ _ hbuf h
    obtain ⟨hbuf, -⟩ := holdsStr_shellCopy hnul noNul
    obtain ⟨looked', hrun, -⟩ := outputLoop_holds parse apply hbuf hne empty control
    rw [hrun, Option.some.injEq, Prod.mk.injEq] at h
    exact .inr ⟨hnul, fun line hline => hok line (of_foldlM_readLine h.2 line hline)⟩

end Loop

/-! ## Main result -/

/-- What is asked of the outputs `got` and `info`, whatever the local buffers held before: the
loops look at the bytes that were stored, the controls are the same, and no index is outside
the fields. -/
structure KongouSafe (full : Bool) (got info : Bytes) : Prop where
  inside : ∀ staleGot staleInfo, ∃ run,
    kongouControlInitRun full got info staleGot staleInfo = some run ∧
      run.got ≤ (shellCopy got staleGot).2 ∧ run.info ≤ (shellCopy info staleInfo).2
  same : ∃ control, ∀ staleGot staleInfo run,
    kongouControlInitRun full got info staleGot staleInfo = some run → run.control = .ok control
  fields : ∀ staleGot staleInfo run no,
    kongouControlInitRun full got info staleGot staleInfo = some run → run.control ≠ .error (.field no)

theorem afterLoop_got (got : Bytes) : afterLoop gotLine kongouFieldGot got .zeroed .zeroed =
    kongouControlGetAll .zeroed (readOutput gotLine got) := by
  unfold afterLoop
  split
  · rename_i hempty
    rw [hempty]
    rfl
  · rfl

theorem kongouInfoRun_fits {full : Bool} {info : Bytes}
    (h : full = true → OutputFits InfoFits info) (stale : Stale) (control : KongouControl) :
    ∃ looked, kongouInfoRun full info stale control =
      some (looked, .ok (((if full = true ∧ info ≠ [] then some (readOutput infoLine info)
        else none).getD shortFields).foldl kongouFieldInit control)) ∧
        looked ≤ (shellCopy info stale).2 := by
  unfold kongouInfoRun
  cases full with
  | false => exact ⟨0, rfl, Nat.zero_le _⟩
  | true =>
    obtain ⟨looked, hloop, hle⟩ := outputLoop_fits infoLine kongouFieldInit
      (fun line => infoLine_ok.2) (h rfl) stale (shortFields.foldl kongouFieldInit control) control
    refine ⟨looked, hloop.trans ?_, hle⟩
    unfold afterLoop
    by_cases hempty : info = []
    · rw [if_pos hempty, if_neg (fun hboth => hboth.2 hempty)]
      rfl
    · rw [if_neg hempty, if_pos ⟨rfl, hempty⟩]
      rfl

/-- Outputs that fit give the controls of the lines that are read. -/
theorem kongouControlInitRun_fits {full : Bool} {got info : Bytes} (hgot : OutputFits GotFits got)
    (hinfo : full = true → OutputFits InfoFits info) (staleGot staleInfo : Stale) :
    ∃ run, kongouControlInitRun full got info staleGot staleInfo = some run ∧
      run.got ≤ (shellCopy got staleGot).2 ∧ run.info ≤ (shellCopy info staleInfo).2 ∧
      run.control = .ok (kongouControlInit (readOutput gotLine got)
        (if full = true ∧ info ≠ [] then some (readOutput infoLine info) else none)) := by
  obtain ⟨looked, hloop, hle⟩ := outputLoop_fits gotLine kongouFieldGot (fun line => gotLine_ok.2)
    hgot staleGot .zeroed .zeroed
  rw [afterLoop_got] at hloop
  obtain ⟨lookedInfo, hrest, hle'⟩ := kongouInfoRun_fits hinfo staleInfo
    (kongouControlGetAll .zeroed (readOutput gotLine got))
  refine ⟨⟨looked, lookedInfo, _⟩, ?_, hle, hle', rfl⟩
  unfold kongouControlInitRun kongouControlGetAllRun
  simp only [hloop, Option.bind_eq_bind, Option.bind_some, hrest]
  rfl

/-- Controls come from two loops that went through. -/
theorem of_kongouControlInitRun {full : Bool} {got info : Bytes} {staleGot staleInfo : Stale}
    {run : KongouRun} {control : KongouControl}
    (h : kongouControlInitRun full got info staleGot staleInfo = some run)
    (hcontrol : run.control = .ok control) :
    ∃ looked lookedInfo control',
      kongouControlGetAllRun got staleGot .zeroed = some (looked, .ok control') ∧
        kongouInfoRun full info staleInfo control' = some (lookedInfo, .ok control) := by
  unfold kongouControlInitRun at h
  cases hget : kongouControlGetAllRun got staleGot .zeroed with
  | none =>
    rw [hget] at h
    exact nomatch h
  | some r =>
    obtain ⟨looked, result⟩ := r
    rw [hget, Option.bind_eq_bind, Option.bind_some] at h
    cases result with
    | error fault =>
      obtain rfl := Option.some.inj h
      exact nomatch hcontrol
    | ok control' =>
      dsimp only at h
      cases hrest : kongouInfoRun full info staleInfo control' with
      | none =>
        rw [hrest] at h
        exact nomatch h
      | some r =>
        obtain ⟨lookedInfo, result⟩ := r
        rw [hrest] at h
        obtain rfl := Option.some.inj h
        dsimp only at hcontrol
        exact ⟨looked, lookedInfo, control', rfl, by rw [hrest, hcontrol]⟩

/-- What setting up a field and setting its value preserve holds of all controls. -/
theorem kongouControlInitRun_invariant {I : KongouControl → Prop} (hzeroed : I .zeroed)
    (hgot : ∀ control got, I control → I (kongouFieldGot control got))
    (hinit : ∀ control f, I control → I (kongouFieldInit control f)) {full : Bool} {got info : Bytes}
    {staleGot staleInfo : Stale} {run : KongouRun} {control : KongouControl}
    (h : kongouControlInitRun full got info staleGot staleInfo = some run)
    (hcontrol : run.control = .ok control) : I control := by
  obtain ⟨looked, lookedInfo, control', hget, hrest⟩ := of_kongouControlInitRun h hcontrol
  have h' : I control' := outputLoop_invariant hgot hget hzeroed hzeroed
  have hshort : I (shortFields.foldl kongouFieldInit control') :=
    hinit _ _ (hinit _ _ (hinit _ _ h'))
  unfold kongouInfoRun at hrest
  cases full with
  | false =>
    obtain ⟨-, hsame⟩ := Prod.mk.inj (Option.some.inj hrest)
    exact Except.ok.inj hsame ▸ hshort
  | true => exact outputLoop_invariant hinit hrest hshort h'

/-- Every run comes to an end. -/
theorem kongouControlInitRun_ends (full : Bool) (got info : Bytes) (staleGot staleInfo : Stale) :
    ∃ run, kongouControlInitRun full got info staleGot staleInfo = some run := by
  obtain ⟨⟨looked, result⟩, hget⟩ := outputLoop_ends gotLine kongouFieldGot got staleGot .zeroed .zeroed
  unfold kongouControlInitRun kongouControlGetAllRun
  rw [hget, Option.bind_eq_bind, Option.bind_some]
  cases result with
  | error fault => exact ⟨_, rfl⟩
  | ok control =>
    dsimp only
    unfold kongouInfoRun
    cases full with
    | false => exact ⟨_, rfl⟩
    | true =>
      obtain ⟨r, hinfo⟩ := outputLoop_ends infoLine kongouFieldInit info staleInfo
        (shortFields.foldl kongouFieldInit control) control
      exact ⟨⟨looked, r.1, r.2⟩, by simp only [hinfo]; rfl⟩

/-- **The outputs.** The controls do not depend on what the buffers held, and are set inside
the fields, exactly when the outputs have a NUL where they are read and fit on their lines. -/
theorem kongou_iff (full : Bool) (got info : Bytes) : KongouSafe full got info ↔
    OutputFits GotFits got ∧ (full = true → OutputFits InfoFits info) := by
  constructor
  · intro hsafe
    obtain ⟨run, hrun, -, -⟩ := hsafe.inside noNul noNul
    obtain ⟨control, hcontrol⟩ := hsafe.same
    obtain ⟨looked, lookedInfo, control', hget, hrest⟩ :=
      of_kongouControlInitRun hrun (hcontrol noNul noNul run hrun)
    refine ⟨fits_of_outputLoop (fun line => gotLine_ok.1) hget, fun hfull => ?_⟩
    rw [kongouInfoRun, hfull] at hrest
    exact fits_of_outputLoop (fun line => infoLine_ok.1) hrest
  · intro h
    obtain ⟨hgot, hinfo⟩ := h
    have hfits := kongouControlInitRun_fits hgot hinfo
    have hcontrol : ∀ staleGot staleInfo run,
        kongouControlInitRun full got info staleGot staleInfo = some run →
          run.control = .ok (kongouControlInit (readOutput gotLine got)
            (if full = true ∧ info ≠ [] then some (readOutput infoLine info) else none)) := by
      intro staleGot staleInfo run hrun
      obtain ⟨run', hrun', -, -, hcontrol⟩ := hfits staleGot staleInfo
      rw [hrun, Option.some.injEq] at hrun'
      rw [hrun', hcontrol]
    refine ⟨fun staleGot staleInfo => ?_, ⟨_, hcontrol⟩, fun staleGot staleInfo run no hrun => ?_⟩
    · obtain ⟨run, hrun, hle, hle', -⟩ := hfits staleGot staleInfo
      exact ⟨run, hrun, hle, hle'⟩
    · rw [hcontrol staleGot staleInfo run hrun]
      exact fun h => nomatch h

/-- A short run, on whatever string the buffer holds. -/
theorem shortRun_holds {got t : Bytes} {stale : Stale} (h : HoldsStr (shellCopy got stale).1 0 t)
    (hne : got ≠ []) (staleInfo : Stale) {result : Except KongouFault KongouControl}
    (hread : (textLines t).foldlM (readLine gotLine kongouFieldGot) .zeroed = result) :
    ∃ run, kongouControlInitRun false got [] stale staleInfo = some run ∧
      run.control = result.map fun control => shortFields.foldl kongouFieldInit control := by
  obtain ⟨looked, hloop, -⟩ := outputLoop_holds gotLine kongouFieldGot h hne .zeroed .zeroed
  rw [hread] at hloop
  unfold kongouControlInitRun kongouControlGetAllRun
  rw [hloop, Option.bind_eq_bind, Option.bind_some]
  cases result <;> exact ⟨_, rfl, rfl⟩

/-- A buffer of zeros. -/
def zeros : Stale := ⟨List.replicate maxOutput 0, List.length_replicate⟩

/-- A buffer with a line left in it. -/
def leftLine : Stale :=
  ⟨ascii "?????6 1\n" ++ List.replicate 8183 0, by rw [List.length_append, List.length_replicate]; rfl⟩

/-- The line `5 64` alone sets what was left in the buffer too, and the line `200 1` sets a
field that does not exist. -/
theorem kongou_left_line :
    (∃ run run', kongouControlInitRun false (ascii "5 64\n") [] zeros zeros = some run ∧
      kongouControlInitRun false (ascii "5 64\n") [] leftLine zeros = some run' ∧
      run.control ≠ run'.control) ∧
    ¬ KongouSafe false (ascii "5 64\n") [] ∧
    (∀ stale, ∃ run, kongouControlInitRun false (ascii "200 1\n" ++ [0]) [] stale zeros = some run ∧
      run.control = .error (.field 200)) := by
  have hzeros : HoldsStr (shellCopy (ascii "5 64\n") zeros).1 0 (ascii "5 64\n") :=
    ⟨by decide, List.replicate 8186 0, rfl⟩
  have hleft : HoldsStr (shellCopy (ascii "5 64\n") leftLine).1 0 (ascii "5 64\n6 1\n") :=
    ⟨by decide, List.replicate 8182 0, rfl⟩
  have hread : (textLines (ascii "5 64\n")).foldlM (readLine gotLine kongouFieldGot) .zeroed =
      .ok (kongouControlGetAll .zeroed [(5, 64)]) := rfl
  have hread' : (textLines (ascii "5 64\n6 1\n")).foldlM (readLine gotLine kongouFieldGot) .zeroed =
      .ok (kongouControlGetAll .zeroed [(5, 64), (6, 1)]) := rfl
  have hread200 : (textLines (ascii "200 1\n")).foldlM (readLine gotLine kongouFieldGot) .zeroed =
      .error (.field 200) := rfl
  obtain ⟨run, hrun, hcontrol⟩ := shortRun_holds hzeros (by decide) zeros hread
  obtain ⟨run', hrun', hcontrol'⟩ := shortRun_holds hleft (by decide) zeros hread'
  have hne : run.control ≠ run'.control := by
    rw [hcontrol, hcontrol']
    intro heq
    have hfield := congrArg (fun c => (c.fields 6).value) (Except.ok.inj heq)
    exact absurd hfield (by decide)
  refine ⟨⟨run, run', hrun, hrun', hne⟩, fun hsafe => ?_, fun stale => ?_⟩
  · obtain ⟨control, hsame⟩ := hsafe.same
    exact hne ((hsame zeros zeros run hrun).trans (hsame leftLine zeros run' hrun').symm)
  · exact shortRun_holds ⟨by decide, stale.bytes.drop 7, rfl⟩ (by decide) zeros hread200

end Sighttpd.L4
