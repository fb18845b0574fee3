import Sighttpd.L3Config.CfgCuts

/-!
# Escapes

`cDecode` is the meaning of a text with escapes, as in C. The scanner sees that a number
ends when it reads the byte behind it: a backslash starts the next escape, another byte is
pushed back, in the one place that is also used by the callers. An octal number goes
on to a fourth digit.

* `TextOk`: the texts in which neither happens.
* `nextLoop_outcome`: what a call gives and what it leaves, for every text.
* `decodedStream`: the text is handed out decoded where all is well with it.
-/
namespace Sighttpd.L3

/-! ## The meaning of a text -/

/-- What stands behind a backslash: the value, 0 for no character; whether the end is seen
without the byte behind it; and the text behind it. -/
structure Escape where
  value : UInt8
  closed : Bool
  rest : Bytes

/-- At most `n` digits -/
def digitsOf (digit : UInt8 → Option UInt8) (n : Nat) (r : Bytes) : Bytes :=
  (r.take n).takeWhile fun c => (digit c).isSome

def digitsValue (digit : UInt8 → Option UInt8) (base : UInt8) (ds : Bytes) : UInt8 :=
  ds.foldl (fun v c => v * base + (digit c).getD 0) 0

def hexEscape (r : Bytes) : Escape :=
  let ds := digitsOf copaHex 2 r
  ⟨digitsValue copaHex 16 ds, ds.length = 2, r.drop ds.length⟩

def octalEscape (r : Bytes) : Escape :=
  let ds := digitsOf copaOctal 3 r
  ⟨digitsValue copaOctal 8 ds, false, r.drop ds.length⟩

/-- A named escape, a continuation, a number, or any other byte for itself. -/
def escapeOf : Bytes → Escape
  | [] => ⟨0, true, []⟩
  | e :: r =>
    match escapes.lookup e with
    | some d => ⟨d, true, r⟩
    | none =>
      if e = 10 ∨ e = 13 then ⟨0, true, r⟩
      else if e = 120 then hexEscape r
      else if (copaOctal e).isSome then octalEscape (e :: r)
      else ⟨e, true, r⟩

def charOf (value : UInt8) : Bytes := if value = 0 then [] else [value]

theorem length_escapeOf (r : Bytes) : (escapeOf r).rest.length ≤ r.length := by
  cases r with
  | nil => exact Nat.le_refl _
  | cons e r =>
    rw [escapeOf]
    cases escapes.lookup e with
    | some d => exact Nat.le_succ _
    | none =>
      simp only
      split
      · exact Nat.le_succ _
      · split
        · rw [hexEscape, List.length_drop, List.length_cons]
          omega
        · split
          · rw [octalEscape, List.length_drop]
            omega
          · exact Nat.le_succ _

/-- The C-style decoding of a text. -/
def cDecode : Bytes → Bytes
  | [] => []
  | c :: r => if c = 92 then charOf (escapeOf r).value ++ cDecode (escapeOf r).rest else c :: cDecode r
termination_by r => r.length
decreasing_by
  · have := length_escapeOf r
    simp only [List.length_cons]
    omega
  · exact Nat.lt_succ_self _

/-- The end of the escape is seen in time: by itself, by the backslash behind it, or at the
end of the text where nothing is lost. -/
def Escape.Ends (e : Escape) : Prop :=
  e.closed = true ∨ e.rest.head? = some 92 ∨ e.rest = [] ∧ e.value = 0

/-- The escapes end in time, and none is the character that is taken for the end. -/
def TextOk : Bytes → Prop
  | [] => True
  | c :: r =>
    if c = 92 then (escapeOf r).Ends ∧ (escapeOf r).value ≠ eof ∧ TextOk (escapeOf r).rest else TextOk r
termination_by r => r.length
decreasing_by
  · have := length_escapeOf r
    simp only [List.length_cons]
    omega
  · exact Nat.lt_succ_self _

@[simp] theorem cDecode_nil : cDecode [] = [] := by rw [cDecode]

theorem cDecode_plain {c : UInt8} (r : Bytes) (hc : c ≠ 92) : cDecode (c :: r) = c :: cDecode r := by
  rw [cDecode, if_neg hc]

theorem cDecode_escape (r : Bytes) :
    cDecode (92 :: r) = charOf (escapeOf r).value ++ cDecode (escapeOf r).rest := by
  rw [cDecode, if_pos rfl]

@[simp] theorem textOk_nil : TextOk [] := by
  rw [TextOk]
  trivial

theorem textOk_plain {c : UInt8} (r : Bytes) (hc : c ≠ 92) : TextOk (c :: r) ↔ TextOk r := by
  rw [TextOk, if_neg hc]

theorem textOk_escape (r : Bytes) : TextOk (92 :: r) ↔
    (escapeOf r).Ends ∧ (escapeOf r).value ≠ eof ∧ TextOk (escapeOf r).rest := by
  rw [TextOk, if_pos rfl]

/-! ## The window over full reads -/

/-- The bytes to come are `w`, in the window and in full reads. -/
structure Window (p : CopaInput) (w : Bytes) : Prop where
  size : p.readBuffer.length = bufferSize
  pieces : ∃ pieces : List Bytes, p.fd = pieces.map some ∧ (∀ q ∈ pieces, q.length = bufferSize) ∧
    w = p.readBuffer.drop p.offset ++ pieces.flatten

/-- What a read leaves as it is. -/
structure SameState (p q : CopaInput) : Prop where
  pushback : q.pushback = p.pushback
  numchar : q.numchar = p.numchar
  escape : q.escape = p.escape
  octal : q.octal = p.octal
  hex : q.hex = p.hex

section Window
variable {p : CopaInput} {w : Bytes} {c : UInt8}

theorem rawNext_end (h : Window p []) : rawNext p = (none, { p with nread := 0, active := false }) := by
  obtain ⟨hsize, pieces, hfd, hfull, hw⟩ := h
  obtain ⟨hdrop, hflat⟩ := List.append_eq_nil_iff.mp hw.symm
  have hoff : p.offset ≥ bufferSize := by
    have := List.drop_eq_nil_iff.mp hdrop
    omega
  have hnil : pieces = [] := by
    cases pieces with
    | nil => rfl
    | cons q pieces =>
      have hq := hfull q (List.mem_cons_self ..)
      rw [List.flatten_cons, List.append_eq_nil_iff] at hflat
      rw [hflat.1] at hq
      exact absurd hq (by decide)
  rw [rawNext, if_pos hoff, copaRefill, hfd, hnil]
  rfl

theorem rawNext_byte (h : Window p (c :: w)) :
    ∃ q, rawNext p = (some c, q) ∧ Window q w ∧ SameState p q := by
  obtain ⟨hsize, pieces, hfd, hfull, hw⟩ := h
  by_cases hoff : p.offset ≥ bufferSize
  · rw [List.drop_eq_nil_of_le (by omega), List.nil_append] at hw
    cases pieces with
    | nil => exact absurd hw (by simp)
    | cons q pieces =>
      obtain ⟨hq, hrest⟩ := List.forall_mem_cons.mp hfull
      obtain ⟨b, bs, rfl⟩ := List.exists_cons_of_ne_nil (show q ≠ [] by
        rintro rfl
        exact absurd hq (by decide))
      obtain ⟨rfl, htail⟩ := List.cons.inj hw
      have hold : p.readBuffer.drop (c :: bs).length = [] := List.drop_eq_nil_of_le (by omega)
      refine ⟨{ p with readBuffer := c :: bs, fd := pieces.map some, nread := (c :: bs).length, offset := 1 },
        ?_, ⟨hq, pieces, rfl, hrest, htail⟩, ⟨rfl, rfl, rfl, rfl, rfl⟩⟩
      rw [rawNext, if_pos hoff, copaRefill, hfd]
      simp only [List.map_cons, if_neg (List.cons_ne_nil c bs), hold, List.append_nil]
      rfl
  · have hlt : p.offset < p.readBuffer.length := by omega
    rw [List.drop_eq_getElem_cons hlt, List.cons_append] at hw
    obtain ⟨rfl, htail⟩ := List.cons.inj hw
    refine ⟨{ p with offset := p.offset + 1 }, ?_, ⟨hsize, pieces, hfd, hfull, htail⟩, ⟨rfl, rfl, rfl, rfl, rfl⟩⟩
    rw [rawNext, if_neg hoff, List.getD_eq_getElem?_getD, List.getElem?_eq_getElem hlt, Option.getD_some]

theorem nextLoop_end (h : Window p []) : copaNextLoop p = (eof, { p with nread := 0, active := false }) := by
  rw [copaNextLoop, rawNext_end h]

/-- One byte of the loop. -/
theorem nextLoop_byte (h : Window p (c :: w)) : ∃ q, Window q w ∧ SameState p q ∧
    copaNextLoop p =
      if (copaDecode q c).1 = 0 then copaNextLoop (copaDecode q c).2 else copaDecode q c := by
  obtain ⟨q, hraw, hq, hsame⟩ := rawNext_byte h
  exact ⟨q, hq, hsame, by rw [copaNextLoop, hraw]⟩

theorem copaDigit_frame (p : CopaInput) (c base : UInt8) (num : Option UInt8) (left : Nat) :
    (copaDigit p c base num left).2.readBuffer = p.readBuffer ∧
      (copaDigit p c base num left).2.fd = p.fd ∧ (copaDigit p c base num left).2.offset = p.offset ∧
      ((copaDigit p c base num left).2.pushback = p.pushback ∨
        (copaDigit p c base num left).2.pushback = c) := by
  cases num with
  | some num => exact ⟨rfl, rfl, rfl, Or.inl rfl⟩
  | none =>
    rw [copaDigit]
    split
    · exact ⟨rfl, rfl, rfl, Or.inl rfl⟩
    · exact ⟨rfl, rfl, rfl, Or.inr rfl⟩

theorem copaEscape_frame (p : CopaInput) (c : UInt8) :
    (copaEscape p c).2.readBuffer = p.readBuffer ∧ (copaEscape p c).2.fd = p.fd ∧
      (copaEscape p c).2.offset = p.offset ∧ (copaEscape p c).2.pushback = p.pushback := by
  unfold copaEscape
  cases escapes.lookup c with
  | some d => exact ⟨rfl, rfl, rfl, rfl⟩
  | none =>
    simp only
    split
    · exact ⟨rfl, rfl, rfl, rfl⟩
    · split
      · exact ⟨rfl, rfl, rfl, rfl⟩
      · cases copaOctal c <;> exact ⟨rfl, rfl, rfl, rfl⟩

/-- Decoding leaves the window alone, and pushes back no other byte. -/
theorem copaDecode_frame (p : CopaInput) (c : UInt8) :
    (copaDecode p c).2.readBuffer = p.readBuffer ∧ (copaDecode p c).2.fd = p.fd ∧
      (copaDecode p c).2.offset = p.offset ∧
      ((copaDecode p c).2.pushback = p.pushback ∨ (copaDecode p c).2.pushback = c) := by
  unfold copaDecode
  split
  · exact copaDigit_frame ..
  · split
    · exact copaDigit_frame ..
    · split
      · obtain ⟨hbuf, hfd, hoff, hpb⟩ := copaEscape_frame { p with escape := false } c
        exact ⟨hbuf, hfd, hoff, Or.inl hpb⟩
      · split <;> exact ⟨rfl, rfl, rfl, Or.inl rfl⟩

theorem Window.decode (h : Window p w) (c : UInt8) : Window (copaDecode p c).2 w := by
  obtain ⟨hbuf, hfd, hoff, -⟩ := copaDecode_frame p c
  exact ⟨hbuf ▸ h.size, by rw [hbuf, hfd, hoff]; exact h.pieces⟩

/-- A byte that is pushed back stays, or another one replaces it. -/
theorem nextLoop_pushback (hw : ∀ c ∈ w, c ≠ 0) (h : Window p w) (hpb : p.pushback ≠ 0) :
    (copaNextLoop p).2.pushback ≠ 0 := by
  induction w generalizing p with
  | nil =>
    rw [nextLoop_end h]
    exact hpb
  | cons c w ih =>
    obtain ⟨hc, hw⟩ := List.forall_mem_cons.mp hw
    obtain ⟨q, hq, hsame, heq⟩ := nextLoop_byte h
    have hdecode : (copaDecode q c).2.pushback ≠ 0 := by
      rcases (copaDecode_frame q c).2.2.2 with hb | hb
      · rw [hb, hsame.pushback]
        exact hpb
      · rw [hb]
        exact hc
    rw [heq]
    split
    · exact ih hw (hq.decode c) hdecode
    · exact hdecode

end Window

/-! ## One call -/

/-- The text to come is `r`, a backslash that was read standing in front of it. Behind the end
of the text a number may be open. -/
def Cursor (p : CopaInput) (r : Bytes) : Prop :=
  ∃ w, Window p w ∧ (p.octal = 0 ∧ p.hex = 0 ∧ r = (if p.escape then [92] else []) ++ w ∨ w = [] ∧ r = [])

/-- Inside a number of the value `v` so far, with `left` more digits to come at most. -/
structure InNumber (digit : UInt8 → Option UInt8) (base : UInt8) (left : Nat) (v : UInt8)
    (p : CopaInput) : Prop where
  kind : digit = copaOctal ∧ base = 8 ∧ p.octal = left ∧ p.hex = 0 ∨
    digit = copaHex ∧ base = 16 ∧ p.octal = 0 ∧ p.hex = left
  numchar : p.numchar = v
  escape : p.escape = false

section Number
variable {digit : UInt8 → Option UInt8} {base v d c : UInt8} {left : Nat} {p q : CopaInput} {w : Bytes}

theorem InNumber.same (h : InNumber digit base left v p) (hsame : SameState p q) :
    InNumber digit base left v q := by
  obtain ⟨hkind, hnum, hesc⟩ := h
  refine ⟨?_, hsame.numchar.trans hnum, hsame.escape.trans hesc⟩
  rw [hsame.octal, hsame.hex]
  exact hkind

theorem InNumber.closed (h : InNumber digit base 0 v p) : p.octal = 0 ∧ p.hex = 0 := by
  rcases h.kind with ⟨-, -, hoct, hhex⟩ | ⟨-, -, hoct, hhex⟩
  · exact ⟨hoct, hhex⟩
  · exact ⟨hoct, hhex⟩

/-- A byte inside a number: one digit less to come, and none behind a byte that is no digit. -/
theorem InNumber.decode_eq (h : InNumber digit base (left + 1) v p) (c : UInt8) :
    ∃ q, copaDecode p c = copaDigit q c base (digit c) (if (digit c).isNone then 0 else left) ∧
      InNumber digit base (if (digit c).isNone then 0 else left) v q ∧ q.pushback = p.pushback := by
  obtain ⟨⟨rfl, rfl, hoct, hhex⟩ | ⟨rfl, rfl, hoct, hhex⟩, hnum, hesc⟩ := h
  · refine ⟨{ p with octal := if (copaOctal c).isNone then 0 else left }, ?_,
      ⟨Or.inl ⟨rfl, rfl, rfl, hhex⟩, hnum, hesc⟩, rfl⟩
    rw [copaDecode, if_pos (by omega), hoct]
    rfl
  · refine ⟨{ p with hex := if (copaHex c).isNone then 0 else left }, ?_,
      ⟨Or.inr ⟨rfl, rfl, hoct, rfl⟩, hnum, hesc⟩, rfl⟩
    rw [copaDecode, if_neg (by omega), if_pos (by omega), hhex]
    rfl

/-- The byte behind a number -/
theorem decode_stop (h : InNumber digit base (left + 1) v p) (hw : Window p w) (hc : digit c = none) :
    (copaDecode p c).1 = v ∧ Cursor (copaDecode p c).2 ((if c = 92 then [92] else []) ++ w) ∧
      (copaDecode p c).2.pushback = if c = 92 then p.pushback else c := by
  have hwin := hw.decode c
  obtain ⟨q, heq, hq, hback⟩ := h.decode_eq c
  rw [hc, if_pos Option.isNone_none] at heq hq
  obtain ⟨hoct, hhex⟩ := hq.closed
  rw [heq] at hwin ⊢
  by_cases h92 : c = 92
  · subst h92
    exact ⟨hq.numchar, ⟨w, hwin, Or.inl ⟨hoct, hhex, rfl⟩⟩, hback⟩
  · simp only [copaDigit, if_neg h92] at hwin ⊢
    exact ⟨hq.numchar, ⟨w, hwin, Or.inl ⟨hoct, hhex, by simp [hq.escape]⟩⟩, trivial⟩

/-- A digit that is not the last -/
theorem decode_digit (h : InNumber digit base (left + 2) v p) (hd : digit c = some d) :
    (copaDecode p c).1 = 0 ∧ InNumber digit base (left + 1) (v * base + d) (copaDecode p c).2 ∧
      (copaDecode p c).2.pushback = p.pushback := by
  obtain ⟨q, heq, hq, hback⟩ := h.decode_eq c
  rw [hd, if_neg (by simp)] at heq hq
  rw [heq, ← hq.numchar]
  exact ⟨rfl, ⟨hq.kind, rfl, hq.escape⟩, hback⟩

/-- The last digit that is taken -/
theorem decode_lastDigit (h : InNumber digit base 1 v p) (hw : Window p w) (hd : digit c = some d) :
    (copaDecode p c).1 = v * base + d ∧ Cursor (copaDecode p c).2 w ∧
      (copaDecode p c).2.pushback = p.pushback := by
  have hwin := hw.decode c
  obtain ⟨q, heq, hq, hback⟩ := h.decode_eq c
  rw [hd, if_neg (by simp)] at heq hq
  obtain ⟨hoct, hhex⟩ := hq.closed
  rw [heq] at hwin ⊢
  rw [← hq.numchar]
  exact ⟨rfl, ⟨w, hwin, Or.inl ⟨hoct, hhex, by simp [copaDigit, hq.escape]⟩⟩, hback⟩

end Number

/-- A shorter text at the end of `r₀` -/
structure Behind (r r₀ : Bytes) : Prop where
  suffix : r <:+ r₀
  length_lt : r.length < r₀.length

/-- What a call does that finds nothing pushed back: `D` is the decoding of the text to come `r₀`,
and `ok` that all is well with it. -/
inductive Outcome (D : Bytes) (ok : Prop) (r₀ : Bytes) (c : UInt8) (p : CopaInput) : Prop where
  | last (hok : ok) (hc : c = eof) (hD : D = []) (hcur : Cursor p []) (hpb : p.pushback = 0)
      (hstop : p.active = false)
  | char (r : Bytes) (hok : ok ↔ TextOk r) (h0 : c ≠ 0) (hc : c ≠ eof) (hD : D = c :: cDecode r)
      (hcur : Cursor p r) (hpb : p.pushback = 0) (hr : Behind r r₀)
  -- a character is lost at the end, or one that is taken for the end
  | lost (hok : ¬ ok) (hc : c = eof) (hD : D ≠ [])
  | pushed (hok : ¬ ok) (hpb : p.pushback ≠ 0)
  -- a digit is taken that is none
  | astray (r : Bytes) (hok : ¬ ok) (hc : c ≠ eof) (hcur : Cursor p r) (hpb : p.pushback = 0)
      (hr : Behind r r₀) (hle : (cDecode r).length + 1 ≤ D.length)
      (hfew : [c] <+: D → (cDecode r).length + 1 < D.length)

/-- The texts to come that a call may go on with have the outcome that they should. -/
def OutcomesBehind (r₀ : Bytes) : Prop :=
  ∀ r, Behind r r₀ → ∀ p, Cursor p r → p.pushback = 0 →
    Outcome (cDecode r) (TextOk r) r (copaNextLoop p).1 (copaNextLoop p).2

theorem charOf_zero : charOf 0 = [] := rfl

theorem charOf_of_ne {v : UInt8} (hv : v ≠ 0) : charOf v = [v] := if_neg hv

section Outcome
variable {D r r₀ : Bytes} {ok ok' : Prop} {c v d base : UInt8} {p q : CopaInput}
  {digit : UInt8 → Option UInt8} {left : Nat}

theorem Behind.trans {r₁ : Bytes} (h : Behind r r₁) (h' : Behind r₁ r₀) : Behind r r₀ :=
  ⟨h.suffix.trans h'.suffix, Nat.lt_trans h.length_lt h'.length_lt⟩

theorem Behind.tail (h : Behind (c :: r) r₀) : Behind r r₀ :=
  ⟨(List.suffix_cons ..).trans h.suffix, Nat.lt_of_succ_lt h.length_lt⟩

theorem Outcome.behind (h : Outcome D ok r c p) (hr : Behind r r₀) (hok : ok' ↔ ok) :
    Outcome D ok' r₀ c p := by
  cases h with
  | last h hc hD hcur hpb hstop => exact .last (hok.mpr h) hc hD hcur hpb hstop
  | char r' h h0 hc hD hcur hpb hr' => exact .char r' (hok.trans h) h0 hc hD hcur hpb (hr'.trans hr)
  | lost h hc hD => exact .lost (fun h' => h (hok.mp h')) hc hD
  | pushed h hpb => exact .pushed (fun h' => h (hok.mp h')) hpb
  | astray r' h hc hcur hpb hr' hle hfew =>
    exact .astray r' (fun h' => h (hok.mp h')) hc hcur hpb (hr'.trans hr) hle hfew

theorem Outcome.congr (h : Outcome D ok r₀ c p) (hok : ok' ↔ ok) : Outcome D ok' r₀ c p :=
  propext hok ▸ h

/-- A value is returned, or passed over where it is 0. -/
theorem outcome_value (ih : OutcomesBehind r₀) (hr : Behind r r₀) (hcur : Cursor q r)
    (hpb : q.pushback = 0) (hok : ok ↔ v ≠ eof ∧ TextOk r) :
    Outcome (charOf v ++ cDecode r) ok r₀ (if v = 0 then copaNextLoop q else (v, q)).1
      (if v = 0 then copaNextLoop q else (v, q)).2 := by
  by_cases h0 : v = 0
  · subst h0
    rw [if_pos rfl, charOf_zero, List.nil_append]
    exact (ih r hr q hcur hpb).behind hr (hok.trans (and_iff_right (by decide)))
  · rw [if_neg h0, charOf_of_ne h0]
    by_cases heof : v = eof
    · exact .lost (fun h => (hok.mp h).1 heof) heof (by simp)
    · exact .char r (hok.trans (and_iff_right heof)) h0 heof rfl hcur hpb hr

/-- A number in front of another character than a backslash ends too late. -/
theorem not_ends (hc : c ≠ 92) : ¬ (⟨v, false, c :: r⟩ : Escape).Ends := by
  rintro (h | h | h)
  · exact absurd h (by simp)
  · exact hc (by simpa using h)
  · exact absurd h.1 (by simp)

/-- A number behind which there is no digit: the byte that is there is seen. -/
theorem outcome_number (ih : OutcomesBehind r₀) (hr : Behind r r₀) (htext : ∀ c ∈ r, c ≠ 0)
    (hp : InNumber digit base (left + 1) v p) (hw : Window p r) (hpb : p.pushback = 0)
    (hend : ∀ c ∈ r.head?, digit c = none) :
    Outcome (charOf v ++ cDecode r) ((⟨v, false, r⟩ : Escape).Ends ∧ v ≠ eof ∧ TextOk r) r₀
      (copaNextLoop p).1 (copaNextLoop p).2 := by
  cases r with
  | nil =>
    rw [nextLoop_end hw, cDecode_nil, List.append_nil]
    by_cases h0 : v = 0
    · subst h0
      exact .last ⟨Or.inr (Or.inr ⟨rfl, rfl⟩), by decide, textOk_nil⟩ rfl rfl
        ⟨[], ⟨hw.size, hw.pieces⟩, Or.inr ⟨rfl, rfl⟩⟩ hpb rfl
    · refine .lost (fun h => ?_) rfl (by rw [charOf_of_ne h0]; simp)
      rcases h.1 with h | h | h
      · exact absurd h (by simp)
      · exact absurd h (by simp)
      · exact h0 h.2
  | cons c w =>
    obtain ⟨q, hq, hsame, heq⟩ := nextLoop_byte hw
    obtain ⟨hval, hcur, hback⟩ := decode_stop (hp.same hsame) hq (hend c rfl)
    have heq' : copaNextLoop p = if v = 0 then copaNextLoop (copaDecode q c).2 else (v, (copaDecode q c).2) := by
      rw [heq, hval]
      split
      · rfl
      · rw [← hval]
    rw [heq']
    by_cases h92 : c = 92
    · subst h92
      refine outcome_value ih hr hcur (by rw [hback, if_pos rfl, hsame.pushback, hpb]) ?_
      exact and_iff_right (Or.inr (Or.inl rfl))
    · have hpushed : (copaDecode q c).2.pushback ≠ 0 := by
        rw [hback, if_neg h92]
        exact htext c (List.mem_cons_self ..)
      have hbad : ¬ ((⟨v, false, c :: w⟩ : Escape).Ends ∧ v ≠ eof ∧ TextOk (c :: w)) :=
        fun h => not_ends h92 h.1
      refine .pushed hbad ?_
      split
      · exact nextLoop_pushback (fun b hb => htext b (List.mem_cons_of_mem _ hb)) (hq.decode c) hpushed
      · exact hpushed

/-- A digit of a number that is not the last. -/
theorem nextLoop_digit {w : Bytes} (hp : InNumber digit base (left + 2) v p) (hw : Window p (c :: w))
    (hd : digit c = some d) : ∃ q, InNumber digit base (left + 1) (v * base + d) q ∧ Window q w ∧
      q.pushback = p.pushback ∧ copaNextLoop p = copaNextLoop q := by
  obtain ⟨q, hq, hsame, heq⟩ := nextLoop_byte hw
  obtain ⟨hval, hnum, hback⟩ := decode_digit (hp.same hsame) hd
  exact ⟨_, hnum, hq.decode c, hback.trans hsame.pushback, by rw [heq, if_pos hval]⟩

theorem nextLoop_lastDigit {w : Bytes} (hp : InNumber digit base 1 v p) (hw : Window p (c :: w))
    (hd : digit c = some d) : ∃ q, Cursor q w ∧ q.pushback = p.pushback ∧
      copaNextLoop p = if v * base + d = 0 then copaNextLoop q else (v * base + d, q) := by
  obtain ⟨q, hq, hsame, heq⟩ := nextLoop_byte hw
  obtain ⟨hval, hcur, hback⟩ := decode_lastDigit (hp.same hsame) hq hd
  refine ⟨_, hcur, hback.trans hsame.pushback, ?_⟩
  rw [heq, hval]
  split
  · rfl
  · rw [← hval]

end Outcome

/-! ## Escapes -/

/-- A text goes on with a digit or not. -/
theorem digit_cases (digit : UInt8 → Option UInt8) (r : Bytes) :
    (∀ c ∈ r.head?, digit c = none) ∨ ∃ c d r', r = c :: r' ∧ digit c = some d := by
  cases r with
  | nil => exact Or.inl (by simp)
  | cons c r =>
    cases hd : digit c with
    | none => exact Or.inl fun b hb => by rw [← Option.mem_some_iff.mp hb, hd]
    | some d => exact Or.inr ⟨c, d, r, rfl, hd⟩

section Digits
variable {digit : UInt8 → Option UInt8} {c d : UInt8} {r : Bytes}

theorem digitsOf_zero (digit : UInt8 → Option UInt8) (r : Bytes) : digitsOf digit 0 r = [] := rfl

theorem digitsOf_ended (n : Nat) (hend : ∀ c ∈ r.head?, digit c = none) : digitsOf digit n r = [] := by
  cases r with
  | nil => rw [digitsOf, List.take_nil, List.takeWhile_nil]
  | cons c r =>
    cases n with
    | zero => rfl
    | succ n =>
      rw [digitsOf, List.take_succ_cons, List.takeWhile_cons_of_neg]
      rw [hend c rfl]
      exact Bool.false_ne_true

theorem digitsOf_digit (n : Nat) (hd : digit c = some d) :
    digitsOf digit (n + 1) (c :: r) = c :: digitsOf digit n r := by
  rw [digitsOf, List.take_succ_cons, List.takeWhile_cons_of_pos]
  · rfl
  · rw [hd]
    rfl

theorem octal_ne {c d : UInt8} (hd : copaOctal c = some d) : c ≠ 92 ∧ d ≠ c := by
  rw [copaOctal] at hd
  split at hd
  · rename_i hc
    obtain rfl := Option.some.inj hd
    have h1 := UInt8.le_iff_toNat_le.mp hc.1
    have h2 := UInt8.le_iff_toNat_le.mp hc.2
    refine ⟨?_, fun heq => ?_⟩
    · rintro rfl
      exact absurd h2 (by decide)
    · have hsub := UInt8.toNat_sub_of_le c 48 hc.1
      rw [heq] at hsub
      have h48 : (48 : UInt8).toNat = 48 := rfl
      omega
  · exact absurd hd (by simp)

end Digits

section Escapes
variable {r r₀ : Bytes} {c v d : UInt8} {p : CopaInput}

/-- What a call does inside an escape. -/
def EscapeOutcome (r₀ : Bytes) (e : Escape) (p : CopaInput) : Prop :=
  Outcome (charOf e.value ++ cDecode e.rest) (e.Ends ∧ e.value ≠ eof ∧ TextOk e.rest) r₀
    (copaNextLoop p).1 (copaNextLoop p).2

theorem outcome_hex (ih : OutcomesBehind r₀) (hr : Behind r r₀) (htext : ∀ c ∈ r, c ≠ 0)
    (hp : InNumber copaHex 16 2 0 p) (hw : Window p r) (hpb : p.pushback = 0) :
    EscapeOutcome r₀ (hexEscape r) p := by
  rcases digit_cases copaHex r with hend | ⟨c₁, d₁, r₁, rfl, hd₁⟩
  · have hesc : hexEscape r = ⟨0, false, r⟩ := by
      rw [hexEscape, digitsOf_ended 2 hend]
      rfl
    rw [hesc]
    exact outcome_number ih hr htext hp hw hpb hend
  have hr₁ : Behind r₁ r₀ := hr.tail
  obtain ⟨-, htext₁⟩ := List.forall_mem_cons.mp htext
  obtain ⟨p₁, hp₁, hw₁, hpb₁, heq₁⟩ := nextLoop_digit hp hw hd₁
  rw [EscapeOutcome, heq₁]
  rcases digit_cases copaHex r₁ with hend | ⟨c₂, d₂, r₂, rfl, hd₂⟩
  · have hesc : hexEscape (c₁ :: r₁) = ⟨0 * 16 + d₁, false, r₁⟩ := by
      rw [hexEscape, digitsOf_digit 1 hd₁, digitsOf_ended 1 hend, digitsValue, List.foldl_cons, hd₁]
      rfl
    rw [hesc]
    exact outcome_number ih hr₁ htext₁ hp₁ hw₁ (hpb₁.trans hpb) hend
  · have hesc : hexEscape (c₁ :: c₂ :: r₂) = ⟨(0 * 16 + d₁) * 16 + d₂, true, r₂⟩ := by
      rw [hexEscape, digitsOf_digit 1 hd₁, digitsOf_digit 0 hd₂, digitsOf_zero, digitsValue,
        List.foldl_cons, List.foldl_cons, hd₁, hd₂]
      rfl
    have hr₂ : Behind r₂ r₀ := hr₁.tail
    obtain ⟨p₂, hcur, hpb₂, heq₂⟩ := nextLoop_lastDigit hp₁ hw₁ hd₂
    rw [hesc, heq₂]
    exact outcome_value ih hr₂ hcur (hpb₂.trans (hpb₁.trans hpb)) (and_iff_right (Or.inl rfl))

/-- A fourth octal digit is taken for one of the number. -/
theorem outcome_fourth (ih : OutcomesBehind r₀) (hr : Behind r r₀) (hp : InNumber copaOctal 8 1 v p)
    (hw : Window p (c :: r)) (hpb : p.pushback = 0) (hd : copaOctal c = some d) :
    EscapeOutcome r₀ ⟨v, false, c :: r⟩ p := by
  obtain ⟨h92, hne⟩ := octal_ne hd
  have hbad : ¬ ((⟨v, false, c :: r⟩ : Escape).Ends ∧ v ≠ eof ∧ TextOk (c :: r)) :=
    fun h => not_ends h92 h.1
  obtain ⟨q, hcur, hback, heq⟩ := nextLoop_lastDigit hp hw hd
  rw [EscapeOutcome, heq, cDecode_plain r h92]
  change Outcome (charOf v ++ c :: cDecode r)
    ((⟨v, false, c :: r⟩ : Escape).Ends ∧ v ≠ eof ∧ TextOk (c :: r)) r₀ _ _
  have hlen : (charOf v ++ c :: cDecode r).length = (charOf v).length + (cDecode r).length + 1 := by
    rw [List.length_append, List.length_cons, Nat.add_assoc]
  have hsome : charOf v ++ c :: cDecode r ≠ [] := by simp
  by_cases h0 : v * 8 + d = 0
  · rw [if_pos h0]
    cases ih r hr q hcur (hback.trans hpb) with
    | last _ hc => exact .lost hbad hc hsome
    | char r' _ _ hc hD hcur hpb hr' =>
      have hshort : (cDecode r).length = (cDecode r').length + 1 := by rw [hD, List.length_cons]
      exact .astray r' hbad hc hcur hpb (hr'.trans hr) (by omega) fun _ => by omega
    | lost _ hc hD => exact .lost hbad hc hsome
    | pushed _ hpb => exact .pushed hbad hpb
    | astray r' _ hc hcur hpb hr' hle _ =>
      exact .astray r' hbad hc hcur hpb (hr'.trans hr) (by omega) fun _ => by omega
  · rw [if_neg h0]
    by_cases heof : v * 8 + d = eof
    · exact .lost hbad heof hsome
    · refine .astray r hbad heof hcur (hback.trans hpb) hr (by omega) fun hpre => ?_
      by_cases hv : v = 0
      · -- the digit itself is returned, and not its character
        subst hv
        rw [charOf_zero, List.nil_append, List.cons_prefix_cons] at hpre
        exact absurd (by simpa using hpre.1) hne
      · have hone : (charOf v).length = 1 := by rw [charOf_of_ne hv, List.length_singleton]
        omega

theorem outcome_octal (ih : OutcomesBehind r₀) (hr : Behind r r₀) (htext : ∀ c ∈ r, c ≠ 0)
    (hc : copaOctal c = some v) (hp : InNumber copaOctal 8 3 v p) (hw : Window p r) (hpb : p.pushback = 0) :
    EscapeOutcome r₀ (octalEscape (c :: r)) p := by
  have hv : (0 : UInt8) * 8 + v = v := by simp
  rcases digit_cases copaOctal r with hend | ⟨c₁, d₁, r₁, rfl, hd₁⟩
  · have hesc : octalEscape (c :: r) = ⟨v, false, r⟩ := by
      rw [octalEscape, digitsOf_digit 2 hc, digitsOf_ended 2 hend, digitsValue, List.foldl_cons, hc,
        Option.getD_some, hv]
      rfl
    rw [hesc]
    exact outcome_number ih hr htext hp hw hpb hend
  have hr₁ : Behind r₁ r₀ := hr.tail
  obtain ⟨-, htext₁⟩ := List.forall_mem_cons.mp htext
  obtain ⟨p₁, hp₁, hw₁, hpb₁, heq₁⟩ := nextLoop_digit hp hw hd₁
  rw [EscapeOutcome, heq₁]
  rcases digit_cases copaOctal r₁ with hend | ⟨c₂, d₂, r₂, rfl, hd₂⟩
  · have hesc : octalEscape (c :: c₁ :: r₁) = ⟨v * 8 + d₁, false, r₁⟩ := by
      rw [octalEscape, digitsOf_digit 2 hc, digitsOf_digit 1 hd₁, digitsOf_ended 1 hend, digitsValue,
        List.foldl_cons, List.foldl_cons, hc, hd₁, Option.getD_some, hv]
      rfl
    rw [hesc]
    exact outcome_number ih hr₁ htext₁ hp₁ hw₁ (hpb₁.trans hpb) hend
  have hesc : octalEscape (c :: c₁ :: c₂ :: r₂) = ⟨(v * 8 + d₁) * 8 + d₂, false, r₂⟩ := by
    rw [octalEscape, digitsOf_digit 2 hc, digitsOf_digit 1 hd₁, digitsOf_digit 0 hd₂, digitsOf_zero,
      digitsValue, List.foldl_cons, List.foldl_cons, List.foldl_cons, hc, hd₁, hd₂, Option.getD_some, hv]
    rfl
  have hr₂ : Behind r₂ r₀ := hr₁.tail
  obtain ⟨-, htext₂⟩ := List.forall_mem_cons.mp htext₁
  obtain ⟨p₂, hp₂, hw₂, hpb₂, heq₂⟩ := nextLoop_digit hp₁ hw₁ hd₂
  rw [hesc, heq₂]
  rcases digit_cases copaOctal r₂ with hend | ⟨c₃, d₃, r₃, rfl, hd₃⟩
  · exact outcome_number ih hr₂ htext₂ hp₂ hw₂ (hpb₂.trans (hpb₁.trans hpb)) hend
  · have hr₃ : Behind r₃ r₀ := hr₂.tail
    exact outcome_fourth ih hr₃ hp₂ hw₂ (hpb₂.trans (hpb₁.trans hpb)) hd₃

theorem outcome_escape (ih : OutcomesBehind r₀) (hr : Behind r r₀) (htext : ∀ c ∈ r, c ≠ 0 ∧ c ≠ eof)
    (hw : Window p r) (hesc : p.escape = true) (hoct : p.octal = 0) (hhex : p.hex = 0)
    (hpb : p.pushback = 0) : EscapeOutcome r₀ (escapeOf r) p := by
  cases r with
  | nil =>
    rw [EscapeOutcome, nextLoop_end hw]
    exact .last ⟨Or.inl rfl, by decide, textOk_nil⟩ rfl cDecode_nil
      ⟨[], ⟨hw.size, hw.pieces⟩, Or.inr ⟨rfl, rfl⟩⟩ hpb rfl
  | cons e w =>
    obtain ⟨⟨he0, heof⟩, hwtext⟩ := List.forall_mem_cons.mp htext
    have hr' : Behind w r₀ := hr.tail
    obtain ⟨q, hq, hsame, heq⟩ := nextLoop_byte hw
    have hqoct : q.octal = 0 := hsame.octal.trans hoct
    have hqhex : q.hex = 0 := hsame.hex.trans hhex
    have hdec : copaDecode q e = copaEscape { q with escape := false } e := by
      rw [copaDecode, if_neg (by omega), if_neg (by omega), if_pos (hsame.escape.trans hesc)]
    have hcur : Cursor { q with escape := false } w :=
      ⟨w, ⟨hq.size, hq.pieces⟩, Or.inl ⟨hqoct, hqhex, rfl⟩⟩
    have hback : q.pushback = 0 := hsame.pushback.trans hpb
    -- an escape that is a character at once, or none
    have hvalue : ∀ v, copaEscape { q with escape := false } e = (v, { q with escape := false }) →
        EscapeOutcome r₀ ⟨v, true, w⟩ p := by
      intro v hv
      rw [EscapeOutcome, heq, hdec, hv]
      exact outcome_value ih hr' hcur hback (and_iff_right (Or.inl rfl))
    rw [escapeOf]
    cases hl : escapes.lookup e with
    | some d => exact hvalue d (by rw [copaEscape, hl])
    | none =>
      simp only
      split
      · rename_i hnl
        exact hvalue 0 (by simp only [copaEscape, hl, if_pos hnl])
      · rename_i hnl
        split
        · rename_i h120
          rw [EscapeOutcome, heq, hdec]
          simp only [copaEscape, hl, if_neg hnl, if_pos h120, if_true]
          exact outcome_hex ih hr' (fun c hc => (hwtext c hc).1)
            ⟨Or.inr ⟨rfl, rfl, hqoct, rfl⟩, rfl, rfl⟩ ⟨hq.size, hq.pieces⟩ hback
        · rename_i h120
          cases ho : copaOctal e with
          | none => exact hvalue e (by simp only [copaEscape, hl, if_neg hnl, if_neg h120, ho])
          | some v =>
            rw [Option.isSome_some, if_pos rfl, EscapeOutcome, heq, hdec]
            simp only [copaEscape, hl, if_neg hnl, if_neg h120, ho, if_true]
            exact outcome_octal ih hr' (fun c hc => (hwtext c hc).1) ho
              ⟨Or.inl ⟨rfl, rfl, rfl, hqhex⟩, rfl, rfl⟩ ⟨hq.size, hq.pieces⟩ hback

end Escapes

/-- **One call.** What a call does that finds nothing pushed back, for every text. -/
theorem nextLoop_outcome {r : Bytes} {p : CopaInput} (htext : ∀ c ∈ r, c ≠ 0 ∧ c ≠ eof)
    (hcur : Cursor p r) (hpb : p.pushback = 0) :
    Outcome (cDecode r) (TextOk r) r (copaNextLoop p).1 (copaNextLoop p).2 := by
  induction hk : r.length using Nat.strong_induction_on generalizing r p with
  | _ k ih =>
  have hbehind : OutcomesBehind r := fun r' hr' p' hcur' hpb' =>
    ih r'.length (hk ▸ hr'.length_lt) (fun c hc => htext c (hr'.suffix.mem hc)) hcur' hpb' rfl
  obtain ⟨w, hw, ⟨hoct, hhex, hr⟩ | ⟨rfl, rfl⟩⟩ := hcur
  · cases hesc : p.escape with
    | true =>
      obtain rfl : r = 92 :: w := by rw [hr, hesc]; rfl
      rw [cDecode_escape]
      exact (outcome_escape hbehind ⟨List.suffix_cons .., Nat.lt_succ_self _⟩
        (List.forall_mem_cons.mp htext).2 hw hesc hoct hhex hpb).congr (textOk_escape w)
    | false =>
      obtain rfl : r = w := by rw [hr, hesc]; rfl
      cases r with
      | nil =>
        rw [nextLoop_end hw]
        exact .last textOk_nil rfl cDecode_nil ⟨[], ⟨hw.size, hw.pieces⟩, Or.inr ⟨rfl, rfl⟩⟩ hpb rfl
      | cons c w =>
        obtain ⟨⟨hc0, hceof⟩, htext'⟩ := List.forall_mem_cons.mp htext
        have hr' : Behind w (c :: w) := ⟨List.suffix_cons .., Nat.lt_succ_self _⟩
        obtain ⟨q, hq, hsame, heq⟩ := nextLoop_byte hw
        have hqoct : q.octal = 0 := hsame.octal.trans hoct
        have hqhex : q.hex = 0 := hsame.hex.trans hhex
        have hqesc : q.escape = false := hsame.escape.trans hesc
        by_cases h92 : c = 92
        · -- the backslash is read in the same call
          subst h92
          have hdec : copaDecode q 92 = (0, { q with escape := true }) := by
            simp [copaDecode, hqoct, hqhex, hqesc]
          rw [heq, hdec, if_pos rfl, cDecode_escape]
          have hesc := outcome_escape (p := { q with escape := true }) hbehind hr' htext'
            ⟨hq.size, hq.pieces⟩ rfl hqoct hqhex (hsame.pushback.trans hpb)
          exact hesc.congr (textOk_escape w)
        · rw [heq, copaDecode_plain hqesc hqoct hqhex h92]
          simp only [if_neg hc0]
          refine .char w (textOk_plain w h92) hc0 hceof (cDecode_plain w h92)
            ⟨w, hq, Or.inl ⟨hqoct, hqhex, by simp [hqesc]⟩⟩ (hsame.pushback.trans hpb) hr'
  · rw [nextLoop_end hw]
    exact .last textOk_nil rfl cDecode_nil ⟨[], ⟨hw.size, hw.pieces⟩, Or.inr ⟨rfl, rfl⟩⟩ hpb rfl

/-! ## Texts that are all right as a stream -/

/-- `p` hands out `cs` and then the end; `a` is its `active` flag. -/
structure Decoded (p : CopaInput) (cs : Bytes) (a : Bool) : Prop where
  text : ∃ r, Cursor p r ∧ (∀ c ∈ r, c ≠ 0 ∧ c ≠ eof) ∧ TextOk r ∧ cs = charOf p.pushback ++ cDecode r
  pushback : p.pushback ≠ eof
  active : p.active = a

section Decoded
variable {p : CopaInput} {c : UInt8} {cs r : Bytes} {a : Bool}

theorem charOf_append_eq_nil {v : UInt8} {s : Bytes} (h : charOf v ++ s = []) : v = 0 ∧ s = [] := by
  obtain ⟨hv, hs⟩ := List.append_eq_nil_iff.mp h
  refine ⟨?_, hs⟩
  by_contra h0
  rw [charOf_of_ne h0] at hv
  exact absurd hv (by simp)

/-- What is pushed back does not belong to the text. -/
theorem Cursor.pushback (h : Cursor p r) (c : UInt8) : Cursor { p with pushback := c } r := by
  obtain ⟨w, hw, hcase⟩ := h
  exact ⟨w, ⟨hw.size, hw.pieces⟩, hcase⟩

theorem Cursor.stop (h : Cursor p r) : Cursor { p with active := false } r := by
  obtain ⟨w, hw, hcase⟩ := h
  exact ⟨w, ⟨hw.size, hw.pieces⟩, hcase⟩

theorem rawNext_some_active {p' : CopaInput} (h : rawNext p = (some c, p')) : p'.active = p.active := by
  rw [rawNext, copaRefill] at h
  split at h
  · cases hfd : p.fd with
    | nil => simp [hfd] at h
    | cons b fd =>
      cases b with
      | none => simp [hfd] at h
      | some bytes =>
        by_cases hb : bytes = []
        · simp [hfd, hb] at h
        · simp only [hfd, if_neg hb] at h
          obtain ⟨-, rfl⟩ := Prod.mk.inj h
          rfl
  · obtain ⟨-, rfl⟩ := Prod.mk.inj h
    rfl

/-- A character leaves the flag alone. -/
theorem nextLoop_active (p : CopaInput) :
    (copaNextLoop p).1 = eof ∨ (copaNextLoop p).2.active = p.active := by
  induction p using copaNextLoop.induct with
  | case1 p p' hr =>
    rw [copaNextLoop, hr]
    exact Or.inl rfl
  | case2 p c p' hr h0 ih =>
    rw [copaNextLoop, hr]
    simp only [if_pos h0]
    rw [copaDecode_active, rawNext_some_active hr] at ih
    exact ih
  | case3 p c p' hr h0 =>
    rw [copaNextLoop, hr]
    simp only [if_neg h0, copaDecode_active]
    exact Or.inr (rawNext_some_active hr)

theorem decoded_next_nil (h : Decoded p [] a) :
    (copaNext p).1 = eof ∧ Decoded (copaNext p).2 [] false ∧ (copaNext p).2.pushback = 0 := by
  obtain ⟨⟨r, hcur, htext, hok, heq⟩, -, -⟩ := h
  obtain ⟨hpb, hr⟩ := charOf_append_eq_nil heq.symm
  rw [copaNext, if_neg (by simpa using hpb)]
  cases nextLoop_outcome htext hcur hpb with
  | last _ hc hD hcur hpb hstop =>
    exact ⟨hc, ⟨⟨[], hcur, by simp, textOk_nil, by rw [hpb, charOf_zero, cDecode_nil]; rfl⟩,
      by rw [hpb]; decide, hstop⟩, hpb⟩
  | char r' _ _ _ hD => exact absurd (hr.symm.trans hD) (by simp)
  | lost hbad => exact absurd hok hbad
  | pushed hbad => exact absurd hok hbad
  | astray _ hbad => exact absurd hok hbad

theorem decoded_next_cons (h : Decoded p (c :: cs) a) :
    (copaNext p).1 = c ∧ Decoded (copaNext p).2 cs a ∧ (copaNext p).2.pushback = 0 ∧ c ≠ 0 ∧ c ≠ eof := by
  obtain ⟨⟨r, hcur, htext, hok, heq⟩, hne, hact⟩ := h
  by_cases hpb : p.pushback = 0
  · rw [hpb, charOf_zero, List.nil_append] at heq
    rw [copaNext, if_neg (by simpa using hpb)]
    have hactive := nextLoop_active p
    cases nextLoop_outcome htext hcur hpb with
    | last _ _ hD => exact absurd (heq.trans hD) (by simp)
    | char r' hok' h0 hc hD hcur' hpb' hr =>
      obtain ⟨rfl, rfl⟩ := List.cons.inj (heq.trans hD)
      refine ⟨rfl, ⟨⟨r', hcur', fun c hm => htext c (hr.suffix.mem hm), hok'.mp hok, ?_⟩, ?_, ?_⟩, hpb', h0, hc⟩
      · rw [hpb', charOf_zero, List.nil_append]
      · rw [hpb']
        decide
      · exact (hactive.resolve_left hc).trans hact
    | lost hbad => exact absurd hok hbad
    | pushed hbad => exact absurd hok hbad
    | astray _ hbad => exact absurd hok hbad
  · rw [charOf_of_ne hpb, List.singleton_append] at heq
    obtain ⟨rfl, rfl⟩ := List.cons.inj heq
    rw [copaNext, if_pos hpb]
    refine ⟨rfl, ⟨⟨r, hcur.pushback 0, htext, hok, ?_⟩, ?_, hact⟩, rfl, hpb, hne⟩
    · rw [charOf_zero, List.nil_append]
    · exact (by decide : (0 : UInt8) ≠ eof)

theorem decoded_ne_eof (h : Decoded p cs a) : ∀ c ∈ cs, c ≠ eof := by
  induction cs generalizing p a with
  | nil => exact fun c hc => (by cases hc)
  | cons c cs ih =>
    obtain ⟨-, h2, -, -, hne⟩ := decoded_next_cons h
    exact List.forall_mem_cons.mpr ⟨hne, ih h2⟩

theorem Decoded.unread (h : Decoded p cs a) (hpb : p.pushback = 0) (h0 : c ≠ 0) (hc : c ≠ eof) :
    Decoded (p.unread c) (c :: cs) a := by
  obtain ⟨⟨r, hcur, htext, hok, heq⟩, -, hact⟩ := h
  rw [hpb, charOf_zero, List.nil_append] at heq
  exact ⟨⟨r, hcur.pushback c, htext, hok, by rw [CopaInput.unread, charOf_of_ne h0, heq]; rfl⟩, hc, hact⟩

theorem Decoded.stop (h : Decoded p cs a) : Decoded { p with active := false } cs false := by
  obtain ⟨⟨r, hcur, htext, hok, heq⟩, hne, -⟩ := h
  exact ⟨⟨r, hcur.stop, htext, hok, heq⟩, hne, rfl⟩

theorem decodedStream : CleanStream Decoded where
  next_nil h := ⟨(decoded_next_nil h).1, (decoded_next_nil h).2.1⟩
  next_cons h := ⟨(decoded_next_cons h).1, (decoded_next_cons h).2.1⟩
  unread h hc :=
    (decoded_next_cons h).2.1.unread (decoded_next_cons h).2.2.1 (decoded_next_cons h).2.2.2.1 hc
  stop h := h.stop
  active h := h.active
  pending h hpb := by
    obtain ⟨r, -, -, -, heq⟩ := h.text
    exact ⟨by rw [heq, charOf_of_ne hpb]; rfl, h.pushback⟩
  ne_eof := decoded_ne_eof

/-- At the first character of a file that is read in full. -/
theorem cursor_start {pieces : List Bytes} (hne : pieces ≠ []) (hfull : ∀ q ∈ pieces, q.length = 8) :
    (copaRefill (.init (pieces.map some))).1 = true ∧ Cursor (cfgStart pieces) pieces.flatten ∧
      (cfgStart pieces).pushback = 0 ∧ (cfgStart pieces).active = true := by
  obtain ⟨q, pieces, rfl⟩ := List.exists_cons_of_ne_nil hne
  obtain ⟨hq, hrest⟩ := List.forall_mem_cons.mp hfull
  have hq0 : q ≠ [] := by
    rintro rfl
    exact absurd hq (by decide)
  have hrefill : copaRefill (.init ((q :: pieces).map some)) =
      (true, { CopaInput.init (pieces.map some) with readBuffer := q, nread := q.length }) := by
    have hold : (List.replicate bufferSize (0 : UInt8)).drop q.length = [] :=
      List.drop_eq_nil_of_le (by rw [List.length_replicate, hq]; exact Nat.le_refl _)
    simp only [copaRefill, CopaInput.init, List.map_cons, if_neg hq0, hold, List.append_nil]
  rw [cfgStart, hrefill]
  exact ⟨rfl, ⟨q ++ pieces.flatten, ⟨hq, pieces, rfl, hrest, rfl⟩, Or.inl ⟨rfl, rfl, rfl⟩⟩, rfl, rfl⟩

theorem decoded_start {pieces : List Bytes} (hne : pieces ≠ []) (hfull : ∀ q ∈ pieces, q.length = 8)
    (htext : ∀ c ∈ pieces.flatten, c ≠ 0 ∧ c ≠ eof) (hok : TextOk pieces.flatten) :
    Decoded (cfgStart pieces) (cDecode pieces.flatten) true := by
  obtain ⟨-, hcur, hpb, hact⟩ := cursor_start hne hfull
  refine ⟨⟨_, hcur, htext, hok, ?_⟩, ?_, hact⟩
  · rw [hpb, charOf_zero, List.nil_append]
  · rw [hpb]
    decide

end Decoded

end Sighttpd.L3
