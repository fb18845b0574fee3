import Sighttpd.L3Config.CfgDocument
import Sighttpd.L3Config.CfgEscapes

/-!
# Quoted values

Escapes are decoded below `copa_slurp_to`, which compares the characters with the quote it
looks for: a quote that was escaped ends the value like any other.

* `decode_quoteText`: what is quoted is decoded to the value.
* `reportedNames_ok`: no name that is reported has a NUL or the byte 0xFF.
* `quoted_iff`: which values are reported as they were quoted.
-/
namespace Sighttpd.L3
open Sighttpd.CString

/-- Quotes and backslashes are preceded by a backslash. -/
def quoteText (v : Bytes) : Bytes := v.flatMap fun c => if c = 34 ∨ c = 92 then [92, c] else [c]

/-- A file of one directive with a quoted value, padded with newlines. -/
def quotedLine (name v : Bytes) (pad : Nat) : Bytes :=
  name ++ (32 :: 34 :: (quoteText v ++ 34 :: List.replicate pad 10))

/-- A name that `copa_parse_line` takes for that of a directive. -/
structure DirectiveName (name : Bytes) : Prop where
  nonempty : name ≠ []
  plain : ∀ c ∈ name, isspace c = false ∧ c ≠ 35 ∧ c ≠ 92
  tag : name.head? ≠ some 60

/-- The calls of `assign`. -/
def assignCalls (trace : List CopaEvent) : List (Bytes × Bytes) :=
  trace.filterMap fun
    | .assign name value true => some (name, value)
    | _ => none

/-! ## The decoding of the file -/

theorem decode_word {w : Bytes} (r : Bytes) (hw : ∀ c ∈ w, c ≠ 92) :
    cDecode (w ++ r) = w ++ cDecode r ∧ (TextOk (w ++ r) ↔ TextOk r) := by
  induction w with
  | nil => exact ⟨rfl, Iff.rfl⟩
  | cons c w ih =>
    obtain ⟨hc, hw⟩ := List.forall_mem_cons.mp hw
    obtain ⟨h1, h2⟩ := ih hw
    rw [List.cons_append, cDecode_plain _ hc, textOk_plain _ hc, h1, List.cons_append]
    exact ⟨rfl, h2⟩

/-- A quote or a backslash behind a backslash stands for itself. -/
theorem escapeOf_quoted {c : UInt8} (r : Bytes) (hc : c = 34 ∨ c = 92) : escapeOf (c :: r) = ⟨c, true, r⟩ := by
  rcases hc with rfl | rfl <;> rfl

theorem decode_quoteText (v r : Bytes) :
    cDecode (quoteText v ++ r) = v ++ cDecode r ∧ (TextOk (quoteText v ++ r) ↔ TextOk r) := by
  induction v with
  | nil => exact ⟨rfl, Iff.rfl⟩
  | cons c v ih =>
    obtain ⟨h1, h2⟩ := ih
    rw [quoteText, List.flatMap_cons, ← quoteText, List.append_assoc]
    by_cases hc : c = 34 ∨ c = 92
    · have h0 : c ≠ 0 := by rcases hc with rfl | rfl <;> decide
      have hne : c ≠ eof := by rcases hc with rfl | rfl <;> decide
      rw [if_pos hc, List.cons_append, List.singleton_append, cDecode_escape, textOk_escape,
        escapeOf_quoted _ hc, charOf_of_ne h0, h1]
      exact ⟨rfl, by rw [h2]; exact ⟨fun h => h.2.2, fun h => ⟨Or.inl rfl, hne, h⟩⟩⟩
    · rw [if_neg hc, List.singleton_append, cDecode_plain _ (fun h => hc (Or.inr h)),
        textOk_plain _ (fun h => hc (Or.inr h)), h1]
      exact ⟨rfl, h2⟩

/-- What the parser is given of the file. -/
theorem decode_quotedLine {name : Bytes} (hname : DirectiveName name) (v : Bytes) (pad : Nat) :
    cDecode (quotedLine name v pad) = name ++ (32 :: 34 :: (v ++ 34 :: List.replicate pad 10)) ∧
      TextOk (quotedLine name v pad) := by
  have hword := decode_word (32 :: 34 :: (quoteText v ++ 34 :: List.replicate pad 10))
    fun c hc => (hname.plain c hc).2.2
  have hvalue := decode_quoteText v (34 :: List.replicate pad 10)
  have hpad := decode_word [] (w := List.replicate pad 10) fun c hc => by
    rw [List.eq_of_mem_replicate hc]
    decide
  rw [List.append_nil, cDecode_nil, List.append_nil] at hpad
  rw [quotedLine, hword.1, hword.2, cDecode_plain _ (by decide), cDecode_plain _ (by decide), hvalue.1,
    cDecode_plain _ (by decide), hpad.1, textOk_plain _ (by decide), textOk_plain _ (by decide), hvalue.2,
    textOk_plain _ (by decide), hpad.2]
  exact ⟨rfl, textOk_nil⟩

/-! ## Names -/

/-- What is slurped was returned by `copa_next`. -/
theorem slurp_chars (g b : List CharClass) (ret : Bytes) (p : CopaInput) {w : Bytes}
    (hret : ∀ c ∈ ret, c ≠ 0 ∧ c ≠ eof) (h : (copaSlurp g b ret p).1 = some w) :
    ∀ c ∈ w, c ≠ 0 ∧ c ≠ eof := by
  induction ret, p using copaSlurp.induct g b with
  | case1 ret p he =>
    rw [copaSlurp, dif_pos he] at h
    obtain rfl := Option.some.inj h
    exact hret
  | case2 ret p he hg =>
    rw [copaSlurp, dif_neg he, if_pos hg] at h
    obtain rfl := Option.some.inj h
    exact hret
  | case3 ret p he hg hb =>
    rw [copaSlurp, dif_neg he, if_neg hg, if_pos hb] at h
    exact absurd h (by simp)
  | case4 ret p he hg hb ih =>
    rw [copaSlurp, dif_neg he, if_neg hg, if_neg hb] at h
    refine ih (fun c hc => ?_) h
    rcases List.mem_append.mp hc with hc | hc
    · exact hret c hc
    · rw [List.mem_singleton.mp hc]
      exact ⟨copaNext_ne_zero p, he⟩

theorem slurpTo_chars {g b : List CharClass} {p : CopaInput} {w : Bytes}
    (h : (copaSlurpTo p g b).1 = some w) : ∀ c ∈ w, c ≠ 0 ∧ c ≠ eof := by
  rw [copaSlurpTo] at h
  split at h
  · exact absurd h (by simp)
  · exact slurp_chars g b [] p (fun c hc => (by cases hc)) h

section Calls
variable {σ : Type} (cb : Callbacks σ)

theorem assignCalls_block (p : CopaParser σ) (isEnd : Bool) (block : Bytes) :
    assignCalls (reportBlock cb p isEnd block).trace = assignCalls p.trace := by
  unfold reportBlock
  cases isEnd with
  | false => cases cb.blockStart <;> simp [assignCalls]
  | true => cases cb.blockEnd <;> simp [assignCalls]

theorem assignCalls_assign (p : CopaParser σ) (name value : Bytes) :
    assignCalls (reportAssign cb p name value).trace = assignCalls p.trace ∨
      assignCalls (reportAssign cb p name value).trace = assignCalls p.trace ++ [(name, value)] := by
  unfold reportAssign
  split
  · split
    · exact Or.inr (by simp [assignCalls])
    · exact Or.inl (by simp [assignCalls])
  · exact Or.inl (by simp [assignCalls])

/-- A line adds at most one call of `assign`, with a name that has been slurped. -/
theorem assignCalls_parseLine (p : CopaParser σ) :
    assignCalls (copaParseLine cb p).trace = assignCalls p.trace ∨
      ∃ name value, (∀ c ∈ name, c ≠ 0 ∧ c ≠ eof) ∧
        assignCalls (copaParseLine cb p).trace = assignCalls p.trace ++ [(name, value)] := by
  unfold copaParseLine
  simp only
  split
  · exact Or.inl rfl
  · split
    · rcases parseBlock_cases cb p (copaPeek (copaSkipWhitespace p.input)).2 with ⟨q, heq⟩ | ⟨q, isEnd, block, heq⟩
      · exact Or.inl (by rw [heq])
      · exact Or.inl (by rw [heq, assignCalls_block])
    · rcases parseAssignment_cases cb p (copaPeek (copaSkipWhitespace p.input)).2 with
        ⟨q, heq⟩ | ⟨q, name, value, hname, heq⟩
      · exact Or.inl (by rw [heq])
      · rw [heq]
        rcases assignCalls_assign cb { p with input := q } name value with h | h
        · exact Or.inl h
        · exact Or.inr ⟨name, value, slurpTo_chars hname, h⟩

/-- No name that is reported has a NUL or the byte 0xFF. -/
theorem reportedNames_ok (p : CopaParser σ)
    (h : ∀ x ∈ assignCalls p.trace, ∀ c ∈ x.1, c ≠ 0 ∧ c ≠ eof) :
    ∀ x ∈ assignCalls (copaLoop cb p).trace, ∀ c ∈ x.1, c ≠ 0 ∧ c ≠ eof := by
  refine copaLoop_preserves cb (P := fun p => ∀ x ∈ assignCalls p.trace, ∀ c ∈ x.1, c ≠ 0 ∧ c ≠ eof)
    (fun p hp => ?_) p h
  rcases assignCalls_parseLine cb p with heq | ⟨name, value, hname, heq⟩
  · rw [heq]
    exact hp
  · rw [heq]
    intro x hx
    rcases List.mem_append.mp hx with hx | hx
    · exact hp x hx
    · rw [List.mem_singleton.mp hx]
      exact hname

/-- The calls that were made stay made. -/
theorem assignCalls_loop (p : CopaParser σ) {calls : List (Bytes × Bytes)}
    (h : calls <+: assignCalls p.trace) : calls <+: assignCalls (copaLoop cb p).trace := by
  refine copaLoop_preserves cb (P := fun p => calls <+: assignCalls p.trace) (fun p hp => ?_) p h
  rcases assignCalls_parseLine cb p with heq | ⟨name, value, -, heq⟩
  · rwa [heq]
  · rw [heq]
    exact hp.trans (List.prefix_append ..)

/-! ## The file -/

section File
variable {assign : Bytes → Bytes → σ → σ} {name v : Bytes} {pad : Nat} {pieces : List Bytes}

/-- The directive is reported with what is in front of the first quote that is decoded. -/
theorem loop_quoted (user : σ) (hassign : cb.assign = some assign) (hname : DirectiveName name)
    (hv : 34 ∉ v) {i : CopaInput} {cs : Bytes} (h : Decoded i (name ++ (32 :: 34 :: (v ++ 34 :: cs))) true) :
    ∃ i', Decoded i' cs true ∧ copaLoop cb ⟨i, .ok, user, []⟩ =
      copaLoop cb ⟨i', .ok, assign name v user, [.assign name v true]⟩ := by
  have hok : (CfgBody.directive name [32] (.quoted 34 v)).Ok :=
    ⟨⟨hname.nonempty, fun c hc => ⟨(hname.plain c hc).1, (hname.plain c hc).2.1⟩, hname.tag⟩,
      ⟨by simp, fun c hc => by rw [List.mem_singleton.mp hc]; rfl⟩, Or.inl rfl, hv⟩
  have hline : Decoded i ([] ++ (name ++ ([32] ++ (CfgValue.quoted 34 v).print) ++ cs)) true := by
    simpa [CfgValue.print] using h
  obtain ⟨i', hi', heq⟩ := parseLine_directive decodedStream cb (u := user) (t := [])
    (fun c hc => (by cases hc)) hok (fun hrun => (by cases hrun)) hline
  refine ⟨i', hi', ?_⟩
  rw [copaLoop_active cb h.active, heq, reportAssign, hassign]
  rfl

theorem mem_quotedLine (hname : ∀ c ∈ name, c ≠ 0 ∧ c ≠ eof) (hv : ∀ c ∈ v, c ≠ 0 ∧ c ≠ eof) :
    ∀ c ∈ quotedLine name v pad, c ≠ 0 ∧ c ≠ eof := by
  have hquoted : ∀ c ∈ quoteText v, c ≠ 0 ∧ c ≠ eof := by
    intro c hc
    obtain ⟨d, hd, hc⟩ := List.mem_flatMap.mp hc
    split at hc
    · rcases List.mem_cons.mp hc with rfl | hc
      · decide
      · rw [List.mem_singleton.mp hc]
        exact hv d hd
    · rw [List.mem_singleton.mp hc]
      exact hv d hd
  intro c hc
  simp only [quotedLine, List.mem_append, List.mem_cons, List.mem_replicate] at hc
  rcases hc with hc | rfl | rfl | hc | rfl | ⟨-, rfl⟩
  · exact hname c hc
  · decide
  · decide
  · exact hquoted c hc
  · decide
  · decide

/-- The parser at the start of the file. -/
theorem quoted_start (hname : DirectiveName name) (hchars : ∀ c ∈ name, c ≠ 0 ∧ c ≠ eof)
    (hv : ∀ c ∈ v, c ≠ 0 ∧ c ≠ eof) (hfull : ∀ q ∈ pieces, q.length = 8)
    (hread : pieces.flatten = quotedLine name v pad) :
    Decoded (cfgStart pieces) (name ++ (32 :: 34 :: (v ++ 34 :: List.replicate pad 10))) true := by
  have hne : pieces ≠ [] := by
    rintro rfl
    exact absurd (List.append_eq_nil_iff.mp hread.symm).2 (by simp)
  obtain ⟨hdecode, hok⟩ := decode_quotedLine hname v pad
  have htext : ∀ c ∈ pieces.flatten, c ≠ 0 ∧ c ≠ eof := by
    rw [hread]
    exact mem_quotedLine hchars hv
  have hstart := decoded_start hne hfull htext (hread ▸ hok)
  rwa [hread, hdecode] at hstart

/-- A value without quotes is reported, and nothing else. -/
theorem quoted_reported (hassign : cb.assign = some assign) (user : σ) (hname : DirectiveName name)
    (hchars : ∀ c ∈ name, c ≠ 0 ∧ c ≠ eof) (hv : ∀ c ∈ v, c ≠ 0 ∧ c ≠ eof) (hquote : 34 ∉ v)
    (hfull : ∀ q ∈ pieces, q.length = 8) (hread : pieces.flatten = quotedLine name v pad) :
    assignCalls (copaReadFd cb (pieces.map some) user).2.trace = [(name, v)] := by
  have hstart := quoted_start hname hchars hv hfull hread
  obtain ⟨i, hi, hloop⟩ := loop_quoted cb user hassign hname hquote hstart
  have hpad : Blanks (List.replicate pad 10) := fun c hc => by
    rw [List.eq_of_mem_replicate hc]
    rfl
  obtain ⟨i', hend⟩ := loop_end decodedStream cb hpad hi
    (u := assign name v user) (t := [.assign name v true])
  rw [readFd_loop, ← cfgStart, hloop, hend]
  rfl

/-- A value with a quote is cut. -/
theorem quoted_cut (hassign : cb.assign = some assign) (user : σ) (hname : DirectiveName name)
    (hchars : ∀ c ∈ name, c ≠ 0 ∧ c ≠ eof) (hv : ∀ c ∈ v, c ≠ 0 ∧ c ≠ eof) (hquote : 34 ∈ v)
    (hfull : ∀ q ∈ pieces, q.length = 8) (hread : pieces.flatten = quotedLine name v pad) :
    assignCalls (copaReadFd cb (pieces.map some) user).2.trace ≠ [(name, v)] := by
  have hstart := quoted_start hname hchars hv hfull hread
  obtain ⟨front, behind, rfl, hfront⟩ := List.eq_append_cons_of_mem hquote
  rw [List.append_assoc, List.cons_append] at hstart
  obtain ⟨i, -, hloop⟩ := loop_quoted cb user hassign hname hfront hstart
  have hfirst : [(name, front)] <+: assignCalls (copaReadFd cb (pieces.map some) user).2.trace := by
    rw [readFd_loop, ← cfgStart, hloop]
    exact assignCalls_loop cb _ (List.prefix_refl _)
  intro heq
  rw [heq] at hfirst
  obtain ⟨hpair, -⟩ := List.cons_prefix_cons.mp hfirst
  have hlen := congrArg (fun x => x.2.length) hpair
  simp at hlen

/-- **Quoted values.** The file makes the one call, with its name and exactly its value, if and
only if the value has no quote and the name no character that is passed over. -/
theorem quoted_iff (hassign : cb.assign = some assign) (user : σ) (hname : DirectiveName name)
    (hv : ∀ c ∈ v, c ≠ 0 ∧ c ≠ eof) (hfull : ∀ q ∈ pieces, q.length = 8)
    (hread : pieces.flatten = quotedLine name v pad) :
    assignCalls (copaReadFd cb (pieces.map some) user).2.trace = [(name, v)] ↔
      34 ∉ v ∧ ∀ c ∈ name, c ≠ 0 ∧ c ≠ eof := by
  constructor
  · intro heq
    have hchars : ∀ c ∈ name, c ≠ 0 ∧ c ≠ eof := by
      have hnames := reportedNames_ok cb ⟨cfgStart pieces, .ok, user, []⟩ (fun x hx => (by cases hx))
      rw [cfgStart, ← readFd_loop, heq] at hnames
      exact hnames (name, v) (List.mem_singleton_self _)
    exact ⟨fun hquote => quoted_cut cb hassign user hname hchars hv hquote hfull hread heq, hchars⟩
  · rintro ⟨hquote, hchars⟩
    exact quoted_reported cb hassign user hname hchars hv hquote hfull hread

end File

end Calls

/-- Callbacks that keep what they are given. -/
def keepAssigns : Callbacks (List (Bytes × Bytes)) :=
  ⟨none, none, some fun name value user => user ++ [(name, value)]⟩

theorem quoted_iff_path :
    assignCalls (copaReadFd keepAssigns ([ascii "Path \"/a", ascii "b\"\n\n\n\n\n\n"].map some) []).2.trace =
        [(ascii "Path", ascii "/ab")] ↔
      34 ∉ ascii "/ab" ∧ ∀ c ∈ ascii "Path", c ≠ 0 ∧ c ≠ eof :=
  quoted_iff keepAssigns rfl [] ⟨by decide, by decide, by decide⟩ (by decide) (by decide)
    (show _ = quotedLine _ _ 6 by decide)

/-- The escaped quote ends the value `a"b`. -/
theorem escapedQuote_cut :
    assignCalls (copaReadFd keepAssigns ([ascii "P \"a\\\"b\""].map some) []).2.trace ≠
      [(ascii "P", ascii "a\"b")] :=
  quoted_cut keepAssigns rfl [] ⟨by decide, by decide, by decide⟩ (by decide) (by decide) (by decide)
    (by decide) (show _ = quotedLine _ _ 0 by decide)

end Sighttpd.L3
