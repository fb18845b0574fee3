import Sighttpd.L1Data.Params

/-!
# Reading parameter lists back (`params.c`)

Two scanners. `params_new_parse_delim` cuts a string in place: its model works
on the memory block the string lies in, with `key`, `val` and `end` as offsets
and NULL as `none`, and runs on fuel because the C loop need not end.
`headers_canonicalize` copies header text while it collapses white space; its
model keeps every byte stored through the output pointer.

* `delimRound_stop`, `delimRound_stay`, `delimRound_split`: one round of the scanner
  on a string, by what the string starts with.
-/
namespace Sighttpd.L1
open Sighttpd.CString

/-! ## The delimiter scanner -/

/-- The variables `params_new_parse_delim` carries from round to round. -/
structure DelimState where
  mem : Bytes
  key : Nat
  params : List Param

/-- One round of the `do` loop, and the `end` it is repeated on unless NULL;
mirrors src/params.c:227-256 -/
def delimRound (valDelim endDelim : Bytes) (st : DelimState) : Option Nat × DelimState :=
  let span := strcspn (strAt st.mem st.key) valDelim
  let val := if span > 0 then some (st.key + span) else none
  let span := strcspn (strAt st.mem st.key) endDelim
  match if span > 0 then some (st.key + span) else none with
  | some e =>
    let (mem, val) := match val with
      | some v =>
        if v < e then
          let span := strspn (strAt st.mem v) valDelim
          (memset st.mem v span 0, some (v + span))
        else (st.mem, none)
      | none => (st.mem, none)
    let span := strspn (strAt mem e) endDelim
    let mem := memset mem e span 0
    let e := e + span
    match val with
    | some v =>
      (some e, { mem, key := e,
                 params := paramsAppend st.params (strAt mem st.key) (strAt mem v) })
    | none => (some e, { st with mem })
  | none =>
    match val with
    | some v => (none, { st with mem := memset st.mem v 1 0 })
    | none => (none, st)

def delimLoop (valDelim endDelim : Bytes) : Nat → DelimState → Option (List Param)
  | 0, _ => none
  | fuel + 1, st =>
    match delimRound valDelim endDelim st with
    | (none, st) => some st.params
    | (some _, st) => delimLoop valDelim endDelim fuel st

/-- mirrors src/params.c:216-259 (`params_new_parse_delim`); `none` while the loop
has not ended after `fuel` rounds -/
def paramsNewParseDelim (fuel : Nat) (input : Option Bytes) (valDelim endDelim : Bytes) :
    Option (List Param) :=
  match input with
  | none => some []
  | some mem => delimLoop valDelim endDelim fuel { mem, key := 0, params := [] }

/-- mirrors src/params.c:261-272 (`params_new_parse_query`) -/
def paramsNewParseQuery (fuel : Nat) (queryString : Bytes) (len : Nat) : Option (List Param) :=
  paramsNewParseDelim fuel (some (strndup queryString len)) (ascii "=") (ascii "&")

/-! ## What one round does -/

/-- The pieces of a string up to the next end delimiter, as long as the string
does not start with one. -/
def delimItems (endDelim s : Bytes) : List Bytes :=
  if s.takeWhile (· ∉ endDelim) = [] then []
  else
    s.takeWhile (· ∉ endDelim) ::
      delimItems endDelim ((s.dropWhile (· ∉ endDelim)).dropWhile (· ∈ endDelim))
termination_by s.length
decreasing_by
  have h1 := congrArg List.length (List.takeWhile_append_dropWhile (p := (· ∉ endDelim)) (l := s))
  have h2 := List.length_dropWhile_le (· ∈ endDelim) (s.dropWhile (· ∉ endDelim))
  have h3 := List.length_pos_iff.mpr ‹¬ s.takeWhile (· ∉ endDelim) = []›
  rw [List.length_append] at h1
  omega

@[simp] theorem delimItems_nil (endDelim : Bytes) : delimItems endDelim [] = [] := by
  rw [delimItems, if_pos (List.takeWhile_nil ..)]

/-- An item with a value delimiter that is not its first byte. -/
def Splits (valDelim item : Bytes) : Prop :=
  0 < strcspn item valDelim ∧ strcspn item valDelim < item.length

instance (valDelim item : Bytes) : Decidable (Splits valDelim item) :=
  inferInstanceAs (Decidable (_ ∧ _))

/-- The name and the value of an item. -/
def splitItem (valDelim item : Bytes) : Param :=
  ⟨item.takeWhile (· ∉ valDelim), (item.dropWhile (· ∉ valDelim)).dropWhile (· ∈ valDelim)⟩

/-- A string cut at its first run of end delimiters. -/
structure Cut (endDelim s item sep rest : Bytes) : Prop where
  eq : s = item ++ (sep ++ rest)
  item_free : ∀ c ∈ item, c ∉ endDelim
  sep_delim : ∀ c ∈ sep, c ∈ endDelim
  rest_head : ∀ c t, rest = c :: t → c ∉ endDelim
  sep_nil : sep = [] → rest = []

theorem cut_takeWhile (endDelim s : Bytes) :
    Cut endDelim s (s.takeWhile (· ∉ endDelim))
      ((s.dropWhile (· ∉ endDelim)).takeWhile (· ∈ endDelim))
      ((s.dropWhile (· ∉ endDelim)).dropWhile (· ∈ endDelim)) where
  eq := by rw [List.takeWhile_append_dropWhile, List.takeWhile_append_dropWhile]
  item_free c hc := by simpa using List.mem_takeWhile_imp hc
  sep_delim c hc := by simpa using List.mem_takeWhile_imp hc
  rest_head c t he := by simpa using dropWhile_stop he
  sep_nil hsep := by
    cases hd : s.dropWhile (· ∉ endDelim) with
    | nil => simp
    | cons c t =>
      have hc : c ∈ endDelim := by simpa using dropWhile_stop hd
      rw [hd, List.takeWhile_cons_of_pos (by simpa using hc)] at hsep
      exact absurd hsep (by simp)

section Round
variable {vd ed s item sep rest : Bytes} {st : DelimState}

theorem Cut.strcspn_eq (hc : Cut ed s item sep rest) : strcspn s ed = item.length := by
  rw [hc.eq]
  refine strcspn_append hc.item_free fun c t he => ?_
  cases sep with
  | nil => rw [hc.sep_nil rfl] at he; exact absurd he (by simp)
  | cons d t' => exact hc.sep_delim c (by simp at he; simp [he.1])

theorem Cut.strspn_eq (hc : Cut ed s item sep rest) : strspn (sep ++ rest) ed = sep.length :=
  strspn_append hc.sep_delim hc.rest_head

/-- The value delimiter is looked for beyond the item, too. -/
theorem Cut.strcspn_lt_iff (hc : Cut ed s item sep rest) :
    strcspn s vd < item.length ↔ strcspn item vd < item.length := by
  rw [hc.eq, strcspn, strcspn, List.takeWhile_append]
  split
  · simp only [List.length_append]; omega
  · rfl

theorem Cut.strcspn_eq_of_lt (hc : Cut ed s item sep rest) (h : strcspn item vd < item.length) :
    strcspn s vd = strcspn item vd := by
  have hne : (item.takeWhile (· ∉ vd)).length ≠ item.length := Nat.ne_of_lt h
  rw [hc.eq, strcspn, strcspn, List.takeWhile_append, if_neg hne]

/-- At the end of the string, or in front of an end delimiter, the loop ends. -/
theorem delimRound_stop (vd : Bytes) (h : HoldsStr st.mem st.key s) (hs : s.takeWhile (· ∉ ed) = []) :
    ∃ mem, delimRound vd ed st = (none, { st with mem }) := by
  have hspan : strcspn s ed = 0 := by rw [strcspn, hs]; rfl
  unfold delimRound
  rw [h.strAt_eq]
  simp only [hspan]
  by_cases hv : strcspn s vd > 0
  · exact ⟨memset st.mem (st.key + strcspn s vd) 1 0, by simp [hv]⟩
  · exact ⟨st.mem, by simp [hv]⟩

/-- An item without a name or without a value delimiter: its separator is zeroed,
and `key` stays where it is. -/
theorem delimRound_stay (h : HoldsStr st.mem st.key s) (hc : Cut ed s item sep rest)
    (hi : item ≠ []) (hsp : ¬ Splits vd item) :
    ∃ e mem, delimRound vd ed st = (some e, { st with mem }) ∧ HoldsStr mem st.key item := by
  have hpos := List.length_pos_iff.mpr hi
  have hval : ∀ v, (if strcspn s vd > 0 then some (st.key + strcspn s vd) else none) = some v →
      ¬ v < st.key + item.length := by
    intro v hv hlt
    split at hv
    · cases hv
      have hlt' : strcspn s vd < item.length := by omega
      have hlti := hc.strcspn_lt_iff.mp hlt'
      exact hsp ⟨by rw [← hc.strcspn_eq_of_lt hlti]; omega, hlti⟩
    · exact absurd hv (by simp)
  have hsep : strAt st.mem (st.key + item.length) = sep ++ rest := by
    rw [hc.eq] at h
    exact h.suffix.strAt_eq
  refine ⟨st.key + item.length + sep.length, memset st.mem (st.key + item.length) sep.length 0, ?_, ?_⟩
  · unfold delimRound
    rw [h.strAt_eq]
    simp only [hc.strcspn_eq, hpos, gt_iff_lt, if_true]
    cases hv : (if 0 < strcspn s vd then some (st.key + strcspn s vd) else none : Option Nat) with
    | none => simp [hsep, hc.strspn_eq]
    | some v => simp [hval v hv, hsep, hc.strspn_eq]
  · rw [hc.eq] at h
    exact h.memset hc.sep_nil

/-- An item that splits is appended, and `key` moves behind its separator. -/
theorem delimRound_split (hdisj : ∀ c ∈ vd, c ∉ ed) (h : HoldsStr st.mem st.key s)
    (hc : Cut ed s item sep rest) (hsp : Splits vd item) :
    ∃ mem, delimRound vd ed st =
      (some (st.key + item.length + sep.length),
        ⟨mem, st.key + item.length + sep.length,
          paramsAppend st.params (splitItem vd item).key (splitItem vd item).value⟩) ∧
      HoldsStr mem (st.key + item.length + sep.length) rest := by
  have hpos : 0 < item.length := Nat.zero_lt_of_lt hsp.2
  have hspan : strcspn s vd = strcspn item vd := hc.strcspn_eq_of_lt hsp.2
  have hcv := cut_takeWhile vd item
  -- the item is `name ++ eqs ++ value`
  obtain ⟨name, hname⟩ : ∃ n, n = item.takeWhile (· ∉ vd) := ⟨_, rfl⟩
  obtain ⟨eqs, heqs⟩ : ∃ n, n = (item.dropWhile (· ∉ vd)).takeWhile (· ∈ vd) := ⟨_, rfl⟩
  obtain ⟨value, hvalue⟩ : ∃ n, n = (item.dropWhile (· ∉ vd)).dropWhile (· ∈ vd) := ⟨_, rfl⟩
  rw [← hname, ← heqs, ← hvalue] at hcv
  have hnlen : strcspn item vd = name.length := by rw [hname]; rfl
  have hitem : item.length = name.length + eqs.length + value.length := by
    rw [hcv.eq]; simp; omega
  have heqs_pos : 0 < eqs.length := by
    rw [List.length_pos_iff]
    intro he
    have := hsp.2
    rw [hnlen, hitem, he, hcv.sep_nil he] at this
    simp at this
  have hs : s = name ++ (eqs ++ (value ++ (sep ++ rest))) := by rw [hc.eq, hcv.eq]; simp
  have hstr : HoldsStr st.mem st.key (name ++ (eqs ++ (value ++ (sep ++ rest)))) := hs ▸ h
  -- the run of value delimiters does not reach beyond the item
  have hrun : strspn (strAt st.mem (st.key + name.length)) vd = eqs.length := by
    rw [hstr.suffix.strAt_eq]
    refine strspn_append hcv.sep_delim fun c t he => ?_
    cases value with
    | cons d t' => exact hcv.rest_head c t' (by simp at he; simp [he.1])
    | nil =>
      cases sep with
      | cons d t' => exact fun hvd => hdisj c hvd (hc.sep_delim c (by simp at he; simp [he.1]))
      | nil => rw [hc.sep_nil rfl] at he; exact absurd he (by simp)
  have h1key : HoldsStr (memset st.mem (st.key + name.length) eqs.length 0) st.key name :=
    hstr.memset fun he => absurd he (List.length_pos_iff.mp heqs_pos)
  have h1val := hstr.memset_behind 0
  have hend : st.key + item.length = st.key + name.length + eqs.length + value.length := by omega
  have hsep : strAt (memset st.mem (st.key + name.length) eqs.length 0) (st.key + item.length) =
      sep ++ rest := by rw [hend]; exact h1val.suffix.strAt_eq
  have h2key := h1key.memset_frame (q := st.key + item.length) (n := sep.length) 0 (by omega)
    (hend ▸ h1val.suffix.le_length)
  have h2val := h1val.memset hc.sep_nil
  have h2rest := h1val.memset_behind 0
  rw [← hend] at h2val h2rest
  refine ⟨_, ?_, h2rest⟩
  unfold delimRound
  rw [h.strAt_eq]
  simp only [hc.strcspn_eq, hspan, hnlen, hpos, gt_iff_lt, if_true, hnlen ▸ hsp.1,
    show st.key + name.length < st.key + item.length by omega, hrun, hsep, hc.strspn_eq,
    h2key.strAt_eq, h2val.strAt_eq]
  simp only [splitItem, ← hname, ← hvalue]

end Round

/-! ## Header text -/

def spht : Bytes := ascii " \t"
def lws : Bytes := ascii " \t\r\n"

theorem mem_crlf {c : UInt8} : c ∈ crlf ↔ c = 13 ∨ c = 10 := by simp [crlf, ascii]

theorem mem_spht {c : UInt8} : c ∈ spht ↔ c = 32 ∨ c = 9 := by simp [spht, ascii]

theorem zero_notMem_crlf : (0 : UInt8) ∉ crlf := by decide

theorem zero_notMem_spht : (0 : UInt8) ∉ spht := by decide

theorem mem_lws {c : UInt8} : c ∈ lws ↔ c ∈ spht ∨ c ∈ crlf :=
  (List.mem_append (s := spht) (t := crlf))

theorem crlf_notMem_spht {c : UInt8} (h : c ∈ crlf) : c ∉ spht := by
  revert c
  decide

/-- The text behind a word and the blanks that follow it. -/
def afterBlanks (c : Bytes) : Bytes := (c.dropWhile (· ∉ lws)).dropWhile (· ∈ spht)

theorem length_afterBlanks_le (c : Bytes) : (afterBlanks c).length ≤ c.length :=
  Nat.le_trans (List.length_dropWhile_le _ _) (List.length_dropWhile_le _ _)

/-- A round of `headers_canonicalize` reads on, at the latest in its CR/LF step. -/
theorem length_afterBlanks_lt {c : Bytes} (hc : c ≠ []) (hspan : ¬ strspn (afterBlanks c) crlf > 0) :
    (afterBlanks c).length < c.length := by
  obtain ⟨a, t, rfl⟩ := List.exists_cons_of_ne_nil hc
  by_cases hlws : a ∈ lws
  · have he : afterBlanks (a :: t) = (a :: t).dropWhile (· ∈ spht) := by
      rw [afterBlanks, List.dropWhile_cons_of_neg (by simpa using hlws)]
    rw [he] at hspan ⊢
    rcases mem_lws.mp hlws with hsp | hcr
    · have := List.length_dropWhile_le (· ∈ spht) t
      rw [List.dropWhile_cons_of_pos (by simpa using hsp), List.length_cons]
      omega
    · rw [List.dropWhile_cons_of_neg (by simpa using crlf_notMem_spht hcr), strspn,
        List.takeWhile_cons_of_pos (by simpa using hcr)] at hspan
      exact absurd hspan (by simp)
  · have := length_afterBlanks_le t
    rw [afterBlanks, List.dropWhile_cons_of_pos (by simpa using hlws), List.length_cons]
    exact Nat.lt_succ_of_le this

theorem length_afterBreak_lt {c : Bytes} (hspan : strspn (afterBlanks c) crlf > 0) :
    ((afterBlanks c).dropWhile (· ∈ crlf)).length < c.length := by
  have := length_dropWhile_add_strspn (afterBlanks c) crlf
  have := length_afterBlanks_le c
  omega

/-- The test that ends the header: a block of line ends with two of either
character; mirrors src/params.c:312-325 -/
def endsBlock (eol : Bytes) : Bool := 2 ≤ eol.count 13 || 2 ≤ eol.count 10

/-- The `while` loop of `headers_canonicalize`; mirrors src/params.c:295-340.
`c` is the text still to read and `n` what has been stored; the result says
whether the loop was left with `success`. -/
def canonLoop (c n : Bytes) : Bytes × Bool :=
  if c = [] then (n, false)
  else
    -- Skip non-whitespace
    let n := n ++ c.takeWhile (· ∉ lws)
    -- Collapse a sequence of SP and HT into a single SP
    let n := if strspn (c.dropWhile (· ∉ lws)) spht > 0 then n ++ ascii " " else n
    let c2 := afterBlanks c
    if strspn c2 crlf > 0 then
      if endsBlock (c2.takeWhile (· ∈ crlf)) then (n, true)
      else
        let c3 := c2.dropWhile (· ∈ crlf)
        if strspn c3 spht > 0 then canonLoop (c3.dropWhile (· ∈ spht)) (n ++ ascii " ")
        else canonLoop c3 (n ++ crlf)
    else canonLoop c2 n
termination_by c.length
decreasing_by
  · exact Nat.lt_of_le_of_lt (List.length_dropWhile_le _ _) (length_afterBreak_lt ‹_›)
  · exact length_afterBreak_lt ‹_›
  · exact length_afterBlanks_lt ‹¬ c = []› ‹_›

/-- The bytes `headers_canonicalize` stores through its output pointer. -/
def canonStored (headers : Bytes) : Bytes := (canonLoop (cstr headers) []).1 ++ [0]

/-- mirrors src/params.c:278-350 (`headers_canonicalize`); `none` is NULL -/
def headersCanonicalize (headers : Bytes) : Option Bytes :=
  if (canonLoop (cstr headers) []).2 then some (canonStored headers) else none

/-- mirrors src/params.c:352-365 (`params_new_parse_headers`) -/
def paramsNewParseHeaders (fuel : Nat) (headers : Bytes) (_len : Nat) : Option (List Param) :=
  match headersCanonicalize headers with
  | none => some []
  | some cheaders => paramsNewParseDelim fuel (some cheaders) (ascii ": ") (ascii "\r\n")

/-- mirrors src/params.c:367-378 (`params_new_parse`) -/
def paramsNewParse (fuel : Nat) (input : Bytes) (len : Nat) : Style → Option (List Param)
  | .query => paramsNewParseQuery fuel input len
  | .headers => paramsNewParseHeaders fuel input len
  | _ => some []

end Sighttpd.L1
