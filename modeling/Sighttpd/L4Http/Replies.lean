import Sighttpd.L1Data.HeaderLines
import Sighttpd.L4Http.Respond

/-!
# The replies to GET and HEAD

`RepliesOk` is what a pair of replies has to be: a status line, the same block of headers,
and for GET as many bytes as `Content-Length` says. The headers go through an array of
1024 bytes, of which the empty line and the NUL behind it need three.

* `written_fit`, `written_cut`: what is written of the headers.
* `repliesOk_iff`: when the replies are right, for any headers with a length.
* `replies_iff`: the replies of a StaticText resource, and where nothing matches.
-/
namespace Sighttpd.L4
open Sighttpd.CString Sighttpd.L1 Sighttpd.Numeral

/-- The empty line at the end, and none in front of it. -/
def EndsAtBlank (block : Bytes) : Prop :=
  crlf ++ crlf <:+ block ∧ ¬ crlf ++ crlf <:+: block.dropLast

/-- The replies to GET and to HEAD with the headers given. -/
def RepliesOk (headers : List Param) (get head : Bytes) : Prop :=
  ∃ status block body, IsStatusLine status ∧ EndsAtBlank block ∧
    (∀ e ∈ headers, paramsFormat .headers e <:+: block) ∧
    head = status ++ block ∧ get = status ++ (block ++ body) ∧
    ∃ v ∈ paramsGet headers (ascii "Content-Length"), atoi v = body.length

/-! ## Lines -/

/-- Status lines are told from what is behind them. -/
theorem statusLine_inj {s s' x x' : Bytes} (h : IsStatusLine s) (h' : IsStatusLine s')
    (heq : s ++ x = s' ++ x') : s = s' ∧ x = x' := by
  obtain ⟨t, rfl, ht⟩ := h.line
  obtain ⟨t', rfl, ht'⟩ := h'.line
  have hfront : ∀ (t x : Bytes), (∀ b ∈ t, b ∉ crlf) → (t ++ crlf ++ x).takeWhile (· ∉ crlf) = t := by
    intro t x ht
    rw [List.append_assoc]
    exact takeWhile_append_stop (by simpa using ht) (by decide)
  obtain rfl : t = t' := by rw [← hfront t x ht, heq, hfront t' x' ht']
  exact ⟨rfl, List.append_cancel_left heq⟩

theorem crlf_eq : crlf = [13, 10] := rfl

/-- A word in front does not hold the start of an empty line. -/
theorem blank_skip {l rest : Bytes} (hl : ∀ b ∈ l, b ∉ crlf) (h : crlf ++ crlf <:+: l ++ rest) :
    crlf ++ crlf <:+: rest := by
  induction l with
  | nil => exact h
  | cons c l ih =>
    obtain ⟨hc, hl⟩ := List.forall_mem_cons.mp hl
    rw [List.cons_append, List.infix_cons_iff] at h
    rcases h with h | h
    · have hhead : (13 : UInt8) = c := (List.cons_prefix_cons.mp h).1
      exact absurd (by decide) (hhead ▸ hc)
    · exact ih hl h

/-- Lines do not start with a line end, also when a CR follows them. -/
theorem not_crlf_prefix {ls : List Bytes} (h : ∀ l ∈ ls, IsLine l) :
    ¬ crlf <+: linesText ls ++ [13] := by
  cases ls with
  | nil => decide
  | cons l ls =>
    obtain ⟨hne, hfree⟩ := h l (List.mem_cons_self ..)
    obtain ⟨c, l, rfl⟩ := List.exists_cons_of_ne_nil hne
    intro hpre
    rw [linesText_cons, List.cons_append, List.cons_append] at hpre
    have hhead : (13 : UInt8) = c := (List.cons_prefix_cons.mp hpre).1
    exact absurd (by decide) (hhead ▸ hfree c (List.mem_cons_self ..))

/-- There is no empty line among lines, also when a CR follows them. -/
theorem no_blank_line {ls : List Bytes} (h : ∀ l ∈ ls, IsLine l) :
    ¬ crlf ++ crlf <:+: linesText ls ++ [13] := by
  induction ls with
  | nil => decide
  | cons l ls ih =>
    obtain ⟨⟨-, hfree⟩, hls⟩ := List.forall_mem_cons.mp h
    intro hi
    rw [linesText_cons, List.append_assoc] at hi
    have hrest := blank_skip hfree hi
    rw [List.append_assoc, crlf_eq] at hrest
    simp only [List.cons_append] at hrest
    rw [List.infix_cons_iff] at hrest
    rcases hrest with hpre | hrest
    · -- the line end would be followed by another
      have htwo : crlf <+: linesText ls ++ [13] :=
        (List.cons_prefix_cons.mp (List.cons_prefix_cons.mp hpre).2).2
      exact not_crlf_prefix hls htwo
    · rw [List.infix_cons_iff] at hrest
      rcases hrest with hpre | hrest
      · exact absurd (List.cons_prefix_cons.mp hpre).1 (by decide)
      · exact ih hls hrest

/-! ## What is written of the headers -/

/-- Headers that can be told apart again, and are not too many. -/
structure HeadersOk (headers : List Param) : Prop where
  some : headers ≠ []
  few : headers.length ≤ 1000
  lines : ∀ e ∈ headers, IsLine (headerLine e)
  zero : 0 ∉ linesText (headerLines headers)

section Written
variable {headers : List Param} {mem : Bytes}

theorem formatAll_headers (headers : List Param) :
    formatAll (paramsFormat .headers) headers = linesText (headerLines headers) :=
  List.append_cancel_right (entryText_headers headers)

theorem written_fit (h : HeadersOk headers) (hfit : (linesText (headerLines headers)).length < 1022) :
    paramsWritefd mem headers = linesText (headerLines headers) ++ crlf := by
  have htext := entryText_headers headers
  have h0 : 0 ∉ entryText .headers headers := by
    rw [htext, List.mem_append]
    exact fun hm => hm.elim h.zero (by decide)
  have hlen : (entryText .headers headers).length < 1024 := by
    rw [htext, List.length_append, show crlf.length = 2 from rfl]
    omega
  rw [paramsWritefd, (snprint_headers_holds h.some hlen (by decide) h0).strAt_eq, htext]

theorem written_cut (h : HeadersOk headers) (hcut : 1022 ≤ (linesText (headerLines headers)).length)
    (hint : (linesText (headerLines headers)).length < 2147483646) :
    paramsWritefd mem headers = (linesText (headerLines headers)).take 1023 := by
  have htext := entryText_headers headers
  have hlen : (entryText .headers headers).length < 2147483648 := by
    rw [htext, List.length_append, show crlf.length = 2 from rfl]
    omega
  have h0 : 0 ∉ (linesText (headerLines headers)).take 1023 :=
    fun hm => h.zero (List.mem_of_mem_take hm)
  have hsize : (1024 + sizeMod - 2) % sizeMod = 1022 := by decide
  rw [paramsWritefd, snprint_headers hlen, formatAll_headers, hsize, if_neg (by omega), printedEntries,
    if_neg h.some, printed, if_pos (by decide), formatAll_headers]
  exact (store_holds (Nat.zero_le _) h0).strAt_eq

/-- The array ends what is written, whatever the headers are. -/
theorem length_written_le (hne : headers ≠ []) (hmem : 1024 ≤ mem.length) :
    (paramsWritefd mem headers).length ≤ 1023 := by
  have hprint := snprintParamsFormat_eq (paramsFormat .headers) headers hne mem 0 1024 0 (by decide)
    (Nat.zero_le _) (by decide)
  have hsize : (1024 + sizeMod - 2) % sizeMod = 1022 := by decide
  have hnul := nul_store ((formatAll (paramsFormat .headers) headers).take 1023) (Nat.zero_le mem.length)
  have htake : ((formatAll (paramsFormat .headers) headers).take 1023).length ≤ 1023 := by
    rw [List.length_take]
    omega
  have hlen : (store mem 0 ((formatAll (paramsFormat .headers) headers).take 1023 ++ [0])).length = _ :=
    length_store (Nat.zero_le mem.length)
  have hold : (strAt (store mem 0 ((formatAll (paramsFormat .headers) headers).take 1023 ++ [0])) 0).length
      ≤ 1023 := by
    have := strAt_length_le hnul (Nat.zero_le _)
    omega
  rw [paramsWritefd, paramsSnprint, hprint]
  simp only [hsize, Nat.reduceSub]
  generalize (0 + (formatAll (paramsFormat .headers) headers).length) % sizeMod = len
  split
  · exact hold
  · split
    · -- the empty line and its NUL lie in the array
      have hend := nul_store (ascii "\r\n") (show len ≤ (store mem 0
        ((formatAll (paramsFormat .headers) headers).take 1023 ++ [0])).length by omega)
      have := strAt_length_le hend (Nat.zero_le _)
      have htwo : (ascii "\r\n").length = 2 := rfl
      simp only at this ⊢
      omega
    · exact hold

end Written

/-! ## When the replies are right -/

section Replies
variable {headers : List Param} {status text mem mem' : Bytes}

/-- Every line is in a block exactly when the whole text is not too long for it. -/
theorem length_lines_le {k : Nat} (h : ∀ e ∈ headers, (paramsFormat .headers e).length ≤ k) :
    (linesText (headerLines headers)).length ≤ headers.length * k := by
  rw [← formatAll_headers]
  induction headers with
  | nil => exact Nat.zero_le _
  | cons e headers ih =>
    obtain ⟨he, hes⟩ := List.forall_mem_cons.mp h
    rw [formatAll_cons, List.length_append, List.length_cons, Nat.succ_mul]
    have := ih hes
    omega

theorem HeadersOk.isLine (h : HeadersOk headers) : ∀ l ∈ headerLines headers, IsLine l := by
  intro l hl
  obtain ⟨e, he, rfl⟩ := List.mem_map.mp hl
  exact h.lines e he

theorem endsAtBlank_block (h : HeadersOk headers) :
    EndsAtBlank (linesText (headerLines headers) ++ crlf) := by
  constructor
  · rw [← List.dropLast_concat_getLast h.some, headerLines_append, linesText_append, headerLines_cons,
      headerLines_nil, linesText_cons, linesText_nil, List.append_nil, ← List.append_assoc,
      List.append_assoc _ crlf crlf]
    exact List.suffix_append ..
  · have hdrop : (linesText (headerLines headers) ++ crlf).dropLast = linesText (headerLines headers) ++ [13] := by
      rw [show crlf = [13] ++ [10] from rfl, ← List.append_assoc, List.dropLast_concat]
    rw [hdrop]
    exact no_blank_line h.isLine

/-- No beginning of the lines has an empty line. -/
theorem not_endsAtBlank_take (h : HeadersOk headers) (k : Nat) :
    ¬ EndsAtBlank ((linesText (headerLines headers)).take k) := by
  intro hends
  apply no_blank_line h.isLine
  exact (hends.1.isInfix.trans (List.take_prefix ..).isInfix).trans (List.prefix_append ..).isInfix

theorem line_within {e : Param} (he : e ∈ headers) :
    paramsFormat .headers e <:+: linesText (headerLines headers) := by
  rw [← formatAll_headers]
  exact List.infix_of_mem_flatten (List.mem_map_of_mem he)

/-- **Replies.** The replies with given headers are right if and only if the headers fit the
array, and the length of the text is an `int`. -/
theorem repliesOk_iff (h : HeadersOk headers) (hstatus : IsStatusLine status)
    (hlen : paramsGet headers (ascii "Content-Length") = some (lengthText text.length))
    (hmem : 1024 ≤ mem'.length) :
    RepliesOk headers (status ++ (paramsWritefd mem headers ++ text))
        (status ++ (paramsWritefd mem' headers ++ [])) ↔
      (linesText (headerLines headers)).length < 1022 ∧ text.length < 2147483648 := by
  constructor
  · rintro ⟨s, block, body, hs, hends, hentries, hhead, hget, v, hv, hbody⟩
    obtain ⟨rfl, hblock⟩ := statusLine_inj hstatus hs hhead
    rw [List.append_nil] at hblock
    subst hblock
    have hfit : (linesText (headerLines headers)).length < 1022 := by
      by_contra hcut
      have hwritten := length_written_le h.some hmem
      have hle := length_lines_le fun e he => Nat.le_trans (hentries e he).length_le hwritten
      have hfew := h.few
      rw [written_cut h (by omega) (by omega)] at hends
      exact not_endsAtBlank_take h _ hends
    refine ⟨hfit, ?_⟩
    have hbodies := List.append_cancel_left hget
    rw [written_fit h hfit, written_fit h hfit] at hbodies
    obtain rfl := List.append_cancel_left hbodies
    rw [hlen, Option.mem_some_iff] at hv
    rw [← hv, atoi_lengthText] at hbody
    have := intOfSize_lt text.length
    omega
  · rintro ⟨hfit, hint⟩
    rw [written_fit h hfit, written_fit h hfit, List.append_nil]
    refine ⟨status, _, text, hstatus, endsAtBlank_block h, fun e he => ?_, rfl, rfl, _, hlen, ?_⟩
    · exact (line_within he).trans (List.prefix_append ..).isInfix
    · rw [atoi_lengthText, intOfSize_eq hint]

end Replies

/-! ## The headers -/

/-- No control characters. -/
def Printable (s : Bytes) : Prop := ∀ b ∈ s, 32 ≤ b

@[simp] theorem printable_append {s t : Bytes} : Printable (s ++ t) ↔ Printable s ∧ Printable t :=
  List.forall_mem_append

theorem Printable.free {s : Bytes} (h : Printable s) : ∀ b ∈ s, b ∉ crlf ++ [0] := by
  intro b hb hmem
  have hcases : ∀ c ∈ crlf ++ [0], ¬ 32 ≤ c := by decide
  exact hcases b hmem (h b hb)

theorem printable_leftpad {s : Bytes} {c : UInt8} (n : Nat) (hc : 32 ≤ c) (h : Printable s) :
    Printable (s.leftpad n c) := by
  intro b hb
  rw [List.leftpad, List.mem_append] at hb
  rcases hb with hb | hb
  · exact (List.eq_of_mem_replicate hb) ▸ hc
  · exact h b hb

theorem printable_natText (n : Nat) : Printable (natText 10 n) := by
  intro b hb
  have hdigit := natText_digit n b hb
  rw [isDigit, decide_eq_true_eq] at hdigit
  exact UInt8.le_trans (by decide) hdigit.1

theorem printable_decimal (z : Int) : Printable (decimal z) := by
  unfold decimal
  split
  · intro b hb
    rcases List.mem_cons.mp hb with rfl | hb
    · decide
    · exact printable_natText _ b hb
  · exact printable_natText _

theorem printable_httpdate (now : Tm) : Printable (httpdate now) := by
  have hpad : ∀ n m, Printable (zeroPadded n (natText 10 m)) :=
    fun n m => printable_leftpad n (by decide) (printable_natText m)
  have hyear : Printable (spacePadded 4 (natText 10 now.year)) :=
    printable_leftpad 4 (by decide) (printable_natText _)
  have hday : ∀ i : Fin 7, Printable (ascii wdays[i]) := by
    unfold Printable
    decide +kernel
  have hmonth : ∀ i : Fin 12, Printable (ascii months[i]) := by
    unfold Printable
    decide +kernel
  have hcomma : Printable (ascii ", ") := by unfold Printable; decide
  have hblank : Printable (ascii " ") := by unfold Printable; decide
  have hcolon : Printable (ascii ":") := by unfold Printable; decide
  have hgmt : Printable (ascii " GMT") := by unfold Printable; decide
  simp only [httpdate, printable_append, hpad, hyear, hday, hmonth, hcomma, hblank, hcolon, hgmt, and_self]

/-- The headers of a reply with a length. -/
def lengthHeaders (now : Tm) (ctype : Bytes) (len : Nat) : List Param :=
  [⟨ascii "Date", (httpdate now).take 255⟩, ⟨ascii "Server", ascii "Sighttpd/1.2.0"⟩,
    ⟨ascii "Content-Type", ctype⟩, ⟨ascii "Content-Length", lengthText len⟩]

section Headers
variable {now : Tm} {ctype : Bytes} {len : Nat}

theorem headerNames_distinct : [ascii "Date", ascii "Server", ascii "Content-Type",
    ascii "Content-Length"].Pairwise fun a b => strcasecmp a b ≠ 0 := by decide +kernel

theorem append_lengthHeaders (now : Tm) (ctype : Bytes) (len : Nat) :
    paramsAppend (paramsAppend (responseHeadersNew now) (ascii "Content-Type") ctype)
      (ascii "Content-Length") (lengthText len) = lengthHeaders now ctype len := by
  have hnames := headerNames_distinct
  simp only [List.pairwise_cons, List.forall_mem_cons] at hnames
  obtain ⟨⟨hds, hdt, hdl, -⟩, ⟨hst, hsl, -⟩, ⟨htl, -⟩, -⟩ := hnames
  simp only [responseHeadersNew, paramsAppend, lengthHeaders, if_neg hds, if_neg hdt, if_neg hdl,
    if_neg hst, if_neg hsl, if_neg htl]

theorem paramsGet_length (now : Tm) (ctype : Bytes) (len : Nat) :
    paramsGet (lengthHeaders now ctype len) (ascii "Content-Length") = some (lengthText len) := by
  have hnames := headerNames_distinct
  simp only [List.pairwise_cons, List.forall_mem_cons] at hnames
  obtain ⟨⟨-, -, hdl, -⟩, ⟨-, hsl, -⟩, ⟨htl, -⟩, -⟩ := hnames
  have hself : strcasecmp (ascii "Content-Length") (ascii "Content-Length") = 0 :=
    strcasecmp_eq_zero.mpr rfl
  simp only [lengthHeaders, paramsGet, if_neg hdl, if_neg hsl, if_neg htl, if_pos hself]

/-- Headers without line breaks and NULs can be told apart. -/
theorem headersOk_of_free {headers : List Param} (hne : headers ≠ []) (hfew : headers.length ≤ 1000)
    (h : ∀ e ∈ headers, ∀ b ∈ headerLine e, b ∉ crlf ++ [0]) : HeadersOk headers where
  some := hne
  few := hfew
  lines e he := ⟨by simp [headerLine, ascii], fun b hb hc => h e he b hb (List.mem_append_left _ hc)⟩
  zero := by
    intro hm
    obtain ⟨x, hx, h0⟩ := List.mem_flatten.mp hm
    obtain ⟨l, hl, rfl⟩ := List.mem_map.mp hx
    obtain ⟨e, he, rfl⟩ := List.mem_map.mp hl
    rcases List.mem_append.mp h0 with h0 | h0
    · exact h e he 0 h0 (by decide)
    · exact absurd h0 (by decide)

theorem headersOk_length (hctype : ∀ b ∈ ctype, b ∉ crlf ++ [0]) :
    HeadersOk (lengthHeaders now ctype len) := by
  have hdate : Printable ((httpdate now).take 255) :=
    fun b hb => printable_httpdate now b (List.mem_of_mem_take hb)
  have hlength : Printable (lengthText len) := by
    rw [lengthText_eq]
    exact printable_decimal _
  have hline : ∀ (key value : Bytes), Printable (key ++ ascii ": ") → (∀ b ∈ value, b ∉ crlf ++ [0]) →
      ∀ b ∈ headerLine ⟨key, value⟩, b ∉ crlf ++ [0] := by
    intro key value hkey hvalue b hb
    rcases List.mem_append.mp hb with hb | hb
    · exact hkey.free b hb
    · exact hvalue b hb
  have hserver : Printable (ascii "Sighttpd/1.2.0") := by
    unfold Printable
    decide
  rw [lengthHeaders]
  refine headersOk_of_free (by simp) (show 4 ≤ 1000 by decide) ?_
  simp only [List.forall_mem_cons]
  refine ⟨hline _ _ ?_ hdate.free, hline _ _ ?_ hserver.free, hline _ _ ?_ hctype,
    hline _ _ ?_ hlength.free, fun e he => absurd he (by simp)⟩
  all_goals
    unfold Printable
    decide +kernel

end Headers

/-! ## The two kinds of replies -/

section Respond
variable {resources : List Resource} {request : HttpRequest} {requestHeaders : List Param} {now : Tm}
  {mem mem' path text ctype : Bytes}

/-- The request with one of the two methods that are allowed. -/
def HttpRequest.get (request : HttpRequest) : HttpRequest := { request with method := .get }

def HttpRequest.head (request : HttpRequest) : HttpRequest := { request with method := .head }

/-- The first resource that accepts the request in both methods; the same, or none. -/
def FirstMatch (resources : List Resource) (request : HttpRequest) (r : Option Resource) : Prop :=
  resources.find? (·.check request.get) = r ∧ resources.find? (·.check request.head) = r

/-- The replies to the two requests, each with an array of its own. -/
def Replies (resources : List Resource) (request : HttpRequest) (requestHeaders : List Param)
    (now : Tm) (mem mem' : Bytes) : Prop :=
  RepliesOk (replyHead resources request.get requestHeaders now).2
    (respond resources request.get requestHeaders now mem)
    (respond resources request.head requestHeaders now mem')

/-- The header lines take less than 1022 bytes, 66 of them for the names, `Server` and the
line ends, and the length of the text is an `int`. -/
def TextFits (now : Tm) (ctype text : Bytes) : Prop :=
  66 + ((httpdate now).take 255).length + ctype.length + (lengthText text.length).length < 1022 ∧
    text.length < 2147483648

theorem length_lengthHeaders (now : Tm) (ctype : Bytes) (len : Nat) :
    (linesText (headerLines (lengthHeaders now ctype len))).length =
      66 + ((httpdate now).take 255).length + ctype.length + (lengthText len).length := by
  simp only [lengthHeaders, headerLines_cons, headerLines_nil, linesText_cons, linesText_nil, headerLine,
    List.length_append, List.length_nil]
  rw [show (ascii "Date").length = 4 from rfl, show (ascii ": ").length = 2 from rfl,
    show crlf.length = 2 from rfl, show (ascii "Server").length = 6 from rfl,
    show (ascii "Sighttpd/1.2.0").length = 14 from rfl, show (ascii "Content-Type").length = 12 from rfl,
    show (ascii "Content-Length").length = 14 from rfl]
  omega

/-- The replies with the headers of a length. -/
theorem repliesOk_length {status : Bytes} (hstatus : IsStatusLine status)
    (hctype : ∀ b ∈ ctype, b ∉ crlf ++ [0]) (hmem : 1024 ≤ mem'.length) :
    RepliesOk (lengthHeaders now ctype text.length)
        (status ++ (paramsWritefd mem (lengthHeaders now ctype text.length) ++ text))
        (status ++ (paramsWritefd mem' (lengthHeaders now ctype text.length) ++ [])) ↔
      TextFits now ctype text := by
  rw [repliesOk_iff (headersOk_length hctype) hstatus (paramsGet_length ..) hmem, length_lengthHeaders,
    TextFits]

/-- The replies from what is answered to both requests, and served to the first. -/
theorem replies_eq {status : Bytes} {headers : List Param}
    (hget : respondGetHead resources request.get requestHeaders (responseHeadersNew now) = (status, headers))
    (hhead : respondGetHead resources request.head requestHeaders (responseHeadersNew now) = (status, headers))
    (hbody : respondGetBody resources request.get requestHeaders = text) :
    Replies resources request requestHeaders now mem mem' ↔
      RepliesOk headers (status ++ (paramsWritefd mem headers ++ text))
        (status ++ (paramsWritefd mem' headers ++ [])) := by
  have hg : replyHead resources request.get requestHeaders now = (status, headers) := hget
  have hh : replyHead resources request.head requestHeaders now = (status, headers) := hhead
  rw [Replies, respond, respond, hg, hh, hbody]
  rfl

theorem statictext_head (path text ctype : Bytes) (now : Tm) :
    (statictextResource path text ctype).head request requestHeaders (responseHeadersNew now) =
      (httpStatusLine .ok, lengthHeaders now ctype text.length) := by
  rw [← append_lengthHeaders]
  rfl

theorem notFound_head (now : Tm) : httpStatusAppendHeaders (responseHeadersNew now) .notFound =
    lengthHeaders now (ascii "text/html") (httpStatusStreamBody .notFound).length := by
  rw [← append_lengthHeaders, length_streamBody]
  rfl

theorem replies_statictext (hctype : ∀ b ∈ ctype, b ∉ crlf ++ [0]) (hmem : 1024 ≤ mem'.length)
    (hfirst : FirstMatch resources request (some (statictextResource path text ctype))) :
    Replies resources request requestHeaders now mem mem' ↔ TextFits now ctype text := by
  obtain ⟨hget, hhead⟩ := hfirst
  have hg : respondGetHead resources request.get requestHeaders (responseHeadersNew now) =
      (httpStatusLine .ok, lengthHeaders now ctype text.length) := by
    simp only [respondGetHead, hget, statictext_head]
  have hh : respondGetHead resources request.head requestHeaders (responseHeadersNew now) =
      (httpStatusLine .ok, lengthHeaders now ctype text.length) := by
    simp only [respondGetHead, hhead, statictext_head]
  have hb : respondGetBody resources request.get requestHeaders = text := by
    simp only [respondGetBody, hget]
    rfl
  rw [replies_eq hg hh hb, repliesOk_length (httpStatusLine_line .ok) hctype hmem]

theorem replies_notFound (hmem : 1024 ≤ mem'.length) (hfirst : FirstMatch resources request none) :
    Replies resources request requestHeaders now mem mem' := by
  obtain ⟨hget, hhead⟩ := hfirst
  have hg : respondGetHead resources request.get requestHeaders (responseHeadersNew now) =
      (httpStatusLine .notFound,
        lengthHeaders now (ascii "text/html") (httpStatusStreamBody .notFound).length) := by
    simp only [respondGetHead, hget, notFound_head]
  have hh : respondGetHead resources request.head requestHeaders (responseHeadersNew now) =
      (httpStatusLine .notFound,
        lengthHeaders now (ascii "text/html") (httpStatusStreamBody .notFound).length) := by
    simp only [respondGetHead, hhead, notFound_head]
  have hb : respondGetBody resources request.get requestHeaders = httpStatusStreamBody .notFound := by
    simp only [respondGetBody, hget]
  rw [replies_eq hg hh hb, repliesOk_length (httpStatusLine_line .notFound) (by decide) hmem]
  have hdate : ((httpdate now).take 255).length ≤ 255 := by
    rw [List.length_take]
    omega
  have hlength : (lengthText (httpStatusStreamBody .notFound).length).length ≤ 15 := by
    rw [lengthText, List.length_take]
    omega
  have hbody := length_streamBody_lt .notFound
  have htype : (ascii "text/html").length = 9 := rfl
  exact ⟨by omega, by omega⟩

/-- **Replies to GET and HEAD.** For a text the replies are right if and only if the header
lines fit the array and the length is an `int`; where nothing matches they always are. -/
theorem replies_iff (hctype : ∀ b ∈ ctype, b ∉ crlf ++ [0]) (hmem : 1024 ≤ mem'.length) :
    (FirstMatch resources request (some (statictextResource path text ctype)) →
      (Replies resources request requestHeaders now mem mem' ↔ TextFits now ctype text)) ∧
    (FirstMatch resources request none → Replies resources request requestHeaders now mem mem') :=
  ⟨replies_statictext hctype hmem, replies_notFound hmem⟩

/-- A request for the path of the only resource. -/
theorem firstMatch_single (request : HttpRequest) (text ctype : Bytes) :
    FirstMatch [statictextResource request.path text ctype] request
      (some (statictextResource request.path text ctype)) := by
  have hcheck : startsWith request.path request.path = true := by
    rw [startsWith, List.take_length, decide_eq_true_eq]
    exact strcmp_eq_zero.mpr rfl
  exact ⟨List.find?_cons_of_pos hcheck, List.find?_cons_of_pos hcheck⟩

def welcome : HttpRequest := ⟨ascii "GET /welcome.txt HTTP/1.1", .get, .v1_1, ascii "/welcome.txt"⟩

def newYear : Tm := ⟨5, 1, 0, 2010, 0, 0, 0⟩

theorem replies_iff_welcome :
    Replies [statictextResource welcome.path (ascii "Hello, world!") (ascii "text/plain")] welcome [] newYear
      (List.replicate 1024 0) (List.replicate 1024 0) ↔
    TextFits newYear (ascii "text/plain") (ascii "Hello, world!") :=
  (replies_iff (by decide) (by rw [List.length_replicate])).1 (firstMatch_single welcome _ _)

/-- A Type of 1000 bytes: the headers are cut. -/
theorem longType_cut :
    ¬ Replies [statictextResource welcome.path (ascii "Hello, world!") (List.replicate 1000 97)] welcome []
      newYear (List.replicate 1024 0) (List.replicate 1024 0) := by
  have hctype : ∀ b ∈ List.replicate 1000 (97 : UInt8), b ∉ crlf ++ [0] := by
    intro b hb
    rw [List.eq_of_mem_replicate hb]
    decide
  rw [replies_statictext hctype (by rw [List.length_replicate]) (firstMatch_single welcome _ _)]
  intro hfits
  have hlen := hfits.1
  rw [List.length_replicate] at hlen
  have hdate : ((httpdate newYear).take 255).length = 29 := by decide +kernel
  omega

end Respond

end Sighttpd.L4
