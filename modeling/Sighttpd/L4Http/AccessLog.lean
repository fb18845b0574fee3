import Mathlib.Data.List.Count
import Sighttpd.Core.Lines
import Sighttpd.L1Data.ParamsMap
import Sighttpd.L1Data.ParamsWeight
import Sighttpd.L4Http.RequestLine
import Sighttpd.L4Http.Response
import Sighttpd.L4Http.Replies

/-!
# The access log (`log.c`)

`log_access` prints one entry for each reply, with the request line as the client sent it.
The path of a request may hold line breaks, but no blank, and nothing else in an entry may
hold a newline. So a client can break an entry into lines, and none of these can be taken
for an entry.

`respond` is also called when no request line was found. The entry is then printed from what the
stack holds of a `http_request`, which is taken to be one that an earlier connection has left.

* `entry_whole`, `entry_broken`: the lines of one entry.
* `Served.item_ok`: what is printed is made of what the parsers let through.
* `log_entries`: the lines of a log that read as entries.
-/
namespace Sighttpd.L4
open Sighttpd.CString Sighttpd.L1 Sighttpd.Numeral Sighttpd.Lines

/-! ## Model -/

/-- What an entry is printed from. -/
structure LogItem where
  date : Bytes
  line : Bytes
  length : Bytes
  agent : Bytes
  deriving DecidableEq, Repr

/-- `LOG_FMT` less its newline; mirrors src/log.c:17-18 -/
def LogItem.text (e : LogItem) : Bytes :=
  ascii "[" ++ e.date ++ (ascii "] \"" ++ e.line ++ (ascii "\" 200 " ++ e.length ++
    (ascii " \"" ++ e.agent ++ ascii "\"\r")))

def LogItem.print (e : LogItem) : Bytes := e.text ++ [10]

/-- mirrors src/log.c:66-71: NULL is printed as the empty string -/
def logItem (request : HttpRequest) (requestHeaders responseHeaders : List Param) : LogItem where
  date := (paramsGet responseHeaders (ascii "Date")).getD []
  line := request.originalReqline
  length := (paramsGet responseHeaders (ascii "Content-Length")).getD []
  agent := (paramsGet requestHeaders (ascii "User-Agent")).getD []

/-- mirrors src/log.c:57-81 (`log_access`); what is printed to the log -/
def logAccess (request : HttpRequest) (requestHeaders responseHeaders : List Param) : Bytes :=
  (logItem request requestHeaders responseHeaders).print

/-! ## Entries -/

/-- A calendar date as `gmtime` gives it, in a year of four digits at most. -/
structure Tm.Ok (now : Tm) : Prop where
  mday : now.mday < 100
  year : now.year < 10000
  hour : now.hour < 100
  min : now.min < 100
  sec : now.sec < 100

/-- The request line as it is kept: whole, or as far as the string goes. -/
def ReqlineOk (line : Bytes) : Prop :=
  ∃ (m : HttpMethod) (path : Bytes) (v : HttpVersion), 32 ∉ path ∧
    (line = m.word ∨ line = m.word ++ 32 :: path ∨ line = requestLine m path v)

structure LogItem.Ok (e : LogItem) : Prop where
  date : ∃ now : Tm, now.Ok ∧ e.date = httpdate now
  line : ReqlineOk e.line
  length : ∀ c ∈ e.length, isDigit c = true ∨ c = 45
  agent : 10 ∉ e.agent

/-- A line that reads as an entry. -/
def IsEntry (l : Bytes) : Prop := ∃ e : LogItem, e.Ok ∧ 10 ∉ e.line ∧ l = e.text

/-! ## Dates -/

theorem length_zeroPadded {k n : Nat} (h : n < 10 ^ k) (hk : 0 < k) :
    (zeroPadded k (natText 10 n)).length = k := by
  have hdigits : (natText 10 n).length ≤ k := by
    rw [natText, List.length_map]
    exact (Nat.length_toDigits_le_iff (by decide) hk).mpr h
  rw [zeroPadded, List.length_leftpad]
  omega

theorem length_spacePadded {k n : Nat} (h : n < 10 ^ k) (hk : 0 < k) :
    (spacePadded k (natText 10 n)).length = k := by
  have hdigits : (natText 10 n).length ≤ k := by
    rw [natText, List.length_map]
    exact (Nat.length_toDigits_le_iff (by decide) hk).mpr h
  rw [spacePadded, List.length_leftpad]
  omega

/-- A date takes 29 bytes. -/
theorem length_httpdate {now : Tm} (h : now.Ok) : (httpdate now).length = 29 := by
  have hday : ∀ i : Fin 7, (ascii wdays[i]).length = 3 := by decide
  have hmonth : ∀ i : Fin 12, (ascii months[i]).length = 3 := by decide
  simp only [httpdate, List.length_append, hday, hmonth]
  rw [length_zeroPadded (k := 2) h.mday (by decide), length_spacePadded (k := 4) h.year (by decide),
    length_zeroPadded (k := 2) h.hour (by decide), length_zeroPadded (k := 2) h.min (by decide),
    length_zeroPadded (k := 2) h.sec (by decide)]
  rfl

theorem date_short {now : Tm} (h : now.Ok) : (httpdate now).take 255 = httpdate now :=
  List.take_of_length_le (by rw [length_httpdate h]; decide)

theorem httpdate_free (now : Tm) : 10 ∉ httpdate now := by
  intro hm
  exact (printable_httpdate now).free 10 hm (by decide)

/-- A date starts with three words: a day of the week, a number, and a name. -/
structure DateWords (date word day : Bytes) (c : UInt8) (rest : Bytes) : Prop where
  eq : date = word ++ 32 :: (day ++ 32 :: c :: rest)
  word : 32 ∉ word
  day : ∃ d t, day = d :: t ∧ ∀ x ∈ day, isDigit x = true
  name : 65 ≤ c

theorem httpdate_words (now : Tm) : ∃ word day c rest, DateWords (httpdate now) word day c rest := by
  have hword : ∀ i : Fin 7, 32 ∉ ascii wdays[i] ++ ascii "," := by decide
  have hname : ∀ i : Fin 12, ∃ c t, ascii months[i] = c :: t ∧ 65 ≤ c := by
    intro i
    refine ⟨(ascii months[i]).head?.getD 0, (ascii months[i]).tail, ?_, ?_⟩
    · revert i
      decide
    · revert i
      decide
  obtain ⟨c, t, hmonth, hc⟩ := hname now.mon
  have hday : ∀ x ∈ zeroPadded 2 (natText 10 now.mday), isDigit x = true := by
    intro x hx
    rw [zeroPadded, List.leftpad, List.mem_append] at hx
    rcases hx with hx | hx
    · rw [List.eq_of_mem_replicate hx]
      decide
    · exact natText_digit _ x hx
  have hne : zeroPadded 2 (natText 10 now.mday) ≠ [] := by
    rw [zeroPadded, List.leftpad]
    simp [natText_ne_nil]
  obtain ⟨d, u, hd⟩ := List.exists_cons_of_ne_nil hne
  have hblank : ascii " " = [32] := rfl
  have hcomma : ascii ", " = ascii "," ++ [32] := rfl
  refine ⟨ascii wdays[now.wday] ++ ascii ",", zeroPadded 2 (natText 10 now.mday), c,
    t ++ (ascii " " ++ (spacePadded 4 (natText 10 now.year) ++ (ascii " " ++
      (zeroPadded 2 (natText 10 now.hour) ++ (ascii ":" ++ (zeroPadded 2 (natText 10 now.min) ++
        (ascii ":" ++ (zeroPadded 2 (natText 10 now.sec) ++ ascii " GMT")))))))),
    ⟨?_, hword _, ⟨d, u, hd, hday⟩, hc⟩⟩
  rw [httpdate, hmonth, hcomma, hblank]
  simp only [List.append_assoc, List.cons_append, List.nil_append]

/-! ## Lines of an entry -/

/-- A blank cuts a text in one way. -/
theorem cut_at {c : UInt8} {x x' y y' : Bytes} (hx : c ∉ x) (hx' : c ∉ x')
    (h : x ++ c :: y = x' ++ c :: y') : x = x' ∧ y = y' := by
  induction x generalizing x' with
  | nil =>
    cases x' with
    | nil => exact ⟨rfl, (List.cons.inj h).2⟩
    | cons a x' => exact absurd ((List.cons.inj h).1 ▸ List.mem_cons_self ..) hx'
  | cons a x ih =>
    cases x' with
    | nil => exact absurd ((List.cons.inj h).1 ▸ List.mem_cons_self ..) hx
    | cons a' x' =>
      obtain ⟨ha, h⟩ := List.cons.inj h
      obtain ⟨h1, h2⟩ := ih (List.not_mem_of_not_mem_cons hx) (List.not_mem_of_not_mem_cons hx') h
      exact ⟨congrArg₂ List.cons ha h1, h2⟩

theorem word_free (m : HttpMethod) : 10 ∉ m.word ∧ 32 ∉ m.word := by
  cases m <;> decide

theorem version_noLf (v : HttpVersion) : 10 ∉ v.word := by cases v <;> decide

section Entry
variable {e : LogItem}

theorem LogItem.Ok.date_free (h : e.Ok) : 10 ∉ e.date := by
  obtain ⟨now, -, hdate⟩ := h.date
  rw [hdate]
  exact httpdate_free now

theorem LogItem.Ok.length_free (h : e.Ok) : 10 ∉ e.length ∧ 32 ∉ e.length := by
  refine ⟨fun hm => ?_, fun hm => ?_⟩
  · exact absurd (h.length 10 hm) (by decide)
  · exact absurd (h.length 32 hm) (by decide)

/-- What stands behind the request line. -/
def LogItem.tail (e : LogItem) : Bytes :=
  34 :: 32 :: (ascii "200" ++ 32 :: (e.length ++ 32 :: (34 :: (e.agent ++ ascii "\"\r"))))

theorem text_eq (e : LogItem) :
    e.text = (ascii "[" ++ (e.date ++ ascii "] \"")) ++ (e.line ++ e.tail) := by
  rw [LogItem.text, LogItem.tail]
  simp [ascii]

theorem LogItem.Ok.tail_free (h : e.Ok) : 10 ∉ e.tail := by
  have hagent := h.agent
  have hlength := h.length_free.1
  simp [LogItem.tail, ascii, hagent, hlength]

theorem count_tail (e : LogItem) : 2 ≤ e.tail.count 32 := by
  rw [LogItem.tail, List.count_cons_of_ne (by decide), List.count_cons_self, List.count_append,
    List.count_cons_self]
  omega

/-- Without a newline in the request line the entry is a line. -/
theorem entry_whole (h : e.Ok) (hline : 10 ∉ e.line) : textLines e.print = [e.text] := by
  have hdate := h.date_free
  have htail := h.tail_free
  rw [LogItem.print, textLines_ended, List.splitOn_eq_singleton]
  rw [text_eq]
  simp only [List.mem_append, not_or]
  exact ⟨⟨by decide, hdate, by decide⟩, hline, htail⟩

/-- A request line with a newline has it in the path. -/
theorem reqline_broken {line : Bytes} (h : ReqlineOk line) (hlf : 10 ∈ line) :
    ∃ (m : HttpMethod) (path t : Bytes), 32 ∉ path ∧ 10 ∈ path ∧
      line = m.word ++ 32 :: (path ++ t) ∧ (t = [] ∨ ∃ v : HttpVersion, t = 32 :: v.word) := by
  obtain ⟨m, path, v, hblank, rfl | rfl | rfl⟩ := h
  · exact absurd hlf (word_free m).1
  · refine ⟨m, path, [], hblank, ?_, by rw [List.append_nil], .inl rfl⟩
    simpa [(word_free m).1] using hlf
  · refine ⟨m, path, 32 :: v.word, hblank, ?_, rfl, .inr ⟨v, rfl⟩⟩
    simpa [requestLine, (word_free m).1, version_noLf v] using hlf

/-- A piece of a path is no entry: it has no blank. -/
theorem not_entry_piece {p : Bytes} (hp : 32 ∉ p) : ¬ IsEntry p := by
  rintro ⟨e, -, -, rfl⟩
  apply hp
  rw [text_eq]
  have htail : 32 ∈ e.tail := by
    rw [LogItem.tail]
    exact List.mem_cons_of_mem _ (List.mem_cons_self ..)
  exact List.mem_append_right _ (List.mem_append_right _ htail)

/-- The first piece of a broken entry has one blank behind the date. -/
theorem not_entry_first (h : e.Ok) (m : HttpMethod) {p : Bytes} (hp : 32 ∉ p) :
    ¬ IsEntry ((ascii "[" ++ (e.date ++ ascii "] \"")) ++ (m.word ++ 32 :: p)) := by
  rintro ⟨e', h', -, heq⟩
  rw [text_eq] at heq
  obtain ⟨now, hnow, hdate⟩ := h.date
  obtain ⟨now', hnow', hdate'⟩ := h'.date
  have hlen : (ascii "[" ++ (e.date ++ ascii "] \"")).length =
      (ascii "[" ++ (e'.date ++ ascii "] \"")).length := by
    simp only [List.length_append, hdate, hdate', length_httpdate hnow, length_httpdate hnow']
  obtain ⟨-, hrest⟩ := List.append_inj heq hlen
  have hcount := congrArg (List.count 32) hrest
  rw [List.count_append, List.count_eq_zero_of_not_mem (word_free m).2, List.count_cons_self,
    List.count_eq_zero_of_not_mem hp, List.count_append] at hcount
  have := count_tail e'
  omega

/-- The last piece of a broken entry has no date in front. -/
theorem not_entry_last (h : e.Ok) {p t : Bytes} (hp : 32 ∉ p)
    (ht : t = [] ∨ ∃ v : HttpVersion, t = 32 :: v.word) : ¬ IsEntry (p ++ (t ++ e.tail)) := by
  rintro ⟨e', h', -, heq⟩
  obtain ⟨now, -, hdate⟩ := h'.date
  obtain ⟨word, day, c, rest, hwords⟩ := httpdate_words now
  have hentry : e'.text = (ascii "[" ++ word) ++ 32 :: (day ++ 32 :: c ::
      (rest ++ (ascii "] \"" ++ (e'.line ++ e'.tail)))) := by
    rw [text_eq, hdate, hwords.eq]
    simp
  have hword : 32 ∉ ascii "[" ++ word := by
    rw [List.mem_append, not_or]
    exact ⟨by decide, hwords.word⟩
  obtain ⟨d, u, hday, hdigits⟩ := hwords.day
  have hnoblank : 32 ∉ day := fun hm => absurd (hdigits 32 hm) (by decide)
  rw [hentry] at heq
  rcases ht with rfl | ⟨v, rfl⟩
  · -- the second word is 200, and the third the length
    have hp' : 32 ∉ p ++ [34] := by simp [hp]
    have hcut : (p ++ [34]) ++ 32 :: (ascii "200" ++ 32 ::
        (e.length ++ 32 :: (34 :: (e.agent ++ ascii "\"\r")))) = p ++ ([] ++ e.tail) := by
      simp [LogItem.tail]
    rw [← hcut] at heq
    obtain ⟨-, hsecond⟩ := cut_at hp' hword heq
    obtain ⟨-, hthird⟩ := cut_at (by decide) hnoblank hsecond
    have hname := hwords.name
    cases hlen : e.length with
    | nil =>
      rw [hlen] at hthird
      obtain ⟨rfl, -⟩ := List.cons.inj hthird
      exact absurd hname (by decide)
    | cons x xs =>
      rw [hlen] at hthird
      obtain ⟨rfl, -⟩ := List.cons.inj hthird
      rcases h.length x (by rw [hlen]; exact List.mem_cons_self ..) with hdig | rfl
      · rw [isDigit, decide_eq_true_eq] at hdig
        exact absurd (UInt8.le_trans hname hdig.2) (by decide)
      · exact absurd hname (by decide)
  · -- the second word is the version
    obtain ⟨-, hsecond⟩ := cut_at hp hword heq
    have hhead : ∀ v : HttpVersion, ∃ w, v.word = 72 :: w := by
      intro v
      cases v <;> exact ⟨_, rfl⟩
    obtain ⟨w, hw⟩ := hhead v
    rw [hw, hday] at hsecond
    have hd : 72 = d := (List.cons.inj hsecond).1
    have hdig := hdigits d (by rw [hday]; exact List.mem_cons_self ..)
    rw [← hd] at hdig
    exact absurd hdig (by decide)

/-- With a newline in the request line, no line of the entry reads as an entry. -/
theorem entry_broken (h : e.Ok) (hline : 10 ∈ e.line) : ∀ l ∈ textLines e.print, ¬ IsEntry l := by
  intro l hl
  obtain ⟨m, path, t, hblank, hpath, heq, ht⟩ := reqline_broken h.line hline
  have htext : e.text = ((ascii "[" ++ (e.date ++ ascii "] \"")) ++ (m.word ++ [32])) ++
      (path ++ (t ++ e.tail)) := by
    rw [text_eq, heq]
    simp
  have hfront : 10 ∉ (ascii "[" ++ (e.date ++ ascii "] \"")) ++ (m.word ++ [32]) := by
    have hdate := h.date_free
    have hword := (word_free m).1
    simp [ascii, hdate, hword]
  have hback : 10 ∉ t ++ e.tail := by
    rw [List.mem_append, not_or]
    refine ⟨?_, h.tail_free⟩
    rcases ht with rfl | ⟨v, rfl⟩
    · simp
    · simp [version_noLf v]
  rw [LogItem.print, textLines_ended, htext] at hl
  obtain ⟨p, hp, hcases⟩ := mem_splitOn_between hfront hback hpath hl
  have hp32 : 32 ∉ p := fun hm => hblank (hp 32 hm)
  rcases hcases with rfl | rfl | rfl
  · have hfirst := not_entry_first h m hp32
    simpa using hfirst
  · exact not_entry_last h hp32 ht
  · exact not_entry_piece hp32

end Entry

/-! ## What is read -/

theorem strAt_drop {mem : Bytes} {p k : Nat} (hk : k ≤ (strAt mem p).length) :
    strAt mem (p + k) = (strAt mem p).drop k := by
  have hsplit : mem.drop p = strAt mem p ++ (mem.drop p).dropWhile (· ≠ 0) :=
    (List.takeWhile_append_dropWhile ..).symm
  have hmem : mem.drop (p + k) = (strAt mem p).drop k ++ (mem.drop p).dropWhile (· ≠ 0) := by
    rw [← List.drop_drop, hsplit, List.drop_append_of_le_length hk, ← hsplit]
  rw [strAt, hmem, cstr]
  refine takeWhile_append_eq (fun c hc => ?_) fun c t he => dropWhile_stop he
  have hne : c ≠ 0 := fun h0 => zero_notMem_cstr _ (h0 ▸ List.mem_of_mem_drop hc)
  simpa using hne

/-- A word that is not ended has no blank. -/
theorem blank_notMem {s : Bytes} (h : strcspn s (ascii " ") = s.length) : 32 ∉ s := by
  intro hm
  have hself : s.takeWhile (· ∉ ascii " ") = s :=
    (List.takeWhile_prefix _).eq_of_length h
  have := List.takeWhile_eq_self_iff.mp hself 32 hm
  exact absurd this (by decide)

/-- The request line that is kept, wherever it was read from. -/
theorem reqlineOk_parse {mem : Bytes} {p n : Nat} {req : HttpRequest}
    (h : httpRequestParse mem p = (n, some req)) : ReqlineOk req.originalReqline := by
  obtain ⟨hm, -, -, hv, -, -, hline⟩ := httpRequestParse_some h (w := methodSpan (strAt mem p))
    (q := strcspn (strAt mem (p + (methodSpan (strAt mem p) + 1))) (ascii " ")) rfl rfl
  generalize hs : strAt mem p = s at *
  have hword : s.take (methodSpan s) = req.method.word := (requestMethod_some hm).2
  rcases Nat.lt_or_eq_of_le (show methodSpan s ≤ s.length from strcspn_le _ _) with hw | hw
  · have hdrop : strAt mem (p + (methodSpan s + 1)) = behindMethod s := by
      rw [strAt_drop (by rw [hs]; exact hw), hs, behindMethod]
    have hwhole := (word_within hw).1
    change s = s.take (methodSpan s) ++ 32 :: behindMethod s at hwhole
    have hq : strcspn (strAt mem (p + (methodSpan s + 1))) (ascii " ") = pathSpan s := by
      rw [hdrop, pathSpan]
    rw [hq] at hline hv
    rcases Nat.lt_or_eq_of_le (show pathSpan s ≤ (behindMethod s).length from strcspn_le _ _) with hq | hq
    · have hpath : strAt mem (p + (methodSpan s + 1) + (pathSpan s + 1)) = behindPath s := by
        rw [strAt_drop (by rw [hdrop]; exact hq), hdrop, behindPath]
      rw [hpath] at hv
      refine ⟨req.method, (behindMethod s).take (pathSpan s), req.version, (word_within hq).2, .inr (.inr ?_)⟩
      rw [hline]
      simpa using take_requestLine hw hq hm hv 0
    · -- the string ends in the path
      have hlength := length_behindMethod hw
      refine ⟨req.method, behindMethod s, .v1_1, blank_notMem hq, .inr (.inl ?_)⟩
      rw [hline, List.take_of_length_le (by omega), ← hword]
      exact hwhole
  · refine ⟨req.method, [], .v1_1, by simp, .inl ?_⟩
    rw [hline, List.take_of_length_le (by omega), ← hword, hw, List.take_length]

theorem delimItems_free (s : Bytes) : ∀ item ∈ delimItems crlf s, ∀ c ∈ item, c ∉ crlf := by
  induction s using delimItems.induct crlf with
  | case1 s hnil =>
    rw [delimItems, if_pos hnil]
    simp
  | case2 s hi ih =>
    rw [delimItems, if_neg hi]
    refine List.forall_mem_cons.mpr ⟨fun c hc => ?_, ih⟩
    simpa using List.mem_takeWhile_imp hc

/-- The values of headers that were parsed have no line end. -/
theorem value_free {fuel len : Nat} {mem : Bytes} {headers : List Param}
    (h : paramsNewParse fuel mem len .headers = some headers) : ∀ e ∈ headers, 10 ∉ e.value := by
  rcases parse_headers_some h with ⟨-, rfl⟩ | ⟨text, -, rfl⟩
  · simp
  · intro e he
    refine (forall_appendAll (K := fun _ => True) (V := fun v => 10 ∉ v) (fun a b ha hb => ?_)
      (by simp) (fun e he => ⟨trivial, ?_⟩) e he).2
    · have hcomma : (10 : UInt8) ∉ ascii "," := by decide
      simp [ha, hb, hcomma]
    · obtain ⟨item, hitem, rfl⟩ := List.mem_map.mp he
      intro hm
      have hin : 10 ∈ item :=
        (List.dropWhile_sublist _).subset ((List.dropWhile_sublist _).subset hm)
      exact delimItems_free text item hitem 10 hin (by decide)

theorem paramsGet_mem {params : List Param} {key v : Bytes} (h : paramsGet params key = some v) :
    ∃ e ∈ params, e.value = v := by
  induction params with
  | nil => cases h
  | cons p l ih =>
    rw [paramsGet] at h
    split at h
    · exact ⟨p, List.mem_cons_self .., Option.some.inj h⟩
    · obtain ⟨e, he, hv⟩ := ih h
      exact ⟨e, List.mem_cons_of_mem _ he, hv⟩

/-- What the loop answers with. -/
theorem loop_read {fuel : Nat} {reads rest : List (Option Bytes)} {c : Connection}
    {filled : Option HttpRequest} {headers : List Param}
    (hc : ∀ req, c.request = some req → ReqlineOk req.originalReqline)
    (h : responseLoop fuel reads c = .responded filled headers rest) :
    (∀ req, filled = some req → ReqlineOk req.originalReqline) ∧ ∀ e ∈ headers, 10 ∉ e.value := by
  induction reads generalizing c with
  | nil => cases h
  | cons r reads ih =>
    have hread : (readInput c r).2.request = c.request := by cases r <;> rfl
    rw [responseLoop] at h
    split at h
    · cases h
    · split at h
      · exact ih (by rw [hread]; exact hc) h
      · split at h
        · cases h
        · rename_i c' hparse
          have hc' : ∀ req, c'.request = some req → ReqlineOk req.originalReqline := by
            have hterm : (terminate (readInput c r).2 (readInput c r).1).request = c.request := by
              rw [terminate, ← hread]
              split <;> rfl
            unfold parseRequest at hparse
            split at hparse
            · obtain rfl := Option.some.inj hparse
              rw [hterm]
              exact hc
            · split at hparse
              · obtain rfl := Option.some.inj hparse
                simp only [hterm]
                exact hc
              · rename_i n req hreq
                split at hparse
                · cases hparse
                · obtain rfl := Option.some.inj hparse
                  intro req' heq
                  obtain rfl := Option.some.inj heq
                  exact reqlineOk_parse hreq
          split at h
          · cases h
          · exact ih (c := advance c') hc' h
          · rename_i hd tl hheaders
            obtain ⟨rfl, rfl, -⟩ := Outcome.responded.inj h
            exact ⟨hc', value_free hheaders⟩

/-! ## Logs -/

/-- The headers of a reply have a type and may have a length. Mirrors what the heads of
src/statictext.c, src/flim.c, src/status.c, src/uiomux.c, src/fdstream.c, src/ogg-stdin.c and
src/shrecord.c append; `kongou_append_headers` returns nothing -/
def Resource.Plain (r : Resource) : Prop :=
  ∀ request requestHeaders responseHeaders, ∃ ctype : Bytes,
    (r.head request requestHeaders responseHeaders).2 =
        paramsAppend responseHeaders (ascii "Content-Type") ctype ∨
      ∃ len : Nat, (r.head request requestHeaders responseHeaders).2 =
        paramsAppend (paramsAppend responseHeaders (ascii "Content-Type") ctype)
          (ascii "Content-Length") (lengthText len)

/-- A connection that is answered at `now`: what was on its stack, and what it reads. `stale` is
what its `http_request` holds before it is filled in; `filled` is `none` when it never is. -/
structure Served where
  fuel : Nat
  s : Bytes
  n : Nat
  stale : HttpRequest
  reads : List (Option Bytes)
  now : Tm
  filled : Option HttpRequest
  requestHeaders : List Param
  rest : List (Option Bytes)
  answered : httpResponse fuel s n reads = .responded filled requestHeaders rest

/-- The request that is answered. -/
def Served.request (c : Served) : HttpRequest := c.filled.getD c.stale

/-- The resource that answers, if one does, appends a type and may append a length. -/
def Served.PlainReply (resources : List Resource) (c : Served) : Prop :=
  ∀ r, resources.find? (·.check c.request) = some r → r.Plain

/-- Where the request was not filled in, its line is that of one that was: an earlier one. -/
def Served.StaleOk (c : Served) : Prop := c.filled = none → ReqlineOk c.stale.originalReqline

def Served.item (c : Served) (resources : List Resource) : LogItem :=
  logItem c.request c.requestHeaders
    (replyHead resources c.request c.requestHeaders c.now).2

/-- What `respond` prints to the log. -/
def Served.log (c : Served) (resources : List Resource) : Bytes :=
  logAccess c.request c.requestHeaders (replyHead resources c.request c.requestHeaders c.now).2

/-- What the log takes from the headers of a reply. -/
structure LogHeaders (now : Tm) (headers : List Param) : Prop where
  date : paramsGet headers (ascii "Date") = some ((httpdate now).take 255)
  length : ∀ v, paramsGet headers (ascii "Content-Length") = some v → ∃ len, v = lengthText len

theorem paramsGet_append (params : List Param) (key value q : Bytes) :
    paramsGet (paramsAppend params key value) q =
      if lower q = lower key then some (((paramsGet params key).map (joinComma value)).getD value)
      else paramsGet params q := by
  rw [paramsAppend_eq_upsert, paramsGet_upsert]

section Headers
variable {now : Tm} {headers : List Param}

theorem new_logHeaders (now : Tm) : LogHeaders now (responseHeadersNew now) ∧
    paramsGet (responseHeadersNew now) (ascii "Content-Length") = none := by
  have hdate : lower (ascii "Date") ≠ lower (ascii "Server") := by decide +kernel
  have hserver : lower (ascii "Content-Length") ≠ lower (ascii "Server") := by decide +kernel
  have hlength : lower (ascii "Content-Length") ≠ lower (ascii "Date") := by decide +kernel
  have hnone : paramsGet (responseHeadersNew now) (ascii "Content-Length") = none := by
    rw [responseHeadersNew, paramsGet_append, if_neg hserver, paramsGet_append, if_neg hlength,
      paramsGet]
  refine ⟨⟨?_, fun v hv => ?_⟩, hnone⟩
  · rw [responseHeadersNew, paramsGet_append, if_neg hdate, paramsGet_append, if_pos rfl, paramsGet,
      Option.map_none, Option.getD_none]
  · rw [hnone] at hv
    cases hv

/-- A header of another name. -/
theorem LogHeaders.append (h : LogHeaders now headers) {key : Bytes} (value : Bytes)
    (hdate : lower (ascii "Date") ≠ lower key) (hlength : lower (ascii "Content-Length") ≠ lower key) :
    LogHeaders now (paramsAppend headers key value) where
  date := by rw [paramsGet_append, if_neg hdate, h.date]
  length := by
    rw [paramsGet_append, if_neg hlength]
    exact h.length

/-- The length, where there is none yet. -/
theorem LogHeaders.measured (h : LogHeaders now headers)
    (hnone : paramsGet headers (ascii "Content-Length") = none) (len : Nat) :
    LogHeaders now (paramsAppend headers (ascii "Content-Length") (lengthText len)) where
  date := by
    have hdate : lower (ascii "Date") ≠ lower (ascii "Content-Length") := by decide +kernel
    rw [paramsGet_append, if_neg hdate, h.date]
  length := by
    rw [paramsGet_append, if_pos rfl, hnone, Option.map_none, Option.getD_none]
    intro v hv
    exact ⟨len, (Option.some.inj hv).symm⟩

theorem type_logHeaders (now : Tm) (ctype : Bytes) :
    LogHeaders now (paramsAppend (responseHeadersNew now) (ascii "Content-Type") ctype) ∧
    ∀ len, LogHeaders now (paramsAppend (paramsAppend (responseHeadersNew now)
      (ascii "Content-Type") ctype) (ascii "Content-Length") (lengthText len)) := by
  have hdate : lower (ascii "Date") ≠ lower (ascii "Content-Type") := by decide +kernel
  have hlength : lower (ascii "Content-Length") ≠ lower (ascii "Content-Type") := by decide +kernel
  obtain ⟨hnew, hnone⟩ := new_logHeaders now
  have htype := hnew.append ctype hdate hlength
  refine ⟨htype, fun len => htype.measured ?_ len⟩
  rw [paramsGet_append, if_neg hlength, hnone]

/-- The headers of every reply. -/
theorem reply_logHeaders {resources : List Resource} {request : HttpRequest}
    (hplain : ∀ r, resources.find? (·.check request) = some r → r.Plain)
    (requestHeaders : List Param) (now : Tm) :
    LogHeaders now (replyHead resources request requestHeaders now).2 := by
  have hget : LogHeaders now
      (respondGetHead resources request requestHeaders (responseHeadersNew now)).2 := by
    unfold respondGetHead
    split
    · rename_i r hr
      obtain ⟨ctype, heq | ⟨len, heq⟩⟩ := hplain r hr request
        requestHeaders (responseHeadersNew now)
      · rw [heq]
        exact (type_logHeaders now ctype).1
      · rw [heq]
        exact (type_logHeaders now ctype).2 len
    · dsimp only
      rw [httpStatusAppendHeaders]
      exact (type_logHeaders now _).2 _
  have hallow : LogHeaders now (respondMethodNotAllowed (responseHeadersNew now)).2 := by
    have hdate : lower (ascii "Date") ≠ lower (ascii "Allow") := by decide +kernel
    have hlength : lower (ascii "Content-Length") ≠ lower (ascii "Allow") := by decide +kernel
    rw [respondMethodNotAllowed]
    exact ((new_logHeaders now).1.append _ hdate hlength).append _ hdate hlength
  unfold replyHead
  split
  · exact hget
  · exact hget
  · exact hallow

end Headers

/-- A length in decimal. -/
theorem lengthText_char (len : Nat) : ∀ c ∈ lengthText len, isDigit c = true ∨ c = 45 := by
  intro c hc
  rw [lengthText_eq, decimal] at hc
  split at hc
  · rcases List.mem_cons.mp hc with rfl | hc
    · exact .inr rfl
    · exact .inl (natText_digit _ c hc)
  · exact .inl (natText_digit _ c hc)

section Served
variable {resources : List Resource} {c : Served}

theorem Served.request_ok (hstale : c.StaleOk) : ReqlineOk c.request.originalReqline := by
  have hline := (loop_read (by simp) c.answered).1
  unfold Served.request
  cases hfilled : c.filled with
  | none => exact hstale hfilled
  | some request => exact hline request hfilled

theorem Served.item_ok (hplain : c.PlainReply resources) (hnow : c.now.Ok) (hstale : c.StaleOk) :
    (c.item resources).Ok := by
  have hheaders := reply_logHeaders hplain c.requestHeaders c.now
  have hvalues := (loop_read (by simp) c.answered).2
  refine ⟨⟨c.now, hnow, ?_⟩, Served.request_ok hstale, ?_, ?_⟩
  · rw [Served.item, logItem]
    dsimp only
    rw [hheaders.date, Option.getD_some]
    exact date_short hnow
  · rw [Served.item, logItem]
    dsimp only
    cases hlen : paramsGet (replyHead resources c.request c.requestHeaders c.now).2
        (ascii "Content-Length") with
    | none => simp
    | some v =>
      obtain ⟨len, hv⟩ := hheaders.length v hlen
      rw [Option.getD_some, hv]
      exact lengthText_char len
  · rw [Served.item, logItem]
    dsimp only
    cases hagent : paramsGet c.requestHeaders (ascii "User-Agent") with
    | none => simp
    | some v =>
      obtain ⟨e, he, rfl⟩ := paramsGet_mem hagent
      rw [Option.getD_some]
      exact hvalues e he

end Served

/-- The lines of a log are those of its entries. -/
theorem textLines_log (resources : List Resource) (served : List Served) :
    textLines (served.flatMap (·.log resources)) =
      served.flatMap (fun c => textLines (c.log resources)) := by
  induction served with
  | nil => rfl
  | cons c served ih =>
    have hprint : c.log resources = (c.item resources).text ++ [10] := rfl
    rw [List.flatMap_cons, List.flatMap_cons, ← ih, hprint, List.append_assoc, List.singleton_append,
      textLines_append, textLines_ended]

open Classical in
/-- **The access log.** Whatever the clients send, the lines of the log that read as entries are
those of the answered requests that have no newline in the path, in their order. A client that is
answered without a request line is in the log with the one that its stack holds. -/
theorem log_entries {resources : List Resource} {served : List Served}
    (hplain : ∀ c ∈ served, c.PlainReply resources) (hnow : ∀ c ∈ served, c.now.Ok)
    (hstale : ∀ c ∈ served, c.StaleOk) :
    (textLines (served.flatMap (·.log resources))).filter (IsEntry ·) =
      (served.filter (10 ∉ ·.request.originalReqline)).map (fun c => (c.item resources).text) := by
  rw [textLines_log]
  induction served with
  | nil => rfl
  | cons c served ih =>
    obtain ⟨hreply, hplain⟩ := List.forall_mem_cons.mp hplain
    obtain ⟨hc, hnow⟩ := List.forall_mem_cons.mp hnow
    obtain ⟨hline, hstale⟩ := List.forall_mem_cons.mp hstale
    have hok := Served.item_ok hreply hc hline
    rw [List.flatMap_cons, List.filter_append, ih hplain hnow hstale]
    have hprint : c.log resources = (c.item resources).print := rfl
    by_cases hlf : 10 ∈ c.request.originalReqline
    · have hnone : (textLines (c.log resources)).filter (IsEntry ·) = [] := by
        rw [List.filter_eq_nil_iff, hprint]
        intro l hl
        simpa using entry_broken hok hlf l hl
      rw [hnone, List.nil_append, List.filter_cons_of_neg (by simpa using hlf)]
    · have hentry : IsEntry (c.item resources).text := ⟨_, hok, hlf, rfl⟩
      rw [hprint, entry_whole hok hlf, List.filter_cons_of_pos (by simpa using hentry), List.filter_nil,
        List.filter_cons_of_pos (by simpa using hlf)]
      rfl

theorem statictext_plain (path text ctype : Bytes) : (statictextResource path text ctype).Plain :=
  fun _ _ _ => ⟨ctype, .inr ⟨text.length, rfl⟩⟩

/-- Noon on the first of October 2009. -/
def noon : Tm where
  wday := ⟨4, by decide⟩
  mday := 1
  mon := ⟨9, by decide⟩
  year := 2009
  hour := 12
  min := 0
  sec := 0

/-- A request without a path, as the stack of the first thread may hold it. -/
def emptyRequest : HttpRequest := ⟨ascii "GET", .get, .v1_1, []⟩

/-- A request with a newline in its path. -/
def brokenServed : Served where
  fuel := 4
  s := List.replicate 8192 0
  n := 0
  stale := emptyRequest
  reads := [some (ascii "GET /\n[x HTTP/1.1\r\nHost: a\r\n\r\n")]
  now := noon
  filled := some ⟨ascii "GET /\n[x HTTP/1.1", .get, .v1_1, ascii "/\n[x"⟩
  requestHeaders := [⟨ascii "Host", ascii "a"⟩]
  rest := []
  answered := by decide +kernel

def wholeServed : Served where
  fuel := 4
  s := List.replicate 8192 0
  n := 0
  stale := emptyRequest
  reads := [some (ascii "GET / HTTP/1.1\r\nHost: a\r\n\r\n")]
  now := noon
  filled := some ⟨ascii "GET / HTTP/1.1", .get, .v1_1, ascii "/"⟩
  requestHeaders := [⟨ascii "Host", ascii "a"⟩]
  rest := []
  answered := by decide +kernel

/-- Without headers the line is taken for one, and the request of the thread before is answered. -/
def unfilledServed : Served where
  fuel := 4
  s := List.replicate 8192 0
  n := 0
  stale := wholeServed.request
  reads := [some (ascii "GET / HTTP/1.1\r\n\r\n")]
  now := noon
  filled := none
  requestHeaders := [⟨ascii "GET", ascii "/ HTTP/1.1"⟩]
  rest := []
  answered := by decide +kernel

open Classical in
theorem log_entries_broken :
    (textLines ([brokenServed, wholeServed, unfilledServed].flatMap
        (·.log [statictextResource (ascii "/") [] (ascii "text/plain")]))).filter (IsEntry ·) =
      ([brokenServed, wholeServed, unfilledServed].filter (10 ∉ ·.request.originalReqline)).map
        (fun c => (c.item [statictextResource (ascii "/") [] (ascii "text/plain")]).text) := by
  have hline : ReqlineOk unfilledServed.stale.originalReqline :=
    ⟨.get, ascii "/", .v1_1, by decide, .inr (.inr rfl)⟩
  refine log_entries ?_ ?_ ?_
  · intro c _ r hr
    rw [List.mem_singleton.mp (List.mem_of_find?_eq_some hr)]
    exact statictext_plain _ _ _
  · have hnoon : noon.Ok := ⟨by decide, by decide, by decide, by decide, by decide⟩
    simp only [List.forall_mem_cons]
    exact ⟨hnoon, hnoon, hnoon, by simp⟩
  · simp only [List.forall_mem_cons]
    exact ⟨nofun, nofun, fun _ => hline, by simp⟩

end Sighttpd.L4
