import Sighttpd.L1Data.StaleHeaders
import Sighttpd.L4Http.OneRead

/-!
# A request in several reads

Behind a read that did not end the request, `http_response` goes on with its array half
rewritten: the request line is looked for at the front of every read, what stands behind
it is moved to the front of the array from a wrong place, and the next read is put
where the text ended before the move.

* `unfilled_answered`: in a run that is answered, some read starts with the request line,
  and the array then holds the request's headers.
* `splitReads_iff`: a request is answered only when it has headers and comes in one read.
-/
namespace Sighttpd.L4
open Sighttpd.CString Sighttpd.L1

/-! ## Rounds -/

/-- The second half of a round, with the request line parsed. -/
def headerRound (fuel : Nat) (reads : List (Option Bytes)) (c : Connection) : Outcome :=
  match paramsNewParse fuel c.s (strAt c.s 0).length .headers with
  | none => .looping
  | some [] => responseLoop fuel reads (advance c)
  | some (h :: headers) => .responded c.request (h :: headers) reads

section Round
variable {c : Connection} {a p t post : Bytes} {fuel : Nat} {reads : List (Option Bytes)} {r : Request}

/-- A read of some bytes, with room left for the NUL behind them. -/
theorem responseLoop_read (fuel : Nat) (reads : List (Option Bytes)) (h : Reading c a)
    (hlen : (a ++ p).length < bufSize) (hp : p ≠ []) :
    ∃ post, (a ++ p ++ 0 :: post).length = c.s.length ∧
      responseLoop fuel (some p :: reads) c =
        match parseRequest { c with s := a ++ p ++ 0 :: post } p.length with
        | none => .crashed
        | some c => headerRound fuel reads c := by
  obtain ⟨hread, post, hafter, hsize⟩ := h.afterRead hlen
  refine ⟨post, hsize, ?_⟩
  rw [responseLoop, hread, if_neg (by simpa using hp), if_neg h.n, hafter]
  rfl

/-- The next read goes behind the text. -/
theorem advance_reading (hs : c.s = a ++ p ++ 0 :: post) (h0 : 0 ∉ a ++ p) (hcur : c.cur = a.length)
    (hrem : c.rem = bufSize - a.length) (hlen : (a ++ p).length < bufSize)
    (hsize : bufSize ≤ c.s.length) :
    Reading (advance c) (a ++ p) := by
  have hstr : strAt c.s c.cur = p := by
    rw [hcur]
    refine HoldsStr.strAt_eq ⟨fun hm => h0 (List.mem_append_right _ hm), post, ?_⟩
    rw [hs, List.append_assoc, List.drop_left]
  rw [List.length_append] at hlen
  have hmod : bufSize < sizeMod := by decide
  refine ⟨⟨0 :: post, hs⟩, hsize, ?_, ?_, ?_⟩
  · simp only [advance, hstr]
    rw [hcur, List.length_append]
  · simp only [advance, hstr, hrem, List.length_append]
    have hwrap : bufSize - a.length + sizeMod - p.length =
        bufSize - (a.length + p.length) + sizeMod := by omega
    rw [hwrap, Nat.add_mod_right, Nat.mod_eq_of_lt (by omega)]
  · simp only [advance, hstr]
    have : bufSize ≤ sizeMod - 1 := by decide
    omega

theorem not_answered_closed : ¬ Answered r .closed := by
  intro hall
  obtain ⟨_, _, h, -⟩ := hall
  exact absurd h (by simp)

theorem not_answered_crashed : ¬ Answered r .crashed := by
  intro hall
  obtain ⟨_, _, h, -⟩ := hall
  exact absurd h (by simp)

/-- What the array may hold when `respond` is called behind the last read. -/
theorem headerRound_answered (hs : c.s = t ++ 0 :: post) (h0 : 0 ∉ t)
    (h : Answered r (headerRound fuel reads c)) :
    (reads = [] ∧ (∃ req, c.request = some req ∧ req.method = r.method ∧ req.path = r.path ∧
        req.version = r.version) ∧ ¬ Differs t r.headers) ∨
      ((∀ text, canonLoop t [] = (text, true) → headerItems text = []) ∧
        Answered r (responseLoop fuel reads (advance c))) := by
  have hcstr : cstr c.s = t := by rw [hs, cstr_append_nul h0]
  rw [headerRound] at h
  cases hparse : paramsNewParse fuel c.s (strAt c.s 0).length .headers with
  | none =>
    rw [hparse] at h
    obtain ⟨_, _, h, -⟩ := h
    exact absurd h (by simp)
  | some l =>
    have hsome := parse_headers_some hparse
    rw [hparse] at h
    rw [hcstr] at hsome
    cases l with
    | nil =>
      refine .inr ⟨fun text htext => ?_, h⟩
      rcases hsome with ⟨hflag, -⟩ | ⟨text', htext', hnil⟩
      · rw [htext] at hflag
        exact absurd hflag (by simp)
      · obtain rfl : text' = text := by
          rw [htext'] at htext
          simpa using htext
        by_contra hne
        exact appendAll_ne_nil hne hnil.symm
    | cons e es =>
      obtain ⟨req, headers, hout, hmethod, hpath, hversion, hsame⟩ := h
      obtain ⟨hreq, hheaders, hreads⟩ : c.request = some req ∧ e :: es = headers ∧ reads = [] := by
        simpa using hout
      refine .inl ⟨hreads, ⟨req, hreq, hmethod, hpath, hversion⟩, ?_⟩
      intro hall
      obtain ⟨text, htext, k, hk⟩ := hall
      rcases hsome with ⟨-, hnil⟩ | ⟨text', htext', hl⟩
      · exact absurd hnil (by simp)
      · obtain rfl : text' = text := by
          rw [htext'] at htext
          simpa using htext
        refine different_of_weight hk fun q => ?_
        rw [← hl, hheaders]
        exact hsame q

/-! ## Runs -/

/-- The array holds the text `a`, which has no NUL, with room for the text `b` to come. -/
structure Room (c : Connection) (a b : Bytes) : Prop where
  reading : Reading c a
  free : 0 ∉ a ++ b
  size : (a ++ b).length < bufSize

theorem Room.piece {ps : List Bytes} (h : Room c a (p :: ps).flatten) :
    0 ∉ a ++ p ∧ (a ++ p).length < bufSize ∧
      0 ∉ a ++ p ++ ps.flatten ∧ (a ++ p ++ ps.flatten).length < bufSize := by
  obtain ⟨-, h0, hsize⟩ := h
  rw [List.flatten_cons, ← List.append_assoc] at h0 hsize
  refine ⟨fun hm => h0 (List.mem_append_left _ hm), ?_, h0, hsize⟩
  rw [List.length_append] at hsize
  omega

/-- With the request filled in, the reads go behind one another. -/
theorem filled_answered (pieces : List Bytes) : ∀ (c : Connection) (a : Bytes),
    Room c a pieces.flatten → c.init = true → (∀ p ∈ pieces, p ≠ []) →
    Answered r (responseLoop fuel (pieces.map some) c) →
      (∃ req, c.request = some req ∧ req.method = r.method ∧ req.path = r.path ∧
          req.version = r.version) ∧
        ¬ Differs (a ++ pieces.flatten) r.headers := by
  induction pieces with
  | nil => exact fun c a _ _ _ h => absurd h not_answered_closed
  | cons p ps ih =>
    intro c a hroom hinit hne h
    obtain ⟨h0', hlen, h0, hsize⟩ := hroom.piece
    obtain ⟨hp, hps⟩ := List.forall_mem_cons.mp hne
    have hread := hroom.reading
    rw [List.flatten_cons, ← List.append_assoc]
    obtain ⟨post, hpost, hloop⟩ := responseLoop_read fuel (ps.map some) hread hlen hp
    rw [List.map_cons, hloop, parseRequest_init (c := { c with s := a ++ p ++ 0 :: post }) hinit] at h
    rcases headerRound_answered rfl h0' h with ⟨hnil, hreq, hdiff⟩ | ⟨-, hnext⟩
    · obtain rfl : ps = [] := by simpa using hnil
      exact ⟨hreq, by simpa using hdiff⟩
    · have hadv := advance_reading (c := { c with s := a ++ p ++ 0 :: post }) rfl h0' hread.cur hread.rem
        hlen (hpost ▸ hread.size)
      exact ih (advance { c with s := a ++ p ++ 0 :: post }) _ ⟨hadv, h0, hsize⟩ hinit hps hnext

/-- The round that moves the headers to the front, and the run behind it. -/
theorem moved_answered {req : HttpRequest} {n : Nat} {ps : List Bytes} (hread : Reading c a)
    (h0 : 0 ∉ a ++ p ++ ps.flatten) (hsize : (a ++ p ++ ps.flatten).length < bufSize)
    (hpost : bufSize ≤ (a ++ p ++ 0 :: post).length) (hn : n ≤ p.length) (hne : ∀ p ∈ ps, p ≠ [])
    (h : Answered r (headerRound fuel (ps.map some) { c with
      n, s := stripped (a ++ p) n p.length ++ 0 :: post, init := true, request := some req })) :
    (req.method = r.method ∧ req.path = r.path ∧ req.version = r.version) ∧
      ¬ Differs (stripped (a ++ p) n p.length ++ ps.flatten) r.headers ∧
      (ps.flatten ≠ [] → ∀ text,
        canonLoop (stripped (a ++ p) n p.length) [] = (text, true) → headerItems text = []) := by
  have hle : p.length ≤ (a ++ p).length := by simp
  have hslen := length_stripped hn hle
  generalize hb : stripped (a ++ p) n p.length = b at *
  have hmem : ∀ x ∈ b, x ∈ a ++ p := by
    intro x hx
    rw [← hb, stripped, List.mem_append] at hx
    exact hx.elim (fun hx => List.mem_of_mem_drop (List.mem_of_mem_take hx)) List.mem_of_mem_drop
  have hb0 : 0 ∉ b := fun hm => h0 (List.mem_append_left _ (hmem 0 hm))
  rcases headerRound_answered rfl hb0 h with ⟨hnil, ⟨req', hreq, hmatch⟩, hdiff⟩ | ⟨hearly, hnext⟩
  · obtain rfl : ps = [] := by simpa using hnil
    obtain rfl := Option.some.inj hreq
    exact ⟨hmatch, by simpa using hdiff, fun hne => absurd rfl hne⟩
  · have hsplit : b = b.take a.length ++ b.drop a.length := (List.take_append_drop ..).symm
    have hcur : (b.take a.length).length = a.length :=
      List.length_take_of_le (by rw [hslen, List.length_append]; omega)
    rw [List.length_append, ← hslen] at hsize
    have hadv := advance_reading (c := { c with
        n, s := b ++ 0 :: post, init := true, request := some req })
      (a := b.take a.length) (p := b.drop a.length) (by rw [← hsplit]) (by rwa [← hsplit])
      (by rw [hcur]; exact hread.cur) (by rw [hcur]; exact hread.rem) (by rw [← hsplit]; omega)
      (by simp only [List.length_append] at hpost hslen ⊢; omega)
    rw [← hsplit] at hadv
    have hroom : Room _ b ps.flatten := ⟨hadv, fun hm => h0 ?_, by rw [List.length_append]; exact hsize⟩
    · obtain ⟨⟨req', hreq, hmatch⟩, hdiff⟩ := filled_answered ps _ b hroom rfl hne hnext
      obtain rfl := Option.some.inj hreq
      exact ⟨hmatch, hdiff, fun _ => hearly⟩
    · exact List.mem_append.mpr ((List.mem_append.mp hm).imp (hmem 0) id)

/-- The read `p`, behind the text `a` and in front of `q`, starts with the request line; what
the array holds then is read as the headers, and not in front of the last read. -/
structure LineRead (r : Request) (a p q sep rest : Bytes) : Prop where
  piece : p = r.line ++ (sep ++ rest)
  sep_crlf : ∀ c ∈ sep, c ∈ crlf
  sep_length : sep.length ≤ 2
  sep_nil : sep = [] → rest = []
  rest_head : ∀ c t, rest = c :: t → c ∉ crlf
  headers : ¬ Differs (stripped (a ++ p) (r.line.length + sep.length) p.length ++ q) r.headers
  early : q ≠ [] → ∀ text,
    canonLoop (stripped (a ++ p) (r.line.length + sep.length) p.length) [] = (text, true) →
      headerItems text = []

theorem unfilled_answered (pieces : List Bytes) : ∀ (c : Connection) (a : Bytes),
    Room c a pieces.flatten → c.init = false → c.request = none → (∀ p ∈ pieces, p ≠ []) →
    Answered r (responseLoop fuel (pieces.map some) c) →
      ∃ ps p ps' sep rest, pieces = ps ++ p :: ps' ∧
        LineRead r (a ++ ps.flatten) p ps'.flatten sep rest := by
  induction pieces with
  | nil => exact fun c a _ _ _ _ h => absurd h not_answered_closed
  | cons p ps ih =>
    intro c a hroom hinit hreq hne h
    obtain ⟨h0', hlen, h0, hsize⟩ := hroom.piece
    obtain ⟨hp, hps⟩ := List.forall_mem_cons.mp hne
    have hread := hroom.reading
    obtain ⟨post, hpost, hloop⟩ := responseLoop_read fuel (ps.map some) hread hlen hp
    rw [List.map_cons, hloop] at h
    have hholds : HoldsStr (a ++ p ++ 0 :: post) c.cur p := by
      refine ⟨fun hm => h0' (List.mem_append_right _ hm), post, ?_⟩
      rw [hread.cur, List.append_assoc, List.drop_left]
    cases hparse : httpRequestParse (a ++ p ++ 0 :: post) c.cur with
    | mk n req =>
      cases req with
      | none =>
        rw [parseRequest_none (c := { c with s := a ++ p ++ 0 :: post }) hinit _ hparse] at h
        rcases headerRound_answered rfl h0' h with ⟨-, ⟨req, hsome, -⟩, -⟩ | ⟨-, hnext⟩
        · rw [show _ = some req from hsome] at hreq
          exact absurd hreq (by simp)
        · have hadv := advance_reading (c := { c with s := a ++ p ++ 0 :: post, n := n }) rfl h0'
            hread.cur hread.rem hlen (hpost ▸ hread.size)
          obtain ⟨ps1, p', ps', sep, rest, rfl, hline⟩ :=
            ih (advance { c with s := a ++ p ++ 0 :: post, n := n }) _ ⟨hadv, h0, hsize⟩ hinit hreq
              hps hnext
          exact ⟨p :: ps1, p', ps', sep, rest, rfl, by simpa using hline⟩
      | some req =>
        by_cases hn : n ≤ p.length
        · obtain ⟨-, -, sep, rest, hpiece, hcrlf, hsep, hnil, hhead, rfl⟩ :=
            httpRequestParse_within hholds hparse hn
          have hle : p.length ≤ (a ++ p).length := by simp
          rw [parseRequest_within (c := { c with s := a ++ p ++ 0 :: post }) hinit rfl hparse hn
            hle] at h
          -- what the round and the rest of the run say about the request and the headers
          obtain ⟨⟨hmethod, hpath, hversion⟩, hdiff, hearly⟩ := moved_answered hread h0 hsize
            (by rw [hpost]; exact hread.size) hn hps h
          have hline : requestLine req.method req.path req.version = r.line := by
            rw [hmethod, hpath, hversion, Request.line]
          rw [hline] at hpiece hdiff hearly
          exact ⟨[], p, ps, sep, rest, rfl, by simpa using hpiece, hcrlf, hsep, hnil, hhead,
            by simpa using hdiff, by simpa using hearly⟩
        · rw [parseRequest_beyond (c := { c with s := a ++ p ++ 0 :: post }) hinit hparse
            (Nat.lt_of_not_le hn)] at h
          exact absurd h not_answered_crashed

end Round

/-! ## Where the request line is found -/

/-- In lines that end in CRLF, the line ends between other text are CRLFs. -/
theorem linesText_run {ws : List Bytes} (hws : ∀ w ∈ ws, ∀ c ∈ w, c ∉ crlf) {x y z : Bytes}
    (heq : linesText ws = x ++ (y ++ z)) (hx : ∀ c, x.getLast? = some c → c ∉ crlf)
    (hy : ∀ c ∈ y, c ∈ crlf) (hz : ∀ c t, z = c :: t → c ∉ crlf) (hyne : y ≠ []) : crlf <+: y := by
  obtain ⟨b, y, rfl⟩ := List.exists_cons_of_ne_nil hyne
  have hhere : ∀ {t : Bytes}, crlf ++ t = b :: y ++ z → crlf <+: b :: y := by
    intro t h
    cases y with
    | nil =>
      obtain ⟨-, hz'⟩ : 13 = b ∧ 10 :: t = z := by simpa [crlf, ascii] using h
      exact absurd (by decide) (hz 10 t hz'.symm)
    | cons b' y =>
      obtain ⟨rfl, rfl, -⟩ : 13 = b ∧ 10 = b' ∧ t = y ++ z := by simpa [crlf, ascii] using h
      exact ⟨y, rfl⟩
  induction ws generalizing x with
  | nil => exact absurd heq (by simp)
  | cons w ws ih =>
    obtain ⟨hw, hws'⟩ := List.forall_mem_cons.mp hws
    rw [linesText_cons] at heq
    rcases List.append_eq_append_iff.mp heq with ⟨k, rfl, hk⟩ | ⟨k, rfl, hk⟩
    · rcases k with _ | ⟨c, _ | ⟨d, k⟩⟩
      · exact hhere hk
      · obtain ⟨rfl, -⟩ : 13 = c ∧ _ := by simpa [crlf, ascii] using hk
        exact absurd (by decide) (hx 13 (by simp))
      · obtain ⟨-, -, hk⟩ : 13 = c ∧ 10 = d ∧ linesText ws = k ++ (b :: y ++ z) := by
          simpa [crlf, ascii] using hk
        refine ih hws' (fun c' hc' => hx c' ?_) hk
        obtain ⟨k, rfl⟩ := List.getLast?_eq_some_iff.mp hc'
        exact List.getLast?_eq_some_iff.mpr ⟨w ++ c :: d :: k, by simp⟩
    · cases k with
      | nil => exact hhere hk.symm
      | cons c k =>
        obtain ⟨rfl, -⟩ : b = c ∧ _ := by simpa using hk
        exact absurd (hy b (List.mem_cons_self ..)) (hw b (by simp))

/-- No method has its first letter again among the next three. -/
theorem requestLine_once {m : HttpMethod} (hm : m ≠ .extension) {path a x y : Bytes} {v : HttpVersion}
    (h : a ++ (requestLine m path v ++ x) = requestLine m path v ++ y) (ha : a.length ≤ 3) : a = [] := by
  rcases a with _ | ⟨b, _ | ⟨c, _ | ⟨d, _ | ⟨e, a⟩⟩⟩⟩
  · rfl
  · cases m <;> simp_all [requestLine, HttpMethod.word, ascii]
  · cases m <;> simp_all [requestLine, HttpMethod.word, ascii]
  · cases m <;> simp_all [requestLine, HttpMethod.word, ascii]
  · simp only [List.length_cons] at ha
    omega

section Split
variable {r : Request} {a p q sep rest : Bytes}

theorem print_eq (r : Request) : r.print = r.line ++ (crlf ++ r.block) := List.append_assoc ..

theorem line_head (h : r.Ok) {c : UInt8} {t : Bytes} (he : r.line = c :: t) : c ∉ lws := by
  have hword : ∀ m : HttpMethod, m ≠ .extension → ∀ s, m.word ++ s = c :: t → c ∉ lws := by
    intro m hm s hs
    cases m with
    | extension => exact absurd rfl hm
    | _ => exact (List.cons.inj hs).1 ▸ by decide
  exact hword r.method h.method _ he

theorem length_line (h : r.Ok) : 11 ≤ r.line.length := by
  have := List.length_pos_iff.mpr h.path
  rw [Request.line, length_requestLine]
  omega

theorem length_block (hne : r.headers ≠ []) : 4 ≤ r.block.length := by
  obtain ⟨e, es, hes⟩ := List.exists_cons_of_ne_nil hne
  rw [Request.block, hes, entryText_headers, headerLines_cons, linesText_cons]
  simp only [List.length_append, show crlf.length = 2 from rfl]
  omega

/-- The line end behind the request line is whole, if there is anything behind it. -/
theorem LineRead.sep_eq (h : r.Ok) (hl : LineRead r a p q sep rest) (hr : r.print = a ++ p ++ q)
    (hrest : rest ≠ []) : sep = crlf := by
  have hfree : ∀ c ∈ r.line, c ∉ crlf := fun c hc hm => h.line_free c hc (List.mem_append_left _ hm)
  have hlines : linesText (r.line :: (headerLines r.headers ++ [[]])) =
      a ++ r.line ++ (sep ++ (rest ++ q)) := by
    have hprint : linesText (r.line :: (headerLines r.headers ++ [[]])) = r.print := by
      rw [print_eq, Request.block, entryText_headers]
      simp
    rw [hprint, hr, hl.piece]
    simp
  have hws : ∀ w ∈ r.line :: (headerLines r.headers ++ [[]]), ∀ c ∈ w, c ∉ crlf := by
    refine List.forall_mem_cons.mpr ⟨hfree, List.forall_mem_append.mpr ⟨fun w hw => ?_, by simp⟩⟩
    exact (isLine_headerLines h.headers w hw).2
  have hlast : ∀ c, (a ++ r.line).getLast? = some c → c ∉ crlf := by
    intro c hc
    rw [List.getLast?_append] at hc
    cases hlast : r.line.getLast? with
    | none =>
      have := length_line h
      rw [List.getLast?_eq_none_iff.mp hlast] at this
      exact absurd this (by simp)
    | some d =>
      rw [hlast] at hc
      exact hfree c (List.mem_of_getLast? (by simpa using hlast.trans hc))
  have hhead : ∀ c t, rest ++ q = c :: t → c ∉ crlf := by
    obtain ⟨d, rest, rfl⟩ := List.exists_cons_of_ne_nil hrest
    exact fun c t heq => (List.cons.inj heq).1 ▸ hl.rest_head d rest rfl
  obtain ⟨k, hk⟩ := linesText_run hws hlines hlast hl.sep_crlf hhead fun hnil => hrest (hl.sep_nil hnil)
  have hlen := hl.sep_length
  rw [← hk, List.length_append, show crlf.length = 2 from rfl] at hlen
  rw [← hk, List.length_eq_zero_iff.mp (by omega : k.length = 0), List.append_nil]

/-- The text at the end is that of a block that was cut. -/
theorem LineRead.text (h : r.Ok) (hne : r.headers ≠ []) (hl : LineRead r a p q sep rest)
    (hr : r.print = a ++ p ++ q) (hsplit : a ≠ [] ∨ q ≠ []) :
    rest.length < r.block.length ∧ stripped (a ++ p) (r.line.length + sep.length) p.length ++ q =
      shown r.line r.block rest.length ++ r.block.drop rest.length := by
  have hblock := length_block hne
  have hplen : p.length = r.line.length + sep.length + rest.length := by
    rw [hl.piece]
    simp only [List.length_append]
    omega
  have hmoved : p.length - (r.line.length + sep.length) = rest.length := by omega
  by_cases hrest : rest = []
  · -- nothing is moved
    subst hrest
    refine ⟨by simpa using by omega, ?_⟩
    rw [stripped, hmoved]
    simp [shown, ← hr, print_eq]
  · obtain rfl := hl.sep_eq h hr hrest
    have hlen := congrArg List.length hr
    have hsize : 0 < a.length + q.length := by
      rcases hsplit with hnil | hnil <;> have := List.length_pos_iff.mpr hnil <;> omega
    rw [print_eq] at hlen
    simp only [List.length_append] at hlen
    have hdrop : r.block = (a ++ p).drop (r.line.length + crlf.length) ++ q := by
      rw [← List.drop_append_of_le_length (by simp only [List.length_append]; omega), ← hr, print_eq,
        ← List.append_assoc, ← List.length_append, List.drop_left]
    refine ⟨by omega, ?_⟩
    rw [shown_append (by omega), stripped, hmoved, List.append_assoc,
      ← List.drop_append_of_le_length (by simp only [List.length_append]; omega), ← hr, ← print_eq]
    congr 1
    conv_rhs => rw [hdrop]
    rw [List.take_append_of_le_length]
    simp only [List.length_drop, List.length_append]
    omega

/-- **Split reads.** A request is answered only when it comes in one read. -/
theorem LineRead.not_split (h : r.Ok) (hne : r.headers ≠ []) (hl : LineRead r a p q sep rest)
    (hr : r.print = a ++ p ++ q) : a = [] ∧ q = [] := by
  by_contra hsplit
  obtain ⟨hd, htext⟩ := hl.text h hne hr (by tauto)
  have hfree : ∀ c ∈ r.line, c ∉ crlf := fun c hc hm => h.line_free c hc (List.mem_append_left _ hm)
  have hlen := length_line h
  rcases shown_differs hfree (fun c t => line_head h) (by omega) hne h.headers hd
    with ⟨hend, hall⟩ | hdiff
  · -- all headers are read in front of the last read
    rw [← Request.block] at hend hall
    have hblock := length_block hne
    have hrest : rest ≠ [] := by
      intro heq
      subst heq
      simp only [List.length_nil] at hend
      omega
    obtain rfl := hl.sep_eq h hr hrest
    have hprint : a ++ (r.line ++ (crlf ++ (rest ++ q))) = r.line ++ (crlf ++ r.block) := by
      rw [← print_eq, hr, hl.piece]
      simp
    have hsize := congrArg List.length hprint
    simp only [List.length_append] at hsize
    obtain rfl : a = [] := requestLine_once h.method hprint (by omega)
    have hq : q ≠ [] := fun hnil => hsplit ⟨rfl, hnil⟩
    have hshown : stripped p (r.line.length + crlf.length) p.length =
        shown r.line r.block rest.length := by
      refine (List.append_inj' htext ?_).1
      simp only [List.length_nil] at hsize
      rw [List.length_drop]
      omega
    have hearly := hl.early hq (crlf.intercalate (headerLines r.headers)) (by
      rw [List.nil_append, hshown]
      simpa using hall [])
    rw [headerItems_intercalate (isLine_headerLines h.headers),
      lineItems_headerLines h.headers] at hearly
    exact hne hearly
  · rw [← Request.block, ← htext] at hdiff
    exact hl.headers hdiff

end Split

/-! ## Requests and cuttings -/

section Main
variable {r : Request} {fuel n : Nat} {s : Bytes} {pieces : List Bytes}

/-- With -1 in `n` nothing is looked at. -/
theorem stuck_closed (reads : List (Option Bytes)) : ∀ c : Connection, c.n = sizeMod - 1 →
    responseLoop fuel reads c = .closed := by
  induction reads with
  | nil => exact fun c _ => rfl
  | cons x reads ih =>
    intro c hn
    have hn' : (readInput c x).2.n = sizeMod - 1 := by
      cases x <;> exact hn
    rw [responseLoop]
    split
    · rfl
    · exact ih _ hn'

/-- `respond` is not called without headers. -/
theorem responded_headers (reads : List (Option Bytes)) : ∀ (c : Connection) (req : Option HttpRequest)
    (headers : List Param) (rest : List (Option Bytes)),
    responseLoop fuel reads c = .responded req headers rest → headers ≠ [] := by
  induction reads with
  | nil => exact fun c _ _ _ h => absurd h (by simp [responseLoop])
  | cons x reads ih =>
    intro c req headers rest h
    rw [responseLoop] at h
    split at h
    · exact absurd h (by simp)
    · split at h
      · exact ih _ _ _ _ h
      · split at h
        · exact absurd h (by simp)
        · split at h
          · exact absurd h (by simp)
          · exact ih _ _ _ _ h
          · obtain ⟨-, rfl, -⟩ := by simpa using h
            exact List.cons_ne_nil _ _

theorem answered_headers (h : Answered r (httpResponse fuel s n (pieces.map some))) :
    r.headers ≠ [] := by
  intro hnil
  obtain ⟨req, headers, hout, -, -, -, hsame⟩ := h
  refine responded_headers _ _ _ _ _ hout (List.eq_nil_iff_forall_not_mem.mpr fun p hp => ?_)
  rw [hsame, hnil] at hp
  exact absurd hp (by simp [appendAll])

/-- A request that is answered has come in one read. -/
theorem answered_oneRead (h : r.Ok) (hs : bufSize ≤ s.length) (hne : ∀ p ∈ pieces, p ≠ [])
    (hflat : pieces.flatten = r.print) (hans : Answered r (httpResponse fuel s n (pieces.map some))) :
    n ≠ sizeMod - 1 ∧ pieces.length = 1 := by
  have hn : n ≠ sizeMod - 1 := by
    intro hn
    rw [httpResponse, stuck_closed _ _ hn] at hans
    exact not_answered_closed hans
  have hroom :
      Room { s, cur := 0, rem := bufSize, n, init := false, request := none } [] pieces.flatten :=
    ⟨⟨⟨s, rfl⟩, hs, rfl, rfl, hn⟩, by rw [hflat]; exact h.zero_notMem, by rw [hflat]; exact h.size⟩
  obtain ⟨ps, p, ps', sep, rest, rfl, hl⟩ := unfilled_answered pieces _ [] hroom rfl rfl hne hans
  have hr : r.print = ps.flatten ++ p ++ ps'.flatten := by
    rw [← hflat]
    simp
  obtain ⟨hps, hps'⟩ := hl.not_split h (answered_headers hans) hr
  have hnil : ∀ ps : List Bytes, (∀ p ∈ ps, p ≠ []) → ps.flatten = [] → ps = [] := by
    intro ps hps hflat
    exact List.eq_nil_iff_forall_not_mem.mpr fun p hp => hps p hp (List.flatten_eq_nil_iff.mp hflat p hp)
  obtain ⟨hne1, hne2⟩ := List.forall_mem_append.mp hne
  rw [hnil ps hne1 hps, hnil ps' (List.forall_mem_cons.mp hne2).2 hps']
  exact ⟨hn, rfl⟩

/-- **Cuttings.** A request is answered with what it says exactly when it has headers, comes
in one read, and the uninitialised `n` is not -1. -/
theorem splitReads_iff (h : r.Ok) (hs : bufSize ≤ s.length) (hne : ∀ p ∈ pieces, p ≠ [])
    (hflat : pieces.flatten = r.print) :
    (∃ fuel, Answered r (httpResponse fuel s n (pieces.map some))) ↔
      n ≠ sizeMod - 1 ∧ r.headers ≠ [] ∧ pieces.length = 1 := by
  constructor
  · intro hall
    obtain ⟨fuel, hans⟩ := hall
    obtain ⟨hn, hone⟩ := answered_oneRead h hs hne hflat hans
    exact ⟨hn, answered_headers hans, hone⟩
  · intro hall
    obtain ⟨hn, hheaders, hone⟩ := hall
    obtain ⟨p, rfl⟩ := List.length_eq_one_iff.mp hone
    obtain rfl : p = r.print := by simpa using hflat
    exact oneRead_answered h hheaders hs hn

end Main

/-- A request with one header. -/
def plainGet : Request := ⟨.get, ascii "/", .v1_1, [⟨ascii "A", ascii "b"⟩]⟩

theorem plainGet_ok : plainGet.Ok := by
  refine ⟨by decide, by decide, by decide, by decide, by decide⟩

theorem splitReads_iff_plainGet :
    ∃ fuel, Answered plainGet
      (httpResponse fuel (List.replicate bufSize 0) 0 ([plainGet.print].map some)) :=
  (splitReads_iff plainGet_ok (by rw [List.length_replicate]) (by decide) (by simp)).mpr
    ⟨by decide, by decide, rfl⟩

/-- With its first byte in a read of its own, the request is not answered: `respond` gets
the request line as a header, and a request that was not filled in. -/
theorem plainGet_split :
    httpResponse 3 (List.replicate bufSize 0) 0 [some (ascii "G"), some (plainGet.print.drop 1)] =
      .responded none [⟨ascii "GET", ascii "/ HTTP/1.1"⟩, ⟨ascii "A", ascii "b"⟩] [] ∧
    ¬ ∃ fuel, Answered plainGet
      (httpResponse fuel (List.replicate bufSize 0) 0
        ([ascii "G", plainGet.print.drop 1].map some)) := by
  refine ⟨by decide +kernel, fun ⟨fuel, h⟩ => ?_⟩
  have hone := answered_oneRead plainGet_ok (by rw [List.length_replicate]) (by decide) (by decide) h
  exact absurd hone.2 (by decide)

end Sighttpd.L4
