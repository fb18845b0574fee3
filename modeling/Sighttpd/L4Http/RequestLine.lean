import Sighttpd.L4Http.Reqline

/-!
# What `http_request_parse` accepts

A request line is a method, a path and a version with a blank between them and at most
one line end. `LineWhole` is the condition on a string under which whatever is read of it
is one: the blanks that are stepped over are in the string, and an accepted line has no
line break in its path and no two line ends behind it.

* `httpRequestParse_spans`: what is read, from the spans it is read by.
* `requestRead_iff`: for which strings it is a request line, whatever lies behind the
  string in memory.
-/
namespace Sighttpd.L4
open Sighttpd.CString Sighttpd.L1

/-- No line end, or one. -/
def lineEnds : List Bytes := [[], [13], [10], [13, 10]]

/-- The first `c` bytes of `s` are the request line that `req` says, and the line to be
logged has no line break. -/
structure IsRequestLine (s : Bytes) (c : Nat) (req : HttpRequest) : Prop where
  within : c ≤ s.length
  method : req.method ≠ .extension
  path : ∀ b ∈ req.path, b ≠ 32 ∧ b ≠ 13 ∧ b ≠ 10
  line : ∃ e ∈ lineEnds, s.take c = requestLine req.method req.path req.version ++ e
  logged : ∀ b ∈ req.originalReqline, b ≠ 13 ∧ b ≠ 10

def RequestRead (mem : Bytes) (p : Nat) (s : Bytes) : Prop :=
  0 < (httpRequestParse mem p).1 → ∃ req, (httpRequestParse mem p).2 = some req ∧
    IsRequestLine s (httpRequestParse mem p).1 req

/-! ## The parts of a string -/

def methodSpan (s : Bytes) : Nat := strcspn s (ascii " ")

def behindMethod (s : Bytes) : Bytes := s.drop (methodSpan s + 1)

def pathSpan (s : Bytes) : Nat := strcspn (behindMethod s) (ascii " ")

def behindPath (s : Bytes) : Bytes := (behindMethod s).drop (pathSpan s + 1)

/-- The CR and LF behind the version. -/
def breakSpan (s : Bytes) : Nat := strspn ((behindPath s).drop 8) crlf

/-- A version, and no more than two bytes of line breaks behind it. -/
def EndsInVersion (s : Bytes) : Prop :=
  strcspn (behindPath s) crlf = 8 ∧ (requestVersion (behindPath s)).isSome ∧ breakSpan s ≤ 2

/-- The first word is no method; or two blanks follow it in the string, and a line that ends
in a version has no line break in its path and at most one line end. -/
def LineWhole (s : Bytes) : Prop :=
  requestMethod s (methodSpan s) = none ∨
    (methodSpan s < s.length ∧ pathSpan s < (behindMethod s).length ∧
      (EndsInVersion s → (∀ b ∈ (behindMethod s).take (pathSpan s), b ∉ crlf) ∧
        ((behindPath s).drop 8).take (breakSpan s) ∈ lineEnds))

section Parse
variable {mem s : Bytes} {p : Nat}

/-- The result from the spans, wherever they lie. -/
theorem httpRequestParse_spans {w q : Nat} {m : HttpMethod} {v : HttpVersion}
    (hw : strcspn (strAt mem p) (ascii " ") = w)
    (hq : strcspn (strAt mem (p + (w + 1))) (ascii " ") = q)
    (hm : requestMethod (strAt mem p) w = some m)
    (h8 : strcspn (strAt mem (p + (w + 1) + (q + 1))) crlf = 8)
    (hv : requestVersion (strAt mem (p + (w + 1) + (q + 1))) = some v)
    (h2 : strspn (strAt mem (p + (w + 1) + (q + 1) + 8)) crlf ≤ 2) :
    httpRequestParse mem p =
      (w + q + 10 + strspn (strAt mem (p + (w + 1) + (q + 1) + 8)) crlf,
        some ⟨(strAt mem p).take (w + q + 10), m, v, (strAt mem (p + (w + 1))).take q⟩) := by
  have hlen : p + (w + 1) + (q + 1) + 8 - p = w + q + 10 := by omega
  unfold httpRequestParse
  simp only [hw, hq, hm, h8, hv, not_true_eq_false, if_false, ne_eq]
  rw [if_neg (by omega), hlen]

/-- What is consumed is 0 unless a request was filled in. -/
theorem httpRequestParse_zero (h : (httpRequestParse mem p).2 = none) :
    (httpRequestParse mem p).1 = 0 := by
  cases hm : requestMethod (strAt mem p) (strcspn (strAt mem p) (ascii " ")) with
  | none =>
    unfold httpRequestParse
    simp only [hm]
  | some m =>
    unfold httpRequestParse at h ⊢
    simp only [hm] at h ⊢
    split
    · rfl
    · rename_i h8
      rw [if_neg h8] at h
      split
      · rfl
      · rename_i v hv
        simp only [hv] at h ⊢
        split
        · rfl
        · rename_i h2
          rw [if_neg h2] at h
          exact absurd h (by simp)

/-- A string behind the NUL of another one. -/
theorem holdsStr_behind (s : Bytes) {t : Bytes} (ht : 0 ∉ t) :
    HoldsStr (s ++ 0 :: (t ++ [0])) (0 + (s.length + 1)) t :=
  ⟨ht, [], by rw [List.append_cons, List.drop_left' (by simp)]⟩

/-- A version with nothing behind it, wherever it lies. -/
theorem httpRequestParse_version {w q : Nat} {m : HttpMethod}
    (hw : strcspn (strAt mem p) (ascii " ") = w)
    (hq : strcspn (strAt mem (p + (w + 1))) (ascii " ") = q)
    (hm : requestMethod (strAt mem p) w = some m)
    (h : HoldsStr mem (p + (w + 1) + (q + 1)) (ascii "HTTP/1.1")) :
    httpRequestParse mem p =
      (w + q + 10, some ⟨(strAt mem p).take (w + q + 10), m, .v1_1, (strAt mem (p + (w + 1))).take q⟩) := by
  have hend : strAt mem (p + (w + 1) + (q + 1) + 8) = [] := (h.drop (k := 8) (by decide)).strAt_eq
  rw [httpRequestParse_spans hw hq hm (by rw [h.strAt_eq]; decide) (v := .v1_1)
    (by rw [h.strAt_eq]; decide) (by rw [hend]; decide), hend]
  rfl

end Parse

/-! ## The string as a request line -/

section Line
variable {mem s : Bytes} {p : Nat} {m : HttpMethod} {v : HttpVersion}

theorem length_behindMethod (h : methodSpan s < s.length) :
    (behindMethod s).length + (methodSpan s + 1) = s.length := by
  rw [behindMethod, List.length_drop]
  omega

theorem length_behindPath (h : pathSpan s < (behindMethod s).length) :
    (behindPath s).length + (pathSpan s + 1) = (behindMethod s).length := by
  rw [behindPath, List.length_drop]
  omega

/-- The two words and the version in front of the line break. -/
theorem requestLine_append (hw : methodSpan s < s.length)
    (hq : pathSpan s < (behindMethod s).length) (hm : requestMethod s (methodSpan s) = some m)
    (hv : requestVersion (behindPath s) = some v) :
    s = requestLine m ((behindMethod s).take (pathSpan s)) v ++ (behindPath s).drop 8 := by
  have hword : s.take (methodSpan s) = m.word := (requestMethod_some hm).2
  have hversion : (behindPath s).take 8 = v.word := requestVersion_some hv
  calc
    s = s.take (methodSpan s) ++ 32 :: behindMethod s := (word_within hw).1
    _ = m.word ++ 32 :: ((behindMethod s).take (pathSpan s) ++ 32 :: behindPath s) := by
      rw [hword]
      exact congrArg (m.word ++ 32 :: ·) (word_within hq).1
    _ = m.word ++ 32 :: ((behindMethod s).take (pathSpan s) ++
        32 :: (v.word ++ (behindPath s).drop 8)) := by
      rw [← hversion, List.take_append_drop]
    _ = _ := by simp [requestLine]

theorem length_requestLine_spans (hm : requestMethod s (methodSpan s) = some m) :
    (requestLine m ((behindMethod s).take (pathSpan s)) v).length =
      methodSpan s + pathSpan s + 10 := by
  have hword : m.word.length = methodSpan s := by
    rw [← (requestMethod_some hm).2]
    exact List.length_take_of_le (strcspn_le _ _)
  have hpath : ((behindMethod s).take (pathSpan s)).length = pathSpan s :=
    List.length_take_of_le (strcspn_le _ _)
  rw [length_requestLine, hword, hpath]

/-- A request line has no line break if its path has none. -/
theorem requestLine_free {path : Bytes} (hpath : ∀ b ∈ path, b ∉ crlf) :
    ∀ b ∈ requestLine m path v, b ∉ crlf := by
  have hmethod : ∀ b ∈ m.word, b ∉ crlf := by cases m <;> decide
  intro b hb
  rw [requestLine, List.mem_append, List.mem_cons, List.mem_append, List.mem_cons] at hb
  rcases hb with hb | rfl | hb | rfl | hb
  · exact hmethod b hb
  · decide
  · exact hpath b hb
  · decide
  · exact version_free v b hb

theorem notMem_crlf {b : UInt8} : b ∉ crlf ↔ b ≠ 13 ∧ b ≠ 10 := by simp [crlf, ascii]

/-- The string as far as it is read, from what is read of it. -/
theorem take_requestLine (hw : methodSpan s < s.length)
    (hq : pathSpan s < (behindMethod s).length) (hm : requestMethod s (methodSpan s) = some m)
    (hv : requestVersion (behindPath s) = some v) (b : Nat) :
    s.take (methodSpan s + pathSpan s + 10 + b) =
      requestLine m ((behindMethod s).take (pathSpan s)) v ++ ((behindPath s).drop 8).take b := by
  have htake := congrArg (List.take (methodSpan s + pathSpan s + 10 + b))
    (requestLine_append hw hq hm hv)
  rw [htake, ← length_requestLine_spans (v := v) hm, List.take_length_add_append]

/-- Where the blanks are in the string, all spans are. -/
theorem HoldsStr.spans (h : HoldsStr mem p s) (hw : methodSpan s < s.length)
    (hq : pathSpan s < (behindMethod s).length) :
    strAt mem (p + (methodSpan s + 1)) = behindMethod s ∧
      HoldsStr mem (p + (methodSpan s + 1) + (pathSpan s + 1)) (behindPath s) := by
  have hmethod : HoldsStr mem (p + (methodSpan s + 1)) (behindMethod s) := h.drop hw
  exact ⟨hmethod.strAt_eq, hmethod.drop hq⟩

/-- What is read where the blanks are in the string, and what the string has to be for it. -/
theorem httpRequestParse_whole (h : HoldsStr mem p s) (hw : methodSpan s < s.length)
    (hq : pathSpan s < (behindMethod s).length) (hm : requestMethod s (methodSpan s) = some m)
    (hv : requestVersion (behindPath s) = some v) (h8 : strcspn (behindPath s) crlf = 8)
    (h2 : breakSpan s ≤ 2) :
    httpRequestParse mem p = (methodSpan s + pathSpan s + 10 + breakSpan s,
      some ⟨requestLine m ((behindMethod s).take (pathSpan s)) v, m, v,
        (behindMethod s).take (pathSpan s)⟩) := by
  obtain ⟨hmethod, hpath⟩ := HoldsStr.spans h hw hq
  have hle : 8 ≤ (behindPath s).length := h8 ▸ strcspn_le _ _
  have hbreak := (hpath.drop hle).strAt_eq
  have hline : s.take (methodSpan s + pathSpan s + 10) =
      requestLine m ((behindMethod s).take (pathSpan s)) v := by
    simpa using take_requestLine hw hq hm hv 0
  rw [httpRequestParse_spans (w := methodSpan s) (q := pathSpan s) (by rw [h.strAt_eq]; rfl)
    (by rw [hmethod]; rfl) (by rw [h.strAt_eq]; exact hm) (by rw [hpath.strAt_eq]; exact h8)
    (by rw [hpath.strAt_eq]; exact hv) (by rw [hbreak]; exact h2), hbreak, hmethod, h.strAt_eq, hline]
  rfl

theorem breakSpan_add_le (hw : methodSpan s < s.length) (hq : pathSpan s < (behindMethod s).length)
    (h8 : strcspn (behindPath s) crlf = 8) :
    methodSpan s + pathSpan s + 10 + breakSpan s ≤ s.length := by
  have hle : 8 ≤ (behindPath s).length := h8 ▸ strcspn_le _ _
  have hbreak : breakSpan s ≤ ((behindPath s).drop 8).length := (List.takeWhile_sublist _).length_le
  have hmethod := length_behindMethod hw
  have hpath := length_behindPath hq
  rw [List.length_drop] at hbreak
  omega

/-! ## When it is a request line -/

/-- What lies behind the blanks decides it, where they are in the string. -/
theorem requestRead_whole (h : HoldsStr mem p s) (hw : methodSpan s < s.length)
    (hq : pathSpan s < (behindMethod s).length) (hm : requestMethod s (methodSpan s) = some m) :
    RequestRead mem p s ↔ (EndsInVersion s → (∀ b ∈ (behindMethod s).take (pathSpan s), b ∉ crlf) ∧
      ((behindPath s).drop 8).take (breakSpan s) ∈ lineEnds) := by
  constructor
  · rintro hread ⟨h8, hsome, h2⟩
    obtain ⟨v, hv⟩ := Option.isSome_iff_exists.mp hsome
    have hparse := httpRequestParse_whole h hw hq hm hv h8 h2
    rw [RequestRead, hparse] at hread
    obtain ⟨req, hreq, hline⟩ := hread (by simp only; omega)
    obtain rfl := Option.some.inj hreq
    refine ⟨fun b hb => notMem_crlf.mpr (hline.path b hb).2, ?_⟩
    obtain ⟨e, he, htake⟩ := hline.line
    rw [take_requestLine hw hq hm hv] at htake
    exact List.append_cancel_left htake ▸ he
  · intro hcond hpos
    cases hr : (httpRequestParse mem p).2 with
    | none => exact absurd (httpRequestParse_zero hr) (by omega)
    | some req =>
      have hparse : httpRequestParse mem p = ((httpRequestParse mem p).1, some req) := by rw [← hr]
      obtain ⟨hmethod, hpath⟩ := HoldsStr.spans h hw hq
      obtain ⟨-, -, h8, hv, h2, -⟩ := httpRequestParse_some hparse
        (w := methodSpan s) (q := pathSpan s) (by rw [h.strAt_eq]; rfl) (by rw [hmethod]; rfl)
      rw [hpath.strAt_eq] at h8 hv
      generalize req.version = v at hv
      have hle : 8 ≤ (behindPath s).length := h8 ▸ strcspn_le _ _
      rw [(hpath.drop hle).strAt_eq] at h2
      obtain ⟨hfree, hend⟩ := hcond ⟨h8, hv ▸ rfl, h2⟩
      have hwhole := httpRequestParse_whole h hw hq hm hv h8 h2
      rw [hwhole] at hr
      obtain rfl := Option.some.inj hr
      rw [hwhole]
      refine ⟨_, rfl, breakSpan_add_le hw hq h8, (requestMethod_some hm).1, ?_,
        ⟨_, hend, take_requestLine hw hq hm hv _⟩, ?_⟩
      · intro b hb
        refine ⟨?_, notMem_crlf.mp (hfree b hb)⟩
        rintro rfl
        exact (word_within hq).2 hb
      · exact fun b hb => notMem_crlf.mp (requestLine_free hfree b hb)

/-- The bytes consumed lie in the string. -/
theorem RequestRead.within (h : RequestRead mem p s) : (httpRequestParse mem p).1 ≤ s.length := by
  rcases Nat.eq_zero_or_pos (httpRequestParse mem p).1 with hz | hpos
  · omega
  · obtain ⟨req, -, hline⟩ := h hpos
    exact hline.within

/-- A method with nothing behind it takes the path and the version from behind the NUL. -/
theorem httpRequestParse_bare (h0 : 0 ∉ s) (hw : methodSpan s = s.length)
    (hm : requestMethod s (methodSpan s) = some m) :
    (httpRequestParse (s ++ 0 :: (ascii " HTTP/1.1" ++ [0])) 0).1 = s.length + 10 := by
  have hs : HoldsStr (s ++ 0 :: (ascii " HTTP/1.1" ++ [0])) 0 s := ⟨h0, _, rfl⟩
  have hbehind := holdsStr_behind s (t := ascii " HTTP/1.1") (by decide)
  rw [httpRequestParse_version (w := s.length) (q := 0) (by rw [hs.strAt_eq]; exact hw)
    (by rw [hbehind.strAt_eq]; decide) (by rw [hs.strAt_eq, ← hw]; exact hm)
    (hbehind.drop (k := 1) (by decide))]

/-- A method and a path with nothing behind them take the version from behind the NUL. -/
theorem httpRequestParse_unversioned (h0 : 0 ∉ s) (hw : methodSpan s < s.length)
    (hq : pathSpan s = (behindMethod s).length) (hm : requestMethod s (methodSpan s) = some m) :
    (httpRequestParse (s ++ 0 :: (ascii "HTTP/1.1" ++ [0])) 0).1 = s.length + 9 := by
  have hs : HoldsStr (s ++ 0 :: (ascii "HTTP/1.1" ++ [0])) 0 s := ⟨h0, _, rfl⟩
  have hmethod := hs.drop hw
  have hlen := length_behindMethod hw
  have hbehind := holdsStr_behind s (t := ascii "HTTP/1.1") (by decide)
  rw [httpRequestParse_version (w := methodSpan s) (q := pathSpan s) (by rw [hs.strAt_eq]; rfl)
    (by rw [hmethod.strAt_eq]; rfl) (by rw [hs.strAt_eq]; exact hm)
    (by rwa [show 0 + (methodSpan s + 1) + (pathSpan s + 1) = 0 + (s.length + 1) by omega])]
  simp only
  omega

/-- **Request lines.** What is read of a string is a request line, whatever lies behind the
string, if and only if the string is whole in this sense. -/
theorem requestRead_iff (h0 : 0 ∉ s) :
    (∀ mem p, HoldsStr mem p s → RequestRead mem p s) ↔ LineWhole s := by
  cases hm : requestMethod s (methodSpan s) with
  | none =>
    refine ⟨fun _ => .inl hm, fun _ mem p h hpos => ?_⟩
    have hnone : requestMethod (strAt mem p) (strcspn (strAt mem p) (ascii " ")) = none := by
      rw [h.strAt_eq]
      exact hm
    unfold httpRequestParse at hpos
    simp only [hnone] at hpos
    exact absurd hpos (by omega)
  | some m =>
    have hsplit : LineWhole s ↔ methodSpan s < s.length ∧ pathSpan s < (behindMethod s).length ∧
        (EndsInVersion s → (∀ b ∈ (behindMethod s).take (pathSpan s), b ∉ crlf) ∧
          ((behindPath s).drop 8).take (breakSpan s) ∈ lineEnds) := by
      simp [LineWhole, hm]
    rw [hsplit]
    constructor
    · intro hread
      have hw : methodSpan s < s.length := by
        refine Nat.lt_of_le_of_ne (strcspn_le _ _) fun hw => ?_
        have hn := (hread (s ++ 0 :: (ascii " HTTP/1.1" ++ [0])) 0 ⟨h0, _, rfl⟩).within
        rw [httpRequestParse_bare h0 hw hm] at hn
        omega
      have hq : pathSpan s < (behindMethod s).length := by
        refine Nat.lt_of_le_of_ne (strcspn_le _ _) fun hq => ?_
        have hn := (hread (s ++ 0 :: (ascii "HTTP/1.1" ++ [0])) 0 ⟨h0, _, rfl⟩).within
        rw [httpRequestParse_unversioned h0 hw hq hm] at hn
        omega
      have hholds : HoldsStr (s ++ [0]) 0 s := ⟨h0, [], rfl⟩
      exact ⟨hw, hq, (requestRead_whole hholds hw hq hm).mp (hread _ 0 hholds)⟩
    · rintro ⟨hw, hq, hcond⟩ mem p h
      exact (requestRead_whole h hw hq hm).mpr hcond

theorem requestRead_iff_get : 0 ∉ ascii "GET / HTTP/1.1\r\n" ∧
    ((∀ mem p, HoldsStr mem p (ascii "GET / HTTP/1.1\r\n") →
      RequestRead mem p (ascii "GET / HTTP/1.1\r\n")) ↔ LineWhole (ascii "GET / HTTP/1.1\r\n")) :=
  ⟨by decide, requestRead_iff (by decide)⟩

/-- `GET` alone, in front of ` HTTP/1.1`: 13 bytes are consumed of a string of three. -/
theorem bareMethod_read : HoldsStr (ascii "GET" ++ 0 :: (ascii " HTTP/1.1" ++ [0])) 0 (ascii "GET") ∧
    (httpRequestParse (ascii "GET" ++ 0 :: (ascii " HTTP/1.1" ++ [0])) 0).1 = 13 ∧
    ¬ RequestRead (ascii "GET" ++ 0 :: (ascii " HTTP/1.1" ++ [0])) 0 (ascii "GET") := by
  have hlen := httpRequestParse_bare (s := ascii "GET") (m := .get) (by decide) (by decide) (by decide)
  refine ⟨⟨by decide, _, rfl⟩, hlen, fun hread => ?_⟩
  have hle := hread.within
  rw [hlen] at hle
  exact absurd hle (by decide)

end Line

end Sighttpd.L4
