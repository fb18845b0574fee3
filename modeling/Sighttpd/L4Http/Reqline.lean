import Sighttpd.L1Data.Params

/-!
# The request line (`http-reqline.c`)

`http_request_parse` steps over a blank behind the method and one behind the path
without looking for them: where the string ends first, it steps over the NUL and
reads on in what lies behind it.

* `httpRequestParse_line`: a request line at the front of a string is read as such.
* `httpRequestParse_within`: what is read without leaving the string is a request line.
-/
namespace Sighttpd.L4
open Sighttpd.CString Sighttpd.L1

/-- mirrors src/http-reqline.h:7-17 (`http_method`) -/
inductive HttpMethod where
  | options
  | get
  | head
  | post
  | put
  | delete
  | trace
  | connect
  | extension
  deriving DecidableEq, Repr

/-- mirrors src/http-reqline.h:19-23 (`http_version`) -/
inductive HttpVersion where
  | v0_9
  | v1_0
  | v1_1
  deriving DecidableEq, Repr

/-- mirrors src/http-reqline.h:25-30 (`http_request`) -/
structure HttpRequest where
  originalReqline : Bytes
  method : HttpMethod
  version : HttpVersion
  path : Bytes
  deriving DecidableEq, Repr

/-- The word for a method; `extension` has none. -/
def HttpMethod.word : HttpMethod → Bytes
  | options => ascii "OPTIONS"
  | get => ascii "GET"
  | head => ascii "HEAD"
  | post => ascii "POST"
  | put => ascii "PUT"
  | delete => ascii "DELETE"
  | trace => ascii "TRACE"
  | connect => ascii "CONNECT"
  | extension => []

def HttpVersion.word : HttpVersion → Bytes
  | v0_9 => ascii "HTTP/0.9"
  | v1_0 => ascii "HTTP/1.0"
  | v1_1 => ascii "HTTP/1.1"

/-! ## Parsing -/

/-- The methods whose words are compared with a first word of the given length. -/
def methodsOfLength : Nat → List HttpMethod
  | 3 => [.get, .put]
  | 4 => [.head, .post]
  | 5 => [.trace]
  | 6 => [.delete]
  | 7 => [.options, .connect]
  | _ => []

/-- The method a string starts with, whose first word is `span` bytes long; mirrors
src/http-reqline.c:26-72 -/
def requestMethod (s : Bytes) (span : Nat) : Option HttpMethod :=
  (methodsOfLength span).find? fun m => s.take span = m.word

/-- mirrors src/http-reqline.c:88-97 -/
def requestVersion (s : Bytes) : Option HttpVersion :=
  [.v1_1, .v1_0, .v0_9].find? fun v => s.take 8 = v.word

/-- mirrors src/http-reqline.c:10-115 (`http_request_parse`) for the string at offset `s`;
the bytes consumed, and the request if it was filled in. -/
def httpRequestParse (mem : Bytes) (s : Nat) : Nat × Option HttpRequest :=
  let span := strcspn (strAt mem s) (ascii " ")
  match requestMethod (strAt mem s) span with
  | none => (0, none)
  | some method =>
    let p := s + (span + 1)
    let span := strcspn (strAt mem p) (ascii " ")
    let path := (strAt mem p).take span
    let v := p + (span + 1)
    if strcspn (strAt mem v) crlf ≠ 8 then (0, none)
    else match requestVersion (strAt mem v) with
      | none => (0, none)
      | some version =>
        let e := v + 8
        let span := strspn (strAt mem e) crlf
        if span > 2 then (0, none)
        else (e - s + span, some ⟨(strAt mem s).take (e - s), method, version, path⟩)

/-! ## Request lines -/

/-- A request line without its line end. -/
def requestLine (method : HttpMethod) (path : Bytes) (version : HttpVersion) : Bytes :=
  method.word ++ (32 :: (path ++ (32 :: version.word)))

@[simp] theorem length_version (v : HttpVersion) : v.word.length = 8 := by cases v <;> rfl

theorem version_free (v : HttpVersion) : ∀ c ∈ v.word, c ∉ crlf := by cases v <;> decide

theorem method_free (m : HttpMethod) : ∀ c ∈ m.word, c ∉ ascii " " := by cases m <;> decide

theorem requestMethod_word {m : HttpMethod} (hm : m ≠ .extension) (s : Bytes) :
    requestMethod (m.word ++ s) m.word.length = some m := by
  cases m with
  | extension => exact absurd rfl hm
  | _ => rfl

theorem requestVersion_word (v : HttpVersion) (s : Bytes) :
    requestVersion (v.word ++ s) = some v := by
  cases v <;> rfl

theorem requestMethod_some {s : Bytes} {span : Nat} {m : HttpMethod}
    (h : requestMethod s span = some m) : m ≠ .extension ∧ s.take span = m.word := by
  have hmem := List.mem_of_find?_eq_some h
  refine ⟨?_, by simpa using List.find?_some h⟩
  intro heq
  subst heq
  unfold methodsOfLength at hmem
  split at hmem <;> simp at hmem

theorem requestVersion_some {s : Bytes} {v : HttpVersion} (h : requestVersion s = some v) :
    s.take 8 = v.word := by
  simpa using List.find?_some h

/-! ## What is read -/

section Parse
variable {mem s sep rest path : Bytes} {p n : Nat} {m : HttpMethod} {v : HttpVersion}

theorem mem_space {c : UInt8} : c ∈ ascii " " ↔ c = 32 := by simp [ascii]

@[simp] theorem length_requestLine (m : HttpMethod) (path : Bytes) (v : HttpVersion) :
    (requestLine m path v).length = m.word.length + path.length + 10 := by
  simp only [requestLine, List.length_append, List.length_cons, length_version]
  omega

/-- A word that a blank ends. -/
theorem strcspn_word {w t : Bytes} (hw : ∀ c ∈ w, c ∉ ascii " ") :
    strcspn (w ++ 32 :: t) (ascii " ") = w.length :=
  strcspn_append hw fun c t' h => by rw [← (List.cons.inj h).1]; decide

theorem httpRequestParse_line (hm : m ≠ .extension) (hpath : 32 ∉ path)
    (hsep : ∀ c ∈ sep, c ∈ crlf) (hlen : sep.length ≤ 2) (hend : sep = [] → rest = [])
    (hrest : ∀ c t, rest = c :: t → c ∉ crlf)
    (h : HoldsStr mem p (requestLine m path v ++ (sep ++ rest))) :
    httpRequestParse mem p = ((requestLine m path v).length + sep.length,
      some ⟨requestLine m path v, m, v, path⟩) := by
  have h1 : HoldsStr mem p (m.word ++ 32 :: (path ++ 32 :: (v.word ++ (sep ++ rest)))) := by
    simpa [requestLine] using h
  have h2 : HoldsStr mem (p + (m.word.length + 1)) (path ++ 32 :: (v.word ++ (sep ++ rest))) := by
    have := HoldsStr.suffix (x := m.word ++ [32]) (by simpa using h1)
    simpa using this
  have h3 : HoldsStr mem (p + (m.word.length + 1) + (path.length + 1)) (v.word ++ (sep ++ rest)) := by
    have := HoldsStr.suffix (x := path ++ [32]) (by simpa using h2)
    simpa using this
  have h4 : HoldsStr mem (p + (m.word.length + 1) + (path.length + 1) + 8) (sep ++ rest) := by
    simpa using h3.suffix
  have hpath' : ∀ c ∈ path, c ∉ ascii " " := fun c hc h => hpath (mem_space.mp h ▸ hc)
  have hversion : strcspn (v.word ++ (sep ++ rest)) crlf = 8 := by
    rw [strcspn_append (version_free v), length_version]
    intro c t he
    cases sep with
    | nil => rw [hend rfl] at he; exact absurd he (by simp)
    | cons d sep => exact (List.cons.inj he).1 ▸ hsep d (List.mem_cons_self ..)
  have hline : (requestLine m path v ++ (sep ++ rest)).take
      (p + (m.word.length + 1) + (path.length + 1) + 8 - p) = requestLine m path v :=
    List.take_left' (by rw [length_requestLine]; omega)
  have hspan : strspn (sep ++ rest) crlf = sep.length := strspn_append hsep hrest
  unfold httpRequestParse
  rw [h1.strAt_eq, strcspn_word (method_free m)]
  simp only [requestMethod_word hm, h2.strAt_eq, strcspn_word hpath', List.take_left, h3.strAt_eq,
    hversion, h4.strAt_eq, hspan, requestVersion_word, not_true_eq_false, if_false, ne_eq]
  rw [if_neg (by omega)]
  have hs : m.word ++ 32 :: (path ++ 32 :: (v.word ++ (sep ++ rest))) =
      requestLine m path v ++ (sep ++ rest) := by simp [requestLine]
  rw [hs, hline, length_requestLine]
  congr 1
  omega

/-- The word at the front of a string, when the blank behind it is still in the string. -/
theorem word_within (hlt : strcspn s (ascii " ") < s.length) :
    s = s.take (strcspn s (ascii " ")) ++ 32 :: s.drop (strcspn s (ascii " ") + 1) ∧
      32 ∉ s.take (strcspn s (ascii " ")) := by
  have htake : s.take (strcspn s (ascii " ")) = s.takeWhile (· ∉ ascii " ") :=
    take_length_takeWhile _ s
  have hdrop : s.drop (strcspn s (ascii " ")) = s.dropWhile (· ∉ ascii " ") :=
    drop_length_takeWhile _ s
  have hcons := List.drop_eq_getElem_cons hlt
  have hblank : s[strcspn s (ascii " ")] = 32 := by
    rw [hdrop] at hcons
    exact mem_space.mp (by simpa using dropWhile_stop hcons)
  refine ⟨?_, fun hm => ?_⟩
  · conv_lhs => rw [← List.take_append_drop (strcspn s (ascii " ")) s, hcons, hblank]
  · rw [htake] at hm
    simpa [ascii] using List.mem_takeWhile_imp hm

/-- What a request that was filled in says about the memory it was read from. -/
theorem httpRequestParse_some {req : HttpRequest} {w q : Nat}
    (h : httpRequestParse mem p = (n, some req)) (hw : strcspn (strAt mem p) (ascii " ") = w)
    (hq : strcspn (strAt mem (p + (w + 1))) (ascii " ") = q) :
    requestMethod (strAt mem p) w = some req.method ∧
    req.path = (strAt mem (p + (w + 1))).take q ∧
    strcspn (strAt mem (p + (w + 1) + (q + 1))) crlf = 8 ∧
    requestVersion (strAt mem (p + (w + 1) + (q + 1))) = some req.version ∧
    strspn (strAt mem (p + (w + 1) + (q + 1) + 8)) crlf ≤ 2 ∧
    n = w + q + 10 + strspn (strAt mem (p + (w + 1) + (q + 1) + 8)) crlf ∧
    req.originalReqline = (strAt mem p).take (w + q + 10) := by
  unfold httpRequestParse at h
  simp only [hw, hq] at h
  cases hm : requestMethod (strAt mem p) w with
  | none => rw [hm] at h; exact absurd h (by simp)
  | some m =>
    simp only [hm] at h
    split at h
    · exact absurd h (by simp)
    · rename_i h8
      cases hv : requestVersion (strAt mem (p + (w + 1) + (q + 1))) with
      | none => rw [hv] at h; exact absurd h (by simp)
      | some v =>
        simp only [hv] at h
        split at h
        · exact absurd h (by simp)
        · rename_i h2
          have hlen : p + (w + 1) + (q + 1) + 8 - p = w + q + 10 := by omega
          rw [hlen] at h
          obtain ⟨rfl, rfl⟩ : _ = n ∧ _ = req := by simpa using h
          exact ⟨rfl, rfl, not_ne_iff.mp h8, rfl, by omega, rfl, rfl⟩

/-- The word at the front of a string is stepped over with the blank behind it. -/
theorem word_step {w : Bytes} (h : HoldsStr mem p s) (hw : s.take (strcspn s (ascii " ")) = w)
    (hlt : strcspn s (ascii " ") < s.length) :
    strcspn s (ascii " ") = w.length ∧ s = w ++ 32 :: s.drop (w.length + 1) ∧ 32 ∉ w ∧
      HoldsStr mem (p + (w.length + 1)) (s.drop (w.length + 1)) := by
  obtain ⟨hs, hfree⟩ := word_within hlt
  have hlen : strcspn s (ascii " ") = w.length := by
    rw [← hw, List.length_take, Nat.min_eq_left (strcspn_le s _)]
  rw [hw] at hs hfree
  rw [hlen] at hs hlt
  exact ⟨hlen, hs, hfree, h.drop hlt⟩

/-- A request read without leaving the string is the request line the string starts with. -/
theorem httpRequestParse_within {req : HttpRequest} (h : HoldsStr mem p s)
    (hparse : httpRequestParse mem p = (n, some req)) (hn : n ≤ s.length) :
    req.method ≠ .extension ∧ 32 ∉ req.path ∧
    ∃ sep rest, s = requestLine req.method req.path req.version ++ (sep ++ rest) ∧
      (∀ c ∈ sep, c ∈ crlf) ∧ sep.length ≤ 2 ∧ (sep = [] → rest = []) ∧
      (∀ c t, rest = c :: t → c ∉ crlf) ∧
      n = (requestLine req.method req.path req.version).length + sep.length := by
  obtain ⟨hm, hpath, h8, hv, hspan, hsize, -⟩ := httpRequestParse_some hparse rfl rfl
  rw [h.strAt_eq] at hm hpath h8 hv hspan hsize
  obtain ⟨hmne, hword⟩ := requestMethod_some hm
  -- the blanks that are stepped over lie inside the string
  obtain ⟨hlen, hs, -, h1⟩ := word_step h hword (by omega)
  rw [hlen] at hm hpath h8 hv hspan hsize
  rw [h1.strAt_eq] at hpath h8 hv hspan hsize
  generalize s.drop (req.method.word.length + 1) = s1 at *
  have hslen := congrArg List.length hs
  simp only [List.length_append, List.length_cons] at hslen
  obtain ⟨hplen, hs', hfree, h2⟩ := word_step h1 hpath.symm (by omega)
  rw [hplen] at h8 hv hspan hsize
  generalize s1.drop (req.path.length + 1) = s2 at *
  rw [h2.strAt_eq] at h8 hv
  have hs3 : s2 = req.version.word ++ s2.drop 8 := by
    rw [← requestVersion_some hv, List.take_append_drop]
  have h3 : HoldsStr mem (p + (req.method.word.length + 1) + (req.path.length + 1) + 8)
      (s2.drop 8) := by
    have := HoldsStr.suffix (x := req.version.word) (y := s2.drop 8) (by rw [← hs3]; exact h2)
    simpa using this
  rw [h3.strAt_eq] at hspan hsize
  have hdrop : s2.drop 8 = s2.dropWhile (· ∉ crlf) := by rw [← h8]; exact drop_strcspn s2 crlf
  refine ⟨hmne, hfree, (s2.drop 8).takeWhile (· ∈ crlf), (s2.drop 8).dropWhile (· ∈ crlf), ?_,
    fun c hc => by simpa using List.mem_takeWhile_imp hc, hspan, fun hnil => ?_,
    fun c t he => by simpa using dropWhile_stop he, ?_⟩
  · rw [List.takeWhile_append_dropWhile, hs, hs', hs3]
    simp [requestLine]
  · cases hd : s2.drop 8 with
    | nil => rfl
    | cons c t =>
      have hc : c ∈ crlf := by
        rw [hdrop] at hd
        simpa using dropWhile_stop hd
      rw [hd, List.takeWhile_cons_of_pos (by simpa using hc)] at hnil
      exact absurd hnil (by simp)
  · rw [hsize, length_requestLine]
    rfl

end Parse

end Sighttpd.L4
