import Sighttpd.L4Http.RequestLine

/-!
# The request structure (`http-reqline.c`)

`http_request_parse` with the structure it fills in.

* `httpRequestParseInto_eq`: the fields are written all together or not at all.
* `httpRequestParse_fields`: a request line in front of any text is read back, and a call
  that returns 0 leaves the structure alone.
-/
namespace Sighttpd.L4
open Sighttpd.CString Sighttpd.L1

/-! ## Model -/

/-- mirrors src/http-reqline.c:10-115 (`http_request_parse`) for the string at offset `s`,
with what `request` points to before and after the call -/
def httpRequestParseInto (mem : Bytes) (s : Nat) (request : HttpRequest) : Nat × HttpRequest :=
  let span := strcspn (strAt mem s) (ascii " ")
  match requestMethod (strAt mem s) span with
  | none => (0, request)
  | some method =>
    let p := s + (span + 1)
    let span := strcspn (strAt mem p) (ascii " ")
    let path := (strAt mem p).take span
    let v := p + (span + 1)
    if strcspn (strAt mem v) crlf ≠ 8 then (0, request)
    else match requestVersion (strAt mem v) with
      | none => (0, request)
      | some version =>
        let e := v + 8
        let span := strspn (strAt mem e) crlf
        if span > 2 then (0, request)
        else
          let request := { request with originalReqline := (strAt mem s).take (e - s) }
          let request := { request with method := method }
          let request := { request with path := path }
          let request := { request with version := version }
          (e - s + span, request)

theorem httpRequestParseInto_eq (mem : Bytes) (s : Nat) (request : HttpRequest) :
    httpRequestParseInto mem s request =
      ((httpRequestParse mem s).1, (httpRequestParse mem s).2.getD request) := by
  unfold httpRequestParseInto httpRequestParse
  cases hm : requestMethod (strAt mem s) (strcspn (strAt mem s) (ascii " ")) with
  | none => simp only [hm, Option.getD_none]
  | some method =>
    simp only [hm]
    generalize s + (strcspn (strAt mem s) (ascii " ") + 1) = p
    generalize p + (strcspn (strAt mem p) (ascii " ") + 1) = v
    by_cases h8 : strcspn (strAt mem v) crlf ≠ 8
    · simp only [if_pos h8, Option.getD_none]
    · simp only [if_neg h8]
      cases hv : requestVersion (strAt mem v) with
      | none => rfl
      | some version =>
        by_cases h2 : strspn (strAt mem (v + 8)) crlf > 2
        · simp only [if_pos h2, Option.getD_none]
        · simp only [if_neg h2, Option.getD_some]

/-! ## What is written -/

section Parse
variable {mem t path : Bytes} {p : Nat} {m : HttpMethod} {v : HttpVersion}

/-- Whatever is filled in has consumed a request line. -/
theorem httpRequestParse_pos {req : HttpRequest} (h : (httpRequestParse mem p).2 = some req) :
    0 < (httpRequestParse mem p).1 := by
  obtain ⟨-, -, -, -, -, hn, -⟩ := httpRequestParse_some (n := (httpRequestParse mem p).1)
    (by rw [← h]) rfl rfl
  omega

theorem httpRequestParseInto_zero (request : HttpRequest)
    (h : (httpRequestParseInto mem p request).1 = 0) :
    (httpRequestParseInto mem p request).2 = request := by
  rw [httpRequestParseInto_eq] at h ⊢
  dsimp only at h ⊢
  cases e : (httpRequestParse mem p).2 with
  | none => rfl
  | some req =>
    have hpos := httpRequestParse_pos e
    omega

theorem requestLine_nul (hpath : 0 ∉ path) : 0 ∉ requestLine m path v := by
  have hm : 0 ∉ m.word := by cases m <;> decide
  have hv : 0 ∉ v.word := by cases v <;> decide
  simp [requestLine, hm, hpath, hv]

/-- The string is the line and the text behind it up to the first NUL. -/
theorem holdsStr_text {line post : Bytes} (hline : 0 ∉ line)
    (h : mem.drop p = line ++ (t ++ 0 :: post)) : HoldsStr mem p (line ++ cstr t) := by
  refine ⟨?_, ?_⟩
  · rw [List.mem_append, not_or]
    exact ⟨hline, zero_notMem_cstr t⟩
  · cases e : t.dropWhile (· ≠ 0) with
    | nil =>
      refine ⟨post, ?_⟩
      rw [h, List.append_assoc, cstr, List.takeWhile_eq_self_iff.mpr (List.dropWhile_eq_nil_iff.mp e)]
    | cons c rest =>
      obtain rfl : c = 0 := by simpa using dropWhile_stop e
      refine ⟨rest ++ 0 :: post, ?_⟩
      have ht : t = cstr t ++ 0 :: rest := by
        rw [cstr, ← e, List.takeWhile_append_dropWhile]
      rw [h, List.append_assoc]
      congr 1
      conv_lhs => rw [ht]
      simp

/-- **Request lines are read back.** The length is that of the line with its line end, the
fields are its parts, and a call that returns 0 writes none of them. -/
theorem httpRequestParse_fields (hm : m ≠ .extension) (hsp : 32 ∉ path) (hnul : 0 ∉ path)
    (ht : ∀ c ∈ t.head?, c ∉ crlf) (post : Bytes)
    (h : mem.drop p = requestLine m path v ++ (crlf ++ (t ++ 0 :: post))) (request : HttpRequest) :
    httpRequestParseInto mem p request =
        ((requestLine m path v ++ crlf).length, ⟨requestLine m path v, m, v, path⟩) ∧
      ∀ mem p request, (httpRequestParseInto mem p request).1 = 0 →
        (httpRequestParseInto mem p request).2 = request := by
  refine ⟨?_, fun mem p request h => httpRequestParseInto_zero request h⟩
  have hline : 0 ∉ requestLine m path v ++ crlf := by
    rw [List.mem_append, not_or]
    exact ⟨requestLine_nul hnul, by decide⟩
  have hrest : ∀ c t', cstr t = c :: t' → c ∉ crlf := by
    intro c t' hc
    have hpre : c :: t' <+: t := hc ▸ List.takeWhile_prefix _
    obtain ⟨u, rfl⟩ := hpre
    exact ht c rfl
  have hstr := holdsStr_text hline (by rwa [List.append_assoc])
  rw [List.append_assoc] at hstr
  rw [httpRequestParseInto_eq, httpRequestParse_line hm hsp (fun c hc => hc) (by decide)
    (fun he => absurd he (by decide)) hrest hstr, List.length_append]
  rfl

end Parse

/-- A path with a line break, and a NUL in the text behind the line. -/
theorem httpRequestParse_fields_put :
    httpRequestParseInto (ascii "PUT a\nb HTTP/1.0\r\nHost: x" ++ [0, 7, 0]) 0
        ⟨[], .extension, .v0_9, []⟩ =
      (18, ⟨ascii "PUT a\nb HTTP/1.0", .put, .v1_0, ascii "a\nb"⟩) ∧
      ∀ mem p request, (httpRequestParseInto mem p request).1 = 0 →
        (httpRequestParseInto mem p request).2 = request := by
  have hmem : (ascii "PUT a\nb HTTP/1.0\r\nHost: x" ++ [0, 7, 0]).drop 0 =
      requestLine .put (ascii "a\nb") .v1_0 ++ (crlf ++ ((ascii "Host: x" ++ [0, 7]) ++ 0 :: [])) := by
    decide
  exact httpRequestParse_fields (by decide) (by decide) (by decide) (by decide) [] hmem _

end Sighttpd.L4
