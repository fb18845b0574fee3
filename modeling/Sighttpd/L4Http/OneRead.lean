import Sighttpd.L4Http.Response

/-!
# A request in one read

When a whole request with headers arrives in one `read(2)`, its request line is parsed
and moved over, and the headers are then at the front of the array.

* `oneRead_answered`: `respond` is called with what the request says.
-/
namespace Sighttpd.L4
open Sighttpd.CString Sighttpd.L1

/-- What a client asks. -/
structure Request where
  method : HttpMethod
  path : Bytes
  version : HttpVersion
  headers : List Param
  deriving DecidableEq, Repr

def Request.line (r : Request) : Bytes := requestLine r.method r.path r.version

/-- The header block, with the empty line that ends it. -/
def Request.block (r : Request) : Bytes := entryText .headers r.headers

def Request.print (r : Request) : Bytes := r.line ++ crlf ++ r.block

structure Request.Ok (r : Request) : Prop where
  method : r.method ≠ .extension
  path : r.path ≠ []
  path_free : ∀ c ∈ r.path, c ∉ ascii " \r\n" ++ [0]
  headers : ∀ e ∈ r.headers, EntryOk .headers e
  size : r.print.length < bufSize

/-- `respond` is called, behind the last read, with what the request says. -/
def Answered (r : Request) (o : Outcome) : Prop :=
  ∃ req headers, o = .responded (some req) headers [] ∧ req.method = r.method ∧
    req.path = r.path ∧ req.version = r.version ∧ ∀ p, p ∈ headers ↔ p ∈ appendAll [] r.headers

section Request
variable {r : Request}

theorem Request.Ok.line_free (h : r.Ok) : ∀ c ∈ r.line, c ∉ crlf ++ [0] := by
  intro c hc
  have hpath : c ∈ r.path → c ∉ crlf ++ [0] := fun hm hn => h.path_free c hm (by
    simp [crlf, ascii] at hn ⊢
    rcases hn with hn | hn | hn <;> simp [hn])
  have hmethod : ∀ m : HttpMethod, ∀ c ∈ m.word, c ∉ crlf ++ [0] := by
    intro m
    cases m <;> decide
  have hversion : ∀ v : HttpVersion, ∀ c ∈ v.word, c ∉ crlf ++ [0] := by
    intro v
    cases v <;> decide
  rw [Request.line, requestLine, List.mem_append, List.mem_cons, List.mem_append, List.mem_cons] at hc
  rcases hc with hc | rfl | hc | rfl | hc
  · exact hmethod _ c hc
  · decide
  · exact hpath hc
  · decide
  · exact hversion _ c hc

theorem Request.Ok.zero_notMem (h : r.Ok) : 0 ∉ r.print := by
  intro hm
  rw [Request.print, List.mem_append, List.mem_append] at hm
  rcases hm with (hm | hm) | hm
  · exact h.line_free 0 hm (by decide)
  · exact absurd hm (by decide)
  · exact zero_notMem_entryText (.inr rfl) h.headers hm

/-- A header block starts with a name, if it has any headers. -/
theorem block_head (h : r.Ok) (hne : r.headers ≠ []) {c : UInt8} {t : Bytes}
    (he : r.block = c :: t) : c ∉ lws := by
  obtain ⟨e, es, hes⟩ := List.exists_cons_of_ne_nil hne
  rw [Request.block, hes, entryText_headers, headerLines_cons, linesText_cons, List.append_assoc] at he
  exact headerLine_head (h.headers e (by rw [hes]; exact List.mem_cons_self ..)) he

theorem parse_requestLine (h : r.Ok) {mem rest sep : Bytes} {p : Nat}
    (hsep : ∀ c ∈ sep, c ∈ crlf) (hlen : sep.length ≤ 2) (hend : sep = [] → rest = [])
    (hrest : ∀ c t, rest = c :: t → c ∉ crlf) (hmem : HoldsStr mem p (r.line ++ (sep ++ rest))) :
    httpRequestParse mem p =
      (r.line.length + sep.length, some ⟨r.line, r.method, r.version, r.path⟩) :=
  httpRequestParse_line h.method (fun hm => h.path_free 32 hm (by decide)) hsep hlen hend hrest hmem

/-- **One read.** A request with headers that arrives in one read is answered, unless the
uninitialised `n` is -1. -/
theorem oneRead_answered (h : r.Ok) (hne : r.headers ≠ []) {s : Bytes} (hs : bufSize ≤ s.length)
    {n : Nat} (hn : n ≠ sizeMod - 1) :
    ∃ fuel, Answered r (httpResponse fuel s n [some r.print]) := by
  have hstart : Reading { s, cur := 0, rem := bufSize, n, init := false, request := none } [] :=
    ⟨⟨s, rfl⟩, hs, rfl, rfl, hn⟩
  obtain ⟨hread, post, hafter, -⟩ := hstart.afterRead (p := r.print) h.size
  rw [List.nil_append] at hafter
  have hblock : ∀ c t, r.block = c :: t → c ∉ crlf := fun c t he hc =>
    block_head h hne he (mem_lws.mpr (.inr hc))
  have hholds : HoldsStr (r.print ++ 0 :: post) 0 (r.line ++ (crlf ++ r.block)) :=
    ⟨by simpa [Request.print] using h.zero_notMem, post, by simp [Request.print]⟩
  have hparse := parse_requestLine h (fun c hc => hc) (by decide) (fun he => absurd he (by decide))
    hblock hholds
  have hlen : r.print.length = r.line.length + crlf.length + r.block.length := by
    rw [Request.print, List.length_append, List.length_append]
  -- the headers come to the front
  have hstrip : stripped r.print (r.line.length + crlf.length) r.print.length =
      r.block ++ r.print.drop r.block.length := by
    have hd : r.print.drop (r.line.length + crlf.length) = r.block := by
      rw [Request.print, ← List.length_append, List.drop_left]
    rw [stripped, hd, List.take_of_length_le (by omega)]
    congr 2
    omega
  have hblocks : HoldsStr (r.block ++ r.print.drop r.block.length ++ 0 :: post) 0
      (r.block ++ r.print.drop r.block.length) := by
    refine ⟨fun hm => ?_, post, rfl⟩
    rcases List.mem_append.mp hm with hm | hm
    · exact zero_notMem_entryText (.inr rfl) h.headers hm
    · exact h.zero_notMem (List.mem_of_mem_drop hm)
  have happend := appendAll_ne_nil hne
  obtain ⟨e, es, hes⟩ := List.exists_cons_of_ne_nil happend
  refine ⟨r.headers.length + 1, ⟨r.line, r.method, r.version, r.path⟩, appendAll [] r.headers, ?_,
    rfl, rfl, rfl, fun p => Iff.rfl⟩
  have hround := parseRequest_within
    (c := ⟨r.print ++ 0 :: post, 0, bufSize, n, false, none⟩) rfl rfl hparse
    (show r.line.length + crlf.length ≤ r.print.length by omega) (Nat.le_refl _)
  rw [hstrip] at hround
  rw [httpResponse, responseLoop]
  simp only [hread, hafter]
  rw [if_neg (by rw [hlen]; simp [crlf, ascii]), if_neg hn, hround]
  simp only
  rw [paramsNewParse, parse_headers hne h.headers (Nat.lt_succ_self _) hblocks, hes]

end Request

end Sighttpd.L4
