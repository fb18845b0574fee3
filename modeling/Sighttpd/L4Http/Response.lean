import Sighttpd.L1Data.RoundTrip
import Sighttpd.L4Http.Reqline

/-!
# Reading a request (`http-response.c`, `http_response`)

The loop reads into an array of 8192 bytes, looks for the request line where the last
read began, moves what was read behind it to the front of the array, and parses the
whole array as headers after each read. The results of `read(2)` are a list, `none`
for an error; a call behind the end of the list returns 0.

The array is the front of a memory `s` that reaches as far as the stack does, and the
local variable `n` has whatever value was there before.

* `Reading.afterRead`: a read goes behind the text that is there.
* `parseRequest_within`: the request line is parsed, and what is behind it moved.
-/
namespace Sighttpd.L4
open Sighttpd.CString Sighttpd.L1

def bufSize : Nat := 8192

/-- The locals of `http_response`; `request` is `none` until it is filled in. Mirrors
src/http-response.c:129-136 -/
structure Connection where
  s : Bytes
  cur : Nat
  rem : Nat
  n : Nat
  init : Bool
  request : Option HttpRequest

/-- How `http_response` ends: `respond` was called, with the reads not done yet; the
client closed; a `memmove` ran off the stack; or a parser does not end. -/
inductive Outcome where
  | responded (request : Option HttpRequest) (headers : List Param) (reads : List (Option Bytes))
  | closed
  | crashed
  | looping
  deriving DecidableEq, Repr

/-- `read (fd, cur, rem)` -/
def readInput (c : Connection) : Option Bytes → Nat × Connection
  | none => (sizeMod - 1, c)
  | some bytes => ((bytes.take c.rem).length, { c with s := store c.s c.cur (bytes.take c.rem) })

/-- mirrors src/http-response.c:150-153 -/
def terminate (c : Connection) (nread : Nat) : Connection :=
  if nread < bufSize then { c with s := store c.s (c.cur + nread) [0] } else c

/-- The request line, and the move behind it; mirrors src/http-response.c:155-162. `none`
when `nread - n` wraps, or is longer than the memory there is. -/
def parseRequest (c : Connection) (nread : Nat) : Option Connection :=
  if c.init then some c
  else match httpRequestParse c.s c.cur with
    | (n, none) => some { c with n }
    | (n, some request) =>
      if nread < n ∨ c.s.length < nread then none
      else
        some { c with n, s := store c.s 0 ((c.s.drop n).take (nread - n)), init := true,
                      request := some request }

/-- The end of a round that did not find the end of the headers. -/
def advance (c : Connection) : Connection :=
  let n := (strAt c.s c.cur).length
  { c with n, cur := c.cur + n, rem := (c.rem + sizeMod - n) % sizeMod }

/-- The loop of `http_response`; mirrors src/http-response.c:145-173. `fuel` is that of
the header parser. -/
def responseLoop (fuel : Nat) : List (Option Bytes) → Connection → Outcome
  | [], _ => .closed
  | r :: reads, c =>
    -- the test of `n` comes in front of its first assignment
    if (readInput c r).1 = 0 then .closed
    else if c.n = sizeMod - 1 then responseLoop fuel reads (readInput c r).2
    else match parseRequest (terminate (readInput c r).2 (readInput c r).1) (readInput c r).1 with
      | none => .crashed
      | some c =>
        match paramsNewParse fuel c.s (strAt c.s 0).length .headers with
        | none => .looping
        | some [] => responseLoop fuel reads (advance c)
        | some (h :: headers) => .responded c.request (h :: headers) reads

/-- mirrors src/http-response.c:127-179 (`http_response`); `s` and `n` are what the
stack holds. -/
def httpResponse (fuel : Nat) (s : Bytes) (n : Nat) (reads : List (Option Bytes)) : Outcome :=
  responseLoop fuel reads
    { s, cur := 0, rem := bufSize, n, init := false, request := none }

/-! ## One round -/

/-- The array holds the text `a`, and the next read goes behind it. -/
structure Reading (c : Connection) (a : Bytes) : Prop where
  text : ∃ post, c.s = a ++ post
  size : bufSize ≤ c.s.length
  cur : c.cur = a.length
  rem : c.rem = bufSize - a.length
  n : c.n ≠ sizeMod - 1

section Round
variable {c : Connection} {a p : Bytes}

theorem store_append (x y z bs : Bytes) (hy : y.length = bs.length) :
    store (x ++ (y ++ z)) x.length bs = x ++ (bs ++ z) := by
  rw [store, List.take_left, ← hy, ← List.drop_drop, List.drop_left, List.drop_left,
    List.append_assoc]

/-- What a read leaves in the array. -/
theorem Reading.afterRead (h : Reading c a) (hlen : (a ++ p).length < bufSize) :
    (readInput c (some p)).1 = p.length ∧
    ∃ post, terminate (readInput c (some p)).2 p.length = { c with s := a ++ p ++ 0 :: post } ∧
      (a ++ p ++ 0 :: post).length = c.s.length := by
  obtain ⟨⟨post, hs⟩, hsize, hcur, hrem, -⟩ := h
  rw [List.length_append] at hlen
  have htake : p.take c.rem = p := List.take_of_length_le (by omega)
  have hpost : (a ++ post).length = c.s.length := by rw [hs]
  rw [List.length_append] at hpost
  -- the part of the memory that is overwritten, and the byte behind it
  obtain ⟨old, z, rfl, hold⟩ : ∃ old z, post = old ++ z ∧ old.length = p.length :=
    ⟨post.take p.length, post.drop p.length, (List.take_append_drop ..).symm,
      List.length_take_of_le (by omega)⟩
  rw [List.length_append] at hpost
  obtain ⟨d, z, rfl⟩ := List.exists_cons_of_ne_nil (l := z) (by rintro rfl; simp at hpost; omega)
  refine ⟨by rw [readInput, htake], z, ?_, by simp at hpost ⊢; omega⟩
  have hend : c.cur + p.length = (a ++ p).length := by rw [hcur, List.length_append]
  rw [readInput, htake, terminate, if_pos (by omega)]
  simp only [hend]
  rw [hs, hcur, store_append a old (d :: z) p hold, ← List.append_assoc]
  congr 1
  exact store_append (a ++ p) [d] z [0] rfl

/-- The text of the array when the request line, `n` bytes of the last `nread`, has been
moved over. -/
def stripped (t : Bytes) (n nread : Nat) : Bytes := (t.drop n).take (nread - n) ++ t.drop (nread - n)

theorem length_stripped {t : Bytes} {n nread : Nat} (hn : n ≤ nread) (hle : nread ≤ t.length) :
    (stripped t n nread).length = t.length := by
  simp only [stripped, List.length_append, List.length_take, List.length_drop]
  omega

theorem store_stripped {t post : Bytes} {n nread : Nat} (hn : n ≤ nread) (hle : nread ≤ t.length) :
    store (t ++ post) 0 (((t ++ post).drop n).take (nread - n)) = stripped t n nread ++ post := by
  have hlen : ((t.drop n).take (nread - n)).length = nread - n := by
    rw [List.length_take, List.length_drop]
    omega
  rw [List.drop_append_of_le_length (by omega),
    List.take_append_of_le_length (by rw [List.length_drop]; omega), store, hlen, List.take_zero,
    List.nil_append, Nat.zero_add, List.drop_append_of_le_length (by omega), stripped,
    List.append_assoc]

theorem parseRequest_init (hc : c.init = true) (nread : Nat) : parseRequest c nread = some c := by
  rw [parseRequest, if_pos hc]

theorem parseRequest_none {n : Nat} (hc : c.init = false) (nread : Nat)
    (hp : httpRequestParse c.s c.cur = (n, none)) : parseRequest c nread = some { c with n } := by
  rw [parseRequest, if_neg (by simp [hc]), hp]

theorem parseRequest_beyond {n nread : Nat} {req : HttpRequest} (hc : c.init = false)
    (hp : httpRequestParse c.s c.cur = (n, some req)) (hn : nread < n) :
    parseRequest c nread = none := by
  rw [parseRequest, if_neg (by simp [hc]), hp]
  simp only [if_pos (Or.inl hn : nread < n ∨ c.s.length < nread)]

theorem parseRequest_within {t post : Bytes} {n nread : Nat} {req : HttpRequest}
    (hc : c.init = false) (hs : c.s = t ++ post) (hp : httpRequestParse c.s c.cur = (n, some req))
    (hn : n ≤ nread) (hle : nread ≤ t.length) :
    parseRequest c nread =
      some { c with n, s := stripped t n nread ++ post, init := true, request := some req } := by
  have hsize : ¬ (nread < n ∨ (t ++ post).length < nread) := by
    rw [List.length_append]
    omega
  rw [parseRequest, if_neg (by simp [hc]), hp]
  simp only [hs, if_neg hsize, store_stripped hn hle]

end Round

end Sighttpd.L4
