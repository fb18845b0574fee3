import Sighttpd.Core.CString

/-!
# Parameter lists (`params.c`)

A parameter list is an ordered list of name/value pairs; NULL is the empty
list. Names are compared ignoring case, and `params_append` joins the value of a
repeated name behind a comma.

`params_snprint` prints into a block `mem` whose first `n` bytes are the buffer.
The length C99 `snprintf` returns is taken as a natural number.

* `nodup_appendAll`: the names of a list built by `params_append` are pairwise
  different, and
* `appendAll_of_nodup`: appending such entries again changes nothing.
* `forall_appendAll`: a property of names and values that a joining comma keeps
  holds of the whole list.
-/
namespace Sighttpd.L1
open Sighttpd.CString

/-- mirrors src/params.c:22-25 (`params_t`) -/
structure Param where
  key : Bytes
  value : Bytes
  deriving DecidableEq, Repr

/-- mirrors src/params.c:15-20 (`params_style`) -/
inductive Style where
  | query
  | headers
  | metatags
  | paramtags
  deriving DecidableEq, Repr

def crlf : Bytes := ascii "\r\n"

/-! ## The list -/

/-- mirrors src/params.c:114-128 (`params_get`) -/
def paramsGet : List Param → Bytes → Option Bytes
  | [], _ => none
  | p :: l, key => if strcasecmp p.key key = 0 then some p.value else paramsGet l key

/-- mirrors src/params.c:157-178 (`params_append`), for non-NULL `key` and `value` -/
def paramsAppend : List Param → Bytes → Bytes → List Param
  | [], key, value => [⟨key, value⟩]
  | p :: l, key, value =>
    if strcasecmp p.key key = 0 then { p with value := p.value ++ ascii "," ++ value } :: l
    else p :: paramsAppend l key value

/-- `params_append`s the entries in order. -/
def appendAll (params : List Param) (entries : List Param) : List Param :=
  entries.foldl (fun l e => paramsAppend l e.key e.value) params

@[simp] theorem appendAll_nil (params : List Param) : appendAll params [] = params := rfl

@[simp] theorem appendAll_cons (params : List Param) (e : Param) (entries : List Param) :
    appendAll params (e :: entries) = appendAll (paramsAppend params e.key e.value) entries := rfl

/-- Names are told apart by their lower-case form. -/
def names (params : List Param) : List Bytes := params.map fun p => lower p.key

@[simp] theorem names_cons (p : Param) (l : List Param) :
    names (p :: l) = lower p.key :: names l := rfl

/-- Appending under a name that is not there yet adds an entry at the end. -/
theorem paramsAppend_new {params : List Param} {key : Bytes} (value : Bytes)
    (h : lower key ∉ names params) : paramsAppend params key value = params ++ [⟨key, value⟩] := by
  induction params with
  | nil => rfl
  | cons p l ih =>
    simp only [names_cons, List.mem_cons, not_or] at h
    rw [paramsAppend, if_neg (by rw [strcasecmp_eq_zero]; exact fun he => h.1 he.symm),
      ih h.2, List.cons_append]

theorem names_paramsAppend (params : List Param) (key value : Bytes) :
    names (paramsAppend params key value) =
      if lower key ∈ names params then names params else names params ++ [lower key] := by
  induction params with
  | nil => rfl
  | cons p l ih =>
    by_cases h : lower p.key = lower key
    · rw [paramsAppend, if_pos (strcasecmp_eq_zero.mpr h), names_cons, names_cons, h,
        if_pos (List.mem_cons_self ..)]
    · rw [paramsAppend, if_neg (by rwa [strcasecmp_eq_zero]), names_cons, names_cons, ih]
      by_cases hm : lower key ∈ names l
      · rw [if_pos hm, if_pos (List.mem_cons_of_mem _ hm)]
      · have hne : lower key ∉ lower p.key :: names l :=
          List.not_mem_cons_of_ne_of_not_mem (fun he => h he.symm) hm
        rw [if_neg hm, if_neg hne, List.cons_append]

/-- `params_append` keeps the names pairwise different. -/
theorem nodup_paramsAppend {params : List Param} (h : (names params).Nodup) (key value : Bytes) :
    (names (paramsAppend params key value)).Nodup := by
  rw [names_paramsAppend]
  split
  · exact h
  · rw [List.nodup_append]
    refine ⟨h, by simp, ?_⟩
    rintro a ha b hb rfl
    rw [List.mem_singleton] at hb
    exact ‹lower key ∉ names params› (hb ▸ ha)

theorem nodup_appendAll {params : List Param} (h : (names params).Nodup) (entries : List Param) :
    (names (appendAll params entries)).Nodup := by
  induction entries generalizing params with
  | nil => exact h
  | cons e entries ih => exact ih (nodup_paramsAppend h e.key e.value)

/-- Appending entries with new, pairwise different names is list append. -/
theorem appendAll_of_nodup {params entries : List Param} (h : (names (params ++ entries)).Nodup) :
    appendAll params entries = params ++ entries := by
  induction entries generalizing params with
  | nil => simp
  | cons e entries ih =>
    have hnew : lower e.key ∉ names params := by
      intro hmem
      rw [names, List.map_append, List.nodup_append] at h
      exact h.2.2 _ hmem _ (by simp) rfl
    rw [appendAll_cons, paramsAppend_new _ hnew, ih (by simpa using h)]
    simp

/-- What holds of every name and value holds after a `params_append` of such a
pair, if it survives the comma that joins two values. -/
theorem forall_paramsAppend {K V : Bytes → Prop}
    (hjoin : ∀ a b, V a → V b → V (a ++ ascii "," ++ b)) {params : List Param}
    (hp : ∀ p ∈ params, K p.key ∧ V p.value) {key value : Bytes} (hk : K key) (hv : V value) :
    ∀ p ∈ paramsAppend params key value, K p.key ∧ V p.value := by
  induction params with
  | nil => simpa [paramsAppend] using ⟨hk, hv⟩
  | cons q l ih =>
    obtain ⟨hq, hl⟩ := List.forall_mem_cons.mp hp
    rw [paramsAppend]
    split
    · exact List.forall_mem_cons.mpr ⟨⟨hq.1, hjoin _ _ hq.2 hv⟩, hl⟩
    · exact List.forall_mem_cons.mpr ⟨hq, ih hl⟩

theorem forall_appendAll {K V : Bytes → Prop}
    (hjoin : ∀ a b, V a → V b → V (a ++ ascii "," ++ b)) {params entries : List Param}
    (hp : ∀ p ∈ params, K p.key ∧ V p.value) (he : ∀ e ∈ entries, K e.key ∧ V e.value) :
    ∀ p ∈ appendAll params entries, K p.key ∧ V p.value := by
  induction entries generalizing params with
  | nil => exact hp
  | cons e entries ih =>
    obtain ⟨h1, h2⟩ := List.forall_mem_cons.mp he
    exact ih (forall_paramsAppend hjoin hp h1.1 h1.2) h2

/-! ## Printing -/

/-- Stores `bs` from offset `p` on. -/
def store (mem : Bytes) (p : Nat) (bs : Bytes) : Bytes :=
  mem.take p ++ bs ++ mem.drop (p + bs.length)

theorem store_take (bs : Bytes) {mem : Bytes} {p : Nat} (hp : p ≤ mem.length) :
    (store mem p bs).take (p + bs.length) = mem.take p ++ bs := by
  rw [store]
  exact List.take_left' (by simp [hp])

theorem store_drop {mem bs : Bytes} {p n : Nat} (hp : p ≤ mem.length) (hn : p + bs.length ≤ n) :
    (store mem p bs).drop n = mem.drop n := by
  have hlen : (mem.take p ++ bs).length = p + bs.length := by simp [hp]
  rw [store, List.drop_append, List.drop_eq_nil_of_le (by omega), List.nil_append, List.drop_drop, hlen]
  congr 1
  omega

theorem length_store {mem bs : Bytes} {p : Nat} (hp : p ≤ mem.length) :
    (store mem p bs).length = max mem.length (p + bs.length) := by
  simp only [store, List.length_append, List.length_take, List.length_drop]
  omega

/-- The NUL behind what is stored. -/
theorem nul_store {mem : Bytes} {p : Nat} (bs : Bytes) (hp : p ≤ mem.length) :
    (store mem p (bs ++ [0]))[p + bs.length]? = some 0 := by
  have hlen : (mem.take p ++ bs).length = p + bs.length := by simp [hp]
  rw [store, ← List.append_assoc, List.append_assoc _ [0], List.getElem?_append_right (by omega), hlen,
    Nat.sub_self]
  rfl

/-- What `snprintf (buf, n, ..)` leaves in memory when the formatted text is `text`. -/
def snprintf (mem : Bytes) (buf : Option Nat) (n : Nat) (text : Bytes) : Bytes :=
  match buf with
  | some b => if 0 < n then store mem b (text.take (n - 1) ++ [0]) else mem
  | none => mem

/-- The `format` of each style; mirrors src/params.c:73-89 -/
def paramsFormat : Style → Param → Bytes
  | .query, p => p.key ++ ascii "=" ++ p.value ++ ascii "&"
  | .headers, p => p.key ++ ascii ": " ++ p.value ++ ascii "\r\n"
  | .metatags, p => ascii "<meta name=\"" ++ p.key ++ ascii "\" content=\"" ++ p.value ++ ascii "\"/>\n"
  | .paramtags, p =>
    ascii "<param name=\"" ++ p.key ++ ascii "\" content=\"" ++ p.value ++ ascii "\"/>\n"

/-- `SIZE_MAX + 1` -/
def sizeMod : Nat := 2 ^ 64

/-- mirrors src/params.c:37-64 (`snprint_params_format`); the memory left and `total` -/
def snprintParamsFormat (format : Param → Bytes) (mem : Bytes) (buf : Option Nat) (n total : Nat) :
    List Param → Bytes × Nat
  | [] => (mem, total)
  | p :: l =>
    let len := (format p).length
    let mem := snprintf mem buf n (format p)
    if len ≤ n then
      snprintParamsFormat format mem (buf.map (· + len)) (n - len) ((total + len) % sizeMod) l
    else snprintParamsFormat format mem none 0 ((total + len) % sizeMod) l

/-- The `int` a `size_t` is returned as. -/
def intOfSize (len : Nat) : Int := Int.bmod len (2 ^ 32)

/-- mirrors src/params.c:66-112 (`params_snprint`); the value returned and the memory left -/
def paramsSnprint (mem : Bytes) (n : Nat) (params : List Param) (style : Style) : Int × Bytes :=
  let (mem, len) := snprintParamsFormat (paramsFormat style) mem (some 0) n 0 params
  if len = sizeMod - 1 then (-1, mem)
  else match style with
    | .query =>
      -- `len--` wraps when nothing was printed
      let len := (len + sizeMod - 1) % sizeMod
      (intOfSize len, if len ≤ n then store mem len [0] else mem)
    | .headers =>
      -- `n - 2` wraps when `n` is 1
      if 0 < n ∧ len < (n + sizeMod - 2) % sizeMod then
        (intOfSize (len + 2), store mem len (ascii "\r\n" ++ [0]))
      else (intOfSize ((len + 2) % sizeMod), mem)
    | _ => (intOfSize len, mem)

end Sighttpd.L1
