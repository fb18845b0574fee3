import Mathlib.Algebra.Group.Nat.Defs
import Mathlib.Data.List.TakeWhile
import Mathlib.Data.List.Basic

/-!
# C strings

Memory is a list of bytes and a pointer an offset into it; the string at a
pointer runs up to the first NUL. `strcspn`, `strspn`, `memset`, `strndup` and
the comparison functions follow the C standard (in the "C" locale, so that only
`A`..`Z` have a lower case).

* `strcspn_append`, `strspn_append`: the span of a string that is split behind it.
* `HoldsStr.strAt_eq`, `drop_memset`: what a pointer shows, before and after a
  `memset` behind it.
* `strcmp_eq_zero`, `strcasecmp_eq_zero`: the comparisons are equality, and
  equality of the lower-cased strings.
-/
namespace Sighttpd

abbrev Bytes := List UInt8

/-- A bounded quantifier over bytes runs through the string, and not through all 256 bytes. -/
instance (priority := 2000) decidableForallBytes (s : Bytes) (p : UInt8 → Prop) [DecidablePred p] :
    Decidable (∀ c ∈ s, p c) := List.decidableBAll p s

instance (priority := 2000) decidableForallByte (o : Option UInt8) (p : UInt8 → Prop)
    [DecidablePred p] : Decidable (∀ c ∈ o, p c) := Option.decidableForallMem o

/-- The bytes of an ASCII literal. -/
def ascii (s : String) : Bytes := s.toList.map fun c => UInt8.ofNat c.toNat

namespace CString

/-! ## Strings in memory -/

/-- The string that starts at the front of `mem`. -/
def cstr (mem : Bytes) : Bytes := mem.takeWhile (· ≠ 0)

def strAt (mem : Bytes) (p : Nat) : Bytes := cstr (mem.drop p)

/-- The block `strndup (s, n)` returns. -/
def strndup (s : Bytes) (n : Nat) : Bytes := (cstr s).take n ++ [0]

def memset (mem : Bytes) (p n : Nat) (c : UInt8) : Bytes :=
  mem.take p ++ List.replicate n c ++ mem.drop (p + n)

theorem zero_notMem_cstr (mem : Bytes) : 0 ∉ cstr mem := by
  intro h
  simpa using List.mem_takeWhile_imp h

/-- Memory from offset `p` on is the string `s`, its NUL, and whatever follows. -/
def HoldsStr (mem : Bytes) (p : Nat) (s : Bytes) : Prop :=
  0 ∉ s ∧ ∃ post, mem.drop p = s ++ 0 :: post

theorem takeWhile_append_stop {p : UInt8 → Bool} {s post : Bytes} {c : UInt8}
    (hs : ∀ a ∈ s, p a) (hc : p c = false) : (s ++ c :: post).takeWhile p = s := by
  rw [List.takeWhile_append_of_pos hs, List.takeWhile_cons_of_neg (by simp [hc]), List.append_nil]

theorem dropWhile_append_stop {p : UInt8 → Bool} {s post : Bytes} {c : UInt8}
    (hs : ∀ a ∈ s, p a) (hc : p c = false) : (s ++ c :: post).dropWhile p = c :: post := by
  rw [List.dropWhile_append_of_pos hs, List.dropWhile_cons_of_neg (by simp [hc])]

/-- `dropWhile` stops at an element that fails the test. -/
theorem dropWhile_stop {p : UInt8 → Bool} {s t : Bytes} {c : UInt8} (h : s.dropWhile p = c :: t) :
    p c = false := by
  simpa [h] using List.head?_dropWhile_not p s

theorem cstr_append_nul {s post : Bytes} (hs : 0 ∉ s) : cstr (s ++ 0 :: post) = s :=
  takeWhile_append_stop (by intro a ha; simp; rintro rfl; exact hs ha) (by simp)

theorem HoldsStr.strAt_eq {mem s : Bytes} {p : Nat} (h : HoldsStr mem p s) : strAt mem p = s := by
  obtain ⟨hs, post, hd⟩ := h
  rw [strAt, hd, cstr_append_nul hs]

/-- A `memset` of the middle part, seen from a pointer in front of it. -/
theorem drop_memset {mem x y z : Bytes} {p : Nat} (c : UInt8) (h : mem.drop p = x ++ y ++ z)
    (hy : p ≤ mem.length) :
    (memset mem (p + x.length) y.length c).drop p = x ++ List.replicate y.length c ++ z := by
  have hx : mem.take (p + x.length) = mem.take p ++ x := by
    rw [List.take_add, h, List.append_assoc, List.take_left]
  have hz : mem.drop (p + x.length + y.length) = z := by
    rw [Nat.add_assoc, ← List.drop_drop, h, ← List.length_append, List.drop_left]
  rw [memset, hx, hz, List.append_assoc, List.append_assoc,
    List.drop_left' (by simp [hy]), List.append_assoc]

theorem HoldsStr.suffix {mem x y : Bytes} {p : Nat} (h : HoldsStr mem p (x ++ y)) :
    HoldsStr mem (p + x.length) y := by
  obtain ⟨h0, post, hd⟩ := h
  refine ⟨fun hm => h0 (List.mem_append_right x hm), post, ?_⟩
  rw [← List.drop_drop, hd, List.append_assoc, List.drop_left]

theorem HoldsStr.drop {mem s : Bytes} {p k : Nat} (h : HoldsStr mem p s) (hk : k ≤ s.length) :
    HoldsStr mem (p + k) (s.drop k) := by
  have hs := HoldsStr.suffix (x := s.take k) (y := s.drop k) (by rwa [List.take_append_drop])
  rwa [List.length_take_of_le hk] at hs

theorem HoldsStr.le_length {mem s : Bytes} {p : Nat} (h : HoldsStr mem p s) : p ≤ mem.length := by
  obtain ⟨-, post, hd⟩ := h
  have := congrArg List.length hd
  simp only [List.length_drop, List.length_append, List.length_cons] at this
  omega

/-- Zeroing a part of a string cuts it off there. -/
theorem HoldsStr.memset {mem x y z : Bytes} {p : Nat} (h : HoldsStr mem p (x ++ (y ++ z)))
    (hy : y = [] → z = []) : HoldsStr (memset mem (p + x.length) y.length 0) p x := by
  have hle := h.le_length
  obtain ⟨h0, post, hd⟩ := h
  refine ⟨fun hm => h0 (List.mem_append_left _ hm), ?_⟩
  rw [drop_memset 0 (z := z ++ 0 :: post) (by simp [hd]) hle]
  cases y with
  | nil => exact ⟨post, by simp [hy rfl]⟩
  | cons c y => exact ⟨List.replicate y.length 0 ++ (z ++ 0 :: post), by simp [List.replicate_succ]⟩

theorem HoldsStr.memset_behind {mem x y z : Bytes} {p : Nat} (c : UInt8)
    (h : HoldsStr mem p (x ++ (y ++ z))) :
    HoldsStr (CString.memset mem (p + x.length) y.length c) (p + x.length + y.length) z := by
  have hle := h.le_length
  obtain ⟨h0, post, hd⟩ := h
  refine ⟨fun hm => h0 (by simp [hm]), post, ?_⟩
  have hm := drop_memset (x := x) (y := y) (z := z ++ 0 :: post) c (by simp [hd]) hle
  rw [Nat.add_assoc, ← List.drop_drop, hm, List.drop_left' (by simp)]

/-- A `memset` behind the NUL of a string leaves the string alone. -/
theorem HoldsStr.memset_frame {mem s : Bytes} {p q n : Nat} (c : UInt8) (h : HoldsStr mem p s)
    (hq : p + s.length < q) (hle : q ≤ mem.length) : HoldsStr (CString.memset mem q n c) p s := by
  obtain ⟨h0, post, hd⟩ := h
  refine ⟨h0, post.take (q - p - s.length - 1) ++ (List.replicate n c ++ mem.drop (q + n)), ?_⟩
  have htake : (mem.take q).drop p = s ++ 0 :: post.take (q - p - s.length - 1) := by
    rw [List.drop_take, hd, List.take_append, List.take_of_length_le (by omega),
      show q - p - s.length = q - p - s.length - 1 + 1 by omega, List.take_succ_cons]
    rfl
  rw [CString.memset, List.append_assoc, List.drop_append_of_le_length (by simp; omega), htake]
  simp

theorem holdsStr_cstr {mem : Bytes} (h : 0 ∈ mem) : HoldsStr mem 0 (cstr mem) := by
  refine ⟨zero_notMem_cstr mem, ?_⟩
  have happ := List.takeWhile_append_dropWhile (p := fun c : UInt8 => decide (c ≠ 0)) (l := mem)
  cases hd : mem.dropWhile (fun c : UInt8 => decide (c ≠ 0)) with
  | nil => exact absurd (List.dropWhile_eq_nil_iff.mp hd 0 h) (by simp)
  | cons c post =>
    have hc : c = 0 := by simpa using dropWhile_stop hd
    exact ⟨post, by rw [List.drop_zero, ← hc, ← hd]; exact happ.symm⟩

theorem holdsStr_strndup (s : Bytes) (n : Nat) : HoldsStr (strndup s n) 0 ((cstr s).take n) :=
  ⟨fun h => zero_notMem_cstr s (List.mem_of_mem_take h), [], rfl⟩

/-- A string ends at the latest in front of a NUL. -/
theorem strAt_length_le {mem : Bytes} {p i : Nat} (h : mem[i]? = some 0) (hp : p ≤ i) :
    (strAt mem p).length + p ≤ i := by
  by_contra hlt
  obtain ⟨t, ht⟩ : strAt mem p <+: mem.drop p := List.takeWhile_prefix _
  have hget : (strAt mem p)[i - p]? = some 0 := by
    rw [← List.getElem?_append_left (by omega), ht, List.getElem?_drop,
      show p + (i - p) = i by omega, h]
  exact zero_notMem_cstr _ (List.mem_of_getElem? hget)

/-! ## Spans -/

def strcspn (s reject : Bytes) : Nat := (s.takeWhile (· ∉ reject)).length

def strspn (s accept : Bytes) : Nat := (s.takeWhile (· ∈ accept)).length

theorem take_length_takeWhile (p : UInt8 → Bool) (s : Bytes) :
    s.take (s.takeWhile p).length = s.takeWhile p :=
  (List.prefix_iff_eq_take.mp (List.takeWhile_prefix p)).symm

theorem drop_length_takeWhile (p : UInt8 → Bool) (s : Bytes) :
    s.drop (s.takeWhile p).length = s.dropWhile p := by
  have h : (s.takeWhile p ++ s.dropWhile p).drop (s.takeWhile p).length = s.dropWhile p :=
    List.drop_left
  rwa [List.takeWhile_append_dropWhile] at h

theorem drop_strcspn (s r : Bytes) : s.drop (strcspn s r) = s.dropWhile (· ∉ r) :=
  drop_length_takeWhile _ s

theorem length_dropWhile_add_strspn (s a : Bytes) :
    (s.dropWhile (· ∈ a)).length + strspn s a = s.length := by
  have h := congrArg List.length (List.takeWhile_append_dropWhile (p := (· ∈ a)) (l := s))
  rw [List.length_append] at h
  rw [strspn]
  omega

theorem length_dropWhile_add_strcspn (s r : Bytes) :
    (s.dropWhile (· ∉ r)).length + strcspn s r = s.length := by
  have h := congrArg List.length (List.takeWhile_append_dropWhile (p := (· ∉ r)) (l := s))
  rw [List.length_append] at h
  rw [strcspn]
  omega

theorem strcspn_le (s r : Bytes) : strcspn s r ≤ s.length :=
  (List.takeWhile_sublist _).length_le

theorem takeWhile_append_eq {p : UInt8 → Bool} {x y : Bytes} (hx : ∀ c ∈ x, p c)
    (hy : ∀ c t, y = c :: t → p c = false) : (x ++ y).takeWhile p = x := by
  cases y with
  | nil => rw [List.append_nil]; exact List.takeWhile_eq_self_iff.mpr hx
  | cons c t => exact takeWhile_append_stop hx (hy c t rfl)

theorem dropWhile_append_eq {p : UInt8 → Bool} {x y : Bytes} (hx : ∀ c ∈ x, p c)
    (hy : ∀ c t, y = c :: t → p c = false) : (x ++ y).dropWhile p = y := by
  cases y with
  | nil => rw [List.append_nil]; exact List.dropWhile_eq_nil_iff.mpr hx
  | cons c t => exact dropWhile_append_stop hx (hy c t rfl)

theorem strcspn_append {x y r : Bytes} (hx : ∀ c ∈ x, c ∉ r) (hy : ∀ c t, y = c :: t → c ∈ r) :
    strcspn (x ++ y) r = x.length := by
  rw [strcspn, takeWhile_append_eq (by simpa using hx) fun c t he => by simpa using hy c t he]

theorem strspn_append {x y a : Bytes} (hx : ∀ c ∈ x, c ∈ a) (hy : ∀ c t, y = c :: t → c ∉ a) :
    strspn (x ++ y) a = x.length := by
  rw [strspn, takeWhile_append_eq (by simpa using hx) fun c t he => by simpa using hy c t he]

theorem mem_intercalate {c : UInt8} {sep : Bytes} {xs : List Bytes}
    (h : c ∈ sep.intercalate xs) : c ∈ sep ∨ ∃ x ∈ xs, c ∈ x := by
  induction xs with
  | nil => exact absurd h (by simp)
  | cons x xs ih =>
    cases xs with
    | nil => exact .inr ⟨x, List.mem_cons_self .., by simpa using h⟩
    | cons y xs =>
      rw [List.intercalate_cons_cons, List.mem_append, List.mem_append] at h
      rcases h with (h | h) | h
      · exact .inr ⟨x, List.mem_cons_self .., h⟩
      · exact .inl h
      · exact (ih h).imp_right fun ⟨z, hz, hc⟩ => ⟨z, List.mem_cons_of_mem _ hz, hc⟩

/-! ## Comparison -/

/-- The sign of `strcmp`; the standard leaves the magnitude open. -/
def strcmp : Bytes → Bytes → Int
  | [], [] => 0
  | [], _ :: _ => -1
  | _ :: _, [] => 1
  | a :: s, b :: t => if a = b then strcmp s t else if a < b then -1 else 1

def tolower (c : UInt8) : UInt8 := if 65 ≤ c ∧ c ≤ 90 then c + 32 else c

def lower (s : Bytes) : Bytes := s.map tolower

def strcasecmp (s t : Bytes) : Int := strcmp (lower s) (lower t)

def strncasecmp (s t : Bytes) (n : Nat) : Int := strcasecmp (s.take n) (t.take n)

theorem strcmp_eq_zero {s t : Bytes} : strcmp s t = 0 ↔ s = t := by
  induction s generalizing t with
  | nil => cases t <;> simp [strcmp]
  | cons a s ih =>
    cases t with
    | nil => simp [strcmp]
    | cons b t =>
      by_cases hab : a = b
      · simp [strcmp, hab, ih]
      · by_cases hlt : a < b <;> simp [strcmp, hab, hlt]

theorem strcasecmp_eq_zero {s t : Bytes} : strcasecmp s t = 0 ↔ lower s = lower t := strcmp_eq_zero

end CString
end Sighttpd
