import Sighttpd.L1Data.ParamsPrint

/-!
# The buffer of `params_snprint`

`PrintOk` is what `params.h` says of the buffer and the length returned, for a text of
any length and a buffer of `n` bytes.

* `printed_drop`, `printed_cut`: what `snprint_params_format` leaves is inside the buffer
  and a beginning of the text.
* `snprint_iff`: where the ending of each style keeps that up.
-/
namespace Sighttpd.L1
open Sighttpd.CString

/-- For a buffer of `n` bytes at the front of `mem`: nothing is stored behind it, the length
of the text is returned, and the buffer holds the text or a beginning of it. -/
structure PrintOk (mem : Bytes) (n : Nat) (text : Bytes) (r : Int × Bytes) : Prop where
  inside : r.2.drop n = mem.drop n
  returns : r.1 = text.length
  whole : text.length < n → r.2.take (text.length + 1) = text ++ [0]
  cut : 0 < n → n ≤ text.length → ∃ k < n, r.2.take (k + 1) = text.take k ++ [0]

/-- The sizes at which the ending of a style is right. -/
def BufferFits (params : List Param) (n : Nat) : Style → Prop
  | .query => params ≠ [] ∧ n ≠ (entryText .query params).length
  | .headers => n ≠ 1 ∧ ¬(params = [] ∧ n = 2)
  | .metatags => params ≠ [] ∨ n = 0
  | .paramtags => params ≠ [] ∨ n = 0

instance (params : List Param) (n : Nat) (style : Style) : Decidable (BufferFits params n style) := by
  unfold BufferFits
  cases style <;> infer_instance

/-! ## Lengths -/

theorem intOfSize_def (len : Nat) : intOfSize len =
    if (len : Int) % 4294967296 < 2147483648 then (len : Int) % 4294967296
    else (len : Int) % 4294967296 - 4294967296 := rfl

theorem intOfSize_lt (len : Nat) : intOfSize len < 2147483648 := by
  rw [intOfSize_def]
  split <;> omega

theorem intOfSize_eq {len : Nat} (h : len < 2147483648) : intOfSize len = len := by
  rw [intOfSize_def]
  split <;> omega

/-! ## The entries -/

/-- What the entries of a list leave in a buffer of `n` bytes, the text of all being `t`. -/
def printed (mem : Bytes) (n : Nat) (t : Bytes) : Bytes :=
  if 0 < n then store mem 0 (t.take (n - 1) ++ [0]) else mem

/-- As `printed`; nothing is printed of an empty list. -/
def printedEntries (format : Param → Bytes) (mem : Bytes) (n : Nat) (l : List Param) : Bytes :=
  if l = [] then mem else printed mem n (formatAll format l)

theorem snprintParamsFormat_entries (format : Param → Bytes) (l : List Param) (mem : Bytes) (n : Nat)
    (h : (formatAll format l).length < sizeMod) :
    snprintParamsFormat format mem (some 0) n 0 l =
      (printedEntries format mem n l, (formatAll format l).length) := by
  unfold printedEntries printed
  by_cases hl : l = []
  · subst hl
    rfl
  rw [if_neg hl]
  split
  · rw [snprintParamsFormat_eq format l hl mem 0 n 0 ‹_› (Nat.zero_le _) (by decide), Nat.zero_add,
      Nat.mod_eq_of_lt h]
  · obtain rfl : n = 0 := by omega
    rw [snprintParamsFormat_full format l mem (some 0) 0 (by decide), Nat.zero_add, Nat.mod_eq_of_lt h]

section Printed
variable {mem t text : Bytes} {n : Nat}

theorem printed_drop : (printed mem n t).drop n = mem.drop n := by
  unfold printed
  split
  · refine store_drop (Nat.zero_le _) ?_
    rw [List.length_append, List.length_take, List.length_singleton]
    omega
  · rfl

theorem length_printed (hmem : n ≤ mem.length) : (printed mem n t).length = mem.length := by
  unfold printed
  split
  · rw [length_store (Nat.zero_le _), List.length_append, List.length_take, List.length_singleton]
    omega
  · rfl

theorem printed_front (mem t : Bytes) (h0 : 0 < n) :
    (printed mem n t).take ((t.take (n - 1)).length + 1) = t.take (n - 1) ++ [0] := by
  have := store_take (t.take (n - 1) ++ [0]) (Nat.zero_le mem.length)
  rw [Nat.zero_add, List.take_zero, List.nil_append, List.length_append, List.length_singleton] at this
  rwa [printed, if_pos h0]

theorem printed_take {k : Nat} (hn : k < n) (hk : k ≤ t.length) :
    (printed mem n t).take k = t.take k := by
  rw [printed, if_pos (by omega), store, List.take_zero, List.nil_append, List.append_assoc,
    List.take_append_of_le_length (by rw [List.length_take]; omega), List.take_take]
  congr 1
  omega

/-- What was printed of `t` is a beginning of `text`. -/
theorem printed_cut (h0 : 0 < n) (h : t.take (n - 1) <+: text) :
    ∃ k < n, (printed mem n t).take (k + 1) = text.take k ++ [0] := by
  refine ⟨(t.take (n - 1)).length, by rw [List.length_take]; omega, ?_⟩
  rw [printed_front mem t h0, ← List.prefix_iff_eq_take.mp h]

end Printed

section Entries
variable {format : Param → Bytes} {mem : Bytes} {n : Nat} {l : List Param}

theorem printedEntries_drop : (printedEntries format mem n l).drop n = mem.drop n := by
  unfold printedEntries
  split
  · rfl
  · exact printed_drop

theorem length_printedEntries (format : Param → Bytes) (l : List Param) (hmem : n ≤ mem.length) :
    (printedEntries format mem n l).length = mem.length := by
  unfold printedEntries
  split
  · rfl
  · exact length_printed hmem

theorem printedEntries_take (h : (formatAll format l).length < n) :
    (printedEntries format mem n l).take (formatAll format l).length = formatAll format l := by
  unfold printedEntries
  split
  · next hl => rw [hl, formatAll_nil, List.length_nil, List.take_zero]
  · rw [printed_take h (Nat.le_refl _), List.take_length]

end Entries

/-! ## The styles -/

section Styles
variable {mem : Bytes} {l : List Param} {n : Nat}

theorem int_lt_sizeMod : 4294967296 < sizeMod := by decide

theorem snprint_query (hl : l ≠ []) (h : (entryText .query l).length < 2147483648) :
    paramsSnprint mem n l .query = (((entryText .query l).length : Int),
      if (entryText .query l).length ≤ n then
        store (printed mem n (entryText .query l ++ ascii "&")) (entryText .query l).length [0]
      else printed mem n (entryText .query l ++ ascii "&")) := by
  have hsize := int_lt_sizeMod
  have hlen : (entryText .query l ++ ascii "&").length = (entryText .query l).length + 1 := by
    rw [List.length_append]
    rfl
  have hdec : ((entryText .query l).length + 1 + sizeMod - 1) % sizeMod = (entryText .query l).length := by
    rw [Nat.add_right_comm, Nat.add_sub_cancel, Nat.add_mod_right, Nat.mod_eq_of_lt (by omega)]
  have hne : (entryText .query l).length + 1 ≠ sizeMod - 1 := by omega
  have heq := snprintParamsFormat_entries (paramsFormat .query) l mem n
    (by rw [formatAll_query hl, hlen]; omega)
  rw [printedEntries, if_neg hl, formatAll_query hl] at heq
  unfold paramsSnprint
  simp only [heq, hlen, if_neg hne, hdec, intOfSize_eq h]

theorem snprint_headers (h : (entryText .headers l).length < 2147483648) :
    paramsSnprint mem n l .headers = (((entryText .headers l).length : Int),
      if 0 < n ∧ (formatAll (paramsFormat .headers) l).length < (n + sizeMod - 2) % sizeMod then
        store (printedEntries (paramsFormat .headers) mem n l)
          (formatAll (paramsFormat .headers) l).length (crlf ++ [0])
      else printedEntries (paramsFormat .headers) mem n l) := by
  have hsize := int_lt_sizeMod
  have hlen : (entryText .headers l).length = (formatAll (paramsFormat .headers) l).length + 2 := by
    rw [entryText, List.length_append]
    rfl
  rw [hlen] at h ⊢
  have hne : (formatAll (paramsFormat .headers) l).length ≠ sizeMod - 1 := by omega
  unfold paramsSnprint
  simp only [snprintParamsFormat_entries (paramsFormat .headers) l mem n (by omega), if_neg hne]
  split
  · rw [intOfSize_eq h]
    rfl
  · rw [Nat.mod_eq_of_lt (by omega), intOfSize_eq h]

theorem snprint_tags {style : Style} (hs : style = .metatags ∨ style = .paramtags)
    (h : (entryText style l).length < 2147483648) :
    paramsSnprint mem n l style =
      (((entryText style l).length : Int), printedEntries (paramsFormat style) mem n l) := by
  have hsize := int_lt_sizeMod
  have hlen : entryText style l = formatAll (paramsFormat style) l := by rcases hs with rfl | rfl <;> rfl
  rw [hlen] at h ⊢
  have hne : (formatAll (paramsFormat style) l).length ≠ sizeMod - 1 := by omega
  unfold paramsSnprint
  rw [snprintParamsFormat_entries _ l mem n (by omega)]
  rcases hs with rfl | rfl <;> simp only [if_neg hne, intOfSize_eq h]

theorem snprint_empty_query : (paramsSnprint mem n [] .query).1 = -1 := rfl

/-! ## Buffers of every size -/

/-- The length returned is an `int`. -/
theorem snprint_int (mem : Bytes) (n : Nat) (l : List Param) (style : Style) :
    ∃ len, (paramsSnprint mem n l style).1 = intOfSize len := by
  unfold paramsSnprint
  rcases snprintParamsFormat (paramsFormat style) mem (some 0) n 0 l with ⟨mem', len⟩
  simp only
  split
  · exact ⟨4294967295, by simp only; decide⟩
  · cases style with
    | query => exact ⟨(len + sizeMod - 1) % sizeMod, by simp only⟩
    | headers =>
      simp only
      split
      · exact ⟨len + 2, by simp only⟩
      · exact ⟨(len + 2) % sizeMod, by simp only⟩
    | metatags => exact ⟨len, by simp only⟩
    | paramtags => exact ⟨len, by simp only⟩

/-- The buffer holds what was printed of `t`, and nothing was stored behind that. -/
theorem printOk_printed {text t : Bytes} (hpre : t.take (n - 1) <+: text)
    (hwhole : text.length < n → t = text) : PrintOk mem n text (text.length, printed mem n t) where
  inside := printed_drop
  returns := rfl
  whole h := by
    have := printed_front mem t (show 0 < n by omega)
    rw [hwhole h, List.take_of_length_le (show text.length ≤ n - 1 by omega)] at this
    rwa [hwhole h]
  cut h0 _ := printed_cut h0 hpre

section Ok
variable (hmem : n ≤ mem.length)
include hmem

theorem query_ok (hl : l ≠ []) (h : (entryText .query l).length < 2147483648)
    (hn : n ≠ (entryText .query l).length) :
    PrintOk mem n (entryText .query l) (paramsSnprint mem n l .query) := by
  rw [snprint_query hl h]
  generalize entryText .query l = text at h hn ⊢
  by_cases hle : text.length ≤ n
  · -- the separator is overwritten
    rw [if_pos hle]
    have hlen := length_printed (t := text ++ ascii "&") hmem
    have hfront := store_take [0]
      (show text.length ≤ (printed mem n (text ++ ascii "&")).length by omega)
    have htext : (printed mem n (text ++ ascii "&")).take text.length = text := by
      rw [printed_take (by omega) (by simp), List.take_left]
    rw [htext] at hfront
    refine ⟨?_, rfl, fun _ => hfront, fun _ h' => by omega⟩
    rw [store_drop (by omega) (by simp; omega), printed_drop]
  · rw [if_neg hle]
    refine printOk_printed ?_ fun h' => by omega
    rw [List.take_append_of_le_length (by omega)]
    exact List.take_prefix _ _

theorem headers_ok (h : (entryText .headers l).length < 2147483648) (hsize : n < sizeMod) (h1 : n ≠ 1)
    (h2 : ¬(l = [] ∧ n = 2)) :
    PrintOk mem n (entryText .headers l) (paramsSnprint mem n l .headers) := by
  have hlen : (entryText .headers l).length = (formatAll (paramsFormat .headers) l).length + 2 := by
    rw [entryText, List.length_append]
    rfl
  have hsub : 2 ≤ n → (n + sizeMod - 2) % sizeMod = n - 2 := by
    intro h
    rw [show n + sizeMod - 2 = n - 2 + sizeMod by omega, Nat.add_mod_right, Nat.mod_eq_of_lt (by omega)]
  rw [snprint_headers h]
  by_cases hfit : 2 ≤ n ∧ (formatAll (paramsFormat .headers) l).length < n - 2
  · -- the empty line is added
    rw [if_pos ⟨by omega, by rw [hsub hfit.1]; exact hfit.2⟩]
    have hbase := length_printedEntries (paramsFormat .headers) l hmem
    have hfront := store_take (crlf ++ [0])
      (show (formatAll (paramsFormat .headers) l).length ≤
        (printedEntries (paramsFormat .headers) mem n l).length by omega)
    rw [printedEntries_take (by omega)] at hfront
    refine ⟨?_, rfl, fun _ => ?_, fun _ h' => by omega⟩
    · rw [store_drop (by omega) (show _ + 3 ≤ n by omega), printedEntries_drop]
    · rw [hlen, entryText, List.append_assoc]
      exact hfront
  · rw [if_neg (fun hc => hfit ⟨by omega, by rw [← hsub (by omega)]; exact hc.2⟩)]
    by_cases hl : l = []
    · have hnil : (formatAll (paramsFormat .headers) l).length = 0 := by rw [hl]; rfl
      obtain rfl : n = 0 := by
        by_contra h0
        have : n ≠ 2 := fun e => h2 ⟨hl, e⟩
        omega
      exact ⟨printedEntries_drop, rfl, fun h' => by omega, fun h' => by omega⟩
    · rw [printedEntries, if_neg hl]
      exact printOk_printed ((List.take_prefix _ _).trans (List.prefix_append _ _)) fun h' => by omega

theorem tags_ok {style : Style} (hs : style = .metatags ∨ style = .paramtags)
    (h : (entryText style l).length < 2147483648) (hn : l ≠ [] ∨ n = 0) :
    PrintOk mem n (entryText style l) (paramsSnprint mem n l style) := by
  have htext : entryText style l = formatAll (paramsFormat style) l := by rcases hs with rfl | rfl <;> rfl
  rw [snprint_tags hs h]
  by_cases hl : l = []
  · obtain rfl : n = 0 := hn.resolve_left (fun hne => hne hl)
    exact ⟨printedEntries_drop, rfl, fun h' => by omega, fun h' => by omega⟩
  · rw [printedEntries, if_neg hl]
    refine printOk_printed ?_ fun _ => htext.symm
    rw [htext]
    exact List.take_prefix _ _

end Ok

/-- The separator is overwritten behind the buffer. -/
theorem query_stores_behind (hl : l ≠ []) (h : (entryText .query l).length < 2147483648)
    (hmem : mem.length = (entryText .query l).length) :
    ¬PrintOk mem (entryText .query l).length (entryText .query l)
      (paramsSnprint mem (entryText .query l).length l .query) := by
  intro hok
  have hlen := congrArg List.length hok.inside
  rw [snprint_query hl h, if_pos (Nat.le_refl _), List.length_drop, List.length_drop,
    length_store (by rw [length_printed hmem.ge, hmem]), length_printed hmem.ge, List.length_singleton,
    hmem] at hlen
  omega

/-- `n - 2` wraps, and the empty line is stored behind the one byte there is. -/
theorem headers_stores_behind (h : (entryText .headers l).length < 2147483648) :
    ¬PrintOk [1] 1 (entryText .headers l) (paramsSnprint [1] 1 l .headers) := by
  intro hok
  have hlen : (entryText .headers l).length = (formatAll (paramsFormat .headers) l).length + 2 := by
    rw [entryText, List.length_append]
    rfl
  have hfit : (formatAll (paramsFormat .headers) l).length < (1 + sizeMod - 2) % sizeMod := by
    have : (1 + sizeMod - 2) % sizeMod = sizeMod - 1 := rfl
    have := int_lt_sizeMod
    omega
  have hmem := congrArg List.length hok.inside
  rw [snprint_headers h, if_pos ⟨by decide, hfit⟩] at hmem
  simp [store, crlf, ascii] at hmem

/-- Nothing is printed of an empty list, not even a NUL. -/
theorem empty_unterminated {text : Bytes} {x : Int} (h0 : 0 < n) (hle : text.length ≤ n) :
    ¬PrintOk (List.replicate n 1) n text (x, List.replicate n 1) := by
  intro hok
  have hzero : (0 : UInt8) ∈ List.replicate n (1 : UInt8) := by
    rcases Nat.lt_or_eq_of_le hle with hlt | rfl
    · exact List.mem_of_mem_take (hok.whole hlt ▸ List.mem_append_right _ (List.mem_singleton_self 0))
    · obtain ⟨k, -, hk⟩ := hok.cut h0 (Nat.le_refl _)
      exact List.mem_of_mem_take (hk ▸ List.mem_append_right _ (List.mem_singleton_self 0))
  exact absurd (List.eq_of_mem_replicate hzero) (by decide)

/-- The tag styles leave the buffer as it was when there is no tag. -/
theorem tags_unterminated {style : Style} (hs : style = .metatags ∨ style = .paramtags)
    (hn : ¬(l ≠ [] ∨ n = 0)) : ¬PrintOk (List.replicate n 1) n (entryText style l)
      (paramsSnprint (List.replicate n 1) n l style) := by
  obtain rfl : l = [] := by
    by_contra hne
    exact hn (.inl hne)
  have hnil : entryText style [] = [] := by rcases hs with rfl | rfl <;> rfl
  rw [snprint_tags hs (by rw [hnil]; decide), printedEntries, if_pos rfl]
  exact empty_unterminated (by omega) (by rw [hnil]; exact Nat.zero_le _)

/-- Where the ending of a style goes wrong, it does so in some memory. -/
theorem exists_not_printOk {style : Style} (h : (entryText style l).length < 2147483648)
    (hfit : ¬BufferFits l n style) :
    ∃ mem : Bytes, n ≤ mem.length ∧ ¬PrintOk mem n (entryText style l) (paramsSnprint mem n l style) := by
  cases style with
  | query =>
    by_cases hl : l = []
    · subst hl
      refine ⟨List.replicate n 1, by simp, fun hok => ?_⟩
      have := hok.returns
      rw [snprint_empty_query] at this
      exact absurd this (by decide)
    · obtain rfl : n = (entryText .query l).length := by
        by_contra hne
        exact hfit ⟨hl, hne⟩
      exact ⟨List.replicate (entryText .query l).length 1, by simp, query_stores_behind hl h (by simp)⟩
  | headers =>
    by_cases h1 : n = 1
    · subst h1
      exact ⟨[1], by simp, headers_stores_behind h⟩
    · obtain ⟨rfl, rfl⟩ : l = [] ∧ n = 2 := by
        by_contra hne
        exact hfit ⟨h1, hne⟩
      refine ⟨List.replicate 2 1, by simp, ?_⟩
      rw [snprint_headers h]
      exact empty_unterminated (by decide) (by decide)
  | metatags => exact ⟨_, by simp, tags_unterminated (.inl rfl) hfit⟩
  | paramtags => exact ⟨_, by simp, tags_unterminated (.inr rfl) hfit⟩

end Styles

/-- **Buffers.** For every list of entries, style and size, the buffer and the length returned
are right in every memory exactly when the length is an `int` (2147483648 is `INT_MAX + 1`)
and the ending of the style fits the size. -/
theorem snprint_iff (params : List Param) (style : Style) (n : Nat) (hn : n < sizeMod) :
    (∀ mem : Bytes, n ≤ mem.length →
        PrintOk mem n (entryText style params) (paramsSnprint mem n params style)) ↔
      (entryText style params).length < 2147483648 ∧ BufferFits params n style := by
  constructor
  · intro hok
    have hint : (entryText style params).length < 2147483648 := by
      have hret := (hok (List.replicate n 1) (by simp)).returns
      obtain ⟨len, hlen⟩ := snprint_int (List.replicate n 1) n params style
      have := intOfSize_lt len
      omega
    refine ⟨hint, ?_⟩
    by_contra hfit
    obtain ⟨mem, hmem, hbad⟩ := exists_not_printOk hint hfit
    exact hbad (hok mem hmem)
  · rintro ⟨hint, hfit⟩ mem hmem
    cases style with
    | query => exact query_ok hmem hfit.1 hint hfit.2
    | headers => exact headers_ok hmem hint hn hfit.1 hfit.2
    | metatags => exact tags_ok hmem (.inl rfl) hint hfit
    | paramtags => exact tags_ok hmem (.inr rfl) hint hfit

/-- `a=b` in a buffer of four bytes. -/
theorem snprint_iff_fits :
    (∀ mem : Bytes, 4 ≤ mem.length → PrintOk mem 4 (entryText .query [⟨ascii "a", ascii "b"⟩])
        (paramsSnprint mem 4 [⟨ascii "a", ascii "b"⟩] .query)) ↔
      (entryText .query [⟨ascii "a", ascii "b"⟩]).length < 2147483648 ∧
        BufferFits [⟨ascii "a", ascii "b"⟩] 4 .query :=
  snprint_iff [⟨ascii "a", ascii "b"⟩] .query 4 (by decide)

/-- **Counterexample.** `a=b` in a buffer of three bytes: the fourth is overwritten. -/
theorem snprint_fourth_byte :
    ¬PrintOk [1, 1, 1, 1] 3 (entryText .query [⟨ascii "a", ascii "b"⟩])
      (paramsSnprint [1, 1, 1, 1] 3 [⟨ascii "a", ascii "b"⟩] .query) :=
  fun h => absurd h.inside (by decide)

end Sighttpd.L1
