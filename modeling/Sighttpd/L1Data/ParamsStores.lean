import Sighttpd.L1Data.ParamsPrint

/-!
# The stores of `snprint_params_format`

Each `snprintf` stores a beginning of its entry and a NUL, at a pointer that moves on by the
length of the entry. An entry as long as what is left moves it to the end of the buffer; the
NUL is there already, and what is left is 0.

* `snprintParamsFormat_stores`: the memory left is what the stores make of it.
* `formatStores_inside`: each one keeps to what is left of the buffer.
* `snprintParamsFormat_printed`: length, stores and text, for every size of the buffer.
-/
namespace Sighttpd.L1

/-- What `snprintf (buf, n, ..)` stores, and where. -/
def snprintfStore (buf : Option Nat) (n : Nat) (text : Bytes) : Option (Nat × Bytes) :=
  match buf with
  | some b => if 0 < n then some (b, text.take (n - 1) ++ [0]) else none
  | none => none

/-- The stores of src/params.c:37-64 (`snprint_params_format`) in order. -/
def formatStores (format : Param → Bytes) (buf : Option Nat) (n : Nat) : List Param → List (Nat × Bytes)
  | [] => []
  | p :: l =>
    let len := (format p).length
    let rest :=
      if len ≤ n then formatStores format (buf.map (· + len)) (n - len) l
      else formatStores format none 0 l
    (snprintfStore buf n (format p)).toList ++ rest

def storeAll (mem : Bytes) (stores : List (Nat × Bytes)) : Bytes :=
  stores.foldl (fun mem s => store mem s.1 s.2) mem

theorem snprintf_store (mem : Bytes) (buf : Option Nat) (n : Nat) (text : Bytes) :
    storeAll mem (snprintfStore buf n text).toList = snprintf mem buf n text := by
  unfold snprintfStore snprintf
  cases buf with
  | none => rfl
  | some b =>
    dsimp only
    split <;> rfl

section Stores
variable (format : Param → Bytes)

theorem snprintParamsFormat_stores (l : List Param) (mem : Bytes) (buf : Option Nat) (n total : Nat) :
    (snprintParamsFormat format mem buf n total l).1 = storeAll mem (formatStores format buf n l) := by
  induction l generalizing mem buf n total with
  | nil => rfl
  | cons p l ih =>
    have happend (stores : List (Nat × Bytes)) :
        storeAll mem ((snprintfStore buf n (format p)).toList ++ stores) =
          storeAll (snprintf mem buf n (format p)) stores := by
      rw [storeAll, List.foldl_append, ← snprintf_store]
      rfl
    simp only [snprintParamsFormat, formatStores, happend]
    split
    · exact ih _ _ _ _
    · exact ih _ _ _ _

theorem formatStores_none (n : Nat) (l : List Param) : formatStores format none n l = [] := by
  induction l generalizing n with
  | nil => rfl
  | cons p l ih => simp only [formatStores, snprintfStore, Option.map_none, ih, ite_self]; rfl

/-- The pointer and what is left of the buffer keep their sum. -/
theorem formatStores_inside (l : List Param) (b n : Nat) :
    ∀ s ∈ formatStores format (some b) n l, b ≤ s.1 ∧ s.1 + s.2.length ≤ b + n := by
  induction l generalizing b n with
  | nil => exact fun s hs => absurd hs List.not_mem_nil
  | cons p l ih =>
    intro s hs
    simp only [formatStores, Option.map_some] at hs
    rcases List.mem_append.1 hs with hs | hs
    · unfold snprintfStore at hs
      dsimp only at hs
      split at hs
      · rw [Option.toList_some, List.mem_singleton] at hs
        rw [hs, List.length_append, List.length_take, List.length_singleton]
        dsimp only
        omega
      · exact absurd hs List.not_mem_nil
    · split at hs
      · have hrest := ih _ _ s hs
        omega
      · rw [formatStores_none] at hs
        exact absurd hs List.not_mem_nil

end Stores

/-! ## Main result -/

/-- For a buffer of `n` bytes at `b`: the length of the text is returned, the stores keep to
the buffer and so does the memory around it, and the buffer holds as much of the text as there
is room for in front of a NUL. -/
structure FormatPrinted (mem : Bytes) (b n : Nat) (text : Bytes) (stores : List (Nat × Bytes))
    (r : Bytes × Nat) : Prop where
  returns : r.2 = text.length
  inside : ∀ s ∈ stores, b ≤ s.1 ∧ s.1 + s.2.length ≤ b + n
  made : r.1 = storeAll mem stores
  around : r.1.take b = mem.take b ∧ r.1.drop (b + n) = mem.drop (b + n)
  holds : (r.1.drop b).take (min (n - 1) text.length + 1) =
    text.take (min (n - 1) text.length) ++ [0]

/-- **Truncation.** Wherever in an entry the buffer ends. -/
theorem snprintParamsFormat_printed (params : List Param) (style : Style) (mem : Bytes) (b n : Nat)
    (hne : params ≠ []) (hn : 1 ≤ n) (hbuf : b + n ≤ mem.length)
    (htotal : (formatAll (paramsFormat style) params).length < sizeMod) :
    FormatPrinted mem b n (formatAll (paramsFormat style) params)
      (formatStores (paramsFormat style) (some b) n params)
      (snprintParamsFormat (paramsFormat style) mem (some b) n 0 params) := by
  have hb : b ≤ mem.length := by omega
  have heq := snprintParamsFormat_eq (paramsFormat style) params hne mem b n 0 hn hb (by decide)
  have hmade := snprintParamsFormat_stores (paramsFormat style) params mem (some b) n 0
  rw [Nat.zero_add, Nat.mod_eq_of_lt htotal] at heq
  have htext : (formatAll (paramsFormat style) params).take (min (n - 1)
      (formatAll (paramsFormat style) params).length) =
        (formatAll (paramsFormat style) params).take (n - 1) := by
    rw [← List.take_take, List.take_length]
  refine ⟨by rw [heq], formatStores_inside _ params b n, hmade, ⟨?_, ?_⟩, ?_⟩
  · rw [heq, store, List.append_assoc, List.take_left' (by simp [hb])]
  · rw [heq]
    refine store_drop hb ?_
    rw [List.length_append, List.length_take, List.length_singleton]
    omega
  · rw [heq, htext, store, List.append_assoc, List.drop_left' (by simp [hb])]
    refine List.take_left' ?_
    rw [List.length_append, List.length_take, List.length_singleton]

/-- Two entries, the first of which is as long as the buffer. -/
theorem snprintParamsFormat_printed_exact :
    FormatPrinted [1, 1, 1, 1, 1] 0 4
      (formatAll (paramsFormat .query) [⟨ascii "a", ascii "b"⟩, ⟨ascii "c", ascii "d"⟩])
      (formatStores (paramsFormat .query) (some 0) 4 [⟨ascii "a", ascii "b"⟩, ⟨ascii "c", ascii "d"⟩])
      (snprintParamsFormat (paramsFormat .query) [1, 1, 1, 1, 1] (some 0) 4 0
        [⟨ascii "a", ascii "b"⟩, ⟨ascii "c", ascii "d"⟩]) :=
  snprintParamsFormat_printed [⟨ascii "a", ascii "b"⟩, ⟨ascii "c", ascii "d"⟩] .query [1, 1, 1, 1, 1] 0 4
    (by decide) (by decide) (by decide) (by decide)

end Sighttpd.L1
