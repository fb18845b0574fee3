import Sighttpd.L1Data.Params

/-!
# What `params_snprint` leaves in the buffer

`snprint_params_format` prints entry after entry with what is left of the buffer,
each `snprintf` overwriting the NUL of the one before.

* `snprintParamsFormat_eq`: together they leave what one `snprintf` of the whole
  text would, wherever the buffer ends.
* `snprint_query_holds`, `snprint_headers_holds`: a buffer longer than the text holds the text
  in the end, without the last `&` of a query and with the empty line that ends a header.
-/
namespace Sighttpd.L1
open Sighttpd.CString

/-! ## Stores -/

/-- A second store over the end of a first one replaces that end. -/
theorem store_store (mem x y z : Bytes) {p : Nat} (hp : p ≤ mem.length) (hyz : y.length ≤ z.length) :
    store (store mem p (x ++ y)) (p + x.length) z = store mem p (x ++ z) := by
  have htake : (store mem p (x ++ y)).take (p + x.length) = mem.take p ++ x := by
    rw [store, List.append_assoc, List.append_assoc, ← List.append_assoc]
    exact List.take_left' (by simp [hp])
  have hdrop : (store mem p (x ++ y)).drop (p + x.length + z.length) =
      mem.drop (p + (x ++ z).length) := by
    have hlen : (mem.take p ++ (x ++ y)).length = p + (x.length + y.length) := by simp [hp]
    rw [store, show p + x.length + z.length = p + (x.length + y.length) + (z.length - y.length) by
      omega, ← List.drop_drop, List.drop_left' hlen, List.drop_drop]
    congr 1
    simp only [List.length_append]
    omega
  rw [store, htake, hdrop, store]
  simp

theorem store_holds {mem bs : Bytes} {p : Nat} (hp : p ≤ mem.length) (h0 : 0 ∉ bs) :
    HoldsStr (store mem p (bs ++ [0])) p bs := by
  refine ⟨h0, mem.drop (p + (bs ++ [0]).length), ?_⟩
  rw [store, List.append_assoc, List.drop_left' (by simp [hp])]
  simp

/-! ## The entries one after the other -/

section Entries
variable (format : Param → Bytes)

/-- The text of all the entries. -/
def formatAll (l : List Param) : Bytes := (l.map format).flatten

@[simp] theorem formatAll_nil : formatAll format [] = [] := rfl

@[simp] theorem formatAll_cons (p : Param) (l : List Param) :
    formatAll format (p :: l) = format p ++ formatAll format l := rfl

/-- No room: nothing is stored, and the length is still counted. -/
theorem snprintParamsFormat_full (l : List Param) :
    ∀ (mem : Bytes) (buf : Option Nat) (total : Nat), total < sizeMod →
      snprintParamsFormat format mem buf 0 total l =
        (mem, (total + (formatAll format l).length) % sizeMod) := by
  induction l with
  | nil => intro mem buf total h; simp [snprintParamsFormat, Nat.mod_eq_of_lt h]
  | cons p l ih =>
    intro mem buf total h
    have hmem : snprintf mem buf 0 (format p) = mem := by cases buf <;> rfl
    have hlt : (total + (format p).length) % sizeMod < sizeMod := Nat.mod_lt _ (by decide)
    simp only [snprintParamsFormat, hmem, Nat.zero_sub, ih _ _ _ hlt, ite_self, formatAll_cons,
      List.length_append, Nat.mod_add_mod, Nat.add_assoc]

/-- **One text.** Printing the entries of a non-empty list leaves in memory what one
`snprintf` of the whole text does. -/
theorem snprintParamsFormat_eq (l : List Param) (hl : l ≠ []) :
    ∀ (mem : Bytes) (b n total : Nat), 0 < n → b ≤ mem.length → total < sizeMod →
      snprintParamsFormat format mem (some b) n total l =
        (store mem b ((formatAll format l).take (n - 1) ++ [0]),
          (total + (formatAll format l).length) % sizeMod) := by
  induction l with
  | nil => exact absurd rfl hl
  | cons p l ih =>
    intro mem b n total hn hb htotal
    have hlt : (total + (format p).length) % sizeMod < sizeMod := Nat.mod_lt _ (by decide)
    have hsum : (total + (formatAll format (p :: l)).length) % sizeMod =
        ((total + (format p).length) % sizeMod + (formatAll format l).length) % sizeMod := by
      rw [formatAll_cons, List.length_append, Nat.mod_add_mod, Nat.add_assoc]
    simp only [snprintParamsFormat, snprintf, if_pos hn, Option.map_some]
    rw [hsum]
    by_cases hlen : (format p).length < n
    · -- the entry fits, and the next one starts on its NUL
      have htake : (format p).take (n - 1) = format p := List.take_of_length_le (by omega)
      rw [if_pos (Nat.le_of_lt hlen), htake]
      cases l with
      | nil => simp [snprintParamsFormat, htake]
      | cons q l =>
        have hb' : b + (format p).length ≤ (store mem b (format p ++ [0])).length := by
          simp only [store, List.length_append, List.length_take, List.length_drop,
            List.length_singleton]
          omega
        have htext : (formatAll format (p :: q :: l)).take (n - 1) =
            format p ++ (formatAll format (q :: l)).take (n - (format p).length - 1) := by
          rw [formatAll_cons, List.take_append, htake, Nat.sub_right_comm]
        rw [ih (by simp) _ _ _ _ (by omega) hb' hlt, store_store _ _ _ _ hb (by simp), htext,
          List.append_assoc]
    · -- the entry is cut, and the rest finds no room
      have htake : (formatAll format (p :: l)).take (n - 1) = (format p).take (n - 1) := by
        rw [formatAll_cons, List.take_append_of_le_length (by omega)]
      rw [htake]
      split
      · rw [show n - (format p).length = 0 by omega, snprintParamsFormat_full format l _ _ _ hlt]
      · rw [snprintParamsFormat_full format l _ _ _ hlt]

end Entries

/-! ## The two styles that are read back -/

/-- The text of a list of entries, without the last separator of a query and with
the empty line that ends a header. -/
def entryText : Style → List Param → Bytes
  | .query, l => (ascii "&").intercalate (l.map fun p => p.key ++ ascii "=" ++ p.value)
  | .headers, l => formatAll (paramsFormat .headers) l ++ crlf
  | style, l => formatAll (paramsFormat style) l

theorem formatAll_query {l : List Param} (hl : l ≠ []) :
    formatAll (paramsFormat .query) l = entryText .query l ++ ascii "&" := by
  induction l with
  | nil => exact absurd rfl hl
  | cons p l ih =>
    cases l with
    | nil => simp [formatAll, paramsFormat, entryText]
    | cons q l =>
      rw [formatAll_cons, ih (by simp), entryText, entryText]
      simp only [List.map_cons, List.intercalate_cons_cons, paramsFormat, List.append_assoc]

theorem snprint_query_holds {mem : Bytes} {n : Nat} {l : List Param} (hl : l ≠ [])
    (hn : (entryText .query l).length < n) (hsize : n < sizeMod)
    (h0 : 0 ∉ entryText .query l) :
    HoldsStr (paramsSnprint mem n l .query).2 0 (entryText .query l) := by
  obtain ⟨text, ht⟩ : ∃ t, t = entryText .query l := ⟨_, rfl⟩
  rw [← ht] at hn h0 ⊢
  have hlen : (formatAll (paramsFormat .query) l).length = text.length + 1 := by
    rw [formatAll_query hl, ← ht]; simp [ascii]
  have heq := snprintParamsFormat_eq (paramsFormat .query) l hl mem 0 n 0 (by omega) (Nat.zero_le _)
    (by decide)
  rw [hlen, Nat.zero_add, Nat.mod_eq_of_lt (by omega), formatAll_query hl, ← ht] at heq
  have hdec : (text.length + 1 + sizeMod - 1) % sizeMod = text.length := by
    rw [show text.length + 1 + sizeMod - 1 = text.length + sizeMod by omega, Nat.add_mod_right,
      Nat.mod_eq_of_lt (by omega)]
  simp only [paramsSnprint, heq, hdec, if_pos (Nat.le_of_lt hn)]
  by_cases hfit : text.length + 1 = n
  · -- the buffer ends in front of the last separator
    rw [show n - 1 = text.length by omega, List.take_left' rfl]
    split
    · exact store_holds (Nat.zero_le _) h0
    · have := store_store mem text [0] [0] (Nat.zero_le _) (Nat.le_refl _)
      rw [Nat.zero_add] at this
      simp only [this]
      exact store_holds (Nat.zero_le _) h0
  · rw [if_neg (by omega), List.take_of_length_le (by simp [ascii]; omega)]
    have hs : HoldsStr (store mem 0 (text ++ ascii "&" ++ [0])) 0 (text ++ (ascii "&" ++ [])) := by
      refine (List.append_nil (ascii "&")).symm ▸ store_holds (Nat.zero_le _) ?_
      simpa [ascii] using h0
    have := hs.memset (by simp)
    rwa [Nat.zero_add] at this

theorem snprint_headers_holds {mem : Bytes} {n : Nat} {l : List Param} (hl : l ≠ [])
    (hn : (entryText .headers l).length < n) (hsize : n < sizeMod)
    (h0 : 0 ∉ entryText .headers l) :
    HoldsStr (paramsSnprint mem n l .headers).2 0 (entryText .headers l) := by
  obtain ⟨text, ht⟩ : ∃ t, t = formatAll (paramsFormat .headers) l := ⟨_, rfl⟩
  rw [entryText, ← ht] at hn h0 ⊢
  have hlen : (text ++ crlf).length = text.length + 2 := by rw [List.length_append]; rfl
  have heq := snprintParamsFormat_eq (paramsFormat .headers) l hl mem 0 n 0 (by omega)
    (Nat.zero_le _) (by decide)
  rw [← ht, Nat.zero_add, Nat.mod_eq_of_lt (by omega), List.take_of_length_le (by omega)] at heq
  have hsub : (n + sizeMod - 2) % sizeMod = n - 2 := by
    rw [show n + sizeMod - 2 = n - 2 + sizeMod by omega, Nat.add_mod_right,
      Nat.mod_eq_of_lt (by omega)]
  have hst := store_store mem text [0] (crlf ++ [0]) (Nat.zero_le _)
    (by simp)
  rw [Nat.zero_add] at hst
  simp only [paramsSnprint, heq, hsub, if_neg (show ¬ text.length = sizeMod - 1 by omega)]
  rw [if_pos ⟨by omega, by omega⟩]
  simp only
  rw [show ascii "\r\n" = crlf from rfl, hst, ← List.append_assoc]
  exact store_holds (Nat.zero_le _) h0

end Sighttpd.L1
