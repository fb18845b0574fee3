import Sighttpd.L1Data.ParamsParse

/-!
# When the delimiter scanner ends

`params_new_parse_delim` moves `key` only past an item that has a value after its
name. On any other item the round leaves the item in place, now followed by NULs,
and every later round finds the same item again.

* `delimLoop_eq`: on a string whose items all split, the loop ends after one
  round for each item and one more, with the items appended in order.
* `delimLoop_stuck`: on any other string it never ends.
* `parse_ends_iff`: exactly when the scanner, and `params_new_parse` over it, end.
* `bareName_diverges`: the query string `abc` is never read to its end.
-/
namespace Sighttpd.L1
open Sighttpd.CString

/-- Every item of the string splits into a name and a value. -/
def Delimited (valDelim endDelim s : Bytes) : Prop :=
  ∀ item ∈ delimItems endDelim s, Splits valDelim item

instance (valDelim endDelim s : Bytes) : Decidable (Delimited valDelim endDelim s) :=
  inferInstanceAs (Decidable (∀ _ ∈ _, _))

section Loop
variable {vd ed : Bytes}

/-- A stuck item is a string that is its own only item. -/
theorem cut_self {item : Bytes} (h : ∀ c ∈ item, c ∉ ed) : Cut ed item item [] [] where
  eq := by simp
  item_free := h
  sep_delim := by simp
  rest_head := by simp
  sep_nil := by simp

theorem delimLoop_stay {item : Bytes} (hfree : ∀ c ∈ item, c ∉ ed) (hi : item ≠ [])
    (hsp : ¬ Splits vd item) (fuel : Nat) :
    ∀ st : DelimState, HoldsStr st.mem st.key item → delimLoop vd ed fuel st = none := by
  induction fuel with
  | zero => intro st _; rfl
  | succ fuel ih =>
    intro st h
    obtain ⟨e, mem, hr, h'⟩ := delimRound_stay h (cut_self hfree) hi hsp
    rw [delimLoop, hr]
    exact ih _ h'

theorem delimLoop_stuck (hdisj : ∀ c ∈ vd, c ∉ ed) (fuel : Nat) :
    ∀ (st : DelimState) (s : Bytes), HoldsStr st.mem st.key s → ¬ Delimited vd ed s →
      delimLoop vd ed fuel st = none := by
  induction fuel with
  | zero => intro st s _ _; rfl
  | succ fuel ih =>
    intro st s h hnot
    have hc := cut_takeWhile ed s
    have hi : s.takeWhile (· ∉ ed) ≠ [] := by
      intro hnil
      exact hnot fun item hmem => by rw [delimItems, if_pos hnil] at hmem; simp at hmem
    by_cases hsp : Splits vd (s.takeWhile (· ∉ ed))
    · obtain ⟨mem, hr, h'⟩ := delimRound_split hdisj h hc hsp
      rw [delimLoop, hr]
      refine ih _ _ h' fun hrest => hnot ?_
      rw [Delimited, delimItems, if_neg hi]
      exact List.forall_mem_cons.mpr ⟨hsp, hrest⟩
    · obtain ⟨e, mem, hr, h'⟩ := delimRound_stay h hc hi hsp
      rw [delimLoop, hr]
      exact delimLoop_stay hc.item_free hi hsp fuel _ h'

theorem delimLoop_eq (hdisj : ∀ c ∈ vd, c ∉ ed) (s : Bytes) :
    ∀ (st : DelimState) (fuel : Nat), HoldsStr st.mem st.key s → Delimited vd ed s →
      (delimItems ed s).length < fuel →
      delimLoop vd ed fuel st = some (appendAll st.params ((delimItems ed s).map (splitItem vd))) := by
  induction s using delimItems.induct ed with
  | case1 s hnil =>
    intro st fuel h _ hf
    obtain ⟨fuel, rfl⟩ : ∃ k, fuel = k + 1 := ⟨fuel - 1, by omega⟩
    obtain ⟨mem, hr⟩ := delimRound_stop vd h hnil
    rw [delimLoop, hr, delimItems, if_pos hnil]
    rfl
  | case2 s hi ih =>
    intro st fuel h hd hf
    rw [Delimited, delimItems, if_neg hi] at hd
    rw [delimItems, if_neg hi, List.length_cons] at hf
    obtain ⟨hsp, hrest⟩ := List.forall_mem_cons.mp hd
    obtain ⟨fuel, rfl⟩ : ∃ k, fuel = k + 1 := ⟨fuel - 1, by omega⟩
    obtain ⟨mem, hr, h'⟩ := delimRound_split hdisj h (cut_takeWhile ed s) hsp
    rw [delimLoop, hr, delimItems, if_neg hi, List.map_cons, appendAll_cons]
    exact ih _ fuel h' hrest (by omega)

theorem delimLoop_ends_iff (hdisj : ∀ c ∈ vd, c ∉ ed) (st : DelimState) {s : Bytes}
    (h : HoldsStr st.mem st.key s) :
    (∃ fuel, (delimLoop vd ed fuel st).isSome) ↔ Delimited vd ed s := by
  constructor
  · intro hall
    obtain ⟨fuel, hsome⟩ := hall
    by_contra hnot
    rw [delimLoop_stuck hdisj fuel st s h hnot] at hsome
    exact absurd hsome (by simp)
  · intro hd
    refine ⟨(delimItems ed s).length + 1, ?_⟩
    rw [delimLoop_eq hdisj s st _ h hd (Nat.lt_succ_self _)]
    rfl

end Loop

/-! ## The two delimiter pairs -/

/-- The pairs `params_new_parse_delim` is called with. -/
def delimPairs : List (Bytes × Bytes) :=
  [(ascii "=", ascii "&"), (ascii ": ", ascii "\r\n")]

theorem delimPairs_disjoint : ∀ d ∈ delimPairs, ∀ c ∈ d.1, c ∉ d.2 := by decide

/-- The loop ends on the string at the front of `mem`. -/
def DelimEnds (valDelim endDelim mem : Bytes) : Prop :=
  ∃ fuel, (paramsNewParseDelim fuel (some mem) valDelim endDelim).isSome

/-- `params_new_parse` ends on `input`. -/
def ParseEnds (input : Bytes) (len : Nat) (style : Style) : Prop :=
  ∃ fuel, (paramsNewParse fuel input len style).isSome

theorem delimEnds_iff {d : Bytes × Bytes} (hd : d ∈ delimPairs) {mem s : Bytes}
    (h : HoldsStr mem 0 s) : DelimEnds d.1 d.2 mem ↔ Delimited d.1 d.2 s :=
  delimLoop_ends_iff (delimPairs_disjoint d hd) ⟨mem, 0, []⟩ h

/-- A query string is read up to `len` bytes; header text is scanned in its
canonical form, and not at all when it has none. -/
theorem parseEnds_query_iff (input : Bytes) (len : Nat) :
    ParseEnds input len .query ↔ Delimited (ascii "=") (ascii "&") ((cstr input).take len) :=
  delimEnds_iff (d := (ascii "=", ascii "&")) (by decide) (holdsStr_strndup input len)

theorem zero_mem_canonStored (headers : Bytes) : 0 ∈ canonStored headers :=
  List.mem_append_right _ (List.mem_singleton_self 0)

theorem parseEnds_headers_iff (input : Bytes) (len : Nat) :
    ParseEnds input len .headers ↔
      ∀ text, headersCanonicalize input = some text →
        Delimited (ascii ": ") (ascii "\r\n") (cstr text) := by
  unfold ParseEnds paramsNewParse paramsNewParseHeaders
  cases hc : headersCanonicalize input with
  | none => simp
  | some text =>
    have hnul : 0 ∈ text := by
      rw [headersCanonicalize] at hc
      split at hc
      · exact Option.some.inj hc ▸ zero_mem_canonStored input
      · exact absurd hc (by simp)
    simp only [Option.some.injEq, forall_eq']
    exact delimEnds_iff (d := (ascii ": ", ascii "\r\n")) (by decide) (holdsStr_cstr hnul)

/-- **When parsing ends.** The loop ends on a NUL-terminated string exactly when
every item of it has a value delimiter behind its first byte; with it end, and
fail to end, the two parsers built on it. -/
theorem parse_ends_iff (mem input : Bytes) (len : Nat) :
    (∀ d ∈ delimPairs, 0 ∈ mem → (DelimEnds d.1 d.2 mem ↔ Delimited d.1 d.2 (cstr mem))) ∧
    (ParseEnds input len .query ↔ Delimited (ascii "=") (ascii "&") ((cstr input).take len)) ∧
    (ParseEnds input len .headers ↔ ∀ text, headersCanonicalize input = some text →
      Delimited (ascii ": ") (ascii "\r\n") (cstr text)) :=
  ⟨fun _ hd hmem => delimEnds_iff hd (holdsStr_cstr hmem), parseEnds_query_iff input len,
    parseEnds_headers_iff input len⟩

theorem parse_ends_iff_pair :
    DelimEnds (ascii "=") (ascii "&") (ascii "a=1&b=2" ++ [0]) :=
  ((parse_ends_iff (ascii "a=1&b=2" ++ [0]) [] 0).1 (ascii "=", ascii "&") (by decide)
    (by decide)).mpr (by decide +kernel)

/-- **A bare name.** The query string `abc` has no value delimiter, and reading it
does not end. -/
theorem bareName_diverges :
    ¬ ((∀ d ∈ delimPairs, ∀ mem : Bytes, 0 ∈ mem → DelimEnds d.1 d.2 mem) ∧
      ∀ input len style, ParseEnds input len style) := by
  intro hall
  obtain ⟨-, h⟩ := hall
  have hd := (parseEnds_query_iff (ascii "abc") 3).mp (h (ascii "abc") 3 .query)
  exact absurd hd (by decide +kernel)

end Sighttpd.L1
