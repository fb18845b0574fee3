import Mathlib.Data.List.Nodup
import Sighttpd.L1Data.HeaderLines

/-!
# When two header texts give different parameters

`params_append` loses the names of repeated headers, but not their values: for each
name the bytes of the value, with one for the comma or the name, add up.

* `weight_appendAll`: the weight of a name is that of the entries appended.
* `different_of_weight`: lists of entries that give a name different weights are not
  appended to the same parameters.
* `parse_headers_some`: what `params_new_parse` returns is made of the items of the
  canonical text.
-/
namespace Sighttpd.L1
open Sighttpd.CString

/-- The lists hold the same names and values. -/
def SameParams (l l' : List Param) : Prop := ∀ p, p ∈ l ↔ p ∈ l'

/-! ## Weights -/

/-- The bytes of the values of a name, and one for each of its entries. -/
def weight (k : Bytes) : List Param → Nat
  | [] => 0
  | p :: l => (if lower p.key = k then p.value.length + 1 else 0) + weight k l

section Weight
variable {k : Bytes}

@[simp] theorem weight_nil : weight k [] = 0 := rfl

theorem weight_cons (p : Param) (l : List Param) :
    weight k (p :: l) = (if lower p.key = k then p.value.length + 1 else 0) + weight k l := rfl

@[simp] theorem weight_append (l l' : List Param) : weight k (l ++ l') = weight k l + weight k l' := by
  induction l with
  | nil => simp
  | cons p l ih =>
    rw [List.cons_append, weight_cons, weight_cons, ih]
    omega

theorem weight_perm {l l' : List Param} (h : l.Perm l') : weight k l = weight k l' := by
  induction h with
  | nil => rfl
  | cons p _ ih => rw [weight_cons, weight_cons, ih]
  | swap p q l =>
    simp only [weight_cons]
    omega
  | trans _ _ ih ih' => exact ih.trans ih'

theorem weight_self_pos (p : Param) (l : List Param) : 0 < weight (lower p.key) (p :: l) := by
  rw [weight_cons, if_pos rfl]
  omega

theorem weight_paramsAppend (l : List Param) (e : Param) :
    weight k (paramsAppend l e.key e.value) = weight k l + weight k [e] := by
  induction l with
  | nil => simp [paramsAppend]
  | cons p l ih =>
    rw [paramsAppend]
    by_cases h : lower p.key = lower e.key
    · rw [if_pos (strcasecmp_eq_zero.mpr h)]
      simp only [weight_cons, weight_nil, h]
      split
      · simp only [List.length_append, show (ascii ",").length = 1 from rfl]
        omega
      · omega
    · rw [if_neg (by rwa [strcasecmp_eq_zero]), weight_cons, weight_cons, ih]
      omega

theorem weight_appendAll (l es : List Param) :
    weight k (appendAll l es) = weight k l + weight k es := by
  induction es generalizing l with
  | nil => simp
  | cons e es ih =>
    rw [appendAll_cons, ih, weight_paramsAppend, weight_cons e es, weight_cons e [], weight_nil]
    omega

/-- Parameters with the same members have the same weights. -/
theorem weight_eq_of_same {es es' : List Param} (h : SameParams (appendAll [] es) (appendAll [] es')) :
    weight k es = weight k es' := by
  have hnodup : ∀ es : List Param, (appendAll [] es).Nodup := by
    intro es
    have hnil : (names []).Nodup := List.nodup_nil
    exact List.Nodup.of_map _ (nodup_appendAll hnil es)
  have hsum := weight_perm (k := k) ((List.perm_ext_iff_of_nodup (hnodup es) (hnodup es')).mpr h)
  rw [weight_appendAll, weight_appendAll] at hsum
  simpa using hsum

theorem different_of_weight {es es' : List Param} (h : weight k es ≠ weight k es') :
    ¬ SameParams (appendAll [] es) (appendAll [] es') := fun hs => h (weight_eq_of_same hs)

end Weight

/-! ## What the parser returns -/

/-- The entries a canonical header text is read as. -/
def headerItems (text : Bytes) : List Param :=
  (delimItems crlf text).map (splitItem (ascii ": "))

/-- A scanner that ends has appended the items. -/
theorem delimLoop_some {vd ed : Bytes} (hdisj : ∀ c ∈ vd, c ∉ ed) (s : Bytes) :
    ∀ (st : DelimState) (fuel : Nat) (l : List Param), HoldsStr st.mem st.key s →
      delimLoop vd ed fuel st = some l →
      l = appendAll st.params ((delimItems ed s).map (splitItem vd)) := by
  induction s using delimItems.induct ed with
  | case1 s hnil =>
    intro st fuel l h hl
    obtain ⟨mem, hr⟩ := delimRound_stop vd h hnil
    cases fuel with
    | zero => exact absurd hl (by simp [delimLoop])
    | succ fuel =>
      rw [delimLoop, hr] at hl
      rw [delimItems, if_pos hnil]
      exact (Option.some.inj hl).symm
  | case2 s hi ih =>
    intro st fuel l h hl
    have hc := cut_takeWhile ed s
    by_cases hsp : Splits vd (s.takeWhile (· ∉ ed))
    · obtain ⟨mem, hr, h'⟩ := delimRound_split hdisj h hc hsp
      cases fuel with
      | zero => exact absurd hl (by simp [delimLoop])
      | succ fuel =>
        rw [delimLoop, hr] at hl
        rw [delimItems, if_neg hi, List.map_cons, appendAll_cons]
        exact ih _ fuel l h' hl
    · have hnot : ¬ Delimited vd ed s := by
        rw [Delimited, delimItems, if_neg hi]
        exact fun hall => hsp (List.forall_mem_cons.mp hall).1
      rw [delimLoop_stuck hdisj fuel st s h hnot] at hl
      exact absurd hl (by simp)

theorem zero_notMem_canonLoop (k : Bytes) : ∀ n, 0 ∉ k → 0 ∉ n → 0 ∉ (canonLoop k n).1 := by
  have hsp : (0 : UInt8) ∉ ascii " " := by decide
  induction k using text_induction with
  | nil => intro n _ hn; rwa [canonLoop_nil]
  | word a c ha ih =>
    intro n hk hn
    rw [List.mem_cons, not_or] at hk
    rw [canonLoop_cons ha]
    exact ih _ hk.2 (by simp [hn, hk.1])
  | blanks b c hne hb hc ih =>
    intro n hk hn
    rw [canonLoop_blanks hne hb hc]
    exact ih _ (fun h => hk (List.mem_append_right _ h)) (by simp [hn, hsp])
  | fold r b c hne hr hbne hb hc ih =>
    intro n hk hn
    by_cases hend : endsBlock r
    · rwa [canonLoop_ends hr hend]
    · rw [canonLoop_fold hne hr hend hbne hb hc]
      exact ih _ (fun h => hk (List.mem_append_right _ (List.mem_append_right _ h))) (by simp [hn, hsp])
  | newline r c hne hr hc ih =>
    intro n hk hn
    by_cases hend : endsBlock r
    · rwa [canonLoop_ends hr hend]
    · rw [canonLoop_newline hne hr hend hc]
      exact ih _ (fun h => hk (List.mem_append_right _ h)) (by simp [hn, zero_notMem_crlf])

/-- The header parser returns nothing for a text that does not end, and else what its
items give. -/
theorem parse_headers_some {fuel len : Nat} {mem : Bytes} {l : List Param}
    (h : paramsNewParse fuel mem len .headers = some l) :
    ((canonLoop (cstr mem) []).2 = false ∧ l = []) ∨
      ∃ text, canonLoop (cstr mem) [] = (text, true) ∧ l = appendAll [] (headerItems text) := by
  have h0 := zero_notMem_canonLoop (cstr mem) [] (zero_notMem_cstr mem) (by simp)
  rw [paramsNewParse, paramsNewParseHeaders, headersCanonicalize, canonStored] at h
  generalize canonLoop (cstr mem) [] = x at *
  obtain ⟨text, ok⟩ := x
  cases ok with
  | false => exact .inl ⟨rfl, (Option.some.inj h).symm⟩
  | true =>
    have hloop : delimLoop (ascii ": ") (ascii "\r\n") fuel ⟨text ++ [0], 0, []⟩ = some l := h
    exact .inr ⟨text, rfl, delimLoop_some (by decide) text _ fuel l ⟨h0, [], rfl⟩ hloop⟩

end Sighttpd.L1
