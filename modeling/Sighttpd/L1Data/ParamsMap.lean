import Mathlib.Logic.Function.Basic
import Sighttpd.L1Data.Params

/-!
# Parameter lists as maps (`params.c`)

What a params object is for: a map from names, ignoring case, to values, which
remembers the names in the order they were first added. `params_append` and
`params_replace` differ in what they make of a value that is there (`paramsUpsert`).

* `Agrees`: a list of entries shows what the map holds. Names are pairwise different.
* `agrees_upsert`, `agrees_merge`: the operations of the list are those of the map.
-/
namespace Sighttpd.L1
open Sighttpd.CString

/-! ## The list -/

/-- The first entry of that name gets the value `f` makes of its own; without one,
there is a new entry at the end. -/
def paramsUpsert (key : Bytes) (f : Bytes → Bytes) (value : Bytes) : List Param → List Param
  | [] => [⟨key, value⟩]
  | p :: l =>
    if strcasecmp p.key key = 0 then { p with value := f p.value } :: l
    else p :: paramsUpsert key f value l

/-- What `params_append` makes of a value that is there. -/
def joinComma (value old : Bytes) : Bytes := old ++ ascii "," ++ value

/-- mirrors src/params.c:180-198 (`params_replace`), for non-NULL `key` and `value` -/
def paramsReplace (params : List Param) (key value : Bytes) : List Param :=
  paramsUpsert key (fun _ => value) value params

/-- mirrors src/params.c:200-212 (`params_merge`) -/
def paramsMerge (dest src : List Param) : List Param :=
  src.foldl (fun dest p => paramsAppend dest p.key p.value) dest

theorem paramsAppend_eq_upsert (params : List Param) (key value : Bytes) :
    paramsAppend params key value = paramsUpsert key (joinComma value) value params := by
  induction params with
  | nil => rfl
  | cons p l ih => rw [paramsAppend, paramsUpsert, ih, joinComma]

theorem paramsGet_cons (p : Param) (l : List Param) (key : Bytes) :
    paramsGet (p :: l) key = if lower key = lower p.key then some p.value else paramsGet l key := by
  simp only [paramsGet, strcasecmp_eq_zero, eq_comm (a := lower key)]

theorem paramsUpsert_cons (key : Bytes) (f : Bytes → Bytes) (value : Bytes) (p : Param)
    (l : List Param) : paramsUpsert key f value (p :: l) =
      if lower key = lower p.key then { p with value := f p.value } :: l
      else p :: paramsUpsert key f value l := by
  simp only [paramsUpsert, strcasecmp_eq_zero, eq_comm (a := lower key)]

theorem paramsGet_eq_none {params : List Param} {key : Bytes} :
    paramsGet params key = none ↔ lower key ∉ names params := by
  induction params with
  | nil => simp [paramsGet, names]
  | cons p l ih =>
    rw [paramsGet_cons, names_cons, List.mem_cons, not_or, ← ih]
    split <;> simp [*]

theorem names_paramsUpsert (params : List Param) (key : Bytes) (f : Bytes → Bytes) (value : Bytes) :
    names (paramsUpsert key f value params) = names (paramsAppend params key value) := by
  induction params with
  | nil => rfl
  | cons p l ih =>
    rw [paramsUpsert, paramsAppend]
    split
    · rfl
    · rw [names_cons, names_cons, ih]

theorem keys_paramsUpsert (params : List Param) (key : Bytes) (f : Bytes → Bytes) (value : Bytes) :
    (paramsUpsert key f value params).map (·.key) =
      if paramsGet params key = none then params.map (·.key) ++ [key] else params.map (·.key) := by
  induction params with
  | nil => rfl
  | cons p l ih =>
    rw [paramsUpsert_cons, paramsGet_cons]
    split
    · simp
    · rw [List.map_cons, ih, List.map_cons]
      split <;> rfl

theorem paramsGet_upsert (params : List Param) (key : Bytes) (f : Bytes → Bytes) (value q : Bytes) :
    paramsGet (paramsUpsert key f value params) q =
      if lower q = lower key then some (((paramsGet params key).map f).getD value)
      else paramsGet params q := by
  induction params with
  | nil =>
    rw [paramsUpsert, paramsGet_cons]
    rfl
  | cons p l ih =>
    rw [paramsUpsert_cons, paramsGet_cons, paramsGet_cons]
    by_cases hp : lower key = lower p.key
    · rw [if_pos hp, if_pos hp, paramsGet_cons, ← hp]
      split <;> rfl
    · rw [if_neg hp, if_neg hp, paramsGet_cons, ih]
      by_cases hq : lower q = lower p.key
      · rw [if_pos hq, if_neg fun he => hp (he.symm.trans hq), if_pos hq]
      · rw [if_neg hq, if_neg hq]

theorem paramsGet_split {key : Bytes} {l : List Param} (hl : ∀ p ∈ l, lower p.key ≠ lower key)
    {p : Param} (hp : lower p.key = lower key) (rest : List Param) :
    paramsGet (l ++ p :: rest) key = some p.value := by
  induction l with
  | nil => rw [List.nil_append, paramsGet_cons, if_pos hp.symm]
  | cons q l ih =>
    obtain ⟨hq, hl⟩ := List.forall_mem_cons.mp hl
    rw [List.cons_append, paramsGet_cons, if_neg (Ne.symm hq), ih hl]

theorem paramsGet_none {key : Bytes} {l : List Param} (hl : ∀ p ∈ l, lower p.key ≠ lower key) :
    paramsGet l key = none := by
  rw [paramsGet_eq_none, names, List.mem_map]
  rintro ⟨p, hp, he⟩
  exact hl p hp he

theorem paramsUpsert_split {key : Bytes} (f : Bytes → Bytes) (value : Bytes) {l : List Param}
    (hl : ∀ p ∈ l, lower p.key ≠ lower key) {p : Param} (hp : lower p.key = lower key)
    (rest : List Param) :
    paramsUpsert key f value (l ++ p :: rest) = l ++ { p with value := f p.value } :: rest := by
  induction l with
  | nil => rw [List.nil_append, paramsUpsert_cons, if_pos hp.symm, List.nil_append]
  | cons q l ih =>
    obtain ⟨hq, hl⟩ := List.forall_mem_cons.mp hl
    rw [List.cons_append, paramsUpsert_cons, if_neg (Ne.symm hq), ih hl, List.cons_append]

theorem paramsUpsert_new {key : Bytes} (f : Bytes → Bytes) (value : Bytes) {l : List Param}
    (hl : ∀ p ∈ l, lower p.key ≠ lower key) : paramsUpsert key f value l = l ++ [⟨key, value⟩] := by
  induction l with
  | nil => rfl
  | cons q l ih =>
    obtain ⟨hq, hl⟩ := List.forall_mem_cons.mp hl
    rw [paramsUpsert_cons, if_neg (Ne.symm hq), ih hl, List.cons_append]

/-! ## The map -/

/-- The names as first added, and the value of each name in lower case. -/
structure ParamsRef where
  order : List Bytes
  value : Bytes → Option Bytes

namespace ParamsRef

def empty : ParamsRef := ⟨[], fun _ => none⟩

/-- The value of a name, in any letter case. -/
def get (r : ParamsRef) (name : Bytes) : Option Bytes := r.value (lower name)

def upsert (r : ParamsRef) (key : Bytes) (f : Bytes → Bytes) (value : Bytes) : ParamsRef where
  order := if r.get key = none then r.order ++ [key] else r.order
  value := Function.update r.value (lower key) (some (((r.get key).map f).getD value))

theorem get_upsert (r : ParamsRef) (key : Bytes) (f : Bytes → Bytes) (value q : Bytes) :
    (r.upsert key f value).get q =
      if lower q = lower key then some (((r.get key).map f).getD value) else r.get q :=
  Function.update_apply ..

/-- Joins the value to an existing one with a comma. -/
def append (r : ParamsRef) (key value : Bytes) : ParamsRef := r.upsert key (joinComma value) value

/-- Overwrites an existing value. -/
def replace (r : ParamsRef) (key value : Bytes) : ParamsRef := r.upsert key (fun _ => value) value

/-- Appends the values of `s` in turn. -/
def merge (r s : ParamsRef) : ParamsRef :=
  s.order.foldl (fun r key => r.append key ((s.get key).getD [])) r

end ParamsRef

structure Agrees (params : List Param) (r : ParamsRef) : Prop where
  order : params.map (·.key) = r.order
  get : ∀ q, paramsGet params q = r.get q
  distinct : (names params).Nodup

theorem agrees_empty : Agrees [] .empty := ⟨rfl, fun _ => rfl, List.nodup_nil⟩

theorem agrees_upsert {params : List Param} {r : ParamsRef} (h : Agrees params r) (key : Bytes)
    (f : Bytes → Bytes) (value : Bytes) :
    Agrees (paramsUpsert key f value params) (r.upsert key f value) := by
  refine ⟨?_, fun q => ?_, ?_⟩
  · rw [keys_paramsUpsert, h.order, h.get, ParamsRef.upsert]
  · rw [paramsGet_upsert, h.get, h.get, ParamsRef.get_upsert]
  · rw [names_paramsUpsert]
    exact nodup_paramsAppend h.distinct key value

theorem agrees_append {params : List Param} {r : ParamsRef} (h : Agrees params r) (key value : Bytes) :
    Agrees (paramsAppend params key value) (r.append key value) := by
  rw [paramsAppend_eq_upsert]
  exact agrees_upsert h key _ value

/-- With different names, the first match for the name of an entry is that entry. -/
theorem paramsGet_of_mem {params : List Param} (h : (names params).Nodup) {p : Param}
    (hp : p ∈ params) : paramsGet params p.key = some p.value := by
  induction params with
  | nil => cases hp
  | cons e l ih =>
    rw [names_cons, List.nodup_cons] at h
    rw [paramsGet_cons]
    rcases List.mem_cons.mp hp with rfl | hp
    · rw [if_pos rfl]
    · rw [if_neg, ih h.2 hp]
      intro he
      exact h.1 (he ▸ List.mem_map_of_mem hp)

theorem agrees_merge {dest src : List Param} {r s : ParamsRef} (hd : Agrees dest r)
    (hs : Agrees src s) : Agrees (paramsMerge dest src) (r.merge s) := by
  have hval : ∀ p ∈ src, s.get p.key = some p.value :=
    fun p hp => hs.get p.key ▸ paramsGet_of_mem hs.distinct hp
  rw [paramsMerge, ParamsRef.merge, ← hs.order, List.foldl_map]
  clear hs
  -- the entries left to append are entries of the source
  induction src generalizing dest r with
  | nil => exact hd
  | cons p src ih =>
    rw [List.foldl_cons, List.foldl_cons, hval p List.mem_cons_self]
    exact ih (agrees_append hd p.key p.value) fun q hq => hval q (List.mem_cons_of_mem p hq)

end Sighttpd.L1
