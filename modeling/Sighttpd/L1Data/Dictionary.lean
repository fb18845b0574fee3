import Mathlib.Logic.Function.Basic
import Mathlib.Data.List.FinRange
import Mathlib.Data.List.Nodup
import Sighttpd.Core.CString
import Sighttpd.Core.Machine
import Sighttpd.Core.SearchTree

/-!
# The dictionary (`dictionary.c` over `x_tree.c`)

Sixteen binary trees of variables, one for each hash of the lower-cased name.
`x_tree_find` hands the comparator a name, but `x_tree_insert` hands it the new
`Variable` record, which `variable_cmp` reads as a string as well: the bytes of
the record, its first member a pointer, decide where the new node goes. Each
insertion therefore carries these bytes as a string of their own. The hash is any
function of the lower-cased name.

* `insert_found`, `insert_placed`, `insert_astray`: what an insertion does to every
  later lookup.
* `map_iff`: in a run of any length, the dictionary is the map of the names, ignoring
  case, to the values last inserted exactly when each new record is walked to where
  its name is looked for.
* `misplaced_not_map`: two names, the second of which is lost.
-/
namespace Sighttpd.L1
open Sighttpd.CString

/-- mirrors src/dictionary.c:22-25 (`struct _Variable`) -/
structure Variable where
  name : Bytes
  value : Bytes
  deriving DecidableEq, Repr

/-- mirrors src/dictionary.c:18-20, 27-29: `BUCKETS` trees -/
abbrev Dictionary := Fin 16 → SearchTree Variable

/-- mirrors src/dictionary.c:31-46 (`variable_new`) -/
def variableNew (name value : Bytes) : Variable := ⟨lower name, value⟩

/-- mirrors src/dictionary.c:60-65 (`variable_cmp`) -/
def variableCmp (s1 : Bytes) (v2 : Variable) : Int := strcasecmp s1 v2.name

/-- mirrors src/dictionary.c:67-79 (`dictionary_new`) -/
def dictionaryNew : Dictionary := fun _ => .nil

section Hash
variable (hash : Bytes → Fin 16)

/-- mirrors src/dictionary.c:95-114 (`dictionary_hash`) -/
def dictionaryHash (name : Bytes) : Fin 16 := hash (lower name)

/-- mirrors src/dictionary.c:116-133 (`dictionary_lookup`) -/
def dictionaryLookup (table : Dictionary) (name : Bytes) : Option Bytes :=
  ((table (dictionaryHash hash name)).find (variableCmp name)).map (·.value)

/-- mirrors src/dictionary.c:135-153 (`dictionary_insert`). `record` is the string
that starts at the address of the `Variable` allocated for a new name. -/
def dictionaryInsert (table : Dictionary) (name value record : Bytes) : Dictionary :=
  let h := dictionaryHash hash name
  match (table h).find (variableCmp name) with
  | none =>
    Function.update table h ((table h).insert (variableCmp record) (variableNew name value))
  | some _ =>
    Function.update table h
      ((table h).update (variableCmp name) fun v => { v with value := value })

/-! ## Comparisons -/

theorem variableCmp_eq_zero {s : Bytes} {v : Variable} :
    variableCmp s v = 0 ↔ lower s = lower v.name := strcasecmp_eq_zero

/-- The comparator sees a name through its lower-case form only. -/
theorem variableCmp_congr {s t : Bytes} (h : lower s = lower t) : variableCmp s = variableCmp t := by
  funext v
  rw [variableCmp, variableCmp, strcasecmp, strcasecmp, h]

theorem tolower_tolower (c : UInt8) : tolower (tolower c) = tolower c := by
  unfold tolower
  by_cases h : 65 ≤ c ∧ c ≤ 90
  · rw [if_pos h, if_neg]
    intro h'
    have h1 : (65 : UInt8).toNat ≤ c.toNat := UInt8.le_iff_toNat_le.mp h.1
    have h2 : c.toNat ≤ (90 : UInt8).toNat := UInt8.le_iff_toNat_le.mp h.2
    have h3 : (c + 32).toNat ≤ (90 : UInt8).toNat := UInt8.le_iff_toNat_le.mp h'.2
    have hadd : (c + 32).toNat = (c.toNat + 32) % 256 := UInt8.toNat_add c 32
    simp only [UInt8.toNat_ofNat] at h1 h2 h3
    omega
  · rw [if_neg h, if_neg h]

theorem lower_lower (s : Bytes) : lower (lower s) = lower s := by
  rw [lower, lower, List.map_map]
  exact List.map_congr_left fun c _ => tolower_tolower c

/-! ## Lookups behind an insertion -/

theorem lookup_congr {table : Dictionary} {name q : Bytes} (h : lower q = lower name) :
    dictionaryLookup hash table q = dictionaryLookup hash table name := by
  rw [dictionaryLookup, dictionaryLookup, dictionaryHash, dictionaryHash, h, variableCmp_congr h]

/-- A name that is there keeps its place and gets the new value. -/
theorem insert_found {table : Dictionary} {name value record : Bytes}
    (h : (dictionaryLookup hash table name).isSome) (q : Bytes) :
    dictionaryLookup hash (dictionaryInsert hash table name value record) q =
      if lower q = lower name then some value else dictionaryLookup hash table q := by
  obtain ⟨v, hv⟩ : ∃ v, (table (dictionaryHash hash name)).find (variableCmp name) = some v := by
    rw [dictionaryLookup, Option.isSome_map] at h
    exact Option.isSome_iff_exists.mp h
  have hkeep : ∀ (s : Bytes) (d : Variable), variableCmp s { d with value := value } = variableCmp s d :=
    fun _ _ => rfl
  simp only [dictionaryInsert, hv]
  by_cases hq : lower q = lower name
  · rw [if_pos hq, lookup_congr hash hq, dictionaryLookup, Function.update_self,
      SearchTree.find_update_same (hkeep name), hv]
    rfl
  · rw [if_neg hq, dictionaryLookup, dictionaryLookup]
    by_cases hh : dictionaryHash hash q = dictionaryHash hash name
    · rw [hh, Function.update_self, SearchTree.find_update_other (hkeep q)]
      intro d hd hd'
      exact hq ((variableCmp_eq_zero.mp hd').trans (variableCmp_eq_zero.mp hd).symm)
    · rw [Function.update_of_ne hh]

/-- The record is walked to where its name is looked for. -/
def Placed (table : Dictionary) (name record : Bytes) : Prop :=
  (table (dictionaryHash hash name)).SameWay (variableCmp name) (variableCmp record)

theorem insert_other {table : Dictionary} {name value record q : Bytes}
    (h : dictionaryLookup hash table name = none) (hq : lower q ≠ lower name) :
    dictionaryLookup hash (dictionaryInsert hash table name value record) q =
      dictionaryLookup hash table q := by
  rw [dictionaryLookup, Option.map_eq_none_iff] at h
  simp only [dictionaryInsert, h]
  rw [dictionaryLookup, dictionaryLookup]
  by_cases hh : dictionaryHash hash q = dictionaryHash hash name
  · rw [hh, Function.update_self, SearchTree.find_insert_other]
    rw [ne_eq, variableCmp_eq_zero, variableNew, lower_lower]
    exact hq
  · rw [Function.update_of_ne hh]

theorem insert_placed {table : Dictionary} {name value record : Bytes}
    (h : dictionaryLookup hash table name = none) (hp : Placed hash table name record) :
    dictionaryLookup hash (dictionaryInsert hash table name value record) name = some value := by
  rw [dictionaryLookup, Option.map_eq_none_iff] at h
  have hself : variableCmp name (variableNew name value) = 0 := by
    rw [variableCmp_eq_zero, variableNew, lower_lower]
  simp only [dictionaryInsert, h]
  rw [dictionaryLookup, Function.update_self, SearchTree.find_insert_same hself h hp]
  rfl

/-- A record that is walked elsewhere cannot be found. -/
theorem insert_astray {table : Dictionary} {name value record : Bytes}
    (h : dictionaryLookup hash table name = none) (hp : ¬ Placed hash table name record) :
    dictionaryLookup hash (dictionaryInsert hash table name value record) name = none := by
  rw [dictionaryLookup, Option.map_eq_none_iff] at h
  simp only [dictionaryInsert, h]
  rw [dictionaryLookup, Function.update_self, SearchTree.find_insert_astray h hp]
  rfl

/-! ## The stored names -/

/-- The names in the buckets, each as often as it is stored. -/
def storedNames (table : Dictionary) : List Bytes :=
  (List.finRange 16).flatMap fun h => (table h).toList.map (·.name)

theorem flatMap_update_perm {α : Type} {f : Fin 16 → List α} {h : Fin 16} {l : List α} {x : α}
    (hl : l.Perm (x :: f h)) : ∀ {hs : List (Fin 16)}, h ∈ hs → hs.Nodup →
      (hs.flatMap (Function.update f h l)).Perm (x :: hs.flatMap f) := by
  intro hs
  induction hs with
  | nil => intro hmem; cases hmem
  | cons k hs ih =>
    intro hmem hnd
    obtain ⟨hk, hnd⟩ := List.nodup_cons.mp hnd
    rw [List.flatMap_cons, List.flatMap_cons]
    rcases List.mem_cons.mp hmem with rfl | hmem
    · have hsame : hs.flatMap (Function.update f h l) = hs.flatMap f := by
        refine List.flatMap_congr fun j hj => ?_
        have hne : j ≠ h := fun he => hk (he ▸ hj)
        rw [Function.update_of_ne hne]
      rw [Function.update_self, hsame]
      exact hl.append_right _
    · have hne : k ≠ h := fun he => hk (he ▸ hmem)
      rw [Function.update_of_ne hne]
      exact ((ih hmem hnd).append_left (f k)).trans List.perm_middle

theorem storedNames_insert_new {table : Dictionary} {name : Bytes} (value record : Bytes)
    (h : dictionaryLookup hash table name = none) :
    (storedNames (dictionaryInsert hash table name value record)).Perm
      (lower name :: storedNames table) := by
  rw [dictionaryLookup, Option.map_eq_none_iff] at h
  simp only [dictionaryInsert, h, storedNames]
  have hfun : (fun k => ((Function.update table (dictionaryHash hash name)
      ((table (dictionaryHash hash name)).insert (variableCmp record) (variableNew name value)))
        k).toList.map (·.name)) =
      Function.update (fun k => (table k).toList.map (·.name)) (dictionaryHash hash name)
        (((table (dictionaryHash hash name)).insert (variableCmp record)
          (variableNew name value)).toList.map (·.name)) := by
    funext k
    by_cases hk : k = dictionaryHash hash name
    · subst hk; simp
    · simp [Function.update_of_ne hk]
  rw [hfun]
  exact flatMap_update_perm ((SearchTree.toList_insert _ _ _).map _) (List.mem_finRange _)
    (List.nodup_finRange 16)

theorem storedNames_insert_found {table : Dictionary} {name : Bytes} (value record : Bytes)
    (h : (dictionaryLookup hash table name).isSome) :
    storedNames (dictionaryInsert hash table name value record) = storedNames table := by
  obtain ⟨v, hv⟩ : ∃ v, (table (dictionaryHash hash name)).find (variableCmp name) = some v := by
    rw [dictionaryLookup, Option.isSome_map] at h
    exact Option.isSome_iff_exists.mp h
  simp only [dictionaryInsert, hv, storedNames]
  refine List.flatMap_congr fun k _ => ?_
  by_cases hk : k = dictionaryHash hash name
  · subst hk
    rw [Function.update_self]
    refine SearchTree.map_toList_update (fun d => ?_) _
    rfl
  · rw [Function.update_of_ne hk]

/-! ## Runs of insertions -/

/-- A call of `dictionary_insert`, with the bytes of the record it may allocate. -/
structure Insertion where
  name : Bytes
  value : Bytes
  record : Bytes

/-- The dictionary, and what was inserted into it so far, the latest first. -/
structure DictState where
  table : Dictionary
  log : List Insertion

def dictMachine : Machine DictState Insertion where
  step s i := some ⟨dictionaryInsert hash s.table i.name i.value i.record, i :: s.log⟩

def DictState.fresh : DictState := ⟨dictionaryNew, []⟩

/-- The value inserted last under `name`, ignoring case. -/
def lastInserted (name : Bytes) : List Insertion → Option Bytes
  | [] => none
  | i :: log => if lower name = lower i.name then some i.value else lastInserted name log

/-- Lookups return what was inserted last, and no name is stored twice. -/
structure IsMap (s : DictState) : Prop where
  lookup : ∀ q, dictionaryLookup hash s.table q = lastInserted q s.log
  nodup : ((storedNames s.table).map lower).Nodup

/-- The condition on an insertion: a name that is not there yet is walked, by the
bytes of its record, to where it will be looked for. -/
def InsertOk (s : DictState) (i : Insertion) : Prop :=
  dictionaryLookup hash s.table i.name = none → Placed hash s.table i.name i.record

instance (s : DictState) (i : Insertion) : Decidable (InsertOk hash s i) :=
  inferInstanceAs (Decidable (_ → SearchTree.SameWay _ _ _))

/-- The map property, and that only inserted names are stored. -/
structure DictInv (s : DictState) : Prop extends IsMap hash s where
  stored : ∀ n ∈ storedNames s.table, (lastInserted n s.log).isSome

theorem lastInserted_congr {p q : Bytes} (h : lower p = lower q) (log : List Insertion) :
    lastInserted p log = lastInserted q log := by
  induction log with
  | nil => rfl
  | cons i log ih => rw [lastInserted, lastInserted, h, ih]

theorem inv_fresh : DictInv hash DictState.fresh where
  lookup _ := rfl
  nodup := by decide
  stored n hn := by
    have hnil : storedNames DictState.fresh.table = [] := by decide
    rw [hnil] at hn
    exact absurd hn (by simp)

theorem inv_insert {s s' : DictState} {i : Insertion} (hi : DictInv hash s) (hc : InsertOk hash s i)
    (hs : (dictMachine hash).step s i = some s') : DictInv hash s' := by
  obtain rfl : (⟨dictionaryInsert hash s.table i.name i.value i.record, i :: s.log⟩ : DictState) = s' :=
    Option.some.inj hs
  cases hl : dictionaryLookup hash s.table i.name with
  | some v =>
    have hfound : (dictionaryLookup hash s.table i.name).isSome := by rw [hl]; rfl
    have hnames := storedNames_insert_found hash i.value i.record hfound
    refine ⟨⟨fun q => ?_, ?_⟩, fun n hn => ?_⟩
    · simp only [insert_found hash hfound, lastInserted, hi.lookup]
    · simp only [hnames]
      exact hi.nodup
    · simp only [hnames] at hn
      simp only [lastInserted]
      split
      · rfl
      · exact hi.stored n hn
  | none =>
    have hnames := storedNames_insert_new hash i.value i.record hl
    have hnew : lower i.name ∉ (storedNames s.table).map lower := by
      intro hm
      obtain ⟨n, hn, he⟩ := List.mem_map.mp hm
      have := hi.stored n hn
      rw [lastInserted_congr he, ← hi.lookup, hl] at this
      exact absurd this (by simp)
    refine ⟨⟨fun q => ?_, ?_⟩, fun n hn => ?_⟩
    · simp only [lastInserted]
      split
      · rename_i hq
        rw [lookup_congr hash hq, insert_placed hash hl (hc hl)]
      · rename_i hq
        rw [insert_other hash hl hq, hi.lookup]
    · rw [(hnames.map lower).nodup_iff, List.map_cons, lower_lower]
      exact List.nodup_cons.mpr ⟨hnew, hi.nodup⟩
    · simp only [lastInserted]
      rcases List.mem_cons.mp (hnames.mem_iff.mp hn) with rfl | hn
      · rw [if_pos (lower_lower i.name)]
        rfl
      · split
        · rfl
        · exact hi.stored n hn

theorem insertOk_of_isMap {s s' : DictState} {i : Insertion}
    (hs : (dictMachine hash).step s i = some s') (hm : IsMap hash s') : InsertOk hash s i := by
  obtain rfl : (⟨dictionaryInsert hash s.table i.name i.value i.record, i :: s.log⟩ : DictState) = s' :=
    Option.some.inj hs
  intro hl
  by_contra hp
  have hlost := hm.lookup i.name
  simp only [insert_astray hash hl hp, lastInserted, if_true] at hlost
  exact absurd hlost (by simp)

/-- **The dictionary is a map.** In a run of any length from a fresh dictionary,
every state reached looks up what was inserted last and stores no name twice
exactly when every insertion of a new name is walked, by the bytes of its record,
to where the name is looked for. -/
theorem map_iff (insertions : List Insertion) :
    (dictMachine hash).Along (IsMap hash) .fresh insertions ↔
      (dictMachine hash).Guarded (InsertOk hash) .fresh insertions :=
  Machine.along_iff_guarded (I := DictInv hash) (fun _ h => h.toIsMap)
    (fun _ _ _ h hc hs => inv_insert hash h hc hs) (fun _ _ _ _ hs hm => insertOk_of_isMap hash hs hm)
    (inv_fresh hash)

end Hash

/-- Two names in one bucket (bucket 7, where a `long` has 64 bits); the bytes of the
second record compare above the first name, the second name below it. -/
def misplaced : List Insertion :=
  [⟨ascii "j", ascii "1", [80]⟩, ⟨ascii "c", ascii "2", [112, 16, 85]⟩]

/-- **A lost name.** The name inserted second is not found again. -/
theorem misplaced_not_map :
    ¬ ∀ (hash : Bytes → Fin 16) (insertions : List Insertion) (s : DictState),
      (dictMachine hash).exec .fresh insertions = some s → IsMap hash s := by
  intro h
  have hm := (h (fun _ => 7) misplaced _ rfl).lookup (ascii "c")
  exact absurd hm (by decide)

end Sighttpd.L1
