import Mathlib.Data.List.Perm.Subperm
import Sighttpd.L1Data.Lists
import Sighttpd.L1Data.ParamsMap

/-!
# Params objects in memory (`params.c` over `list.c`)

Any number of params objects in one memory, each the pointer to the first node of its
list. A node is modelled together with the record its `data` points to. `malloc` is a
function of the number of the allocation and of the nodes there are, and finds a place
where there is none, also one that was freed.

* `upsert_spec`, `mergeLoop_spec`: each call does to one list what it does to the
  entries, and leaves the nodes of all others alone.
* `params_history`: after any calls on any objects, each object is the reference map.
-/
namespace Sighttpd.L1
open Sighttpd.CString LinkedList

/-! ## Model -/

/-- The nodes there are, and how many have been allocated. -/
structure ParamStore where
  cells : ListMem Param
  mallocs : Nat

namespace Nodes
section Calls
variable (malloc : Nat → ListMem Param → Nat) (rounds : Nat)

/-- mirrors src/params.c:120-125 (and 166-175, 188-195): the loop to the first node of
the name -/
def keyLoop (m : ListMem Param) (key : Bytes) : Nat → Option Nat → Option (Option Nat)
  | 0, _ => none
  | _ + 1, none => some none
  | k + 1, some l => do
    let node ← m l
    if strcasecmp node.data.key key = 0 then some (some l) else keyLoop m key k node.next

/-- mirrors src/params.c:114-128 (`params_get`) -/
def paramsGet (m : ListMem Param) (params : Option Nat) (key : Bytes) : Option (Option Bytes) := do
  match ← keyLoop m key rounds params with
  | none => some none
  | some l => some (some (← m l).data.value)

/-- mirrors src/params.c:149-155 (`params_add`) -/
def paramsAdd (st : ParamStore) (params : Option Nat) (key value : Bytes) :
    Option (ParamStore × Option Nat) := do
  let (m, params) ← listAppend rounds st.cells params ⟨key, value⟩ (malloc st.mallocs st.cells)
  some (⟨m, st.mallocs + 1⟩, params)

/-- The common shape of `params_append` and `params_replace`: `f` is what is made of a
value that is there. -/
def upsert (key : Bytes) (f : Bytes → Bytes) (value : Bytes) (st : ParamStore)
    (params : Option Nat) : Option (ParamStore × Option Nat) := do
  match ← keyLoop st.cells key rounds params with
  | some l =>
    some ({ st with cells := ← setData st.cells l fun p => { p with value := f p.value } }, params)
  | none => paramsAdd malloc rounds st params key value

/-- mirrors src/params.c:157-178 (`params_append`), for non-NULL `key` and `value` -/
def paramsAppend (st : ParamStore) (params : Option Nat) (key value : Bytes) :
    Option (ParamStore × Option Nat) :=
  upsert malloc rounds key (fun old => old ++ ascii "," ++ value) value st params

/-- mirrors src/params.c:180-198 (`params_replace`), for non-NULL `key` and `value` -/
def paramsReplace (st : ParamStore) (params : Option Nat) (key value : Bytes) :
    Option (ParamStore × Option Nat) :=
  upsert malloc rounds key (fun _ => value) value st params

/-- mirrors src/params.c:206-209, the loop of `params_merge` with its variables `l` and
`dest` -/
def mergeLoop : Nat → ParamStore → Option Nat → Option Nat → Option (ParamStore × Option Nat)
  | 0, _, _, _ => none
  | _ + 1, st, none, dest => some (st, dest)
  | k + 1, st, some l, dest => do
    let p := (← st.cells l).data
    let (st, dest) ← paramsAppend malloc rounds st dest p.key p.value
    mergeLoop k st (← st.cells l).next dest

/-- mirrors src/params.c:200-212 (`params_merge`) -/
def paramsMerge (st : ParamStore) (dest src : Option Nat) : Option (ParamStore × Option Nat) :=
  mergeLoop malloc rounds rounds st src dest

end Calls

/-- What the callers of `malloc` rely on. -/
def Fresh (malloc : Nat → ListMem Param → Nat) : Prop :=
  ∀ k m, Memory.Bounded m → m (malloc k m) = none

/-! ## One list -/

/-- The entries of a list in memory. -/
def entries (xs : List (Nat × Param)) : List Param := xs.map Prod.snd

@[simp] theorem entries_append (xs ys : List (Nat × Param)) :
    entries (xs ++ ys) = entries xs ++ entries ys := List.map_append

@[simp] theorem entries_cons (x : Nat × Param) (xs : List (Nat × Param)) :
    entries (x :: xs) = x.2 :: entries xs := rfl

/-- A loop to the first node whose name `same` accepts. -/
def matchLoop (same : Bytes → Bool) (m : ListMem Param) : Nat → Option Nat → Option (Option Nat)
  | 0, _ => none
  | _ + 1, none => some none
  | k + 1, some l => do
    let node ← m l
    if same node.data.key then some (some l) else matchLoop same m k node.next

theorem matchLoop_spec {m : ListMem Param} {p : Option Nat} {xs : List (Nat × Param)}
    (same : Bytes → Bool) (hs : Seg m p xs none) {k : Nat} (hk : xs.length < k) :
    (∃ ys x zs, xs = ys ++ x :: zs ∧ same x.2.key ∧ (∀ q ∈ entries ys, ¬ same q.key) ∧
        matchLoop same m k (ptr xs) = some (some x.1)) ∨
      (∀ q ∈ entries xs, ¬ same q.key) ∧ matchLoop same m k (ptr xs) = some none := by
  obtain ⟨k, rfl⟩ := Nat.exists_eq_succ_of_ne_zero (Nat.ne_zero_of_lt hk)
  induction xs generalizing p k with
  | nil => exact Or.inr ⟨fun q hq => (by cases hq), rfl⟩
  | cons x xs ih =>
    obtain ⟨hx, hxs⟩ := hs
    rw [List.length_cons] at hk
    obtain ⟨k, rfl⟩ := Nat.exists_eq_succ_of_ne_zero (show k ≠ 0 by omega)
    simp only [ptr, matchLoop, hx, Option.or_none, Option.bind_eq_bind, Option.bind_some]
    by_cases hkey : same x.2.key
    · exact Or.inl ⟨[], x, xs, rfl, hkey, fun q hq => (by cases hq), if_pos hkey⟩
    · rw [if_neg hkey]
      rcases ih hxs k (by omega) with ⟨ys, z, zs, rfl, hz, hys, hloop⟩ | ⟨hall, hloop⟩
      · exact Or.inl ⟨x :: ys, z, zs, rfl, hz, List.forall_mem_cons.mpr ⟨hkey, hys⟩, hloop⟩
      · exact Or.inr ⟨List.forall_mem_cons.mpr ⟨hkey, hall⟩, hloop⟩

theorem keyLoop_eq (m : ListMem Param) (key : Bytes) (k : Nat) (l : Option Nat) :
    keyLoop m key k l = matchLoop (fun s => strcasecmp s key = 0) m k l := by
  induction k generalizing l with
  | zero => rfl
  | succ k ih =>
    cases l with
    | none => rfl
    | some l => simp [keyLoop, matchLoop, ih]

/-- The loop stops at the first entry of the name. -/
theorem keyLoop_spec {m : ListMem Param} {p : Option Nat} {xs : List (Nat × Param)} {key : Bytes}
    (hs : Seg m p xs none) {k : Nat} (hk : xs.length < k) :
    (∃ ys x zs, xs = ys ++ x :: zs ∧ lower x.2.key = lower key ∧
        (∀ q ∈ entries ys, lower q.key ≠ lower key) ∧ keyLoop m key k (ptr xs) = some (some x.1)) ∨
      (∀ q ∈ entries xs, lower q.key ≠ lower key) ∧ keyLoop m key k (ptr xs) = some none := by
  have hloop := matchLoop_spec (fun s => strcasecmp s key = 0) hs hk
  simp only [decide_eq_true_eq, strcasecmp_eq_zero] at hloop
  rw [keyLoop_eq]
  simpa only [strcasecmp_eq_zero] using hloop

theorem paramsGet_spec {m : ListMem Param} {xs : List (Nat × Param)} (h : IsList m xs) {k : Nat}
    (hk : xs.length < k) (key : Bytes) :
    paramsGet k m (ptr xs) key = some (L1.paramsGet (entries xs) key) := by
  rcases keyLoop_spec h.linked hk with ⟨ys, x, zs, rfl, hx, hys, hloop⟩ | ⟨hall, hloop⟩
  · obtain ⟨-, hcell, -⟩ := (seg_append ys (x :: zs)).mp h.linked
    rw [entries_append, entries_cons, paramsGet_split hys hx, paramsGet, hloop]
    simp [hcell]
  · rw [paramsGet_none hall, paramsGet, hloop]
    rfl

section Lists
variable {malloc : Nat → ListMem Param → Nat} {rounds : Nat} {st : ParamStore}

theorem upsert_spec {xs : List (Nat × Param)} (h : IsList st.cells xs)
    (hn : st.cells (malloc st.mallocs st.cells) = none) (hk : xs.length < rounds) (key : Bytes)
    (f : Bytes → Bytes) (value : Bytes) :
    ∃ st' xs', upsert malloc rounds key f value st (ptr xs) = some (st', ptr xs') ∧
      IsList st'.cells xs' ∧ entries xs' = paramsUpsert key f value (entries xs) ∧
      (addrs xs' = addrs xs ∨ addrs xs' = addrs xs ++ [malloc st.mallocs st.cells]) ∧
      ∀ b, b ∉ addrs xs' → st'.cells b = st.cells b := by
  rcases keyLoop_spec h.linked hk with ⟨ys, x, zs, rfl, hx, hys, hloop⟩ | ⟨hall, hloop⟩
  · obtain ⟨m', hset, hlinked, heq⟩ :=
      change_data h.linked h.distinct fun p => { p with value := f p.value }
    have haddrs : addrs (ys ++ (x.1, { x.2 with value := f x.2.value }) :: zs) =
        addrs (ys ++ x :: zs) := by simp
    refine ⟨{ st with cells := m' }, _, ?_, ⟨hlinked, haddrs ▸ h.distinct⟩, ?_,
      Or.inl haddrs, fun b hb => heq b ?_⟩
    · rw [upsert, hloop, ptr_congr haddrs]
      simp [hset]
    · rw [entries_append, entries_append, entries_cons, entries_cons,
        paramsUpsert_split f value hys hx]
    · rintro rfl
      simp at hb
  · obtain ⟨m', happ, hlist, heq⟩ := listAppend_spec h ⟨key, value⟩ (h.fresh hn) hk
    refine ⟨⟨m', st.mallocs + 1⟩, _, ?_, hlist, ?_, Or.inr (by simp), heq⟩
    · rw [upsert, hloop]
      simp [paramsAdd, happ]
    · rw [entries_append, paramsUpsert_new f value hall]
      rfl

end Lists

/-! ## All objects -/

/-- The memory holds each object as a list of its own. -/
structure Objects (st : ParamStore) (object : Nat → Option Nat)
    (contents : Nat → List (Nat × Param)) : Prop where
  root : ∀ i, object i = ptr (contents i)
  lists : ∀ i, IsList st.cells (contents i)
  apart : ∀ i j, i ≠ j → (addrs (contents i)).Disjoint (addrs (contents j))
  bounded : Memory.Bounded st.cells

section Objects
variable {malloc : Nat → ListMem Param → Nat} {rounds : Nat} {st : ParamStore}
  {object : Nat → Option Nat}
  {contents : Nat → List (Nat × Param)}

/-- Object `i` becomes the list `xs'`, and the nodes of the others stay as they are. -/
theorem Objects.update (h : Objects st object contents) {i : Nat} {st' : ParamStore}
    {xs' : List (Nat × Param)} (hlist : IsList st'.cells xs')
    (hapart : ∀ j, j ≠ i → (addrs xs').Disjoint (addrs (contents j)))
    (hothers : ∀ j, j ≠ i → ∀ a ∈ addrs (contents j), st'.cells a = st.cells a)
    (hbounded : Memory.Bounded st'.cells) :
    Objects st' (Function.update object i (ptr xs')) (Function.update contents i xs') := by
  refine ⟨fun j => ?_, fun j => ?_, apart_update h.apart hapart, hbounded⟩
  · by_cases hj : j = i
    · subst hj
      rw [Function.update_self, Function.update_self]
    · rw [Function.update_of_ne hj, Function.update_of_ne hj]
      exact h.root j
  · by_cases hj : j = i
    · subst hj
      rwa [Function.update_self]
    · rw [Function.update_of_ne hj]
      exact (h.lists j).congr (hothers j hj)

/-- Writing to object `i` leaves the nodes of all others alone. -/
theorem upsert_objects (hm : Fresh malloc) (h : Objects st object contents)
    {i : Nat} (hk : (contents i).length < rounds) (key : Bytes) (f : Bytes → Bytes) (value : Bytes) :
    ∃ st' xs', upsert malloc rounds key f value st (object i) = some (st', ptr xs') ∧
      Objects st' (Function.update object i (ptr xs')) (Function.update contents i xs') ∧
      entries xs' = paramsUpsert key f value (entries (contents i)) ∧
      ∀ j, j ≠ i → ∀ a ∈ addrs (contents j), st'.cells a = st.cells a := by
  have hnew := hm st.mallocs _ h.bounded
  obtain ⟨st', xs', hrun, hlist, hentries, haddrs, heq⟩ :=
    upsert_spec (h.lists i) hnew hk key f value
  have hsub : ∀ a ∈ addrs xs', a ∈ addrs (contents i) ∨ a = malloc st.mallocs st.cells := by
    intro a ha
    rcases haddrs with he | he
    · exact Or.inl (he ▸ ha)
    · rwa [he, List.mem_append, List.mem_singleton] at ha
  have hapart : ∀ j, j ≠ i → (addrs xs').Disjoint (addrs (contents j)) := by
    intro j hj a ha hja
    rcases hsub a ha with ha | rfl
    · exact h.apart i j (Ne.symm hj) ha hja
    · exact (h.lists j).fresh hnew hja
  have hothers : ∀ j, j ≠ i → ∀ a ∈ addrs (contents j), st'.cells a = st.cells a :=
    fun j hj a ha => heq a fun hx => hapart j hj hx ha
  exact ⟨st', xs', h.root i ▸ hrun, h.update hlist hapart hothers (h.bounded.change _ heq), hentries,
    hothers⟩

/-- The names are different and among `K`, so the list is no longer than `K`. -/
structure Within (K : List Bytes) (params : List Param) : Prop where
  distinct : (names params).Nodup
  subset : names params ⊆ K

theorem Within.length_le {K : List Bytes} {xs : List (Nat × Param)} (h : Within K (entries xs)) :
    xs.length ≤ K.length := by
  have hle := (h.distinct.subperm h.subset).length_le
  simpa [names, entries] using hle

theorem names_append_subset {K : List Bytes} {params : List Param} (hsub : names params ⊆ K)
    {key : Bytes} (hkey : lower key ∈ K) (value : Bytes) :
    names (L1.paramsAppend params key value) ⊆ K := by
  rw [names_paramsAppend]
  split
  · exact hsub
  · exact List.append_subset.mpr ⟨hsub, List.cons_subset.mpr ⟨hkey, List.nil_subset K⟩⟩

theorem Within.append {K : List Bytes} {params : List Param} (h : Within K params) {key : Bytes}
    (hkey : lower key ∈ K) (value : Bytes) : Within K (L1.paramsAppend params key value) :=
  ⟨nodup_paramsAppend h.distinct key value, names_append_subset h.subset hkey value⟩

theorem append_objects (hm : Fresh malloc) (h : Objects st object contents)
    {i : Nat} (hk : (contents i).length < rounds) (key value : Bytes) :
    ∃ st' xs', paramsAppend malloc rounds st (object i) key value = some (st', ptr xs') ∧
      Objects st' (Function.update object i (ptr xs')) (Function.update contents i xs') ∧
      entries xs' = L1.paramsAppend (entries (contents i)) key value ∧
      ∀ j, j ≠ i → ∀ a ∈ addrs (contents j), st'.cells a = st.cells a := by
  rw [paramsAppend_eq_upsert]
  exact upsert_objects hm h hk key (joinComma value) value

/-- The loop is at the entries `ys` of the source; the destination may have grown. -/
theorem mergeLoop_spec (hm : Fresh malloc) {K : List Bytes} (hK : K.length < rounds)
    {i j : Nat} (hij : j ≠ i) {zs ys : List (Nat × Param)}
    (h : Objects st object contents) (hsrc : contents j = zs ++ ys)
    (hdest : Within K (entries (contents i))) (hys : names (entries ys) ⊆ K) {k : Nat}
    (hk : ys.length < k) :
    ∃ st' xs', mergeLoop malloc rounds k st (ptr ys) (object i) = some (st', ptr xs') ∧
      Objects st' (Function.update object i (ptr xs')) (Function.update contents i xs') ∧
      entries xs' = L1.paramsMerge (entries (contents i)) (entries ys) ∧
      ∀ j, j ≠ i → ∀ a ∈ addrs (contents j), st'.cells a = st.cells a := by
  obtain ⟨k, rfl⟩ := Nat.exists_eq_succ_of_ne_zero (Nat.ne_zero_of_lt hk)
  induction ys generalizing st object contents zs k with
  | nil =>
    refine ⟨st, contents i, by rw [h.root i]; rfl, ?_, rfl, fun _ _ _ _ => rfl⟩
    rw [← h.root i, Function.update_eq_self, Function.update_eq_self]
    exact h
  | cons y ys ih =>
    rw [List.length_cons] at hk
    obtain ⟨k, rfl⟩ := Nat.exists_eq_succ_of_ne_zero (show k ≠ 0 by omega)
    obtain ⟨hy, hys⟩ := List.cons_subset.mp hys
    obtain ⟨-, hcell, -⟩ := (seg_append zs (y :: ys)).mp (hsrc ▸ (h.lists j).linked)
    have hmem : y.1 ∈ addrs (contents j) := by
      rw [hsrc]
      simp
    have hlt : (contents i).length < rounds := Nat.lt_of_le_of_lt hdest.length_le hK
    obtain ⟨st₁, xs₁, happ, h₁, hentries₁, heq₁⟩ :=
      append_objects hm h hlt y.2.key y.2.value
    have hcell₁ := (heq₁ j hij y.1 hmem).trans hcell
    have hdest₁ : Within K (entries (Function.update contents i xs₁ i)) := by
      rw [Function.update_self, hentries₁]
      exact hdest.append hy y.2.value
    have hsrc₁ : Function.update contents i xs₁ j = (zs ++ [y]) ++ ys := by
      rw [Function.update_of_ne hij, hsrc]
      simp
    obtain ⟨st', xs', hloop, h', hentries, heq⟩ := ih h₁ hsrc₁ hdest₁ hys k (by omega)
    rw [Function.update_self] at hloop hentries
    refine ⟨st', xs', ?_, ?_, ?_, fun j' hj' a ha => ?_⟩
    · rw [ptr, mergeLoop, hcell]
      simp only [Option.bind_eq_bind, Option.bind_some, happ, hcell₁, Option.or_none]
      exact hloop
    · simpa using h'
    · rw [hentries, hentries₁]
      rfl
    · rw [heq j' hj' a (by rwa [Function.update_of_ne hj']), heq₁ j' hj' a ha]

end Objects

/-! ## Histories -/

/-- A call on object `i`, whose result becomes object `i`. -/
inductive ParamsCall where
  | append (i : Nat) (key value : Bytes)
  | replace (i : Nat) (key value : Bytes)
  | merge (i j : Nat) (separate : j ≠ i)

/-- The params objects of a program and their memory. -/
structure ParamsObjects where
  store : ParamStore
  object : Nat → Option Nat

/-- All objects are `NULL`. -/
def allNull : ParamsObjects := ⟨⟨fun _ => none, 0⟩, fun _ => none⟩

section Calls
variable (malloc : Nat → ListMem Param → Nat) (rounds : Nat)

def ParamsCall.run (s : ParamsObjects) : ParamsCall → Option ParamsObjects
  | .append i key value => do
    let (st, p) ← paramsAppend malloc rounds s.store (s.object i) key value
    some ⟨st, Function.update s.object i p⟩
  | .replace i key value => do
    let (st, p) ← paramsReplace malloc rounds s.store (s.object i) key value
    some ⟨st, Function.update s.object i p⟩
  | .merge i j _ => do
    let (st, p) ← paramsMerge malloc rounds s.store (s.object i) (s.object j)
    some ⟨st, Function.update s.object i p⟩

def runCalls : ParamsObjects → List ParamsCall → Option ParamsObjects
  | s, [] => some s
  | s, call :: calls => do runCalls (← call.run malloc rounds s) calls

end Calls

/-- What a call makes of the maps. -/
def ParamsCall.ref (refs : Nat → ParamsRef) : ParamsCall → Nat → ParamsRef
  | .append i key value => Function.update refs i ((refs i).append key value)
  | .replace i key value => Function.update refs i ((refs i).replace key value)
  | .merge i j _ => Function.update refs i ((refs i).merge (refs j))

/-- The maps after the calls. -/
def refs (calls : List ParamsCall) : Nat → ParamsRef :=
  calls.foldl ParamsCall.ref fun _ => .empty

/-- The name a call may add. -/
def ParamsCall.adds : ParamsCall → List Bytes
  | .append _ key _ => [lower key]
  | .replace _ key _ => [lower key]
  | .merge _ _ _ => []

/-- Each object is the list of its contents and shows its map. -/
structure Shows (K : List Bytes) (s : ParamsObjects)
    (contents : Nat → List (Nat × Param)) (maps : Nat → ParamsRef) : Prop where
  objects : Objects s.store s.object contents
  agrees : ∀ i, Agrees (entries (contents i)) (maps i)
  subset : ∀ i, names (entries (contents i)) ⊆ K

section Histories
variable {malloc : Nat → ListMem Param → Nat} {rounds : Nat} {K : List Bytes} {s : ParamsObjects}
  {contents : Nat → List (Nat × Param)} {maps : Nat → ParamsRef}

theorem Shows.within (h : Shows K s contents maps) (i : Nat) :
    Within K (entries (contents i)) := ⟨(h.agrees i).distinct, h.subset i⟩

theorem shows_allNull : Shows [] allNull (fun _ => []) fun _ => .empty where
  objects :=
    { root := fun _ => rfl
      lists := fun _ => isList_nil _
      apart := fun _ _ _ _ ha => (by cases ha)
      bounded := Memory.bounded_empty }
  agrees _ := agrees_empty
  subset _ := List.nil_subset _

/-- Object `i` has become the list `xs'`. -/
theorem Shows.update (h : Shows K s contents maps) {i : Nat} {st' : ParamStore}
    {xs' : List (Nat × Param)} {r : ParamsRef} {K' : List Bytes}
    (hobj : Objects st' (Function.update s.object i (ptr xs'))
      (Function.update contents i xs'))
    (hagr : Agrees (entries xs') r) (hK : K ⊆ K') (hsub : names (entries xs') ⊆ K') :
    Shows K' ⟨st', Function.update s.object i (ptr xs')⟩ (Function.update contents i xs')
      (Function.update maps i r) := by
  refine ⟨hobj, fun j => ?_, fun j => ?_⟩
  · by_cases hj : j = i
    · subst hj
      rwa [Function.update_self, Function.update_self]
    · rw [Function.update_of_ne hj, Function.update_of_ne hj]
      exact h.agrees j
  · by_cases hj : j = i
    · subst hj
      rwa [Function.update_self]
    · rw [Function.update_of_ne hj]
      exact List.Subset.trans (h.subset j) hK

theorem merge_spec (hm : Fresh malloc) (h : Shows K s contents maps)
    (hk : K.length < rounds) {i j : Nat} (hij : j ≠ i) :
    ∃ st' xs', paramsMerge malloc rounds s.store (s.object i) (s.object j) = some (st', ptr xs') ∧
      Objects st' (Function.update s.object i (ptr xs')) (Function.update contents i xs') ∧
      entries xs' = L1.paramsMerge (entries (contents i)) (entries (contents j)) ∧
      ∀ j, j ≠ i → ∀ a ∈ addrs (contents j), st'.cells a = s.store.cells a := by
  rw [paramsMerge, h.objects.root j]
  exact mergeLoop_spec hm hk hij h.objects (List.nil_append _).symm (h.within i) (h.subset j)
    (Nat.lt_of_le_of_lt (h.within j).length_le hk)

theorem names_upsert_subset {params : List Param} (hsub : names params ⊆ K) (key : Bytes)
    (f : Bytes → Bytes) (value : Bytes) :
    names (paramsUpsert key f value params) ⊆ lower key :: K := by
  rw [names_paramsUpsert]
  exact names_append_subset (List.subset_cons_of_subset _ hsub) List.mem_cons_self value

theorem names_merge_subset {dest src : List Param} (hd : names dest ⊆ K) (hs : names src ⊆ K) :
    names (L1.paramsMerge dest src) ⊆ K := by
  rw [L1.paramsMerge]
  induction src generalizing dest with
  | nil => exact hd
  | cons p src ih =>
    obtain ⟨hp, hs⟩ := List.cons_subset.mp hs
    exact ih (names_append_subset hd hp p.value) hs

/-- One call. -/
theorem run_spec (hm : Fresh malloc) (h : Shows K s contents maps)
    (hk : K.length < rounds) (call : ParamsCall) :
    ∃ s' contents', call.run malloc rounds s = some s' ∧
      Shows (call.adds ++ K) s' contents' (call.ref maps) := by
  have hlen : ∀ i, (contents i).length < rounds :=
    fun i => Nat.lt_of_le_of_lt (h.within i).length_le hk
  cases call with
  | append i key value =>
    obtain ⟨st', xs', hrun, hobj, hentries, -⟩ := append_objects hm h.objects (hlen i) key value
    refine ⟨_, _, by simp [ParamsCall.run, hrun], h.update hobj ?_ (List.subset_cons_self ..) ?_⟩
    · rw [hentries]
      exact agrees_append (h.agrees i) key value
    · rw [hentries, paramsAppend_eq_upsert]
      exact names_upsert_subset (h.subset i) key _ value
  | replace i key value =>
    obtain ⟨st', xs', hrun, hobj, hentries, -⟩ :=
      upsert_objects hm h.objects (hlen i) key (fun _ => value) value
    refine ⟨_, _, by simp [ParamsCall.run, paramsReplace, hrun],
      h.update hobj ?_ (List.subset_cons_self ..) ?_⟩
    · rw [hentries]
      exact agrees_upsert (h.agrees i) key _ value
    · rw [hentries]
      exact names_upsert_subset (h.subset i) key _ value
  | merge i j hij =>
    obtain ⟨st', xs', hrun, hobj, hentries, -⟩ := merge_spec hm h hk hij
    refine ⟨_, _, by simp [ParamsCall.run, hrun], h.update hobj ?_ (List.Subset.refl K) ?_⟩
    · rw [hentries]
      exact agrees_merge (h.agrees i) (h.agrees j)
    · rw [hentries]
      exact names_merge_subset (h.subset i) (h.subset j)

theorem runCalls_spec (hm : Fresh malloc) {calls : List ParamsCall}
    (h : Shows K s contents maps) (hk : K.length + calls.length < rounds) :
    ∃ K' s' contents', runCalls malloc rounds s calls = some s' ∧ K'.length < rounds ∧
      Shows K' s' contents' (calls.foldl ParamsCall.ref maps) := by
  induction calls generalizing K s contents maps with
  | nil => exact ⟨K, s, contents, rfl, hk, h⟩
  | cons call calls ih =>
    rw [List.length_cons] at hk
    have hlt : K.length < rounds := by omega
    obtain ⟨s₁, contents₁, hrun, h₁⟩ := run_spec hm h hlt call
    have hadds : call.adds.length ≤ 1 := by cases call <;> simp [ParamsCall.adds]
    obtain ⟨K', s', contents', hruns, hK', h'⟩ := ih h₁ (by rw [List.length_append]; omega)
    exact ⟨K', s', contents', by simp [runCalls, hrun, hruns], hK', h'⟩

/-- **Every history.** After any calls on any objects each object has different names, in
the order in which they were first added, and is the reference map for every name; and
a merge leaves its source as it is. -/
theorem params_history (hm : Fresh malloc) {calls : List ParamsCall}
    (hk : calls.length < rounds) :
    ∃ s contents, runCalls malloc rounds allNull calls = some s ∧
      Objects s.store s.object contents ∧
      (∀ i, (names (entries (contents i))).Nodup ∧
        (entries (contents i)).map (·.key) = (refs calls i).order ∧
        ∀ q, paramsGet rounds s.store.cells (s.object i) q = some ((refs calls i).get q)) ∧
      ∀ i j (hij : j ≠ i), ∃ s', (ParamsCall.merge i j hij).run malloc rounds s = some s' ∧
        s'.object j = s.object j ∧ ∀ a ∈ addrs (contents j), s'.store.cells a = s.store.cells a := by
  have hlen : ([] : List Bytes).length + calls.length < rounds := by simpa using hk
  obtain ⟨K, s, contents, hrun, hK, h⟩ := runCalls_spec hm shows_allNull hlen
  refine ⟨s, contents, hrun, h.objects, fun i => ⟨(h.agrees i).distinct, (h.agrees i).order,
    fun q => ?_⟩, fun i j hij => ?_⟩
  · rw [h.objects.root i, paramsGet_spec (h.objects.lists i)
      (Nat.lt_of_le_of_lt (h.within i).length_le hK), (h.agrees i).get q]
    rfl
  · obtain ⟨st', xs', hmerge, -, -, heq⟩ := merge_spec hm h hK hij
    exact ⟨_, by simp [ParamsCall.run, hmerge]; rfl, Function.update_of_ne hij .., heq j hij⟩

end Histories

/-- Nodes of sixteen bytes, one behind the other where it is free. -/
noncomputable def inOrder (k : Nat) (m : ListMem Param) : Nat := Memory.prefer (16 * k) m

theorem inOrder_fresh : Fresh inOrder := fun k _ hb => hb.prefer (16 * k)

/-- Names in several letter cases, a merge, and a merge back. -/
def mixedCalls : List ParamsCall :=
  [.append 0 (ascii "Fish-Type") (ascii "haddock"), .append 1 (ascii "cheese") (ascii "green"),
    .append 1 (ascii "FISH-TYPE") (ascii "bream"), .merge 0 1 (by decide),
    .replace 1 (ascii "Cheese") (ascii "old"), .merge 1 0 (by decide)]

theorem params_history_mixed :
    ∃ s contents, runCalls inOrder 7 allNull mixedCalls = some s ∧
      Objects s.store s.object contents ∧
      (∀ i, (names (entries (contents i))).Nodup ∧
        (entries (contents i)).map (·.key) = (refs mixedCalls i).order ∧
        ∀ q, paramsGet 7 s.store.cells (s.object i) q = some ((refs mixedCalls i).get q)) ∧
      ∀ i j (hij : j ≠ i), ∃ s', (ParamsCall.merge i j hij).run inOrder 7 s = some s' ∧
        s'.object j = s.object j ∧ ∀ a ∈ addrs (contents j), s'.store.cells a = s.store.cells a :=
  params_history inOrder_fresh (by decide)

example : ((runCalls inOrder 7 allNull mixedCalls).bind fun s =>
    paramsGet 7 s.store.cells (s.object 1) (ascii "fish-type")) =
      some (some (ascii "bream,haddock,bream")) := by decide +kernel

end Nodes
end Sighttpd.L1
