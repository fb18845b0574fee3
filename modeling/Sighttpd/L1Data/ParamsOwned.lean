import Sighttpd.L1Data.ParamsLife

/-!
# Params objects among others (`params.c`)

Any number of params objects on a heap that is also used by others. `malloc` succeeds; it depends
on the number of the call and on all that is on the heap, and finds a place where there is nothing,
also one that was freed. Names and values are not NULL, and a merge is from another object.

* `get_spec`: `params_get` gives a pointer into the object.
* `params_owned`: after any calls on any objects, each object is the list of its entries, and the
  heap is the one of before with the objects' parts in it and nothing else.
* `params_aliases`: a value of an object, handed back to it.
-/
namespace Sighttpd.L1.Heaps
open Sighttpd.CString LinkedList

/-! ## Calls -/

/-- A call on object `i`, whose result becomes object `i`. `appendFrom` appends what
`params_get` gives for the name in object `j`, which may be object `i`. -/
inductive HeapCall where
  | append (i : Nat) (key value : Bytes)
  | appendFrom (i : Nat) (key : Bytes) (j : Nat) (name : Bytes)
  | replace (i : Nat) (key value : Bytes)
  | merge (i j : Nat) (separate : j ≠ i)
  | remove (i : Nat) (key : Bytes)
  | free (i : Nat)

structure HeapObjects where
  heap : ParamHeap
  object : Nat → Option Nat

section Calls
variable (malloc : ParamHeap → Nat) (rounds : Nat)

/-- The object that is written to, and the call. -/
def HeapCall.call (s : HeapObjects) : HeapCall → Nat × Option (ParamHeap × Option Nat)
  | .append i key value =>
    (i, paramsAppend malloc rounds s.heap (s.object i) (.caller key) (.caller value))
  | .appendFrom i key j name =>
    (i, do
      let value ← paramsGet rounds s.heap (s.object j) (.caller name)
      paramsAppend malloc rounds s.heap (s.object i) (.caller key) value)
  | .replace i key value =>
    (i, paramsReplace malloc rounds s.heap (s.object i) (.caller key) (.caller value))
  | .merge i j _ => (i, paramsMerge malloc rounds s.heap (s.object i) (s.object j))
  | .remove i key => (i, paramsRemove rounds s.heap (s.object i) (.caller key))
  | .free i => (i, paramsFree rounds s.heap (s.object i))

def HeapCall.run (s : HeapObjects) (call : HeapCall) : Option HeapObjects := do
  let (h, p) ← (call.call malloc rounds s).2
  some ⟨h, Function.update s.object (call.call malloc rounds s).1 p⟩

/-- `malloc k` is what `malloc` does in the `k`-th call. -/
def runCalls : (Nat → ParamHeap → Nat) → HeapObjects → List HeapCall → Option HeapObjects
  | _, s, [] => some s
  | malloc, s, call :: calls => do
    runCalls (fun k => malloc (k + 1)) (← call.run (malloc 0) rounds s) calls

end Calls

/-- What a call makes of the lists. -/
def HeapCall.list (l : Nat → List Param) : HeapCall → Nat → List Param
  | .append i key value => Function.update l i (L1.paramsAppend (l i) key value)
  | .appendFrom i key j name =>
    match L1.paramsGet (l j) name with
    | none => l
    | some value => Function.update l i (L1.paramsAppend (l i) key value)
  | .replace i key value => Function.update l i (L1.paramsReplace (l i) key value)
  | .merge i j _ => Function.update l i (L1.paramsMerge (l i) (l j))
  | .remove i key => Function.update l i ((l i).eraseP fun q => q.key = key)
  | .free i => Function.update l i []

/-- The lists after the calls. -/
def lists (calls : List HeapCall) : Nat → List Param := calls.foldl HeapCall.list fun _ => []

/-- The name a call may add. -/
def HeapCall.adds : HeapCall → List Bytes
  | .append _ key _ | .appendFrom _ key _ _ | .replace _ key _ => [lower key]
  | _ => []

/-! ## Reading -/

section Objects
variable {malloc : ParamHeap → Nat} {rounds k : Nat} {h h' h₀ : ParamHeap} {p : Option Nat}
  {xs ys : List Entry} {key : CharPtr} {s t : Bytes}

theorem get_spec (hx : Holds h none xs) (hk : xs.length < rounds) (hs : h.str key = some s) :
    L1.paramsGet (params xs) s = none ∧
        paramsGet rounds h (ptr (links xs)) key = some .null ∨
      ∃ e ∈ xs, lower e.param.key = lower s ∧
        L1.paramsGet (params xs) s = some e.param.value ∧
        paramsGet rounds h (ptr (links xs)) key = some (.block e.value) := by
  rcases nameLoop_spec hx hs hk with ⟨ys, e, zs, rfl, he, hys, hloop⟩ | ⟨hall, hloop⟩
  · have hmem : e ∈ ys ++ e :: zs := by simp
    obtain ⟨-, hnode, -⟩ := (seg_append (links ys) (links (e :: zs))).mp (links_append ▸ hx.linked)
    refine Or.inr ⟨e, hmem, he, ?_, ?_⟩
    · rw [params_append, params_cons, paramsGet_split hys he]
    · simp only [paramsGet, hloop, hnode, hx.record e hmem, Option.bind_eq_bind, Option.bind_some]
  · exact Or.inl ⟨paramsGet_none hall, by simp [paramsGet, hloop]⟩

/-! ## Histories -/

/-- Each object is held by the heap, which has nothing that it did not have before and that is
in no object. -/
structure Owned (h₀ : ParamHeap) (K : List Bytes) (s : HeapObjects) (c : Nat → List Entry) :
    Prop where
  root : ∀ i, s.object i = ptr (links (c i))
  holds : ∀ i, Holds s.heap none (c i)
  within : ∀ i, Nodes.Within K (params (c i))
  apart : Heap.Apart fun i => own (c i)
  balance : Heap.Changes h₀.mem s.heap.mem (fun _ => ∅) (Heap.together fun i => own (c i))
  bounded : s.heap.mem.Bounded

theorem heap_eq (he : h'.mem = h.mem) : h' = h := by
  cases h
  cases h'
  have hnodes := congrFun he .node
  have hrecords := congrFun he .record
  have hchars := congrFun he .chars
  simp only [ParamHeap.mem] at hnodes hrecords hchars
  rw [hnodes, hrecords, hchars]

theorem own_nil : own [] = fun _ => ∅ := by
  funext k
  cases k <;> ext a <;> simp [own, owns, links, recordsOf, strings]

theorem owned_allNull (hb : h₀.mem.Bounded) :
    Owned h₀ [] ⟨h₀, fun _ => none⟩ fun _ => [] where
  root _ := rfl
  holds _ := holds_nil h₀ none
  within _ := ⟨List.nodup_nil, List.nil_subset _⟩
  apart i j _ k a ha := by
    rw [own_nil] at ha
    exact absurd ha (Set.notMem_empty a)
  balance := by
    have hnone : Heap.together (fun _ : Nat => own []) = fun _ => ∅ := by
      funext k
      ext a
      simp [Heap.together, own_nil]
    rw [hnone]
    exact .refl _ _
  bounded := hb

section Steps
variable {K K' : List Bytes} {st : HeapObjects} {c : Nat → List Entry} {i : Nat}

/-- Object `i` has become the entries `xs`. -/
theorem Owned.update (ho : Owned h₀ K st c) (hx : Holds h' none xs)
    (hc : Heap.Changes st.heap.mem h'.mem (own (c i)) (own xs)) (hK : K ⊆ K')
    (hwithin : Nodes.Within K' (params xs)) :
    Owned h₀ K' ⟨h', Function.update st.object i (ptr (links xs))⟩ (Function.update c i xs) := by
  obtain ⟨hap, hall, hothers⟩ := Heap.changes_one ho.apart (fun j => (ho.holds j).allocated) hc
  have hown : (fun j => own (Function.update c i xs j)) =
      Function.update (fun j => own (c j)) i (own xs) := Function.comp_update own c i xs
  refine ⟨fun j => ?_, fun j => ?_, fun j => ?_, hown ▸ hap, ?_, hc.bounded ho.bounded
    (own_finite xs)⟩
  · by_cases hj : j = i
    · simp [hj]
    · simpa [hj] using ho.root j
  · by_cases hj : j = i
    · subst hj
      rwa [Function.update_self]
    · rw [Function.update_of_ne hj]
      exact (ho.holds j).congr (hothers j hj)
  · by_cases hj : j = i
    · subst hj
      rwa [Function.update_self]
    · rw [Function.update_of_ne hj]
      exact ⟨(ho.within j).distinct, List.Subset.trans (ho.within j).subset hK⟩
  · rw [hown]
    exact ho.balance.trans hall

theorem within_upsert {l : List Param} (hl : Nodes.Within K l) (key : Bytes) (f : Bytes → Bytes)
    (value : Bytes) : Nodes.Within (lower key :: K) (paramsUpsert key f value l) := by
  refine ⟨?_, Nodes.names_upsert_subset hl.subset key f value⟩
  rw [names_paramsUpsert]
  exact nodup_paramsAppend hl.distinct key value

theorem within_append {l : List Param} (hl : Nodes.Within K l) (key value : Bytes) :
    Nodes.Within (lower key :: K) (L1.paramsAppend l key value) := by
  rw [paramsAppend_eq_upsert]
  exact within_upsert hl key _ value

theorem within_merge {dest src : List Param} (hd : Nodes.Within K dest) (hs : names src ⊆ K) :
    Nodes.Within K (L1.paramsMerge dest src) := by
  rw [L1.paramsMerge]
  induction src generalizing dest with
  | nil => exact hd
  | cons p src ih =>
    obtain ⟨hp, hs⟩ := List.cons_subset.mp hs
    exact ih (hd.append hp p.value) hs

theorem within_sublist {l l' : List Param} (hl : Nodes.Within K l) (hsub : l'.Sublist l) :
    Nodes.Within K l' :=
  have hnames : (names l').Sublist (names l) := hsub.map _
  ⟨hl.distinct.sublist hnames, List.Subset.trans hnames.subset hl.subset⟩

/-- One call. -/
theorem call_spec (hm : Fresh malloc) (ho : Owned h₀ K st c) {l : Nat → List Param}
    (hl : ∀ i, params (c i) = l i) (hk : K.length < rounds) (call : HeapCall) :
    ∃ i h' xs, call.call malloc rounds st = (i, some (h', ptr (links xs))) ∧
      Holds h' none xs ∧ Heap.Changes st.heap.mem h'.mem (own (c i)) (own xs) ∧
      call.list l = Function.update l i (params xs) ∧
      Nodes.Within (call.adds ++ K) (params xs) := by
  obtain ⟨hroot, hholds, hwithin, hap, -, hb⟩ := ho
  have hlen : ∀ i, (c i).length < rounds :=
    fun i => Nat.lt_of_le_of_lt (length_le_of_within (hwithin i)) hk
  have hlit : ∀ q : Bytes, st.heap.str (.caller q) = some q := fun _ => rfl
  cases call with
  | append i key value =>
    obtain ⟨h', xs, hrun, hx, hparams, hc⟩ :=
      append_spec hm hb (hholds i) (hlen i) (hlit key) (hlit value)
    refine ⟨i, h', xs, by rw [HeapCall.call, hroot, hrun], hx, hc, ?_, ?_⟩
    · rw [HeapCall.list, hparams, hl]
    · rw [hparams]
      exact within_append (hwithin i) key value
  | appendFrom i key j name =>
    rcases get_spec (hholds j) (hlen j) (hlit name) with ⟨hnone, hget⟩ | ⟨e, he, -, hsome, hget⟩
    · refine ⟨i, st.heap, c i, ?_, hholds i, .refl _ _, ?_, ?_⟩
      · simp [HeapCall.call, hroot, hget, paramsAppend]
      · rw [hl j] at hnone
        rw [HeapCall.list, hnone, hl, Function.update_eq_self]
      · exact ⟨(hwithin i).distinct, List.subset_append_of_subset_right _ (hwithin i).subset⟩
    · obtain ⟨h', xs, hrun, hx, hparams, hc⟩ :=
        append_spec hm hb (hholds i) (hlen i) (hlit key) ((hholds j).value e he)
      rw [hl j] at hsome
      refine ⟨i, h', xs, by simp [HeapCall.call, hroot, hget, hrun], hx, hc, ?_, ?_⟩
      · rw [HeapCall.list, hsome, hparams, hl]
      · rw [hparams]
        exact within_append (hwithin i) key e.param.value
  | replace i key value =>
    obtain ⟨h', xs, hrun, hx, hparams, hc⟩ := replace_spec hm hb (hholds i) (hlen i) (hlit key)
      (hlit value) fun _ _ _ he => (by cases he)
    refine ⟨i, h', xs, by rw [HeapCall.call, hroot, hrun], hx, hc, ?_, ?_⟩
    · rw [HeapCall.list, hparams, hl]
    · rw [hparams]
      exact within_upsert (hwithin i) key _ value
  | merge i j hij =>
    obtain ⟨h', xs, hrun, hx, hparams, hc⟩ :=
      merge_spec hm hb hk (hholds i) (hholds j) (hap i j (Ne.symm hij)) (hwithin i) (hwithin j)
    refine ⟨i, h', xs, by rw [HeapCall.call, hroot, hroot, hrun], hx, hc, ?_, ?_⟩
    · rw [HeapCall.list, hparams, hl, hl]
    · rw [hparams]
      exact within_merge (hwithin i) (hwithin j).subset
  | remove i key =>
    obtain ⟨h', xs, hrun, hx, hparams, hc⟩ := remove_spec (hholds i) (hlen i) (hlit key)
    refine ⟨i, h', xs, by rw [HeapCall.call, hroot, hrun], hx, hc, ?_, ?_⟩
    · rw [HeapCall.list, hparams, hl]
    · rw [hparams]
      exact within_sublist (hwithin i) List.eraseP_sublist
  | free i =>
    obtain ⟨h', hrun, hc⟩ := freeWithLoop_spec (hholds i) (hlen i)
    refine ⟨i, h', [], ?_, holds_nil h' none, hc, rfl, ⟨List.nodup_nil, List.nil_subset _⟩⟩
    have hnil : ptr (links []) = none := rfl
    simp [HeapCall.call, hroot, paramsFree, hrun, hnil]

theorem runCalls_spec {malloc : Nat → ParamHeap → Nat} (hm : ∀ k, Fresh (malloc k))
    {calls : List HeapCall} (ho : Owned h₀ K st c) {l : Nat → List Param}
    (hl : ∀ i, params (c i) = l i) (hk : K.length + calls.length < rounds) :
    ∃ K' s' c', runCalls rounds malloc st calls = some s' ∧ Owned h₀ K' s' c' ∧
      (∀ i, params (c' i) = calls.foldl HeapCall.list l i) ∧ K'.length < rounds := by
  induction calls generalizing malloc K st c l with
  | nil => exact ⟨K, st, c, rfl, ho, hl, hk⟩
  | cons call calls ih =>
    rw [List.length_cons] at hk
    have hlt : K.length < rounds := by omega
    obtain ⟨i, h₁, xs, hcall, hx, hc, hlist, hwithin⟩ := call_spec (hm 0) ho hl hlt call
    have ho₁ := ho.update hx hc (List.subset_append_right call.adds K) hwithin
    have hl₁ : ∀ j, params (Function.update c i xs j) = call.list l j := by
      intro j
      rw [hlist]
      by_cases hj : j = i
      · simp [hj]
      · simpa [hj] using hl j
    have hadds : call.adds.length ≤ 1 := by cases call <;> simp [HeapCall.adds]
    have hk₁ : (call.adds ++ K).length + calls.length < rounds := by
      rw [List.length_append]
      omega
    obtain ⟨K', s', c', hruns, ho', hl', hK'⟩ := ih (fun k => hm (k + 1)) ho₁ hl₁ hk₁
    exact ⟨K', s', c', by simp [runCalls, HeapCall.run, hcall, hruns], ho', hl', hK'⟩

end Steps

/-- **Memory safety.** After any calls on any objects, on a heap that others use as well and with
any `malloc` in each call, nothing undefined has happened, each object is the list of its entries,
no two objects share anything, and the heap is the one of before with the objects' parts in it. So
it is the one of before when all objects are empty. -/
theorem params_owned {malloc : Nat → ParamHeap → Nat} (hm : ∀ k, Fresh (malloc k))
    (hb : h₀.mem.Bounded) {calls : List HeapCall} (hk : calls.length < rounds) :
    ∃ (s : HeapObjects) (c : Nat → List Entry),
      runCalls rounds malloc ⟨h₀, fun _ => none⟩ calls = some s ∧
      (∀ i, s.object i = ptr (links (c i)) ∧ Holds s.heap none (c i) ∧
        params (c i) = lists calls i) ∧
      Heap.Apart (fun i => own (c i)) ∧
      Heap.Changes h₀.mem s.heap.mem (fun _ => ∅) (Heap.together fun i => own (c i)) ∧
      ((∀ i, lists calls i = []) → s.heap = h₀) := by
  have hlen : ([] : List Bytes).length + calls.length < rounds := by simpa using hk
  obtain ⟨K, s, c, hrun, ho, hl, -⟩ := runCalls_spec hm (owned_allNull hb) (fun _ => rfl) hlen
  refine ⟨s, c, hrun, fun i => ⟨ho.root i, ho.holds i, hl i⟩, ho.apart, ho.balance, fun hnil => ?_⟩
  have hempty : ∀ i, c i = [] := fun i => List.map_eq_nil_iff.mp ((hl i).trans (hnil i))
  have hnone : Heap.together (fun i => own (c i)) = fun _ => ∅ := by
    funext k
    ext a
    simp [Heap.together, hempty, own_nil]
  have hbalance := ho.balance
  rw [hnone] at hbalance
  exact heap_eq hbalance.balance

/-! ## An allocator and a heap -/

/-- The lowest free address. -/
noncomputable def firstFit (h : ParamHeap) : Nat := Heap.firstFit h.mem

theorem firstFit_fresh : Fresh firstFit := fun _ hb => Heap.firstFit_fresh hb

/-- A heap where someone else has a string. -/
def othersHeap : ParamHeap where
  nodes := fun _ => none
  records := fun _ => none
  chars := Memory.alloc (fun _ => none) 0 ⟨6, some (ascii "moose")⟩

theorem othersHeap_bounded : othersHeap.mem.Bounded := by
  refine Set.Finite.subset (Set.finite_singleton 0) fun a ha => ?_
  by_contra hne
  refine ha fun k => ?_
  cases k with
  | node => rfl
  | record => rfl
  | chars =>
    change Memory.alloc (fun _ => none) 0 _ a = none
    exact Memory.alloc_of_ne _ hne

/-- Two objects, values joined from one to the other and back, an entry removed, and both
freed. -/
def lifeCalls : List HeapCall :=
  [.append 0 (ascii "Fish-Type") (ascii "haddock"), .append 1 (ascii "FISH-TYPE") (ascii "bream"),
    .merge 0 1 Nat.one_ne_zero, .appendFrom 1 (ascii "Cheese") 0 (ascii "fish-type"),
    .appendFrom 1 (ascii "cheese") 1 (ascii "CHEESE"), .replace 0 (ascii "fish-type") (ascii "cod"),
    .remove 1 (ascii "Cheese"), .free 1, .free 0]

theorem params_owned_life :
    ∃ (s : HeapObjects) (c : Nat → List Entry),
      runCalls 10 (fun _ => firstFit) ⟨othersHeap, fun _ => none⟩ lifeCalls = some s ∧
      (∀ i, s.object i = ptr (links (c i)) ∧ Holds s.heap none (c i) ∧
        params (c i) = lists lifeCalls i) ∧
      Heap.Apart (fun i => own (c i)) ∧
      Heap.Changes othersHeap.mem s.heap.mem (fun _ => ∅) (Heap.together fun i => own (c i)) ∧
      ((∀ i, lists lifeCalls i = []) → s.heap = othersHeap) :=
  params_owned (fun _ => firstFit_fresh) othersHeap_bounded (by decide)

/-! ## A value handed back -/

/-- An entry is known by its name, and by where its value is. -/
theorem Holds.eq_of_name (hx : Holds h p xs) (hnd : (names (params xs)).Nodup) {e z : Entry}
    (he : e ∈ xs) (hz : z ∈ xs)
    (heq : lower e.param.key = lower z.param.key ∨ e.value = z.value) : e = z := by
  obtain ⟨ys, zs, rfl⟩ := List.mem_iff_append.mp hz
  by_contra hne
  have hother : e ∈ ys ++ zs := by
    rw [List.mem_append, List.mem_cons] at he
    rw [List.mem_append]
    tauto
  rcases heq with hname | hvalue
  · rw [params_append, params_cons] at hnd
    have hmem : e.param ∈ params ys ++ params zs := by
      rw [← params_append]
      exact List.mem_map_of_mem hother
    exact other_names hnd _ hmem hname
  · have hstrings := (strings_without ys z zs).nodup_iff.mp hx.chars
    exact (List.nodup_cons.mp hstrings).1
      (hvalue ▸ List.mem_cons_of_mem _ (value_mem_strings hother))

/-- `params_replace` copies the new value after it has freed the old one. -/
theorem replace_freed (hx : Holds h none xs) (hnd : (names (params xs)).Nodup)
    (hk : xs.length < rounds) (hs : h.str key = some s) {e : Entry} (he : e ∈ xs)
    (hname : lower e.param.key = lower s) :
    paramsReplace malloc rounds h (ptr (links xs)) key (.block e.value) = none := by
  rw [paramsReplace, if_neg (ne_null hs), upsert]
  rcases nameLoop_spec hx hs hk with ⟨ys, z, zs, rfl, hz, -, hloop⟩ | ⟨hall, -⟩
  · obtain rfl := hx.eq_of_name hnd he (by simp) (Or.inl (hname.trans hz.symm))
    obtain ⟨-, hnode, -⟩ := (seg_append (links ys) (links (e :: zs))).mp (links_append ▸ hx.linked)
    obtain ⟨block, hblock⟩ := Option.ne_none_iff_exists'.mp (chars_of_str (hx.value e he))
    have hgone : ({ h with chars := h.chars.free e.value } : ParamHeap).str (.block e.value) =
        none := by
      simp [ParamHeap.str, Memory.free_self]
    rw [hloop]
    simp only [Option.bind_eq_bind, Option.bind_some, hnode, renewValue, hx.record e he,
      ParamHeap.freeChars, hblock, Option.map_some, strdup, hgone, Option.bind_none]
  · exact absurd hname (hall _ (List.mem_map_of_mem he))

theorem replace_null (hx : Holds h none xs) (hk : xs.length < rounds) (hs : h.str key = some s) :
    paramsReplace malloc rounds h (ptr (links xs)) key .null = none := by
  have hdup : ∀ h : ParamHeap, strdup malloc h .null = none := fun _ => rfl
  rw [paramsReplace, if_neg (ne_null hs), upsert]
  rcases nameLoop_spec hx hs hk with ⟨ys, z, zs, rfl, -, -, hloop⟩ | ⟨-, hloop⟩
  · rw [hloop]
    simp [renewValue, hdup]
  · rw [hloop]
    simp [paramsAdd, paramNew, hdup]

/-- What `params_get` gives may be appended to the same object under any name, and may replace
a value there exactly when there is such a value and it is not the one replaced. -/
theorem own_values (hm : Fresh malloc) (hb : h.mem.Bounded) (hx : Holds h none xs)
    (hnd : (names (params xs)).Nodup) (hk : xs.length < rounds) {name : CharPtr}
    (hs : h.str key = some s) (ht : h.str name = some t) :
    ∃ value, paramsGet rounds h (ptr (links xs)) name = some value ∧
      (paramsAppend malloc rounds h (ptr (links xs)) key value).isSome ∧
      ((paramsReplace malloc rounds h (ptr (links xs)) key value).isSome ↔
        L1.paramsGet (params xs) t ≠ none ∧ lower t ≠ lower s) := by
  rcases get_spec hx hk ht with ⟨hnone, hget⟩ | ⟨e, he, hname, hsome, hget⟩
  · refine ⟨.null, hget, by simp [paramsAppend], ?_⟩
    rw [replace_null hx hk hs, hnone]
    simp
  · obtain ⟨h', xs', happ, -⟩ := append_spec hm hb hx hk hs (hx.value e he)
    refine ⟨.block e.value, hget, by simp [happ], ?_⟩
    rw [hsome, ← hname]
    constructor
    · intro hrun
      refine ⟨Option.some_ne_none _, fun heq => ?_⟩
      rw [replace_freed hx hnd hk hs he heq] at hrun
      cases hrun
    · rintro ⟨-, hne⟩
      obtain ⟨h', xs', hrun, -⟩ := replace_spec hm hb hx hk hs (hx.value e he)
        fun z hz hzname heq => hne (by
          rw [hx.eq_of_name hnd he hz (Or.inr (CharPtr.block.inj heq))]
          exact hzname)
      simp [hrun]

/-- **A value handed back.** After any calls on any objects, what `params_get` gives may be
appended to the object it is in, under any name. As the new value of an entry it is read after it
has been freed when it is the old one. -/
theorem params_aliases {malloc : Nat → ParamHeap → Nat} (hm : ∀ k, Fresh (malloc k))
    (hb : h₀.mem.Bounded) {calls : List HeapCall} (hk : calls.length < rounds) (i : Nat)
    (key name : Bytes) :
    ∃ s value, runCalls rounds malloc ⟨h₀, fun _ => none⟩ calls = some s ∧
      paramsGet rounds s.heap (s.object i) (.caller name) = some value ∧
      (paramsAppend (malloc calls.length) rounds s.heap (s.object i) (.caller key)
        value).isSome ∧
      ((paramsReplace (malloc calls.length) rounds s.heap (s.object i) (.caller key)
        value).isSome ↔ L1.paramsGet (lists calls i) name ≠ none ∧ lower name ≠ lower key) := by
  have hlen : ([] : List Bytes).length + calls.length < rounds := by simpa using hk
  obtain ⟨K, s, c, hrun, ho, hl, hK⟩ := runCalls_spec hm (owned_allNull hb) (fun _ => rfl) hlen
  have hwithin := ho.within i
  have hlit : ∀ q : Bytes, s.heap.str (.caller q) = some q := fun _ => rfl
  obtain ⟨value, hget, happ, hrep⟩ := own_values (hm calls.length) ho.bounded (ho.holds i)
    hwithin.distinct (Nat.lt_of_le_of_lt (length_le_of_within hwithin) hK) (hlit key) (hlit name)
  rw [← ho.root i] at hget happ hrep
  rw [hl i] at hrep
  exact ⟨s, value, hrun, hget, happ, hrep⟩

theorem params_aliases_self :
    ∃ s value, runCalls 2 (fun _ => firstFit) ⟨othersHeap, fun _ => none⟩
        [.append 0 (ascii "Cheese") (ascii "green")] = some s ∧
      paramsGet 2 s.heap (s.object 0) (.caller (ascii "cheese")) = some value ∧
      (paramsAppend firstFit 2 s.heap (s.object 0) (.caller (ascii "CHEESE")) value).isSome ∧
      ((paramsReplace firstFit 2 s.heap (s.object 0) (.caller (ascii "CHEESE")) value).isSome ↔
        L1.paramsGet (lists [.append 0 (ascii "Cheese") (ascii "green")] 0) (ascii "cheese") ≠
          none ∧ lower (ascii "cheese") ≠ lower (ascii "CHEESE")) :=
  params_aliases (fun _ => firstFit_fresh) othersHeap_bounded (by decide) 0 _ _

end Objects
end Sighttpd.L1.Heaps
