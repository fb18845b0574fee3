import Mathlib.Data.Fintype.Defs
import Sighttpd.Core.Ownership
import Sighttpd.L1Data.ListOps
import Sighttpd.L1Data.ParamsRemove

/-!
# Params objects and all they allocate (`params.c`)

Each entry of a params object is four objects on the heap: the node of the list, the `params_t`
it points to, and the two strings that points to. Here every one of them is allocated and freed
where the source does it. Reading, writing or freeing what is not allocated, reading what has not
been written, and writing past the end of a block have no result.

* `paramNew_spec`, `paramFree_spec`: the objects of one entry.
* `Holds`: an object in the heap, and `own` what it consists of.
-/
namespace Sighttpd.L1.Heaps
open Sighttpd.CString LinkedList

/-! ## Model -/

/-- A `params_t`; `none` is a field not yet written. -/
structure ParamRecord where
  key : Option Nat
  value : Option Nat
  deriving DecidableEq, Repr

/-- The bytes of a block of `char`, and the string in it once there is one. -/
structure CharBlock where
  size : Nat
  text : Option Bytes
  deriving DecidableEq, Repr

structure ParamHeap where
  nodes : ListMem Nat
  records : Memory ParamRecord
  chars : Memory CharBlock

inductive Kind where
  | node | record | chars
  deriving DecidableEq

instance : Fintype Kind where
  elems := {.node, .record, .chars}
  complete k := by cases k <;> decide

abbrev Kind.Cell : Kind → Type
  | .node => ListCell Nat
  | .record => ParamRecord
  | .chars => CharBlock

def ParamHeap.mem (h : ParamHeap) : Heap Kind Kind.Cell
  | .node => h.nodes
  | .record => h.records
  | .chars => h.chars

/-- A `char *`: `NULL`, to a string of the caller that is not on this heap, or to a block. -/
inductive CharPtr where
  | null
  | caller (s : Bytes)
  | block (a : Nat)
  deriving DecidableEq

/-- The string that is read there. -/
def ParamHeap.str (h : ParamHeap) : CharPtr → Option Bytes
  | .null => none
  | .caller s => some s
  | .block a => do (← h.chars a).text

/-- A string is copied to a block, with the NUL behind it. -/
def ParamHeap.write (h : ParamHeap) (a : Nat) (s : Bytes) : Option ParamHeap := do
  let block ← h.chars a
  if s.length + 1 ≤ block.size then some { h with chars := h.chars.alloc a ⟨block.size, some s⟩ }
  else none

def ParamHeap.setRecord (h : ParamHeap) (p : Nat) (f : ParamRecord → ParamRecord) :
    Option ParamHeap := do
  some { h with records := ← h.records.modify p f }

/-- `free` of a string, of a `params_t` and of a node. -/
def ParamHeap.freeChars (h : ParamHeap) (a : Nat) : Option ParamHeap :=
  (h.chars a).map fun _ => { h with chars := h.chars.free a }

def ParamHeap.freeRecord (h : ParamHeap) (p : Nat) : Option ParamHeap :=
  (h.records p).map fun _ => { h with records := h.records.free p }

def ParamHeap.freeNode (h : ParamHeap) (l : Nat) : Option ParamHeap :=
  (h.nodes l).map fun _ => { h with nodes := h.nodes.free l }

section Calls
variable (malloc : ParamHeap → Nat) (rounds : Nat)

/-- `malloc (size)` for a string. -/
def mallocChars (h : ParamHeap) (size : Nat) : ParamHeap × Nat :=
  ({ h with chars := h.chars.alloc (malloc h) ⟨size, none⟩ }, malloc h)

def strdup (h : ParamHeap) (s : CharPtr) : Option (ParamHeap × Nat) := do
  let text ← h.str s
  let (h, a) := mallocChars malloc h (text.length + 1)
  some (← h.write a text, a)

/-- mirrors src/params.c:28-36 (`param_new`) -/
def paramNew (h : ParamHeap) (key value : CharPtr) : Option (ParamHeap × Nat) := do
  let p := malloc h
  let h := { h with records := h.records.alloc p ⟨none, none⟩ }
  let (h, k) ← strdup malloc h key
  let h ← h.setRecord p fun r => { r with key := some k }
  let (h, v) ← strdup malloc h value
  let h ← h.setRecord p fun r => { r with value := some v }
  some (h, p)

/-- mirrors src/params.c:380-390 (`param_free`) -/
def paramFree (h : ParamHeap) (p : Nat) : Option ParamHeap := do
  let h ← h.freeChars (← (← h.records p).key)
  let h ← h.freeChars (← (← h.records p).value)
  h.freeRecord p

/-- mirrors src/params.c:120-125 (and 166-175, 188-195, 398-406): the loop to the first node
whose name `same` accepts, `strcasecmp` or `strcmp` -/
def keyLoop (same : Bytes → Bytes → Bool) (h : ParamHeap) (key : CharPtr) :
    Nat → Option Nat → Option (Option Nat)
  | 0, _ => none
  | _ + 1, none => some none
  | k + 1, some l => do
    let node ← h.nodes l
    let name ← (← h.records node.data).key
    if same (← h.str (.block name)) (← h.str key) then some (some l)
    else keyLoop same h key k node.next

/-- `!strcasecmp (s, t)` -/
def sameName (s t : Bytes) : Bool := strcasecmp s t = 0

/-- `!strcmp (s, t)` -/
def sameSpelling (s t : Bytes) : Bool := strcmp s t = 0

/-- mirrors src/params.c:114-128 (`params_get`). The result points into the object. -/
def paramsGet (h : ParamHeap) (params : Option Nat) (key : CharPtr) : Option CharPtr := do
  match ← keyLoop sameName h key rounds params with
  | none => some .null
  | some l => some (.block (← (← h.records (← h.nodes l).data).value))

/-- mirrors src/params.c:149-155 (`params_add`) -/
def paramsAdd (h : ParamHeap) (params : Option Nat) (key value : CharPtr) :
    Option (ParamHeap × Option Nat) := do
  let (h, p) ← paramNew malloc h key value
  let (nodes, params) ← listAppend rounds h.nodes params p (malloc h)
  some ({ h with nodes := nodes }, params)

/-- mirrors src/params.c:169-172: the old value, a comma and the new one. `sprintf` reads both
strings before the old one is freed. -/
def joinValue (h : ParamHeap) (p : Nat) (value : CharPtr) : Option ParamHeap := do
  let old ← (← h.records p).value
  let size := (← h.str (.block old)).length + (← h.str value).length + 2
  let (h, new) := mallocChars malloc h size
  let h ← h.write new ((← h.str (.block old)) ++ ascii "," ++ (← h.str value))
  let h ← h.freeChars old
  h.setRecord p fun r => { r with value := some new }

/-- mirrors src/params.c:191-192: the old value is freed before the new one is read. -/
def renewValue (h : ParamHeap) (p : Nat) (value : CharPtr) : Option ParamHeap := do
  let h ← h.freeChars (← (← h.records p).value)
  let (h, new) ← strdup malloc h value
  h.setRecord p fun r => { r with value := some new }

/-- The common shape of `params_append` and `params_replace`: `change` is what is done to the
record of that name. -/
def upsert (change : ParamHeap → Nat → CharPtr → Option ParamHeap) (h : ParamHeap)
    (params : Option Nat) (key value : CharPtr) : Option (ParamHeap × Option Nat) := do
  match ← keyLoop sameName h key rounds params with
  | some l => some (← change h (← h.nodes l).data value, params)
  | none => paramsAdd malloc rounds h params key value

/-- mirrors src/params.c:157-178 (`params_append`) -/
def paramsAppend (h : ParamHeap) (params : Option Nat) (key value : CharPtr) :
    Option (ParamHeap × Option Nat) :=
  if key = .null ∨ value = .null then some (h, params)
  else upsert malloc rounds (joinValue malloc) h params key value

/-- mirrors src/params.c:180-198 (`params_replace`) -/
def paramsReplace (h : ParamHeap) (params : Option Nat) (key value : CharPtr) :
    Option (ParamHeap × Option Nat) :=
  if key = .null then some (h, params)
  else upsert malloc rounds (renewValue malloc) h params key value

/-- mirrors src/params.c:206-209, the loop of `params_merge` with its variables `l` and `dest` -/
def mergeLoop : Nat → ParamHeap → Option Nat → Option Nat → Option (ParamHeap × Option Nat)
  | 0, _, _, _ => none
  | _ + 1, h, none, dest => some (h, dest)
  | k + 1, h, some l, dest => do
    let r ← h.records (← h.nodes l).data
    let (h, dest) ← paramsAppend malloc rounds h dest (.block (← r.key)) (.block (← r.value))
    mergeLoop k h (← h.nodes l).next dest

/-- mirrors src/params.c:200-212 (`params_merge`) -/
def paramsMerge (h : ParamHeap) (dest src : Option Nat) : Option (ParamHeap × Option Nat) :=
  mergeLoop malloc rounds rounds h src dest

/-- mirrors src/params.c:392-409 (`params_remove`) -/
def paramsRemove (h : ParamHeap) (params : Option Nat) (key : CharPtr) :
    Option (ParamHeap × Option Nat) := do
  match ← keyLoop sameSpelling h key rounds params with
  | none => some (h, params)
  | some l =>
    let p := (← h.nodes l).data
    let (nodes, params) ← listRemove h.nodes params (some l)
    let h ← paramFree { h with nodes := nodes } p
    some (← h.freeNode l, params)

/-- mirrors src/list.c:179-183, the loop of `list_free_with` with its variable `l` -/
def freeWithLoop (free_func : ParamHeap → Nat → Option ParamHeap) :
    Nat → ParamHeap → Option Nat → Option ParamHeap
  | 0, _, _ => none
  | _ + 1, h, none => some h
  | k + 1, h, some l => do
    let node ← h.nodes l
    let h ← free_func h node.data
    freeWithLoop free_func k (← h.freeNode l) node.next

/-- mirrors src/params.c:411-415 (`params_free`) over src/list.c:174-186 (`list_free_with`) -/
def paramsFree (h : ParamHeap) (params : Option Nat) : Option (ParamHeap × Option Nat) := do
  some (← freeWithLoop paramFree rounds h params, none)

end Calls

/-! ## Objects in the heap -/

/-- An entry, and where its node, its record and its two strings are. -/
structure Entry where
  node : Nat
  record : Nat
  key : Nat
  value : Nat
  param : Param

def links (xs : List Entry) : List (Nat × Nat) := xs.map fun e => (e.node, e.record)

def recordsOf (xs : List Entry) : List Nat := xs.map (·.record)

def strings (xs : List Entry) : List Nat := xs.flatMap fun e => [e.key, e.value]

def params (xs : List Entry) : List Param := xs.map (·.param)

/-- Nodes, records and strings. -/
def owns (nodes records chars : Set Nat) : Heap.Own Kind
  | .node => nodes
  | .record => records
  | .chars => chars

/-- What the entries consist of. -/
def own (xs : List Entry) : Heap.Own Kind :=
  owns {a | a ∈ addrs (links xs)} {a | a ∈ recordsOf xs} {a | a ∈ strings xs}

/-- The heap holds the entries, as a list whose first node points back to `p`, and no object
is used for two things. -/
structure Holds (h : ParamHeap) (p : Option Nat) (xs : List Entry) : Prop where
  linked : Seg h.nodes p (links xs) none
  nodes : (addrs (links xs)).Nodup
  record : ∀ e ∈ xs, h.records e.record = some ⟨some e.key, some e.value⟩
  records : (recordsOf xs).Nodup
  key : ∀ e ∈ xs, h.str (.block e.key) = some e.param.key
  value : ∀ e ∈ xs, h.str (.block e.value) = some e.param.value
  chars : (strings xs).Nodup

/-- What the callers of `malloc` rely on: it finds an address where nothing is allocated. -/
def Fresh (malloc : ParamHeap → Nat) : Prop :=
  ∀ h : ParamHeap, h.mem.Bounded → h.mem.Free (malloc h)

section Entries
variable {h h' : ParamHeap} {p : Option Nat} {xs ys zs : List Entry} {e : Entry}

theorem changes_iff {A A' B B' C C' : Set Nat} :
    Heap.Changes h.mem h'.mem (owns A B C) (owns A' B' C') ↔
      Memory.Changes h.nodes h'.nodes A A' ∧ Memory.Changes h.records h'.records B B' ∧
        Memory.Changes h.chars h'.chars C C' :=
  ⟨fun hc => ⟨hc .node, hc .record, hc .chars⟩, fun hc k => by
    cases k with
    | node => exact hc.1
    | record => exact hc.2.1
    | chars => exact hc.2.2⟩

@[simp] theorem links_append : links (xs ++ ys) = links xs ++ links ys := List.map_append

@[simp] theorem links_cons : links (e :: xs) = (e.node, e.record) :: links xs := rfl

@[simp] theorem recordsOf_append : recordsOf (xs ++ ys) = recordsOf xs ++ recordsOf ys :=
  List.map_append

@[simp] theorem recordsOf_cons : recordsOf (e :: xs) = e.record :: recordsOf xs := rfl

@[simp] theorem strings_append : strings (xs ++ ys) = strings xs ++ strings ys :=
  List.flatMap_append

@[simp] theorem strings_cons : strings (e :: xs) = e.key :: e.value :: strings xs := rfl

@[simp] theorem params_append : params (xs ++ ys) = params xs ++ params ys := List.map_append

@[simp] theorem params_cons : params (e :: xs) = e.param :: params xs := rfl

theorem mem_recordsOf (he : e ∈ xs) : e.record ∈ recordsOf xs := List.mem_map_of_mem he

theorem key_mem_strings (he : e ∈ xs) : e.key ∈ strings xs :=
  List.mem_flatMap.mpr ⟨e, he, by simp⟩

theorem value_mem_strings (he : e ∈ xs) : e.value ∈ strings xs :=
  List.mem_flatMap.mpr ⟨e, he, by simp⟩

theorem chars_of_str {a : Nat} {s : Bytes} (hs : h.str (.block a) = some s) : h.chars a ≠ none := by
  intro hn
  simp [ParamHeap.str, hn] at hs

theorem str_congr {a : Nat} (heq : h'.chars a = h.chars a) : h'.str (.block a) = h.str (.block a) := by
  rw [ParamHeap.str, ParamHeap.str, heq]

/-- A string is still there when what is given up is not the block it is in. -/
theorem str_keeps {A B : Set Nat} (hc : Memory.Changes h.chars h'.chars A B) {q : CharPtr}
    {s : Bytes} (hs : h.str q = some s) (hq : ∀ a, q = .block a → a ∉ A) : h'.str q = some s := by
  cases q with
  | null => cases hs
  | caller t => exact hs
  | block a =>
    have hd : Memory.Allocated h.chars {a} := by
      rintro b rfl
      exact chars_of_str hs
    have hap : ∀ b ∈ A, b ∉ ({a} : Set Nat) := by
      rintro b hb rfl
      exact hq b rfl hb
    rw [str_congr (hc.keeps hd hap a rfl)]
    exact hs

theorem Holds.allocated (hx : Holds h p xs) : Heap.Allocated h.mem (own xs) := by
  intro k a ha
  cases k with
  | node => exact ne_none_of_seg hx.linked ha
  | record =>
    obtain ⟨e, he, rfl⟩ := List.mem_map.mp ha
    change h.records e.record ≠ none
    rw [hx.record e he]
    exact Option.some_ne_none _
  | chars =>
    obtain ⟨e, he, ha⟩ := List.mem_flatMap.mp ha
    rcases List.mem_pair.mp ha with rfl | rfl
    · exact chars_of_str (hx.key e he)
    · exact chars_of_str (hx.value e he)

theorem Holds.congr (hx : Holds h p xs) (heq : ∀ k, ∀ a ∈ own xs k, h'.mem k a = h.mem k a) :
    Holds h' p xs where
  linked := seg_congr (heq .node) hx.linked
  nodes := hx.nodes
  record e he := (heq .record _ (mem_recordsOf he)).trans (hx.record e he)
  records := hx.records
  key e he := (str_congr (heq .chars _ (key_mem_strings he))).trans (hx.key e he)
  value e he := (str_congr (heq .chars _ (value_mem_strings he))).trans (hx.value e he)
  chars := hx.chars

theorem own_finite (xs : List Entry) (k : Kind) : (own xs k).Finite := by
  cases k <;> exact List.finite_toSet _

theorem Holds.isList (hx : Holds h none xs) : IsList h.nodes (links xs) := ⟨hx.linked, hx.nodes⟩

theorem length_links (xs : List Entry) : (links xs).length = xs.length := List.length_map _

theorem holds_nil (h : ParamHeap) (p : Option Nat) : Holds h p [] :=
  ⟨trivial, List.nodup_nil, by simp, List.nodup_nil, by simp, by simp, List.nodup_nil⟩

end Entries

/-! ## One entry -/

section Calls
variable {malloc : ParamHeap → Nat} {h h' : ParamHeap}

theorem setRecord_eq {p : Nat} {r : ParamRecord} (hr : h.records p = some r)
    (f : ParamRecord → ParamRecord) :
    h.setRecord p f = some { h with records := h.records.alloc p (f r) } := by
  rw [ParamHeap.setRecord, Memory.modify_eq hr]
  rfl

theorem write_eq {a size : Nat} {text : Option Bytes} {s : Bytes}
    (ha : h.chars a = some ⟨size, text⟩) (hfits : s.length + 1 ≤ size) :
    h.write a s = some { h with chars := h.chars.alloc a ⟨size, some s⟩ } := by
  simp only [ParamHeap.write, ha, Option.bind_eq_bind, Option.bind_some, if_pos hfits]

theorem strdup_eq {s : CharPtr} {text : Bytes} (hs : h.str s = some text) :
    strdup malloc h s =
      some ({ h with chars := h.chars.alloc (malloc h) ⟨text.length + 1, some text⟩ },
        malloc h) := by
  simp only [strdup, hs, mallocChars, Option.bind_eq_bind, Option.bind_some]
  rw [write_eq (Memory.alloc_self ..) (Nat.le_refl _), Option.bind_some, Memory.alloc_alloc]

theorem str_of_chars {a size : Nat} {text : Bytes} (hc : h.chars a = some ⟨size, some text⟩) :
    h.str (.block a) = some text := by
  simp [ParamHeap.str, hc]

/-- A new object joins those already there. -/
theorem changes_more {β : Type} {m m' m'' : Memory β} {A B : Set Nat} {n : Nat} {c : β}
    (hc : Memory.Changes m m' A B) (hn : m' n = none) (hm : m'' = m'.alloc n c) :
    Memory.Changes m m'' A (insert n B) := by
  have hnew := (Memory.changes_alloc hn c).frame B
  rw [Set.empty_union, Set.singleton_union, ← hm] at hnew
  exact hc.trans hnew

theorem paramNew_spec (hm : Fresh malloc) (hb : h.mem.Bounded) {key value : CharPtr} {s t : Bytes}
    (hs : h.str key = some s) (ht : h.str value = some t) :
    ∃ h' r k v, paramNew malloc h key value = some (h', r) ∧ h'.nodes = h.nodes ∧
      h'.records r = some ⟨some k, some v⟩ ∧ h'.str (.block k) = some s ∧
      h'.str (.block v) = some t ∧ k ≠ v ∧
      Heap.Changes h.mem h'.mem (owns ∅ ∅ ∅) (owns ∅ {r} {v, k}) := by
  -- the heap with the record, with the key as well, and with both strings
  let h₁ : ParamHeap := { h with records := h.records.alloc (malloc h) ⟨none, none⟩ }
  let h₂ : ParamHeap := ⟨h.nodes, h.records.alloc (malloc h) ⟨some (malloc h₁), none⟩,
    h.chars.alloc (malloc h₁) ⟨s.length + 1, some s⟩⟩
  let h₃ : ParamHeap := ⟨h.nodes, h.records.alloc (malloc h) ⟨some (malloc h₁), some (malloc h₂)⟩,
    h₂.chars.alloc (malloc h₂) ⟨t.length + 1, some t⟩⟩
  have hrecord : ∀ c, Memory.Changes h.records (h.records.alloc (malloc h) c) ∅ {malloc h} :=
    Memory.changes_alloc (hm h hb .record)
  have hc₁ : Heap.Changes h.mem h₁.mem (owns ∅ ∅ ∅) (owns ∅ {malloc h} ∅) :=
    changes_iff.mpr ⟨.refl _ _, hrecord _, .refl _ _⟩
  have hb₁ := hc₁.bounded hb fun k => by cases k <;> simp [owns]
  have hk : h.chars (malloc h₁) = none := hm h₁ hb₁ .chars
  have hchars₂ : Memory.Changes h.chars h₂.chars ∅ {malloc h₁} := Memory.changes_alloc hk _
  have hc₂ : Heap.Changes h.mem h₂.mem (owns ∅ ∅ ∅) (owns ∅ {malloc h} {malloc h₁}) :=
    changes_iff.mpr ⟨.refl _ _, hrecord _, hchars₂⟩
  have hb₂ := hc₂.bounded hb fun k => by cases k <;> simp [owns]
  have hv : h₂.chars (malloc h₂) = none := hm h₂ hb₂ .chars
  have hne : malloc h₁ ≠ malloc h₂ := by
    intro he
    rw [← he] at hv
    cases (Memory.alloc_self h.chars (malloc h₁) _).symm.trans hv
  have ht₂ : h₂.str value = some t := str_keeps hchars₂ ht fun _ _ => Set.notMem_empty _
  refine ⟨h₃, malloc h, malloc h₁, malloc h₂, ?_, rfl, Memory.alloc_self .., ?_,
    str_of_chars (Memory.alloc_self ..), hne,
    changes_iff.mpr ⟨.refl _ _, hrecord _, changes_more hchars₂ hv rfl⟩⟩
  · have hset₁ : ({ h₁ with chars := h₂.chars } : ParamHeap).setRecord (malloc h)
        (fun r => { r with key := some (malloc h₁) }) = some h₂ := by
      rw [setRecord_eq (Memory.alloc_self ..)]
      exact congrArg some (congrArg (ParamHeap.mk h.nodes · h₂.chars) (Memory.alloc_alloc ..))
    have hset₂ : ({ h₂ with chars := h₃.chars } : ParamHeap).setRecord (malloc h)
        (fun r => { r with value := some (malloc h₂) }) = some h₃ := by
      rw [setRecord_eq (Memory.alloc_self ..)]
      exact congrArg some (congrArg (ParamHeap.mk h.nodes · h₃.chars) (Memory.alloc_alloc ..))
    have hs₁ : h₁.str key = some s := hs
    simp only [paramNew, Option.bind_eq_bind]
    rw [strdup_eq hs₁, Option.bind_some]
    change (({ h₁ with chars := h₂.chars } : ParamHeap).setRecord (malloc h) _).bind _ = _
    rw [hset₁, Option.bind_some, strdup_eq ht₂, Option.bind_some]
    change (({ h₂ with chars := h₃.chars } : ParamHeap).setRecord (malloc h) _).bind _ = _
    rw [hset₂, Option.bind_some]
  · exact str_of_chars ((Memory.alloc_of_ne _ hne).trans (Memory.alloc_self ..))

theorem paramFree_spec {r k v : Nat} (hr : h.records r = some ⟨some k, some v⟩)
    (hk : h.chars k ≠ none) (hv : h.chars v ≠ none) (hne : k ≠ v) :
    paramFree h r = some ⟨h.nodes, h.records.free r, (h.chars.free k).free v⟩ := by
  obtain ⟨ck, hck⟩ := Option.ne_none_iff_exists'.mp hk
  obtain ⟨cv, hcv⟩ := Option.ne_none_iff_exists'.mp hv
  have hcv' : h.chars.free k v = some cv := (Memory.free_of_ne (Ne.symm hne)).trans hcv
  simp [paramFree, ParamHeap.freeChars, ParamHeap.freeRecord, hr, hck, hcv']

end Calls
end Sighttpd.L1.Heaps
