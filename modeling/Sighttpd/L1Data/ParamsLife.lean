import Sighttpd.L1Data.ParamsHeap

/-!
# The life of params objects (`params.c`)

Each function gives back what its object no longer needs and takes what it needs more, whatever
addresses `malloc` hands out, also those of strings that have just been freed.

* `append_spec`, `replace_spec`, `merge_spec`, `remove_spec`, `free_spec`: what a call makes of
  the entries, and of the heap.
-/
namespace Sighttpd.L1.Heaps
open Sighttpd.CString LinkedList

section Objects
variable {malloc : ParamHeap → Nat} {rounds k : Nat} {h h' : ParamHeap} {p : Option Nat}
  {xs ys zs : List Entry} {e : Entry} {key value : CharPtr} {s t : Bytes}

/-! ## The loop to a name -/

theorem Holds.tail (hx : Holds h p (e :: xs)) : Holds h (some e.node) xs where
  linked := hx.linked.2
  nodes := (List.nodup_cons.mp hx.nodes).2
  record q hq := hx.record q (List.mem_cons_of_mem e hq)
  records := (List.nodup_cons.mp hx.records).2
  key q hq := hx.key q (List.mem_cons_of_mem e hq)
  value q hq := hx.value q (List.mem_cons_of_mem e hq)
  chars := (List.nodup_cons.mp (List.nodup_cons.mp hx.chars).2).2

theorem keyLoop_spec (same : Bytes → Bytes → Bool) (hx : Holds h p xs) (hs : h.str key = some s)
    (hk : xs.length < k) :
    (∃ ys e zs, xs = ys ++ e :: zs ∧ same e.param.key s ∧ (∀ q ∈ params ys, ¬ same q.key s) ∧
        keyLoop same h key k (ptr (links xs)) = some (some e.node)) ∨
      (∀ q ∈ params xs, ¬ same q.key s) ∧
        keyLoop same h key k (ptr (links xs)) = some none := by
  obtain ⟨k, rfl⟩ := Nat.exists_eq_succ_of_ne_zero (Nat.ne_zero_of_lt hk)
  induction xs generalizing p k with
  | nil => exact Or.inr ⟨fun q hq => (by cases hq), rfl⟩
  | cons e xs ih =>
    rw [List.length_cons] at hk
    obtain ⟨k, rfl⟩ := Nat.exists_eq_succ_of_ne_zero (show k ≠ 0 by omega)
    have hnode := hx.linked.1
    have hrecord := hx.record e List.mem_cons_self
    have hname := hx.key e List.mem_cons_self
    simp only [links_cons, ptr, keyLoop, hnode, hrecord, hname, hs, Option.or_none,
      Option.bind_eq_bind, Option.bind_some]
    by_cases hkey : same e.param.key s
    · exact Or.inl ⟨[], e, xs, rfl, hkey, fun q hq => (by cases hq), if_pos hkey⟩
    · rw [if_neg hkey]
      rcases ih hx.tail k (by omega) with ⟨ys, z, zs, rfl, hz, hys, hloop⟩ | ⟨hall, hloop⟩
      · exact Or.inl ⟨e :: ys, z, zs, rfl, hz, List.forall_mem_cons.mpr ⟨hkey, hys⟩, hloop⟩
      · exact Or.inr ⟨List.forall_mem_cons.mpr ⟨hkey, hall⟩, hloop⟩

/-- As `strcasecmp` sees it. -/
theorem nameLoop_spec (hx : Holds h p xs) (hs : h.str key = some s) (hk : xs.length < k) :
    (∃ ys e zs, xs = ys ++ e :: zs ∧ lower e.param.key = lower s ∧
        (∀ q ∈ params ys, lower q.key ≠ lower s) ∧
        keyLoop sameName h key k (ptr (links xs)) = some (some e.node)) ∨
      (∀ q ∈ params xs, lower q.key ≠ lower s) ∧
        keyLoop sameName h key k (ptr (links xs)) = some none := by
  have hloop := keyLoop_spec sameName hx hs hk
  simpa only [sameName, decide_eq_true_eq, strcasecmp_eq_zero] using hloop

/-! ## A value changes -/

theorem strings_middle (ys : List Entry) (e : Entry) (zs : List Entry) :
    (strings (ys ++ e :: zs)).Perm (e.value :: (strings ys ++ e.key :: strings zs)) := by
  have hperm := @List.perm_middle _ e.value (strings ys ++ [e.key]) (strings zs)
  simpa using hperm

/-- The old value of one entry is given up, and a new one is in its place. -/
theorem Holds.setValue (hx : Holds h p (ys ++ e :: zs)) {new : Nat} (hnodes : h'.nodes = h.nodes)
    (hrecords : h'.records = h.records.alloc e.record ⟨some e.key, some new⟩)
    (hc : Memory.Changes h.chars h'.chars {e.value} {new}) (ht : h'.str (.block new) = some t) :
    ∃ e', e'.node = e.node ∧ e'.param = { e.param with value := t } ∧
      Holds h' p (ys ++ e' :: zs) ∧
      Heap.Changes h.mem h'.mem (own (ys ++ e :: zs)) (own (ys ++ e' :: zs)) := by
  have hperm := strings_middle ys e zs
  have hnd := hperm.nodup_iff.mp hx.chars
  have hall : Memory.Allocated h.chars {a | a ∈ strings ys ++ e.key :: strings zs} :=
    fun a ha => hx.allocated .chars a (hperm.mem_iff.mpr (List.mem_cons_of_mem _ ha))
  have hap : ∀ a ∈ ({e.value} : Set Nat), a ∉ {a | a ∈ strings ys ++ e.key :: strings zs} := by
    rintro a rfl
    exact (List.nodup_cons.mp hnd).1
  have hkeep := hc.keeps hall hap
  have hnew : new ∉ strings ys ++ e.key :: strings zs := hc.apart hall hap new rfl
  let e' : Entry := ⟨e.node, e.record, e.key, new, { e.param with value := t }⟩
  have hperm' := strings_middle ys e' zs
  have hlinks : links (ys ++ e' :: zs) = links (ys ++ e :: zs) := by simp [e']
  have hrecs : recordsOf (ys ++ e' :: zs) = recordsOf (ys ++ e :: zs) := by simp [e']
  -- the other entries
  have hother : ∀ q ∈ ys ++ zs, q ∈ ys ++ e :: zs ∧ q.record ≠ e.record ∧
      q.key ∈ strings ys ++ e.key :: strings zs ∧ q.value ∈ strings ys ++ e.key :: strings zs := by
    intro q hq
    have hrnd := hx.records
    rw [recordsOf_append, recordsOf_cons, List.nodup_middle, List.nodup_cons,
      ← recordsOf_append] at hrnd
    refine ⟨?_, fun he => hrnd.1 (he ▸ mem_recordsOf hq), ?_, ?_⟩
    · rw [List.mem_append] at hq
      rw [List.mem_append, List.mem_cons]
      exact hq.imp_right Or.inr
    · rcases List.mem_append.mp hq with hq | hq
      · exact List.mem_append_left _ (key_mem_strings hq)
      · exact List.mem_append_right _ (List.mem_cons_of_mem _ (key_mem_strings hq))
    · rcases List.mem_append.mp hq with hq | hq
      · exact List.mem_append_left _ (value_mem_strings hq)
      · exact List.mem_append_right _ (List.mem_cons_of_mem _ (value_mem_strings hq))
  have hmem : ∀ q ∈ ys ++ e' :: zs, q = e' ∨ q ∈ ys ++ zs := by
    intro q hq
    rw [List.mem_append, List.mem_cons] at hq
    rw [List.mem_append]
    tauto
  have he : e ∈ ys ++ e :: zs := by simp
  refine ⟨e', rfl, rfl, ⟨?_, ?_, fun q hq => ?_, ?_, fun q hq => ?_, fun q hq => ?_, ?_⟩, ?_⟩
  · rw [hlinks, hnodes]
    exact hx.linked
  · rw [hlinks]
    exact hx.nodes
  · rw [hrecords]
    rcases hmem q hq with rfl | hq
    · exact Memory.alloc_self ..
    · obtain ⟨hold, hne, -, -⟩ := hother q hq
      rw [Memory.alloc_of_ne _ hne]
      exact hx.record q hold
  · rw [hrecs]
    exact hx.records
  · rcases hmem q hq with rfl | hq
    · rw [str_congr (hkeep e.key (by simp))]
      exact hx.key e he
    · obtain ⟨hold, -, hkey, -⟩ := hother q hq
      rw [str_congr (hkeep _ hkey)]
      exact hx.key q hold
  · rcases hmem q hq with rfl | hq
    · exact ht
    · obtain ⟨hold, -, -, hvalue⟩ := hother q hq
      rw [str_congr (hkeep _ hvalue)]
      exact hx.value q hold
  · exact hperm'.nodup_iff.mpr (List.nodup_cons.mpr ⟨hnew, (List.nodup_cons.mp hnd).2⟩)
  · rw [own, own, hlinks, hrecs]
    refine changes_iff.mpr ⟨?_, ?_, ?_⟩
    · rw [hnodes]
      exact .refl _ _
    · refine Memory.changes_write fun a ha => ?_
      rw [hrecords]
      exact Memory.alloc_of_ne _ fun heq => ha (heq ▸ mem_recordsOf he)
    · have hframe := hc.frame {a | a ∈ strings ys ++ e.key :: strings zs}
      have hset : ∀ v : Nat, {v} ∪ {a | a ∈ strings ys ++ e.key :: strings zs} =
          {a | a ∈ v :: (strings ys ++ e.key :: strings zs)} := by
        intro v
        ext a
        exact List.mem_cons.symm
      rw [hset, hset] at hframe
      simpa only [hperm.mem_iff, hperm'.mem_iff] using hframe

/-! ## A new entry -/

theorem own_append (xs ys : List Entry) (k : Kind) : own (xs ++ ys) k = own xs k ∪ own ys k := by
  cases k <;> ext a <;> simp [own, owns]

theorem own_single (e : Entry) : own [e] = owns {e.node} {e.record} {e.value, e.key} := by
  funext k
  cases k <;> ext a <;> simp [own, owns, links, recordsOf, strings, or_comm]

/-- What is new is nowhere in the entries. -/
theorem Holds.notMem_new (hx : Holds h p xs) {B : Heap.Own Kind}
    (hc : Heap.Changes h.mem h'.mem (owns ∅ ∅ ∅) B) (k : Kind) : ∀ a ∈ B k, a ∉ own xs k :=
  (hc k).apart (hx.allocated k) fun a ha => by cases k <;> exact absurd ha (Set.notMem_empty a)

theorem Holds.keeps_new (hx : Holds h p xs) {B : Heap.Own Kind}
    (hc : Heap.Changes h.mem h'.mem (owns ∅ ∅ ∅) B) : Holds h' p xs :=
  hx.congr fun k => (hc k).keeps (hx.allocated k) fun a ha => by
    cases k <;> exact absurd ha (Set.notMem_empty a)

/-- A list gets a node at an address that was free. -/
theorem changes_node {m m' : ListMem Nat} {l : List (Nat × Nat)} {n r : Nat} (hn : m n = none)
    (heq : ∀ b, b ∉ addrs (l ++ [(n, r)]) → m' b = m b) :
    Memory.Changes m m' {a | a ∈ addrs l} {a | a ∈ addrs (l ++ [(n, r)])} := by
  have hmem : ∀ a, a ∈ addrs (l ++ [(n, r)]) ↔ a ∈ addrs l ∨ a = n := fun a => by simp
  refine ⟨fun a _ ha => heq a ha, fun a ha ha' => ?_, fun a ha ha' => ?_⟩
  · rcases (hmem a).mp ha' with hold | rfl
    · exact absurd hold ha
    · exact hn
  · exact absurd ((hmem a).mpr (Or.inl ha)) ha'

theorem add_spec (hm : Fresh malloc) (hb : h.mem.Bounded) (hx : Holds h none xs)
    (hk : xs.length < rounds) (hs : h.str key = some s) (ht : h.str value = some t) :
    ∃ h' xs', paramsAdd malloc rounds h (ptr (links xs)) key value = some (h', ptr (links xs')) ∧
      Holds h' none xs' ∧ params xs' = params xs ++ [⟨s, t⟩] ∧
      Heap.Changes h.mem h'.mem (own xs) (own xs') := by
  obtain ⟨h₁, r, k, v, hnew, hnodes, hr, hks, hvs, hkv, hc⟩ := paramNew_spec hm hb hs ht
  have hb₁ := hc.bounded hb fun k => by cases k <;> simp [owns]
  have hx₁ := hx.keeps_new hc
  have hfresh : h₁.nodes (malloc h₁) = none := hm h₁ hb₁ .node
  have hlen : (links xs).length < rounds := by rwa [length_links]
  obtain ⟨m, happ, hlist, heq⟩ :=
    listAppend_spec hx₁.isList r (hx₁.isList.fresh hfresh) hlen
  let e : Entry := ⟨malloc h₁, r, k, v, ⟨s, t⟩⟩
  have hlinks : links (xs ++ [e]) = links xs ++ [(malloc h₁, r)] := links_append
  have hrnew : r ∉ recordsOf xs := hx.notMem_new hc .record r rfl
  have hknew : k ∉ strings xs := hx.notMem_new hc .chars k (by simp [owns])
  have hvnew : v ∉ strings xs := hx.notMem_new hc .chars v (by simp [owns])
  have hmem : ∀ q ∈ xs ++ [e], q ∈ xs ∨ q = e := fun q hq => by simpa using hq
  refine ⟨{ h₁ with nodes := m }, xs ++ [e], ?_, ⟨?_, ?_, fun q hq => ?_, ?_, fun q hq => ?_,
    fun q hq => ?_, ?_⟩, params_append, ?_⟩
  · rw [hlinks]
    simp [paramsAdd, hnew, happ]
  · rw [hlinks]
    exact hlist.linked
  · rw [hlinks]
    exact hlist.distinct
  · rcases hmem q hq with hq | rfl
    · exact hx₁.record q hq
    · exact hr
  · rw [recordsOf_append]
    exact List.nodup_append'.mpr
      ⟨hx.records, List.nodup_singleton r, List.disjoint_singleton.mpr hrnew⟩
  · rcases hmem q hq with hq | rfl
    · exact hx₁.key q hq
    · exact hks
  · rcases hmem q hq with hq | rfl
    · exact hx₁.value q hq
    · exact hvs
  · rw [strings_append]
    refine List.nodup_append'.mpr ⟨hx.chars, List.nodup_cons.mpr
      ⟨by simpa [strings] using hkv, List.nodup_singleton v⟩, List.disjoint_cons_right.mpr
      ⟨hknew, List.disjoint_singleton.mpr hvnew⟩⟩
  · have hnone : ∀ k, owns ∅ ∅ ∅ k ∪ own xs k = own xs k :=
      fun k => by cases k <;> exact Set.empty_union _
    have hframe := fun k => hnone k ▸ (hc k).frame (own xs k)
    have hcount : ∀ k, own (xs ++ [e]) k = own [e] k ∪ own xs k :=
      fun k => (own_append xs [e] k).trans (Set.union_comm _ _)
    intro k
    cases k with
    | node =>
      have hnode := changes_node hfresh heq
      rw [hnodes, ← hlinks] at hnode
      exact hnode
    | record =>
      rw [hcount, own_single]
      exact hframe .record
    | chars =>
      rw [hcount, own_single]
      exact hframe .chars

/-! ## Writing calls -/

theorem ne_null (hs : h.str key = some s) : key ≠ .null := by
  rintro rfl
  cases hs

/-- A string is allocated, and another one freed. -/
theorem changes_swap {m : Memory CharBlock} {old new : Nat} (hn : m new = none) (c : CharBlock) :
    Memory.Changes m ((m.alloc new c).free old) {old} {new} := by
  have halloc := (Memory.changes_alloc hn c).frame {old}
  have hfree := (Memory.changes_free (m.alloc new c) old).frame {new}
  rw [Set.empty_union] at halloc hfree
  rw [Set.union_comm] at hfree
  exact halloc.trans hfree

/-- What the two calls do to the record of the name, whose value is at `old`. -/
structure NewValue (h : ParamHeap) (e : Entry) (text : Bytes) (h' : ParamHeap) (new : Nat) :
    Prop where
  nodes : h'.nodes = h.nodes
  records : h'.records = h.records.alloc e.record ⟨some e.key, some new⟩
  chars : Memory.Changes h.chars h'.chars {e.value} {new}
  text : h'.str (.block new) = some text

theorem joinValue_spec (hm : Fresh malloc) (hb : h.mem.Bounded)
    (hr : h.records e.record = some ⟨some e.key, some e.value⟩)
    (hold : h.str (.block e.value) = some e.param.value) (ht : h.str value = some t) :
    ∃ h' new, joinValue malloc h e.record value = some h' ∧
      NewValue h e (joinComma t e.param.value) h' new := by
  have hn : h.chars (malloc h) = none := hm h hb .chars
  let size := e.param.value.length + t.length + 2
  let text := e.param.value ++ ascii "," ++ t
  obtain ⟨block, hblock⟩ := Option.ne_none_iff_exists'.mp (chars_of_str hold)
  have hne : e.value ≠ malloc h := fun heq => by simp [← heq, hblock] at hn
  -- with the new block, with the string in it, and without the old one
  let h₁ : ParamHeap := { h with chars := h.chars.alloc (malloc h) ⟨size, none⟩ }
  let h₂ : ParamHeap := { h with chars := h.chars.alloc (malloc h) ⟨size, some text⟩ }
  let h₃ : ParamHeap := { h₂ with chars := h₂.chars.free e.value }
  have halloc : Memory.Changes h.chars h₁.chars ∅ {malloc h} := Memory.changes_alloc hn _
  have hold₁ : h₁.str (.block e.value) = some e.param.value :=
    str_keeps halloc hold fun _ _ => Set.notMem_empty _
  have ht₁ : h₁.str value = some t := str_keeps halloc ht fun _ _ => Set.notMem_empty _
  have hwrite : h₁.write (malloc h) text = some h₂ := by
    have hfits : text.length + 1 ≤ size := by
      simp only [text, size, List.length_append, show (ascii ",").length = 1 from rfl]
      omega
    rw [write_eq (Memory.alloc_self ..) hfits]
    exact congrArg some (congrArg (ParamHeap.mk h.nodes h.records) (Memory.alloc_alloc ..))
  have hfree : h₂.freeChars e.value = some h₃ := by
    have hthere : h₂.chars e.value = some block := (Memory.alloc_of_ne _ hne).trans hblock
    rw [ParamHeap.freeChars, hthere]
    rfl
  let h₄ : ParamHeap := { h₃ with records := h.records.alloc e.record ⟨e.key, malloc h⟩ }
  have hr₃ : h₃.records e.record = some ⟨some e.key, some e.value⟩ := hr
  have hset : h₃.setRecord e.record (fun r => { r with value := some (malloc h) }) = some h₄ :=
    setRecord_eq hr₃ _
  have hmal : mallocChars malloc h size = (h₁, malloc h) := rfl
  refine ⟨h₄, malloc h, ?_, rfl, rfl, changes_swap hn _, ?_⟩
  · simp only [joinValue, hr, hold, ht, Option.bind_eq_bind, Option.bind_some]
    rw [hmal]
    simp only [hold₁, ht₁, Option.bind_some]
    rw [hwrite, Option.bind_some, hfree, Option.bind_some, hset]
  · exact str_of_chars ((Memory.free_of_ne (Ne.symm hne)).trans (Memory.alloc_self ..))

theorem renewValue_spec (hm : Fresh malloc) (hb : h.mem.Bounded)
    (hr : h.records e.record = some ⟨some e.key, some e.value⟩)
    (hold : h.str (.block e.value) = some e.param.value) (ht : h.str value = some t)
    (hne : value ≠ .block e.value) :
    ∃ h' new, renewValue malloc h e.record value = some h' ∧ NewValue h e t h' new := by
  obtain ⟨block, hblock⟩ := Option.ne_none_iff_exists'.mp (chars_of_str hold)
  let h₁ : ParamHeap := { h with chars := h.chars.free e.value }
  have hfree : Memory.Changes h.chars h₁.chars {e.value} ∅ := Memory.changes_free _ _
  have hc : Heap.Changes h.mem h₁.mem (owns ∅ ∅ {e.value}) (owns ∅ ∅ ∅) :=
    changes_iff.mpr ⟨.refl _ _, .refl _ _, hfree⟩
  have hb₁ := hc.bounded hb fun k => by cases k <;> simp [owns]
  have hn : h₁.chars (malloc h₁) = none := hm h₁ hb₁ .chars
  have ht₁ : h₁.str value = some t := str_keeps hfree ht fun a he ha => hne (ha ▸ he)
  let h₂ : ParamHeap := { h₁ with chars := h₁.chars.alloc (malloc h₁) ⟨t.length + 1, some t⟩ }
  let h₃ : ParamHeap := { h₂ with records := h.records.alloc e.record ⟨e.key, malloc h₁⟩ }
  have hr₂ : h₂.records e.record = some ⟨some e.key, some e.value⟩ := hr
  have hset : h₂.setRecord e.record (fun r => { r with value := some (malloc h₁) }) = some h₃ :=
    setRecord_eq hr₂ _
  have hfreed : h.freeChars e.value = some h₁ := by
    rw [ParamHeap.freeChars, hblock]
    rfl
  refine ⟨h₃, malloc h₁, ?_, rfl, rfl, hfree.trans (Memory.changes_alloc hn _), ?_⟩
  · simp only [renewValue, hr, Option.bind_eq_bind, Option.bind_some]
    rw [hfreed, Option.bind_some, strdup_eq ht₁, Option.bind_some, hset]
  · exact str_of_chars (Memory.alloc_self ..)

/-- The entry of the name has a new value, or there is a new entry. -/
theorem upsert_spec {change : ParamHeap → Nat → CharPtr → Option ParamHeap} {f : Bytes → Bytes}
    (hm : Fresh malloc) (hb : h.mem.Bounded) (hx : Holds h none xs) (hk : xs.length < rounds)
    (hs : h.str key = some s) (ht : h.str value = some t)
    (hchange : ∀ e ∈ xs, lower e.param.key = lower s → ∃ h' new,
      change h e.record value = some h' ∧ NewValue h e (f e.param.value) h' new) :
    ∃ h' xs', upsert malloc rounds change h (ptr (links xs)) key value =
        some (h', ptr (links xs')) ∧
      Holds h' none xs' ∧ params xs' = paramsUpsert s f t (params xs) ∧
      Heap.Changes h.mem h'.mem (own xs) (own xs') := by
  rcases nameLoop_spec hx hs hk with ⟨ys, e, zs, rfl, he, hys, hloop⟩ | ⟨hall, hloop⟩
  · obtain ⟨h', new, hrun, hnodes, hrecords, hchars, htext⟩ := hchange e (by simp) he
    obtain ⟨e', hnode', hparam', hx', hc⟩ := hx.setValue hnodes hrecords hchars htext
    obtain ⟨-, hnode, -⟩ := (seg_append (links ys) (links (e :: zs))).mp (links_append ▸ hx.linked)
    have hptr : ptr (links (ys ++ e :: zs)) = ptr (links (ys ++ e' :: zs)) :=
      ptr_congr (by simp [hnode'])
    refine ⟨h', ys ++ e' :: zs, ?_, hx', ?_, hc⟩
    · rw [upsert, hloop, ← hptr]
      simp only [Option.bind_eq_bind, Option.bind_some, hnode, hrun]
    · rw [params_append, params_append, params_cons, params_cons, hparam',
        paramsUpsert_split f t hys he]
  · obtain ⟨h', xs', hadd, hx', hparams, hc⟩ := add_spec hm hb hx hk hs ht
    refine ⟨h', xs', by simp [upsert, hloop, hadd], hx', ?_, hc⟩
    rw [hparams, paramsUpsert_new f t hall]

theorem append_spec (hm : Fresh malloc) (hb : h.mem.Bounded) (hx : Holds h none xs)
    (hk : xs.length < rounds) (hs : h.str key = some s) (ht : h.str value = some t) :
    ∃ h' xs', paramsAppend malloc rounds h (ptr (links xs)) key value =
        some (h', ptr (links xs')) ∧
      Holds h' none xs' ∧ params xs' = L1.paramsAppend (params xs) s t ∧
      Heap.Changes h.mem h'.mem (own xs) (own xs') := by
  have hnull : ¬ (key = .null ∨ value = .null) := not_or.mpr ⟨ne_null hs, ne_null ht⟩
  rw [paramsAppend_eq_upsert, paramsAppend, if_neg hnull]
  exact upsert_spec hm hb hx hk hs ht fun e he _ =>
    joinValue_spec hm hb (hx.record e he) (hx.value e he) ht

/-- The new value may be anywhere but in the value that is replaced. -/
theorem replace_spec (hm : Fresh malloc) (hb : h.mem.Bounded) (hx : Holds h none xs)
    (hk : xs.length < rounds) (hs : h.str key = some s) (ht : h.str value = some t)
    (hne : ∀ e ∈ xs, lower e.param.key = lower s → value ≠ .block e.value) :
    ∃ h' xs', paramsReplace malloc rounds h (ptr (links xs)) key value =
        some (h', ptr (links xs')) ∧
      Holds h' none xs' ∧ params xs' = L1.paramsReplace (params xs) s t ∧
      Heap.Changes h.mem h'.mem (own xs) (own xs') := by
  rw [L1.paramsReplace, paramsReplace, if_neg (ne_null hs)]
  exact upsert_spec hm hb hx hk hs ht fun e he hname =>
    renewValue_spec hm hb (hx.record e he) (hx.value e he) ht (hne e he hname)

/-! ## Merging -/

theorem length_le_of_within {K : List Bytes} (hK : Nodes.Within K (params xs)) :
    xs.length ≤ K.length := by
  have hle := (hK.distinct.subperm hK.subset).length_le
  simpa [names, params] using hle

/-- The loop is at the entries `ys` of the source; the destination may have grown. -/
theorem mergeLoop_spec {K : List Bytes} (hm : Fresh malloc) (hb : h.mem.Bounded)
    (hK : K.length < rounds) (hx : Holds h none xs) (hy : Holds h p ys)
    (hap : ∀ k, ∀ a ∈ own xs k, a ∉ own ys k) (hdest : Nodes.Within K (params xs))
    (hsub : names (params ys) ⊆ K) (hk : ys.length < k) :
    ∃ h' xs', mergeLoop malloc rounds k h (ptr (links ys)) (ptr (links xs)) =
        some (h', ptr (links xs')) ∧
      Holds h' none xs' ∧ params xs' = L1.paramsMerge (params xs) (params ys) ∧
      Heap.Changes h.mem h'.mem (own xs) (own xs') := by
  obtain ⟨k, rfl⟩ := Nat.exists_eq_succ_of_ne_zero (Nat.ne_zero_of_lt hk)
  induction ys generalizing h p xs k with
  | nil => exact ⟨h, xs, rfl, hx, rfl, .refl _ _⟩
  | cons y ys ih =>
    rw [List.length_cons] at hk
    obtain ⟨k, rfl⟩ := Nat.exists_eq_succ_of_ne_zero (show k ≠ 0 by omega)
    obtain ⟨hname, hnames⟩ := List.cons_subset.mp hsub
    have hmem : y ∈ y :: ys := List.mem_cons_self
    have hlt : xs.length < rounds := Nat.lt_of_le_of_lt (length_le_of_within hdest) hK
    obtain ⟨h₁, xs₁, happ, hx₁, hparams₁, hc₁⟩ :=
      append_spec hm hb hx hlt (hy.key y hmem) (hy.value y hmem)
    -- the source is as it was
    have hy₁ : Holds h₁ p (y :: ys) :=
      hy.congr fun k => (hc₁ k).keeps (hy.allocated k) (hap k)
    have hap₁ : ∀ k, ∀ a ∈ own xs₁ k, a ∉ own ys k := by
      intro k a ha hys
      refine (hc₁ k).apart (hy.allocated k) (hap k) a ha ?_
      rw [← List.singleton_append, own_append]
      exact Or.inr hys
    have hdest₁ : Nodes.Within K (params xs₁) := by
      rw [hparams₁]
      exact hdest.append hname y.param.value
    obtain ⟨h', xs', hloop, hx', hparams, hc⟩ :=
      ih (hc₁.bounded hb (own_finite xs₁)) hx₁ hy₁.tail hap₁ hdest₁ hnames k (by omega)
    refine ⟨h', xs', ?_, hx', ?_, hc₁.trans hc⟩
    · rw [links_cons, ptr_cons, mergeLoop]
      simp only [hy.linked.1, hy.record y hmem, happ, hy₁.linked.1, Option.bind_eq_bind,
        Option.bind_some, Option.or_none]
      exact hloop
    · rw [hparams, hparams₁]
      rfl

theorem merge_spec {K : List Bytes} (hm : Fresh malloc) (hb : h.mem.Bounded)
    (hK : K.length < rounds) (hx : Holds h none xs) (hy : Holds h none ys)
    (hap : ∀ k, ∀ a ∈ own xs k, a ∉ own ys k) (hdest : Nodes.Within K (params xs))
    (hsrc : Nodes.Within K (params ys)) :
    ∃ h' xs', paramsMerge malloc rounds h (ptr (links xs)) (ptr (links ys)) =
        some (h', ptr (links xs')) ∧
      Holds h' none xs' ∧ params xs' = L1.paramsMerge (params xs) (params ys) ∧
      Heap.Changes h.mem h'.mem (own xs) (own xs') :=
  mergeLoop_spec hm hb hK hx hy hap hdest hsrc.subset
    (Nat.lt_of_le_of_lt (length_le_of_within hsrc) hK)

/-! ## An entry goes -/

theorem changes_drop {β : Type} {m m' : Memory β} {l l' : List Nat} (hsub : ∀ a ∈ l', a ∈ l)
    (hsame : ∀ a, a ∉ l → m' a = m a) (hgone : ∀ a ∈ l, a ∉ l' → m' a = none) :
    Memory.Changes m m' {a | a ∈ l} {a | a ∈ l'} :=
  ⟨fun a ha _ => hsame a ha, fun a ha ha' => absurd (hsub a ha') ha, hgone⟩

theorem strings_without (ys : List Entry) (e : Entry) (zs : List Entry) :
    (strings (ys ++ e :: zs)).Perm (e.value :: e.key :: strings (ys ++ zs)) := by
  have hperm := (strings_middle ys e zs).trans (List.perm_middle.cons e.value)
  rwa [← strings_append] at hperm

theorem recordsOf_without (ys : List Entry) (e : Entry) (zs : List Entry) :
    (recordsOf (ys ++ e :: zs)).Perm (e.record :: recordsOf (ys ++ zs)) := by
  rw [recordsOf_append, recordsOf_append]
  exact List.perm_middle

theorem addrs_without (ys : List Entry) (e : Entry) (zs : List Entry) :
    (addrs (links (ys ++ e :: zs))).Perm (e.node :: addrs (links (ys ++ zs))) := by
  rw [links_append, links_append, addrs_append, addrs_append]
  exact List.perm_middle

/-- The record and the strings of one entry are freed, and its node is out of the list. -/
theorem Holds.drop (hx : Holds h p (ys ++ e :: zs)) {nodes : ListMem Nat} {q : Option Nat}
    (hlinked : Seg nodes q (links (ys ++ zs)) none) (hgone : nodes e.node = none)
    (hsame : ∀ a, a ∉ addrs (links (ys ++ e :: zs)) → nodes a = h.nodes a) :
    Holds ⟨nodes, h.records.free e.record, (h.chars.free e.key).free e.value⟩ q (ys ++ zs) ∧
      Heap.Changes h.mem
        (ParamHeap.mem ⟨nodes, h.records.free e.record, (h.chars.free e.key).free e.value⟩)
        (own (ys ++ e :: zs)) (own (ys ++ zs)) := by
  have hnodes := addrs_without ys e zs
  have hrecords := recordsOf_without ys e zs
  have hchars := strings_without ys e zs
  obtain ⟨hnode, hndn⟩ := List.nodup_cons.mp (hnodes.nodup_iff.mp hx.nodes)
  obtain ⟨hrecord, hndr⟩ := List.nodup_cons.mp (hrecords.nodup_iff.mp hx.records)
  obtain ⟨hvalue, hnd⟩ := List.nodup_cons.mp (hchars.nodup_iff.mp hx.chars)
  obtain ⟨hkey, hndc⟩ := List.nodup_cons.mp hnd
  rw [List.mem_cons, not_or] at hvalue
  have hold : ∀ q ∈ ys ++ zs, q ∈ ys ++ e :: zs := by
    intro q hq
    rw [List.mem_append] at hq
    rw [List.mem_append, List.mem_cons]
    exact hq.imp_right Or.inr
  have hfree : ∀ a, a ≠ e.value → a ≠ e.key → (h.chars.free e.key).free e.value a = h.chars a :=
    fun a hav hak => (Memory.free_of_ne hav).trans (Memory.free_of_ne hak)
  have hkept : ∀ a ∈ strings (ys ++ zs), (h.chars.free e.key).free e.value a = h.chars a :=
    fun a ha => hfree a (fun he => hvalue.2 (he ▸ ha)) fun he => hkey (he ▸ ha)
  refine ⟨⟨hlinked, hndn, fun q hq => ?_, hndr, fun q hq => ?_, fun q hq => ?_, hndc⟩,
    changes_iff.mpr ⟨changes_drop (fun a ha => ?_) hsame fun a ha ha' => ?_,
      changes_drop (fun a ha => ?_) (fun a ha => ?_) fun a ha ha' => ?_,
      changes_drop (fun a ha => ?_) (fun a ha => ?_) fun a ha ha' => ?_⟩⟩
  · have hne : q.record ≠ e.record := fun he => hrecord (he ▸ mem_recordsOf hq)
    exact (Memory.free_of_ne hne).trans (hx.record q (hold q hq))
  · exact (str_congr (hkept _ (key_mem_strings hq))).trans (hx.key q (hold q hq))
  · exact (str_congr (hkept _ (value_mem_strings hq))).trans (hx.value q (hold q hq))
  · exact hnodes.mem_iff.mpr (List.mem_cons_of_mem _ ha)
  · rw [hnodes.mem_iff, List.mem_cons, or_iff_left ha'] at ha
    rw [ha]
    exact hgone
  · exact hrecords.mem_iff.mpr (List.mem_cons_of_mem _ ha)
  · rw [hrecords.mem_iff, List.mem_cons, not_or] at ha
    exact Memory.free_of_ne ha.1
  · rw [hrecords.mem_iff, List.mem_cons, or_iff_left ha'] at ha
    rw [ha]
    exact Memory.free_self ..
  · exact hchars.mem_iff.mpr (List.mem_cons_of_mem _ (List.mem_cons_of_mem _ ha))
  · rw [hchars.mem_iff, List.mem_cons, List.mem_cons, not_or, not_or] at ha
    exact hfree a ha.1 ha.2.1
  · rw [hchars.mem_iff, List.mem_cons, List.mem_cons, or_iff_left ha'] at ha
    rcases ha with rfl | rfl
    · exact Memory.free_self ..
    · exact (Memory.free_of_ne (Ne.symm hvalue.1)).trans (Memory.free_self ..)

theorem Holds.paramFree (hx : Holds h p xs) (he : e ∈ xs) (nodes : ListMem Nat) :
    paramFree { h with nodes := nodes } e.record =
      some ⟨nodes, h.records.free e.record, (h.chars.free e.key).free e.value⟩ := by
  have hne : e.key ≠ e.value := by
    obtain ⟨ys, zs, rfl⟩ := List.mem_iff_append.mp he
    have hnd := (strings_without ys e zs).nodup_iff.mp hx.chars
    exact fun heq => (List.nodup_cons.mp hnd).1 (heq ▸ List.mem_cons_self)
  exact paramFree_spec (hx.record e he) (chars_of_str (hx.key e he))
    (chars_of_str (hx.value e he)) hne

theorem remove_spec (hx : Holds h none xs) (hk : xs.length < rounds) (hs : h.str key = some s) :
    ∃ h' xs', paramsRemove rounds h (ptr (links xs)) key = some (h', ptr (links xs')) ∧
      Holds h' none xs' ∧ params xs' = (params xs).eraseP (fun q => q.key = s) ∧
      Heap.Changes h.mem h'.mem (own xs) (own xs') := by
  have hloop := keyLoop_spec sameSpelling hx hs hk
  simp only [sameSpelling, decide_eq_true_eq, strcmp_eq_zero] at hloop
  rcases hloop with ⟨ys, e, zs, rfl, he, hys, hloop⟩ | ⟨hall, hloop⟩
  · have hlist := hx.isList
    rw [links_append, links_cons] at hlist
    obtain ⟨-, hnode, -⟩ := (seg_append _ _).mp hlist.linked
    obtain ⟨m, hrem, hlist', heq⟩ := listRemove_spec hlist
    have hnode' : e.node ∉ addrs (links ys ++ links zs) := by
      have hnd := (addrs_without ys e zs).nodup_iff.mp hx.nodes
      rw [links_append] at hnd
      exact (List.nodup_cons.mp hnd).1
    have hmem : e ∈ ys ++ e :: zs := by simp
    have hnodes : ∀ a, a ∉ addrs (links (ys ++ e :: zs)) → m.free e.node a = h.nodes a := by
      intro a ha
      rw [links_append, links_cons, addrs_append, addrs_cons, List.mem_append, List.mem_cons,
        not_or, not_or] at ha
      rw [Memory.free_of_ne ha.2.1, heq a (by simp [ha])]
    have hlinked : Seg (m.free e.node) none (links (ys ++ zs)) none := by
      rw [links_append]
      refine seg_congr (fun a ha => Memory.free_of_ne ?_) hlist'.linked
      rintro rfl
      exact hnode' ha
    obtain ⟨hx', hc⟩ := hx.drop hlinked (Memory.free_self ..) hnodes
    refine ⟨_, ys ++ zs, ?_, hx', ?_, hc⟩
    · have hleft := (heq e.node hnode').trans hnode
      rw [links_append, links_append, links_cons]
      rw [links_append, links_cons] at hloop
      simp only [paramsRemove, hloop, hnode, hrem, hx.paramFree hmem _, ParamHeap.freeNode, hleft,
        Option.bind_eq_bind, Option.bind_some, Option.map_some]
    · rw [params_append, params_append, params_cons, List.eraseP_append_right _ (by simpa using hys),
        List.eraseP_cons_of_pos (by simpa using he)]
  · refine ⟨h, xs, by simp [paramsRemove, hloop], hx, ?_, .refl _ _⟩
    rw [List.eraseP_of_forall_not]
    simpa using hall

/-- All of it is freed, each object once. -/
theorem freeWithLoop_spec (hx : Holds h p xs) (hk : xs.length < k) :
    ∃ h', freeWithLoop paramFree k h (ptr (links xs)) = some h' ∧
      Heap.Changes h.mem h'.mem (own xs) (own []) := by
  obtain ⟨k, rfl⟩ := Nat.exists_eq_succ_of_ne_zero (Nat.ne_zero_of_lt hk)
  induction xs generalizing h p k with
  | nil => exact ⟨h, rfl, .refl _ _⟩
  | cons e xs ih =>
    rw [List.length_cons] at hk
    obtain ⟨k, rfl⟩ := Nat.exists_eq_succ_of_ne_zero (show k ≠ 0 by omega)
    have hnode := (List.nodup_cons.mp hx.nodes).1
    have hlinked : Seg (h.nodes.free e.node) (some e.node) (links ([] ++ xs)) none := by
      refine seg_congr (fun a ha => Memory.free_of_ne ?_) hx.linked.2
      rintro rfl
      exact hnode ha
    have hx₀ : Holds h p ([] ++ e :: xs) := hx
    obtain ⟨hx₁, hc₁⟩ := hx₀.drop hlinked (Memory.free_self ..) fun a ha =>
      Memory.free_of_ne fun he => ha (he ▸ List.mem_cons_self)
    obtain ⟨h', hloop, hc⟩ := ih hx₁ k (by omega)
    refine ⟨h', ?_, hc₁.trans hc⟩
    have hfreed : ParamHeap.freeNode ⟨h.nodes, h.records.free e.record,
        (h.chars.free e.key).free e.value⟩ e.node = some ⟨h.nodes.free e.node,
          h.records.free e.record, (h.chars.free e.key).free e.value⟩ := by
      simp [ParamHeap.freeNode, hx.linked.1]
    have hrun := hx.paramFree List.mem_cons_self h.nodes
    rw [links_cons, ptr_cons, freeWithLoop]
    simp only [hx.linked.1, Option.bind_eq_bind, Option.bind_some, Option.or_none]
    rw [hrun, Option.bind_some, hfreed]
    exact hloop

end Objects
end Sighttpd.L1.Heaps
