import Sighttpd.Core.LinkedList

/-!
# Lists (`list.c`)

The list functions in memory, node by node. A list is the pointer to its first node,
`malloc` an address that comes with the call, and `rounds` what a loop may take.

* `listTail_spec`, `listAppend_spec`, `listJoin_spec`: each function computes the
  operation on lists it is named after, and writes to no other nodes.
-/
namespace Sighttpd.L1
open LinkedList

variable {α : Type}

/-! ## Model -/

/-- mirrors src/list.c:13-23 (`list_node_new`). `malloc` has returned `n`. -/
def listNodeNew (m : ListMem α) (n : Nat) (data : α) : ListMem α :=
  m.alloc n ⟨none, none, data⟩

/-- mirrors src/list.c:25-29 (`list_new`) -/
def listNew : Option Nat := none

/-- mirrors src/list.c:31-38 (`list_tail`). The result `some none` is `NULL`. -/
def listTail (m : ListMem α) : Nat → Option Nat → Option (Option Nat)
  | 0, _ => none
  | _ + 1, none => some none
  | k + 1, some l => do
    match (← m l).next with
    | none => some (some l)
    | some next => listTail m k (some next)

/-- mirrors src/list.c:53-65 (`list_append`) -/
def listAppend (rounds : Nat) (m : ListMem α) (list : Option Nat) (data : α) (n : Nat) :
    Option (ListMem α × Option Nat) :=
  let m := listNodeNew m n data
  match list with
  | none => some (m, some n)
  | some l => do
    let last ← listTail m rounds (some l)
    let m ← match last with
      | none => some m
      | some last => setNext m last (some n)
    some (← setPrev m n last, some l)

/-- mirrors src/list.c:128-139 (`list_join`) -/
def listJoin (rounds : Nat) (m : ListMem α) (l1 l2 : Option Nat) :
    Option (ListMem α × Option Nat) := do
  match ← listTail m rounds l1 with
  | none => some (m, l2)
  | some tail1 =>
    let m ← setNext m tail1 l2
    match l2 with
    | none => some (m, l1)
    | some l => some (← setPrev m l (some tail1), l1)

/-! ## Lists in memory -/

/-- The memory holds the list `xs` of addresses and data, each cell once. -/
structure IsList (m : ListMem α) (xs : List (Nat × α)) : Prop where
  linked : Seg m none xs none
  distinct : (addrs xs).Nodup

theorem isList_nil (m : ListMem α) : IsList m [] := ⟨trivial, List.nodup_nil⟩

theorem IsList.congr {m m' : ListMem α} {xs : List (Nat × α)} (h : IsList m xs)
    (heq : ∀ a ∈ addrs xs, m' a = m a) : IsList m' xs := ⟨seg_congr heq h.linked, h.distinct⟩

theorem IsList.fresh {m : ListMem α} {xs : List (Nat × α)} (h : IsList m xs) {n : Nat}
    (hn : m n = none) : n ∉ addrs xs := fun hm => ne_none_of_seg h.linked hm hn

/-- One of many lists is replaced by a list that is apart from all others. -/
theorem apart_update {lists : Nat → List (Nat × α)}
    (h : ∀ j k, j ≠ k → (addrs (lists j)).Disjoint (addrs (lists k))) {i : Nat}
    {xs : List (Nat × α)} (hxs : ∀ j, j ≠ i → (addrs xs).Disjoint (addrs (lists j))) (j k : Nat)
    (hjk : j ≠ k) :
    (addrs (Function.update lists i xs j)).Disjoint (addrs (Function.update lists i xs k)) := by
  by_cases hj : j = i
  · subst hj
    rw [Function.update_self, Function.update_of_ne (Ne.symm hjk)]
    exact hxs k (Ne.symm hjk)
  · rw [Function.update_of_ne hj]
    by_cases hk : k = i
    · subst hk
      rw [Function.update_self]
      exact fun a ha hx => hxs j hj hx ha
    · rw [Function.update_of_ne hk]
      exact h j k hjk

theorem isList_nodeNew (m : ListMem α) (n : Nat) (data : α) :
    IsList (listNodeNew m n data) [(n, data)] :=
  ⟨⟨Memory.alloc_self .., trivial⟩, List.nodup_singleton n⟩

theorem listNodeNew_of_ne {m : ListMem α} {n b : Nat} (data : α) (h : b ≠ n) :
    listNodeNew m n data b = m b := Memory.alloc_of_ne _ h

theorem listTail_spec {m : ListMem α} {p : Option Nat} {xs : List (Nat × α)}
    (h : Seg m p xs none) {k : Nat} (hk : xs.length < k) :
    listTail m k (ptr xs) = some (lastPtr xs) := by
  obtain ⟨k, rfl⟩ := Nat.exists_eq_succ_of_ne_zero (Nat.ne_zero_of_lt hk)
  induction xs generalizing p k with
  | nil => rfl
  | cons x xs ih =>
    obtain ⟨hx, hxs⟩ := h
    rw [List.length_cons] at hk
    rw [ptr, listTail, hx, Option.or_none]
    cases xs with
    | nil => rfl
    | cons y ys =>
      obtain ⟨k, rfl⟩ := Nat.exists_eq_succ_of_ne_zero (show k ≠ 0 by omega)
      exact ih hxs k (by omega)

theorem listJoin_spec {m : ListMem α} {xs ys : List (Nat × α)} (hx : IsList m xs)
    (hy : IsList m ys) (hdisj : (addrs xs).Disjoint (addrs ys)) {k : Nat} (hk : xs.length < k) :
    ∃ m', listJoin k m (ptr xs) (ptr ys) = some (m', ptr (xs ++ ys)) ∧ IsList m' (xs ++ ys) ∧
      ∀ b, b ∉ addrs (xs ++ ys) → m' b = m b := by
  have hnd : (addrs (xs ++ ys)).Nodup := by
    rw [addrs_append]
    exact List.nodup_append'.mpr ⟨hx.distinct, hy.distinct, hdisj⟩
  rw [listJoin, listTail_spec hx.linked hk, ptr_append]
  cases ha : lastPtr xs with
  | none =>
    obtain rfl := lastPtr_eq_none.mp ha
    exact ⟨m, rfl, hy, fun _ _ => rfl⟩
  | some a =>
    have hp : (ptr xs).or (ptr ys) = ptr xs := by
      cases xs with
      | nil => cases ha
      | cons x xs => rfl
    rw [hp]
    cases hb : ptr ys with
    | none =>
      obtain rfl := ptr_eq_none.mp hb
      obtain ⟨m', hset, hlinked, heq⟩ := change_next hx.linked hx.distinct ha none
      obtain ⟨zs, d, rfl⟩ := eq_concat_of_lastPtr ha
      refine ⟨m', by simp [hset], by simpa using ⟨hlinked, hx.distinct⟩, fun b hb => heq b ?_⟩
      rintro rfl
      simp at hb
    | some b =>
      obtain ⟨m₁, m₂, h₁, h₂, hlinked, heq⟩ := join_spec hx.linked hy.linked hnd ha hb
      exact ⟨m₂, by simp [h₁, h₂], ⟨hlinked, hnd⟩, heq⟩

theorem listAppend_spec {m : ListMem α} {xs : List (Nat × α)} (hx : IsList m xs) (data : α) {n : Nat}
    (hnx : n ∉ addrs xs) {k : Nat} (hk : xs.length < k) :
    ∃ m', listAppend k m (ptr xs) data n = some (m', ptr (xs ++ [(n, data)])) ∧
      IsList m' (xs ++ [(n, data)]) ∧ ∀ b, b ∉ addrs (xs ++ [(n, data)]) → m' b = m b := by
  have hx' : IsList (listNodeNew m n data) xs :=
    hx.congr fun a ha => listNodeNew_of_ne data fun he => hnx (he ▸ ha)
  have hold : ∀ b, b ∉ addrs (xs ++ [(n, data)]) → listNodeNew m n data b = m b := by
    intro b hb
    refine listNodeNew_of_ne data fun he => hb ?_
    simp [he]
  have hnd : (addrs (xs ++ [(n, data)])).Nodup := by
    rw [addrs_append]
    exact List.nodup_append'.mpr ⟨hx.distinct, List.nodup_singleton n, by simpa using hnx⟩
  cases xs with
  | nil => exact ⟨_, rfl, isList_nodeNew m n data, hold⟩
  | cons x xs =>
    have htail := listTail_spec hx'.linked hk
    obtain ⟨a, ha⟩ : ∃ a, lastPtr (x :: xs) = some a :=
      Option.ne_none_iff_exists'.mp fun he => by simp [lastPtr_eq_none] at he
    obtain ⟨m₁, m₂, h₁, h₂, hlinked, heq⟩ :=
      join_spec hx'.linked (isList_nodeNew m n data).linked hnd ha rfl
    refine ⟨m₂, ?_, ⟨hlinked, hnd⟩, fun b hb => (heq b hb).trans (hold b hb)⟩
    rw [ptr, ha] at htail
    simp [listAppend, ptr, htail, h₁, h₂]

end Sighttpd.L1
