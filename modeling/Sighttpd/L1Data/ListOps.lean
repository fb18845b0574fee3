import Sighttpd.L1Data.Lists

/-!
# Insertion and removal in lists (`list.c`)

The functions that write next to a given node, link by link in the order of the source.

* `listPrepend_spec`, `listAddBefore_spec`, `listAddAfter_spec`, `listRemove_spec`: what
  each makes of the list around the node; no other nodes are written to.
* `listLength_spec`: the count of the loop.
-/
namespace Sighttpd.L1
open LinkedList

variable {α : Type}

/-! ## Model -/

/-- mirrors src/list.c:40-51 (`list_prepend`) -/
def listPrepend (m : ListMem α) (list : Option Nat) (data : α) (n : Nat) :
    Option (ListMem α × Option Nat) :=
  let m := listNodeNew m n data
  match list with
  | none => some (m, some n)
  | some list => do
    let m ← setNext m n (some list)
    some (← setPrev m list (some n), some n)

/-- A write to a neighbour, when there is one. -/
def ifNode (m : ListMem α) (set : ListMem α → Nat → Option Nat → Option (ListMem α))
    (l : Option Nat) (q : Option Nat) : Option (ListMem α) :=
  match l with
  | none => some m
  | some l => set m l q

/-- mirrors src/list.c:67-85 (`list_add_before`) -/
def listAddBefore (rounds : Nat) (m : ListMem α) (list : Option Nat) (data : α)
    (node : Option Nat) (n : Nat) : Option (ListMem α × Option Nat) :=
  match list, node with
  | none, _ => some (listNodeNew m n data, some n)
  | some list, none => listAppend rounds m (some list) data n
  | some list, some node =>
    if node = list then listPrepend m (some list) data n
    else do
      let m := listNodeNew m n data
      let p := (← m node).prev
      let m ← setPrev m n p
      let m ← setNext m n (some node)
      let m ← ifNode m setNext p (some n)
      some (← setPrev m node (some n), some list)

/-- mirrors src/list.c:87-103 (`list_add_after`) -/
def listAddAfter (m : ListMem α) (list : Option Nat) (data : α) (node : Option Nat) (n : Nat) :
    Option (ListMem α × Option Nat) :=
  match node with
  | none => listPrepend m list data n
  | some node => do
    let m := listNodeNew m n data
    let next := (← m node).next
    let m ← setPrev m n (some node)
    let m ← setNext m n next
    let m ← ifNode m setPrev next (some n)
    some (← setNext m node (some n), list)

/-- mirrors src/list.c:116-126 (`list_remove`) -/
def listRemove (m : ListMem α) (list node : Option Nat) : Option (ListMem α × Option Nat) :=
  match node with
  | none => some (m, list)
  | some node => do
    let m ← ifNode m setNext (← m node).prev (← m node).next
    let m ← ifNode m setPrev (← m node).next (← m node).prev
    if list = some node then some (m, (← m node).next) else some (m, list)

/-- A C `int`, which wraps around. -/
def toInt (n : Int) : Int := n.bmod 4294967296

theorem toInt_of_lt {n : Nat} (h : n < 2147483648) : toInt n = n :=
  Int.bmod_eq_of_le (by omega) (by omega)

/-- mirrors src/list.c:146-147, the loop of `list_length` with its variables `l` and `c` -/
def lengthLoop (m : ListMem α) : Nat → Option Nat → Int → Option Int
  | 0, _, _ => none
  | _ + 1, none, c => some c
  | k + 1, some l, c => do lengthLoop m k (← m l).next (toInt (c + 1))

/-- mirrors src/list.c:141-151 (`list_length`) -/
def listLength (rounds : Nat) (m : ListMem α) (list : Option Nat) : Option Int :=
  lengthLoop m rounds list 0

/-! ## Insertion -/

variable {m : ListMem α} {xs ys : List (Nat × α)} {x : Nat × α} {n k : Nat}

theorem listPrepend_spec (h : IsList m xs) (data : α) (hn : n ∉ addrs xs) :
    ∃ m', listPrepend m (ptr xs) data n = some (m', some n) ∧ IsList m' ((n, data) :: xs) ∧
      ∀ b, b ∉ addrs ((n, data) :: xs) → m' b = m b := by
  have h' : IsList (listNodeNew m n data) xs :=
    h.congr fun a ha => listNodeNew_of_ne data fun he => hn (he ▸ ha)
  have hnew := isList_nodeNew m n data
  have hold : ∀ b, b ∉ addrs ((n, data) :: xs) → listNodeNew m n data b = m b :=
    fun b hb => listNodeNew_of_ne data (List.ne_of_not_mem_cons hb)
  have hnd : (addrs ((n, data) :: xs)).Nodup := List.nodup_cons.mpr ⟨hn, h.distinct⟩
  cases e : ptr xs with
  | none =>
    obtain rfl := ptr_eq_none.mp e
    exact ⟨_, rfl, hnew, hold⟩
  | some l =>
    obtain ⟨m₁, m₂, h₁, h₂, hlinked, heq⟩ := join_spec hnew.linked h'.linked hnd rfl e
    exact ⟨m₂, by simp [listPrepend, h₁, h₂], ⟨hlinked, hnd⟩,
      fun b hb => (heq b hb).trans (hold b hb)⟩

/-- A new node that has its links, between two segments that do not know of it yet. -/
theorem seg_insert {m : ListMem α} {y : Nat × α} (hx : Seg m none xs (some y.1))
    (hy : Seg m (lastPtr xs) [y] (ptr ys)) (hys : Seg m (some y.1) ys none) :
    Seg m none (xs ++ y :: ys) none := by
  simp only [seg_append, Seg, Option.or_none]
  exact ⟨hx, hy.1, hys⟩

theorem nodup_insert {n : Nat} (data : α) (hn : n ∉ addrs (xs ++ ys)) (hnd : (addrs (xs ++ ys)).Nodup) :
    (addrs (xs ++ (n, data) :: ys)).Nodup := by
  rw [addrs_append] at hn hnd
  rw [addrs_append, addrs_cons, List.nodup_middle]
  exact List.nodup_cons.mpr ⟨hn, hnd⟩

/-- The node is on its own, and its links are set to what is around the place for it. -/
theorem newNode_spec (m : ListMem α) (n : Nat) (data : α) (p q : Option Nat) :
    ∃ m₁ m₂, setPrev (listNodeNew m n data) n p = some m₁ ∧ setNext m₁ n q = some m₂ ∧
      Seg m₂ p [(n, data)] q ∧ ∀ b, b ≠ n → m₂ b = m b := by
  have hnd : (addrs [(n, data)]).Nodup := List.nodup_singleton n
  obtain ⟨m₁, h₁, hs₁, heq₁⟩ := change_prev (isList_nodeNew m n data).linked hnd rfl p
  obtain ⟨m₂, h₂, hs₂, heq₂⟩ := change_next hs₁ hnd rfl q
  refine ⟨m₁, m₂, h₁, h₂, hs₂, fun b hb => ?_⟩
  rw [heq₂ b hb, heq₁ b hb, listNodeNew_of_ne data hb]

/-- The write to the last node before a place, when there is one. -/
theorem ifNode_next {p q : Option Nat} (hs : Seg m p xs q) (hnd : (addrs xs).Nodup)
    (q' : Option Nat) :
    ∃ m', ifNode m setNext (lastPtr xs) q' = some m' ∧ Seg m' p xs q' ∧
      ∀ b, b ∉ addrs xs → m' b = m b := by
  cases e : lastPtr xs with
  | none =>
    obtain rfl := lastPtr_eq_none.mp e
    exact ⟨m, rfl, trivial, fun _ _ => rfl⟩
  | some a =>
    obtain ⟨m', hset, hs', heq⟩ := change_next hs hnd e q'
    exact ⟨m', hset, hs', fun b hb => heq b fun he => hb (he ▸ lastPtr_mem e)⟩

/-- The write to the first node behind a place, when there is one. -/
theorem ifNode_prev {p q : Option Nat} (hs : Seg m p xs q) (hnd : (addrs xs).Nodup)
    (p' : Option Nat) :
    ∃ m', ifNode m setPrev (ptr xs) p' = some m' ∧ Seg m' p' xs q ∧
      ∀ b, b ∉ addrs xs → m' b = m b := by
  cases e : ptr xs with
  | none =>
    obtain rfl := ptr_eq_none.mp e
    exact ⟨m, rfl, trivial, fun _ _ => rfl⟩
  | some a =>
    obtain ⟨m', hset, hs', heq⟩ := change_prev hs hnd e p'
    exact ⟨m', hset, hs', fun b hb => heq b fun he => hb (he ▸ ptr_mem e)⟩

/-- Without a node the new one is the last one, also of an empty list. -/
theorem listAddBefore_null (m : ListMem α) (list : Option Nat) (data : α) :
    listAddBefore k m list data none n = listAppend k m list data n := by
  cases list <;> rfl

theorem listAddBefore_spec (h : IsList m (xs ++ x :: ys)) (data : α)
    (hn : n ∉ addrs (xs ++ x :: ys)) :
    ∃ m', listAddBefore k m (ptr (xs ++ x :: ys)) data (some x.1) n =
        some (m', ptr (xs ++ (n, data) :: x :: ys)) ∧ IsList m' (xs ++ (n, data) :: x :: ys) ∧
      ∀ b, b ∉ addrs (xs ++ (n, data) :: x :: ys) → m' b = m b := by
  have hnd := nodup_insert data hn h.distinct
  cases el : ptr xs with
  | none =>
    obtain rfl := ptr_eq_none.mp el
    obtain ⟨m', hpre, h', heq⟩ := listPrepend_spec h data hn
    refine ⟨m', ?_, h', heq⟩
    rw [List.nil_append, ptr] at hpre
    simp [listAddBefore, ptr, hpre]
  | some l =>
    obtain ⟨hxs, hys⟩ := (seg_append xs (x :: ys)).mp h.linked
    obtain ⟨hndx, hndy, hdisj⟩ := List.nodup_append'.mp (addrs_append xs (x :: ys) ▸ h.distinct)
    rw [addrs_append, List.mem_append, not_or] at hn
    obtain ⟨hnx, hny⟩ := hn
    have hx : x.1 ∈ addrs (x :: ys) := List.mem_cons_self
    have hxn : x.1 ≠ n := fun he => hny (he ▸ hx)
    rw [Option.or_none] at hys
    -- the node, the link to it from the left, and the one from the right
    obtain ⟨m₁, m₂, h₁, h₂, hnew, heq₂⟩ := newNode_spec m n data (lastPtr xs) (some x.1)
    obtain ⟨m₃, h₃, hxs₃, heq₃⟩ := ifNode_next (seg_other heq₂ hnx hxs) hndx (some n)
    have hnew₃ := seg_congr (fun b hb => heq₃ b (by rwa [List.mem_singleton.mp hb])) hnew
    have hys₃ := seg_congr (fun b hb => heq₃ b fun hm => hdisj hm hb) (seg_other heq₂ hny hys)
    obtain ⟨m₄, h₄, hys₄, heq₄⟩ := change_prev hys₃ hndy rfl (some n)
    have hnew₄ := seg_other heq₄ (by simpa using hxn) hnew₃
    have hxs₄ := seg_other heq₄ (fun hm => hdisj hm hx) hxs₃
    refine ⟨m₄, ?_, ⟨seg_insert hxs₄ hnew₄ hys₄, hnd⟩, fun b hb => ?_⟩
    · have hxl : x.1 ≠ l := fun he => hdisj (ptr_mem el) (he ▸ hx)
      have hcell := (listNodeNew_of_ne data hxn).trans hys.1
      rw [ptr_append, ptr_append, el]
      simp [listAddBefore, hxl, hcell, h₁, h₂, h₃, h₄]
    · simp only [addrs_append, addrs_cons, List.mem_append, List.mem_cons, not_or] at hb
      rw [heq₄ b hb.2.2.1, heq₃ b hb.1, heq₂ b hb.2.1]

theorem listAddAfter_spec {a : Nat} (h : IsList m (xs ++ ys)) (ha : lastPtr xs = some a) (data : α)
    (hn : n ∉ addrs (xs ++ ys)) :
    ∃ m', listAddAfter m (ptr (xs ++ ys)) data (some a) n =
        some (m', ptr (xs ++ (n, data) :: ys)) ∧ IsList m' (xs ++ (n, data) :: ys) ∧
      ∀ b, b ∉ addrs (xs ++ (n, data) :: ys) → m' b = m b := by
  have hnd := nodup_insert data hn h.distinct
  obtain ⟨hxs, hys⟩ := (seg_append xs ys).mp h.linked
  obtain ⟨hndx, hndy, hdisj⟩ := List.nodup_append'.mp (addrs_append xs ys ▸ h.distinct)
  rw [addrs_append, List.mem_append, not_or] at hn
  obtain ⟨hnx, hny⟩ := hn
  have hax := lastPtr_mem ha
  have han : a ≠ n := fun he => hnx (he ▸ hax)
  rw [Option.or_none] at hxs hys
  -- the node, the link to it from the right, and the one from the left
  obtain ⟨m₁, m₂, h₁, h₂, hnew, heq₂⟩ := newNode_spec m n data (lastPtr xs) (ptr ys)
  obtain ⟨m₃, h₃, hys₃, heq₃⟩ := ifNode_prev (seg_other heq₂ hny hys) hndy (some n)
  have hnew₃ := seg_congr (fun b hb => heq₃ b (by rwa [List.mem_singleton.mp hb])) hnew
  have hxs₃ := seg_congr (fun b hb => heq₃ b fun hm => hdisj hb hm) (seg_other heq₂ hnx hxs)
  obtain ⟨m₄, h₄, hxs₄, heq₄⟩ := change_next hxs₃ hndx ha (some n)
  have hnew₄ := seg_other heq₄ (by simpa using han) hnew₃
  have hys₄ := seg_other heq₄ (fun hm => hdisj hax hm) hys₃
  refine ⟨m₄, ?_, ⟨seg_insert hxs₄ hnew₄ hys₄, hnd⟩, fun b hb => ?_⟩
  · obtain ⟨c, hc, hnext⟩ := next_of_lastPtr hxs ha
    have hcell := (listNodeNew_of_ne data han).trans hc
    rw [ptr_append_of_lastPtr ha, ptr_append_of_lastPtr ha]
    rw [ha] at h₁
    simp [listAddAfter, hcell, hnext, h₁, h₂, h₃, h₄]
  · simp only [addrs_append, addrs_cons, List.mem_append, List.mem_cons, not_or] at hb
    rw [heq₄ b fun he => hb.1 (he ▸ hax), heq₃ b hb.2.2, heq₂ b hb.2.1]

/-! ## Removal -/

/-- The node is left with its own links. -/
theorem listRemove_spec (h : IsList m (xs ++ x :: ys)) :
    ∃ m', listRemove m (ptr (xs ++ x :: ys)) (some x.1) = some (m', ptr (xs ++ ys)) ∧
      IsList m' (xs ++ ys) ∧ ∀ b, b ∉ addrs (xs ++ ys) → m' b = m b := by
  have hnd := h.distinct
  rw [addrs_append, addrs_cons, List.nodup_middle, List.nodup_cons, List.mem_append, not_or] at hnd
  obtain ⟨⟨hxx, hxy⟩, hnd⟩ := hnd
  obtain ⟨hndx, hndy, hdisj⟩ := List.nodup_append'.mp hnd
  obtain ⟨hxs, hcell, hys⟩ := (seg_append xs (x :: ys)).mp h.linked
  rw [Option.or_none, Option.or_none] at hcell
  obtain ⟨m₁, h₁, hxs₁, heq₁⟩ := ifNode_next hxs hndx (ptr ys)
  have hcell₁ := (heq₁ x.1 hxx).trans hcell
  have hys₁ := seg_congr (fun b hb => heq₁ b fun hm => hdisj hm hb) hys
  obtain ⟨m₂, h₂, hys₂, heq₂⟩ := ifNode_prev hys₁ hndy (lastPtr xs)
  have hcell₂ := (heq₂ x.1 hxy).trans hcell₁
  have hxs₂ := seg_congr (fun b hb => heq₂ b fun hm => hdisj hb hm) hxs₁
  refine ⟨m₂, ?_, ⟨?_, by rwa [addrs_append]⟩, fun b hb => ?_⟩
  · cases xs with
    | nil => simp [listRemove, hcell, h₁, hcell₁, h₂, hcell₂, ptr_cons]
    | cons z zs =>
      have hne : z.1 ≠ x.1 := fun he => hxx (he ▸ List.mem_cons_self)
      simp [listRemove, hcell, h₁, hcell₁, h₂, ptr_cons, hne]
  · rw [seg_append, Option.or_none, Option.or_none]
    exact ⟨hxs₂, hys₂⟩
  · rw [addrs_append, List.mem_append, not_or] at hb
    rw [heq₂ b hb.2, heq₁ b hb.1]

/-! ## The length -/

theorem lengthLoop_spec {p : Option Nat} (h : Seg m p xs none) (hk : xs.length < k) (c : Int) :
    lengthLoop m k (ptr xs) (toInt c) = some (toInt (c + xs.length)) := by
  obtain ⟨k, rfl⟩ := Nat.exists_eq_succ_of_ne_zero (Nat.ne_zero_of_lt hk)
  induction xs generalizing p c k with
  | nil => simp [ptr, lengthLoop]
  | cons x xs ih =>
    obtain ⟨hx, hxs⟩ := h
    rw [List.length_cons] at hk
    obtain ⟨k, rfl⟩ := Nat.exists_eq_succ_of_ne_zero (show k ≠ 0 by omega)
    have hwrap : toInt (toInt c + 1) = toInt (c + 1) := Int.bmod_add_bmod
    have hlen : c + 1 + (xs.length : Int) = c + ((x :: xs).length : Int) := by
      rw [List.length_cons]
      omega
    rw [ptr, lengthLoop, hx]
    simp only [Option.bind_eq_bind, Option.bind_some, Option.or_none, hwrap]
    rw [ih hxs (c + 1) k (by omega), hlen]

theorem listLength_spec (h : IsList m xs) (hk : xs.length < k) :
    listLength k m (ptr xs) = some (toInt xs.length) := by
  have hloop := lengthLoop_spec h.linked hk 0
  rwa [Int.zero_add] at hloop

end Sighttpd.L1
