import Mathlib.Data.List.Nodup
import Sighttpd.Core.Memory

/-!
# Doubly linked lists

Cells with pointers to their neighbours, in a memory from addresses to cells.
`Seg m p xs n` says that the cells of `xs`, a list of addresses and data, are linked in
this order, that the first one points back to `p` and the last one on to `n`.

* `seg_append`: two segments and the seam.
* `seg_congr`: writes elsewhere change nothing.
* `change_next`, `change_prev`, `change_data`: what one write makes of a segment.
* `join_spec`: the two writes that join two lists.
-/
namespace Sighttpd

structure ListCell (α : Type) where
  prev : Option Nat
  next : Option Nat
  data : α
  deriving DecidableEq, Repr

abbrev ListMem (α : Type) := Memory (ListCell α)

namespace LinkedList
variable {α : Type}

/-! ## Writes -/

def setPrev (m : ListMem α) (p : Nat) (q : Option Nat) : Option (ListMem α) :=
  m.modify p fun c => { c with prev := q }

def setNext (m : ListMem α) (p : Nat) (q : Option Nat) : Option (ListMem α) :=
  m.modify p fun c => { c with next := q }

def setData (m : ListMem α) (p : Nat) (f : α → α) : Option (ListMem α) :=
  m.modify p fun c => { c with data := f c.data }

/-! ## Segments -/

/-- The address of the first cell. -/
def ptr : List (Nat × α) → Option Nat
  | [] => none
  | x :: _ => some x.1

/-- The address of the last cell. -/
def lastPtr : List (Nat × α) → Option Nat
  | [] => none
  | [x] => some x.1
  | _ :: xs => lastPtr xs

def addrs (xs : List (Nat × α)) : List Nat := xs.map Prod.fst

def Seg (m : ListMem α) (p : Option Nat) : List (Nat × α) → Option Nat → Prop
  | [], _ => True
  | x :: xs, n => m x.1 = some ⟨p, (ptr xs).or n, x.2⟩ ∧ Seg m (some x.1) xs n

@[simp] theorem addrs_nil : addrs ([] : List (Nat × α)) = [] := rfl

@[simp] theorem addrs_cons (x : Nat × α) (xs : List (Nat × α)) :
    addrs (x :: xs) = x.1 :: addrs xs := rfl

@[simp] theorem addrs_append (xs ys : List (Nat × α)) : addrs (xs ++ ys) = addrs xs ++ addrs ys :=
  List.map_append

theorem length_addrs (xs : List (Nat × α)) : (addrs xs).length = xs.length := List.length_map _

theorem ptr_cons (x : Nat × α) (xs : List (Nat × α)) : ptr (x :: xs) = some x.1 := rfl

theorem ptr_append (xs ys : List (Nat × α)) : ptr (xs ++ ys) = (ptr xs).or (ptr ys) := by
  cases xs <;> rfl

theorem lastPtr_concat (xs : List (Nat × α)) (x : Nat × α) : lastPtr (xs ++ [x]) = some x.1 := by
  induction xs with
  | nil => rfl
  | cons y xs ih => cases xs <;> exact ih

theorem lastPtr_cons_or (x : Nat × α) (xs : List (Nat × α)) (p : Option Nat) :
    (lastPtr (x :: xs)).or p = (lastPtr xs).or (some x.1) := by
  induction xs generalizing x p with
  | nil => rfl
  | cons y xs ih =>
    have h : (lastPtr (y :: xs)).isSome := by
      rcases List.eq_nil_or_concat' (y :: xs) with he | ⟨zs, z, he⟩
      · cases he
      · rw [he, lastPtr_concat]; rfl
    obtain ⟨a, ha⟩ := Option.isSome_iff_exists.mp h
    rw [lastPtr, ha]
    · rfl
    · intro he; cases he

theorem ptr_eq_none {xs : List (Nat × α)} : ptr xs = none ↔ xs = [] := by
  cases xs <;> simp [ptr]

theorem ptr_congr {xs ys : List (Nat × α)} (h : addrs xs = addrs ys) : ptr xs = ptr ys := by
  have hhead : ∀ xs : List (Nat × α), ptr xs = (addrs xs).head? := fun xs => by cases xs <;> rfl
  rw [hhead, hhead, h]

theorem eq_concat_of_lastPtr {xs : List (Nat × α)} {a : Nat} (h : lastPtr xs = some a) :
    ∃ ys d, xs = ys ++ [(a, d)] := by
  rcases List.eq_nil_or_concat' xs with rfl | ⟨ys, y, rfl⟩
  · cases h
  · rw [lastPtr_concat] at h
    cases h
    exact ⟨ys, y.2, rfl⟩

theorem lastPtr_eq_none {xs : List (Nat × α)} : lastPtr xs = none ↔ xs = [] := by
  constructor
  · intro h
    rcases List.eq_nil_or_concat' xs with rfl | ⟨ys, y, rfl⟩
    · rfl
    · rw [lastPtr_concat] at h
      cases h
  · rintro rfl
    rfl

theorem seg_append {m : ListMem α} {p n : Option Nat} (xs ys : List (Nat × α)) :
    Seg m p (xs ++ ys) n ↔ Seg m p xs ((ptr ys).or n) ∧ Seg m ((lastPtr xs).or p) ys n := by
  induction xs generalizing p with
  | nil => simp [Seg, lastPtr]
  | cons x xs ih =>
    rw [List.cons_append, Seg, Seg, ih, ptr_append, Option.or_assoc, lastPtr_cons_or, and_assoc]

theorem seg_congr {m m' : ListMem α} {p n : Option Nat} {xs : List (Nat × α)}
    (h : ∀ a ∈ addrs xs, m' a = m a) (hs : Seg m p xs n) : Seg m' p xs n := by
  induction xs generalizing p with
  | nil => exact trivial
  | cons x xs ih =>
    exact ⟨(h _ List.mem_cons_self).trans hs.1, ih (fun a ha => h a (List.mem_cons_of_mem _ ha)) hs.2⟩

theorem ne_none_of_seg {m : ListMem α} {p n : Option Nat} {xs : List (Nat × α)} {a : Nat}
    (hs : Seg m p xs n) (ha : a ∈ addrs xs) : m a ≠ none := by
  induction xs generalizing p with
  | nil => cases ha
  | cons x xs ih =>
    rcases List.mem_cons.mp ha with rfl | ha
    · simp [hs.1]
    · exact ih hs.2 ha

theorem next_of_lastPtr {m : ListMem α} {p n : Option Nat} {xs : List (Nat × α)} {a : Nat}
    (hs : Seg m p xs n) (ha : lastPtr xs = some a) : ∃ c, m a = some c ∧ c.next = n := by
  obtain ⟨ys, d, rfl⟩ := eq_concat_of_lastPtr ha
  obtain ⟨-, hcell, -⟩ := (seg_append ys [(a, d)]).mp hs
  exact ⟨_, hcell, rfl⟩

theorem ptr_append_of_lastPtr {xs : List (Nat × α)} {a : Nat} (ha : lastPtr xs = some a)
    (ys : List (Nat × α)) : ptr (xs ++ ys) = ptr xs := by
  cases xs with
  | nil => cases ha
  | cons x xs => rfl

/-! ## One write -/

/-- A write to one cell of a segment. -/
theorem change_cell {m : ListMem α} {p n : Option Nat} {xs ys : List (Nat × α)} {x : Nat × α}
    (hs : Seg m p (xs ++ x :: ys) n) (hnd : (addrs (xs ++ x :: ys)).Nodup) (c : ListCell α) :
    Seg (Function.update m x.1 (some c)) p xs (some x.1) ∧
      Seg (Function.update m x.1 (some c)) (some x.1) ys n := by
  obtain ⟨hxs, -, hys⟩ := (seg_append xs (x :: ys)).mp hs
  rw [addrs_append, addrs_cons, List.nodup_middle, List.nodup_cons, List.mem_append, not_or] at hnd
  obtain ⟨⟨hx, hy⟩, -⟩ := hnd
  refine ⟨seg_congr (fun a ha => ?_) hxs, seg_congr (fun a ha => ?_) hys⟩
  · exact Function.update_of_ne (fun he => hx (by rwa [he] at ha)) _ _
  · exact Function.update_of_ne (fun he => hy (by rwa [he] at ha)) _ _

theorem change_next {m : ListMem α} {p n : Option Nat} {xs : List (Nat × α)} {a : Nat}
    (hs : Seg m p xs n) (hnd : (addrs xs).Nodup) (ha : lastPtr xs = some a) (n' : Option Nat) :
    ∃ m', setNext m a n' = some m' ∧ Seg m' p xs n' ∧ ∀ b, b ≠ a → m' b = m b := by
  obtain ⟨ys, d, rfl⟩ := eq_concat_of_lastPtr ha
  obtain ⟨-, hcell, -⟩ := (seg_append ys [(a, d)]).mp hs
  refine ⟨_, Memory.modify_eq hcell _, ?_, fun b hb => Function.update_of_ne hb _ _⟩
  obtain ⟨hys, -⟩ := change_cell hs hnd ⟨(lastPtr ys).or p, n', d⟩
  exact (seg_append ys [(a, d)]).mpr ⟨hys, Function.update_self .., trivial⟩

theorem change_prev {m : ListMem α} {p n : Option Nat} {xs : List (Nat × α)} {a : Nat}
    (hs : Seg m p xs n) (hnd : (addrs xs).Nodup) (ha : ptr xs = some a) (p' : Option Nat) :
    ∃ m', setPrev m a p' = some m' ∧ Seg m' p' xs n ∧ ∀ b, b ≠ a → m' b = m b := by
  cases xs with
  | nil => cases ha
  | cons x xs =>
    cases ha
    refine ⟨_, Memory.modify_eq hs.1 _, ?_, fun b hb => Function.update_of_ne hb _ _⟩
    have hs' : Seg m p ([] ++ x :: xs) n := hs
    obtain ⟨-, hxs⟩ := change_cell hs' hnd ⟨p', (ptr xs).or n, x.2⟩
    exact ⟨Function.update_self .., hxs⟩

theorem change_data {m : ListMem α} {p n : Option Nat} {xs ys : List (Nat × α)} {x : Nat × α}
    (hs : Seg m p (xs ++ x :: ys) n) (hnd : (addrs (xs ++ x :: ys)).Nodup) (f : α → α) :
    ∃ m', setData m x.1 f = some m' ∧ Seg m' p (xs ++ (x.1, f x.2) :: ys) n ∧
      ∀ b, b ≠ x.1 → m' b = m b := by
  obtain ⟨-, hcell, -⟩ := (seg_append xs (x :: ys)).mp hs
  refine ⟨_, Memory.modify_eq hcell _, ?_, fun b hb => Function.update_of_ne hb _ _⟩
  obtain ⟨hxs, hys⟩ := change_cell hs hnd ⟨(lastPtr xs).or p, (ptr ys).or n, f x.2⟩
  exact (seg_append xs _).mpr ⟨hxs, Function.update_self .., hys⟩

/-- A write to another cell. -/
theorem seg_other {m m' : ListMem α} {p n : Option Nat} {xs : List (Nat × α)} {a : Nat}
    (heq : ∀ b, b ≠ a → m' b = m b) (ha : a ∉ addrs xs) (hs : Seg m p xs n) : Seg m' p xs n :=
  seg_congr (fun _ hb => heq _ fun he => ha (he ▸ hb)) hs

theorem lastPtr_mem {xs : List (Nat × α)} {a : Nat} (h : lastPtr xs = some a) : a ∈ addrs xs := by
  obtain ⟨ys, d, rfl⟩ := eq_concat_of_lastPtr h
  simp

theorem ptr_mem {xs : List (Nat × α)} {a : Nat} (h : ptr xs = some a) : a ∈ addrs xs := by
  cases xs with
  | nil => cases h
  | cons x xs =>
    cases h
    exact List.mem_cons_self

/-! ## Joining -/

/-- Both ends of the link between the last cell of `xs` and the first one of `ys`. -/
theorem join_spec {m : ListMem α} {xs ys : List (Nat × α)} {a b : Nat} {n q : Option Nat}
    (hx : Seg m none xs n) (hy : Seg m q ys none) (hnd : (addrs (xs ++ ys)).Nodup)
    (ha : lastPtr xs = some a) (hb : ptr ys = some b) :
    ∃ m₁ m₂, setNext m a (some b) = some m₁ ∧ setPrev m₁ b (some a) = some m₂ ∧
      Seg m₂ none (xs ++ ys) none ∧ ∀ c, c ∉ addrs (xs ++ ys) → m₂ c = m c := by
  rw [addrs_append] at hnd ⊢
  obtain ⟨hndx, hndy, hdisj⟩ := List.nodup_append'.mp hnd
  have hax := lastPtr_mem ha
  have hby := ptr_mem hb
  obtain ⟨m₁, h₁, hx₁, heq₁⟩ := change_next hx hndx ha (some b)
  have hy₁ := seg_congr (fun c hc => heq₁ c fun he => hdisj hax (he ▸ hc)) hy
  obtain ⟨m₂, h₂, hy₂, heq₂⟩ := change_prev hy₁ hndy hb (some a)
  have hx₂ := seg_congr (fun c hc => heq₂ c fun he => hdisj hc (he ▸ hby)) hx₁
  refine ⟨m₁, m₂, h₁, h₂, (seg_append xs ys).mpr ?_, fun c hc => ?_⟩
  · rw [ha, hb]
    exact ⟨hx₂, hy₂⟩
  · rw [List.mem_append, not_or] at hc
    rw [heq₂ c fun he => hc.2 (he ▸ hby), heq₁ c fun he => hc.1 (he ▸ hax)]

end LinkedList
end Sighttpd
