import Mathlib.Data.List.Nodup
import Sighttpd.Core.Memory
import Sighttpd.Core.OrderedTree

/-!
# Binary trees of linked cells

Cells with pointers to both children and to the parent, in a memory from addresses to
cells. `Linked m par t` says that the cells of `t`, a tree of addresses and data, are
linked as `t` is shaped and that its root points to `par`; `Around m path q` says the
same of a tree with a hole, with the pointer `q` where the hole is.

* `linked_fill`: a tree in its surroundings.
* `linked_congr`, `around_congr`: writes elsewhere change nothing.
* `change_parent`, `change_child`, `attach_spec`: what one and two writes make of them.
* `linked_mirror`: left and right exchanged.
-/
namespace Sighttpd

structure Cell (α : Type) where
  parent : Option Nat
  left : Option Nat
  right : Option Nat
  data : α
  deriving DecidableEq, Repr

abbrev CellMem (α : Type) := Memory (Cell α)

namespace LinkedTree
open SearchTree
variable {α : Type}

/-! ## Writes -/

def setParent (m : CellMem α) (p : Nat) (q : Option Nat) : Option (CellMem α) :=
  m.modify p fun c => { c with parent := q }

def setLeft (m : CellMem α) (p : Nat) (q : Option Nat) : Option (CellMem α) :=
  m.modify p fun c => { c with left := q }

def setRight (m : CellMem α) (p : Nat) (q : Option Nat) : Option (CellMem α) :=
  m.modify p fun c => { c with right := q }

/-! ## Trees in memory -/

/-- The pointer to the root. -/
def ptr : SearchTree (Nat × α) → Option Nat
  | nil => none
  | node _ x _ => some x.1

/-- The addresses of the cells. -/
def addrs (t : SearchTree (Nat × α)) : List Nat := t.toList.map Prod.fst

def Linked (m : CellMem α) (par : Option Nat) : SearchTree (Nat × α) → Prop
  | nil => True
  | node l x r =>
    m x.1 = some ⟨par, ptr l, ptr r, x.2⟩ ∧ Linked m (some x.1) l ∧ Linked m (some x.1) r

@[simp] theorem addrs_nil : addrs (nil : SearchTree (Nat × α)) = [] := rfl

@[simp] theorem addrs_node (l r : SearchTree (Nat × α)) (x : Nat × α) :
    addrs (node l x r) = addrs l ++ x.1 :: addrs r := by
  simp [addrs, toList]

theorem length_addrs (t : SearchTree (Nat × α)) : (addrs t).length = t.toList.length :=
  List.length_map _

theorem mem_addrs_of_ptr {t : SearchTree (Nat × α)} {q : Nat} (h : ptr t = some q) : q ∈ addrs t := by
  cases t with
  | nil => cases h
  | node l x r =>
    cases h
    simp

theorem ptr_eq_none {t : SearchTree (Nat × α)} : ptr t = none ↔ t = nil := by
  cases t <;> simp [ptr]

theorem addrs_hang (l r : SearchTree (Nat × α)) : addrs (hang l r) = addrs l ++ addrs r := by
  rw [addrs, toList_hang, List.map_append]
  rfl

theorem ptr_hang {l : SearchTree (Nat × α)} {q : Nat} (h : ptr l = some q) (r : SearchTree (Nat × α)) :
    ptr (hang l r) = some q := by
  cases l with
  | nil => cases h
  | node a x b => exact h

theorem linked_congr {m m' : CellMem α} {par : Option Nat} {t : SearchTree (Nat × α)}
    (h : ∀ a ∈ addrs t, m' a = m a) (ht : Linked m par t) : Linked m' par t := by
  induction t generalizing par with
  | nil => exact trivial
  | node l x r ihl ihr =>
    obtain ⟨hx, hl, hr⟩ := ht
    refine ⟨(h _ (by simp)).trans hx, ihl (fun a ha => h a ?_) hl, ihr (fun a ha => h a ?_) hr⟩
    · simp [ha]
    · simp [ha]

theorem ne_none_of_linked {m : CellMem α} {par : Option Nat} {t : SearchTree (Nat × α)} {a : Nat}
    (ht : Linked m par t) (ha : a ∈ addrs t) : m a ≠ none := by
  induction t generalizing par with
  | nil => cases ha
  | node l x r ihl ihr =>
    obtain ⟨hx, hl, hr⟩ := ht
    rw [addrs_node, List.mem_append, List.mem_cons] at ha
    rcases ha with ha | rfl | ha
    · exact ihl hl ha
    · simp [hx]
    · exact ihr hr ha

theorem data_of_mem {m : CellMem α} {par : Option Nat} {t : SearchTree (Nat × α)} {x : Nat × α}
    (ht : Linked m par t) (hx : x ∈ t.toList) : ∃ c, m x.1 = some c ∧ c.data = x.2 := by
  induction t generalizing par with
  | nil => cases hx
  | node l y r ihl ihr =>
    obtain ⟨hy, hl, hr⟩ := ht
    rw [toList, List.mem_append, List.mem_cons] at hx
    rcases hx with hx | rfl | hx
    · exact ihl hl hx
    · exact ⟨_, hy, rfl⟩
    · exact ihr hr hx

/-- A linked tree keeps its shape when the root is given another parent. -/
theorem change_parent {m : CellMem α} {par : Option Nat} {t : SearchTree (Nat × α)} {q : Nat}
    (ht : Linked m par t) (hnd : (addrs t).Nodup) (hq : ptr t = some q) (par' : Option Nat) :
    ∃ m', setParent m q par' = some m' ∧ Linked m' par' t ∧ ∀ b, b ≠ q → m' b = m b := by
  cases t with
  | nil => cases hq
  | node l x r =>
    cases hq
    obtain ⟨hx, hl, hr⟩ := ht
    rw [addrs_node, List.nodup_middle, List.nodup_cons, List.mem_append, not_or] at hnd
    obtain ⟨⟨hxl, hxr⟩, -⟩ := hnd
    have hne : ∀ b, b ≠ x.1 → Function.update m x.1 (some ⟨par', ptr l, ptr r, x.2⟩) b = m b :=
      fun b hb => Function.update_of_ne hb _ _
    refine ⟨_, Memory.modify_eq hx _, ⟨Function.update_self .., ?_, ?_⟩, hne⟩
    · exact linked_congr (fun a ha => hne a fun he => hxl (he ▸ ha)) hl
    · exact linked_congr (fun a ha => hne a fun he => hxr (he ▸ ha)) hr

/-! ## Trees with a hole -/

/-- The address of the cell with the hole. -/
def above : List (Frame (Nat × α)) → Option Nat
  | [] => none
  | .left x _ :: _ => some x.1
  | .right _ x :: _ => some x.1

/-- The addresses of the cells around the hole. -/
def rimAddrs (path : List (Frame (Nat × α))) : List Nat := (rim path).map Prod.fst

def Around (m : CellMem α) : List (Frame (Nat × α)) → Option Nat → Prop
  | [], _ => True
  | .left x r :: up, q =>
    m x.1 = some ⟨above up, q, ptr r, x.2⟩ ∧ Linked m (some x.1) r ∧ Around m up (some x.1)
  | .right l x :: up, q =>
    m x.1 = some ⟨above up, ptr l, q, x.2⟩ ∧ Linked m (some x.1) l ∧ Around m up (some x.1)

theorem rimAddrs_left (x : Nat × α) (r : SearchTree (Nat × α)) (up : List (Frame (Nat × α))) :
    rimAddrs (.left x r :: up) = x.1 :: (addrs r ++ rimAddrs up) := by
  simp [rimAddrs, rim, addrs]

theorem rimAddrs_right (l : SearchTree (Nat × α)) (x : Nat × α) (up : List (Frame (Nat × α))) :
    rimAddrs (.right l x :: up) = x.1 :: (addrs l ++ rimAddrs up) := by
  simp [rimAddrs, rim, addrs]

theorem addrs_fill (path : List (Frame (Nat × α))) (t : SearchTree (Nat × α)) :
    (addrs (fill path t)).Perm (addrs t ++ rimAddrs path) := by
  rw [addrs, addrs, rimAddrs, ← List.map_append]
  exact (perm_fill path t).map _

theorem mem_rimAddrs_of_above {path : List (Frame (Nat × α))} {p : Nat} (h : above path = some p) :
    p ∈ rimAddrs path := by
  cases path with
  | nil => cases h
  | cons f up =>
    cases f with
    | left x r =>
      cases h
      simp [rimAddrs_left]
    | right l x =>
      cases h
      simp [rimAddrs_right]

/-- The root is above the hole, whatever the hole holds. -/
theorem ptr_fill (f : Frame (Nat × α)) (up : List (Frame (Nat × α))) (t t' : SearchTree (Nat × α)) :
    ptr (fill (f :: up) t) = ptr (fill (f :: up) t') := by
  induction up generalizing f t t' with
  | nil => cases f <;> rfl
  | cons g up ih => cases f <;> exact ih g _ _

theorem linked_fill {m : CellMem α} (path : List (Frame (Nat × α))) (t : SearchTree (Nat × α)) :
    Linked m none (fill path t) ↔ Linked m (above path) t ∧ Around m path (ptr t) := by
  induction path generalizing t with
  | nil => simp [fill, above, Around]
  | cons f up ih =>
    cases f with
    | left x r =>
      rw [fill, ih, Linked, Around, above, ptr]
      tauto
    | right l x =>
      rw [fill, ih, Linked, Around, above, ptr]
      tauto

theorem around_congr {m m' : CellMem α} {path : List (Frame (Nat × α))} {q : Option Nat}
    (h : ∀ a ∈ rimAddrs path, m' a = m a) (hp : Around m path q) : Around m' path q := by
  induction path generalizing q with
  | nil => exact trivial
  | cons f up ih =>
    cases f with
    | left x r =>
      rw [rimAddrs_left] at h
      obtain ⟨hx, hr, hup⟩ := hp
      refine ⟨(h _ List.mem_cons_self).trans hx, linked_congr (fun a ha => h a ?_) hr,
        ih (fun a ha => h a ?_) hup⟩
      · simp [ha]
      · simp [ha]
    | right l x =>
      rw [rimAddrs_right] at h
      obtain ⟨hx, hl, hup⟩ := hp
      refine ⟨(h _ List.mem_cons_self).trans hx, linked_congr (fun a ha => h a ?_) hl,
        ih (fun a ha => h a ?_) hup⟩
      · simp [ha]
      · simp [ha]

/-! ## Filling the hole -/

/-- The address in the frame. -/
def addr : Frame (Nat × α) → Nat
  | .left x _ => x.1
  | .right _ x => x.1

/-- Writes the pointer on the side of the hole. -/
def setChild (m : CellMem α) : Frame (Nat × α) → Option Nat → Option (CellMem α)
  | .left x _, q => setLeft m x.1 q
  | .right _ x, q => setRight m x.1 q

theorem above_cons (f : Frame (Nat × α)) (up : List (Frame (Nat × α))) :
    above (f :: up) = some (addr f) := by
  cases f <;> rfl

theorem change_child {m : CellMem α} {f : Frame (Nat × α)} {up : List (Frame (Nat × α))}
    {q : Option Nat} (h : Around m (f :: up) q) (hnd : (rimAddrs (f :: up)).Nodup) (q' : Option Nat) :
    ∃ m', setChild m f q' = some m' ∧ Around m' (f :: up) q' ∧ ∀ b, b ≠ addr f → m' b = m b := by
  cases f with
  | left x r =>
    obtain ⟨hx, hr, hup⟩ := h
    rw [rimAddrs_left, List.nodup_cons, List.mem_append, not_or] at hnd
    obtain ⟨⟨hxr, hxup⟩, -⟩ := hnd
    have hne : ∀ b, b ≠ x.1 → Function.update m x.1 (some ⟨above up, q', ptr r, x.2⟩) b = m b :=
      fun b hb => Function.update_of_ne hb _ _
    refine ⟨_, Memory.modify_eq hx _, ⟨Function.update_self .., ?_, ?_⟩, hne⟩
    · exact linked_congr (fun a ha => hne a fun he => hxr (he ▸ ha)) hr
    · exact around_congr (fun a ha => hne a fun he => hxup (he ▸ ha)) hup
  | right l x =>
    obtain ⟨hx, hl, hup⟩ := h
    rw [rimAddrs_right, List.nodup_cons, List.mem_append, not_or] at hnd
    obtain ⟨⟨hxl, hxup⟩, -⟩ := hnd
    have hne : ∀ b, b ≠ x.1 → Function.update m x.1 (some ⟨above up, ptr l, q', x.2⟩) b = m b :=
      fun b hb => Function.update_of_ne hb _ _
    refine ⟨_, Memory.modify_eq hx _, ⟨Function.update_self .., ?_, ?_⟩, hne⟩
    · exact linked_congr (fun a ha => hne a fun he => hxl (he ▸ ha)) hl
    · exact around_congr (fun a ha => hne a fun he => hxup (he ▸ ha)) hup

/-- Both ends of the link from the hole to the cell `q`. -/
def attach (m : CellMem α) (f : Frame (Nat × α)) (q : Nat) : Option (CellMem α) := do
  setParent (← setChild m f (some q)) q (some (addr f))

theorem attach_spec {m : CellMem α} {f : Frame (Nat × α)} {up : List (Frame (Nat × α))}
    {q₀ par : Option Nat} {t : SearchTree (Nat × α)} {q : Nat} (hup : Around m (f :: up) q₀)
    (ht : Linked m par t) (hq : ptr t = some q) (hnd : (addrs t ++ rimAddrs (f :: up)).Nodup) :
    ∃ m', attach m f q = some m' ∧ Linked m' none (fill (f :: up) t) ∧
      ∀ b, b ∉ addrs t ++ rimAddrs (f :: up) → m' b = m b := by
  obtain ⟨hndt, hndp, hdisj⟩ := List.nodup_append'.mp hnd
  have hf : addr f ∈ rimAddrs (f :: up) := mem_rimAddrs_of_above (above_cons f up)
  have hqt := mem_addrs_of_ptr hq
  obtain ⟨m₁, h₁, hup₁, heq₁⟩ := change_child hup hndp (some q)
  have ht₁ : Linked m₁ par t := linked_congr (fun a ha => heq₁ a fun he => hdisj ha (he ▸ hf)) ht
  obtain ⟨m₂, h₂, ht₂, heq₂⟩ := change_parent ht₁ hndt hq (some (addr f))
  have hup₂ : Around m₂ (f :: up) (some q) :=
    around_congr (fun a ha => heq₂ a fun he => hdisj (he ▸ hqt) ha) hup₁
  refine ⟨m₂, by rw [attach, h₁]; exact h₂, ?_, fun b hb => ?_⟩
  · rw [linked_fill, above_cons, hq]
    exact ⟨ht₂, hup₂⟩
  · rw [List.mem_append, not_or] at hb
    rw [heq₂ b fun he => hb.1 (he ▸ hqt), heq₁ b fun he => hb.2 (he ▸ hf)]

/-! ## Sides -/

/-- The cell with its children exchanged. -/
def swap (c : Cell α) : Cell α := { c with left := c.right, right := c.left }

/-- The memory with the children of every cell exchanged. -/
def swapped (m : CellMem α) : CellMem α := fun a => (m a).map swap

theorem ptr_mirror (t : SearchTree (Nat × α)) : ptr (mirror t) = ptr t := by
  cases t <;> rfl

theorem addrs_mirror (t : SearchTree (Nat × α)) : addrs (mirror t) = (addrs t).reverse := by
  rw [addrs, toList_mirror, List.map_reverse]
  rfl

theorem linked_mirror {m : CellMem α} {par : Option Nat} {t : SearchTree (Nat × α)}
    (ht : Linked m par t) : Linked (swapped m) par (mirror t) := by
  induction t generalizing par with
  | nil => exact trivial
  | node l x r ihl ihr =>
    obtain ⟨hx, hl, hr⟩ := ht
    refine ⟨?_, ihr hr, ihl hl⟩
    simp [swapped, hx, swap, ptr_mirror]

end LinkedTree
end Sighttpd
