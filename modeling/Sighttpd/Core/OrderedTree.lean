import Sighttpd.Core.SearchTree

/-!
# Removal from a search tree, and the order

A node is removed by hanging its right subtree below the last node of its left one
(`hang`). A place in a tree is a path of frames, the innermost one first, and `fill`
puts a subtree there: a removal changes one place and nothing around it (`find_path`).

* `perm_remove`: a removal takes out what `find` returns.
* `ordered_insert`, `ordered_remove`: the order is kept.
* `find_eq_none_iff`: in an ordered tree the walk misses nothing.
-/
namespace Sighttpd

/-- `cmp` is the sign of a comparison by a total preorder. -/
structure TotalPreorder {α : Type} (cmp : α → α → Int) : Prop where
  swap : ∀ x y, cmp x y < 0 ↔ 0 < cmp y x
  trans : ∀ x y z, cmp x y ≤ 0 → cmp y z ≤ 0 → cmp x z ≤ 0

theorem TotalPreorder.le_swap {α : Type} {cmp : α → α → Int} (hc : TotalPreorder cmp) {x y : α} :
    0 ≤ cmp x y ↔ cmp y x ≤ 0 := by
  have h := hc.swap x y
  omega

namespace SearchTree
variable {α : Type}

/-- Hangs `r` below the last node of the tree. -/
def hang : SearchTree α → SearchTree α → SearchTree α
  | nil, r => r
  | node a d b, r => node a d (hang b r)

/-- Takes out the node that `find` returns. -/
def remove (c : α → Int) : SearchTree α → SearchTree α
  | nil => nil
  | node l d r =>
    if c d = 0 then hang l r else if c d < 0 then node (remove c l) d r else node l d (remove c r)

/-! ## Places in a tree -/

/-- One step of the way back from a place: the node above it and its other subtree. -/
inductive Frame (α : Type) where
  | left (data : α) (right : SearchTree α)
  | right (left : SearchTree α) (data : α)

/-- The tree with `t` at the place that `path` leads back from. -/
def fill : List (Frame α) → SearchTree α → SearchTree α
  | [], t => t
  | .left d r :: up, t => fill up (node t d r)
  | .right l d :: up, t => fill up (node l d t)

theorem fill_append (p q : List (Frame α)) (t : SearchTree α) :
    fill (p ++ q) t = fill q (fill p t) := by
  induction p generalizing t with
  | nil => rfl
  | cons f p ih => cases f <;> exact ih _

/-- The data on the way and beside it. -/
def rim : List (Frame α) → List α
  | [] => []
  | .left d r :: up => d :: (r.toList ++ rim up)
  | .right l d :: up => d :: (l.toList ++ rim up)

theorem perm_fill (path : List (Frame α)) (t : SearchTree α) :
    (fill path t).toList.Perm (t.toList ++ rim path) := by
  induction path generalizing t with
  | nil => simp [fill, rim]
  | cons f up ih =>
    cases f with
    | left d r =>
      refine (ih _).trans ?_
      simp [toList, rim]
    | right l d =>
      refine (ih _).trans ?_
      simp only [toList, rim, List.append_assoc, List.cons_append]
      exact List.perm_middle.trans
        (((List.perm_append_comm_assoc _ _ _).cons d).trans List.perm_middle.symm)

theorem find_path {c : α → Int} {x : α} {t : SearchTree α} (h : find c t = some x) :
    ∃ path l r, t = fill path (node l x r) ∧ remove c t = fill path (hang l r) := by
  induction t with
  | nil => cases h
  | node l d r ihl ihr =>
    rw [find] at h
    rw [remove]
    by_cases h0 : c d = 0
    · rw [if_pos h0] at h ⊢
      cases h
      exact ⟨[], l, r, rfl, rfl⟩
    rw [if_neg h0] at h ⊢
    by_cases hlt : c d < 0
    · rw [if_pos hlt] at h ⊢
      obtain ⟨path, a, b, hl, hrem⟩ := ihl h
      refine ⟨path ++ [.left d r], a, b, ?_, ?_⟩
      · rw [fill_append, ← hl]
        rfl
      · rw [fill_append, ← hrem]
        rfl
    · rw [if_neg hlt] at h ⊢
      obtain ⟨path, a, b, hr, hrem⟩ := ihr h
      refine ⟨path ++ [.right l d], a, b, ?_, ?_⟩
      · rw [fill_append, ← hr]
        rfl
      · rw [fill_append, ← hrem]
        rfl

theorem straight_of_fill {path : List (Frame α)} {t : SearchTree α} (h : Straight (fill path t)) :
    Straight t := by
  induction path generalizing t with
  | nil => exact h
  | cons f up ih =>
    cases f with
    | left d r => exact (ih h).2.1
    | right l d => exact (ih h).2.2

/-! ## What is stored -/

theorem hang_nil (l : SearchTree α) : hang l nil = l := by
  induction l with
  | nil => rfl
  | node a d b _ ih => rw [hang, ih]

theorem toList_hang (l r : SearchTree α) : (hang l r).toList = l.toList ++ r.toList := by
  induction l with
  | nil => rfl
  | node a d b _ ih => simp [hang, toList, ih]

theorem perm_remove {c : α → Int} {x : α} {t : SearchTree α} (h : find c t = some x) :
    t.toList.Perm (x :: (remove c t).toList) := by
  obtain ⟨path, l, r, ht, hrem⟩ := find_path h
  rw [hrem]
  refine (ht ▸ perm_fill path _).trans (.trans ?_ ((perm_fill path _).symm.cons x))
  rw [toList, toList_hang]
  simp

theorem remove_of_find_eq_none {c : α → Int} {t : SearchTree α} (h : find c t = none) :
    remove c t = t := by
  induction t with
  | nil => rfl
  | node l d r ihl ihr =>
    rw [find] at h
    rw [remove]
    split at h
    · cases h
    · split at h
      · simp [*]
      · simp [*]

theorem mem_of_find {c : α → Int} {x : α} {t : SearchTree α} (h : find c t = some x) :
    x ∈ t.toList := (perm_remove h).mem_iff.mpr List.mem_cons_self

theorem eq_zero_of_find {c : α → Int} {x : α} {t : SearchTree α} (h : find c t = some x) :
    c x = 0 := by
  induction t with
  | nil => cases h
  | node l d r ihl ihr =>
    rw [find] at h
    split at h
    · cases h; assumption
    · split at h
      · exact ihl h
      · exact ihr h

/-! ## Order -/

/-- At every node, less to the left and not less to the right. -/
def Ordered (cmp : α → α → Int) : SearchTree α → Prop
  | nil => True
  | node l d r =>
    (∀ x ∈ l.toList, cmp x d < 0) ∧ (∀ x ∈ r.toList, 0 ≤ cmp x d) ∧ Ordered cmp l ∧ Ordered cmp r

variable {cmp : α → α → Int}

theorem ordered_insert {x : α} {t : SearchTree α} (h : Ordered cmp t) :
    Ordered cmp (insert (cmp x) x t) := by
  induction t with
  | nil => simp [insert, Ordered, toList]
  | node l d r ihl ihr =>
    obtain ⟨hl, hr, hol, hor⟩ := h
    rw [insert]
    split
    next hlt =>
      refine ⟨fun y hy => ?_, hr, ihl hol, hor⟩
      rcases List.mem_cons.mp ((toList_insert _ _ _).mem_iff.mp hy) with rfl | hy
      · exact hlt
      · exact hl y hy
    next hge =>
      refine ⟨hl, fun y hy => ?_, hol, ihr hor⟩
      rcases List.mem_cons.mp ((toList_insert _ _ _).mem_iff.mp hy) with rfl | hy
      · omega
      · exact hr y hy

theorem ordered_hang {l r : SearchTree α} (hl : Ordered cmp l) (hr : Ordered cmp r)
    (hlr : ∀ x ∈ l.toList, ∀ y ∈ r.toList, 0 ≤ cmp y x) : Ordered cmp (hang l r) := by
  induction l with
  | nil => exact hr
  | node a d b _ ih =>
    obtain ⟨ha, hb, hoa, hob⟩ := hl
    refine ⟨ha, fun x hx => ?_, hoa, ih hob fun x hx => hlr x (by simp [toList, hx])⟩
    rw [toList_hang] at hx
    rcases List.mem_append.mp hx with hx | hx
    · exact hb x hx
    · exact hlr d (by simp [toList]) x hx

/-- Every datum to the left of a node is at most every one to the right. -/
theorem left_le_right (hc : TotalPreorder cmp) {l r : SearchTree α} {d : α}
    (h : Ordered cmp (node l d r)) : ∀ x ∈ l.toList, ∀ y ∈ r.toList, 0 ≤ cmp y x := by
  intro x hx y hy
  have hxd := h.1 x hx
  have hdy := hc.le_swap.mp (h.2.1 y hy)
  exact hc.le_swap.mpr (hc.trans x d y (by omega) hdy)

theorem pairwise_of_ordered (hc : TotalPreorder cmp) {t : SearchTree α} (h : Ordered cmp t) :
    t.toList.Pairwise fun x y => cmp x y ≤ 0 := by
  induction t with
  | nil => exact List.Pairwise.nil
  | node l d r ihl ihr =>
    have hlr := left_le_right hc h
    obtain ⟨hl, hr, hol, hor⟩ := h
    rw [toList, List.pairwise_append, List.pairwise_cons]
    refine ⟨ihl hol, ⟨fun y hy => hc.le_swap.mp (hr y hy), ihr hor⟩, fun x hx y hy => ?_⟩
    rcases List.mem_cons.mp hy with rfl | hy
    · exact Int.le_of_lt (hl x hx)
    · exact hc.le_swap.mp (hlr x hx y hy)

theorem ordered_remove (hc : TotalPreorder cmp) {c : α → Int} {t : SearchTree α}
    (h : Ordered cmp t) : Ordered cmp (remove c t) := by
  induction t with
  | nil => exact trivial
  | node l d r ihl ihr =>
    have hmem : ∀ {t : SearchTree α} {x}, x ∈ (remove c t).toList → x ∈ t.toList := by
      intro t x hx
      cases e : find c t with
      | none => rwa [remove_of_find_eq_none e] at hx
      | some y => exact (perm_remove e).mem_iff.mpr (List.mem_cons_of_mem y hx)
    have hlr := left_le_right hc h
    obtain ⟨hl, hr, hol, hor⟩ := h
    rw [remove]
    split
    · exact ordered_hang hol hor hlr
    · split
      · exact ⟨fun x hx => hl x (hmem hx), hr, ihl hol, hor⟩
      · exact ⟨hl, fun x hx => hr x (hmem hx), hol, ihr hor⟩

/-- A datum that compares equal to `k` is on the side the walk for `k` turns to. -/
theorem find_eq_none_iff (hc : TotalPreorder cmp) {k : α} {t : SearchTree α} (h : Ordered cmp t) :
    find (cmp k) t = none ↔ ∀ x ∈ t.toList, cmp k x ≠ 0 := by
  constructor
  · intro hf
    induction t with
    | nil => intro x hx; cases hx
    | node l d r ihl ihr =>
      obtain ⟨hl, hr, hol, hor⟩ := h
      rw [find] at hf
      split at hf
      · cases hf
      next h0 =>
      intro x hx hkx
      have hxk : cmp x k ≤ 0 := hc.le_swap.mp (by omega)
      simp only [toList, List.mem_append, List.mem_cons] at hx
      split at hf
      next hlt =>
        rcases hx with hx | rfl | hx
        · exact ihl hol hf x hx hkx
        · omega
        · -- `d ≤ x ≤ k`, but `k < d`
          have hdk := hc.trans d x k (hc.le_swap.mp (hr x hx)) hxk
          have := (hc.swap k d).mp hlt
          omega
      next hge =>
        rcases hx with hx | rfl | hx
        · -- `k ≤ x < d`, but `d < k`
          have hxd := hl x hx
          have hkd := hc.trans k x d (by omega) (by omega)
          omega
        · omega
        · exact ihr hor hf x hx hkx
  · intro hno
    cases e : find (cmp k) t with
    | none => rfl
    | some x => exact absurd (eq_zero_of_find e) (hno x (mem_of_find e))

end SearchTree
end Sighttpd
