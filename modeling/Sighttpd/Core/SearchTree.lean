import Mathlib.Data.List.Basic
import Mathlib.Data.List.Perm.Basic

/-!
# Binary trees walked by a comparison

The walk through the tree is steered by a function `c` of the datum at each node,
the sign of the comparison of a key with that datum. Nothing is assumed about `c`,
so that `find` and `insert` may be steered by different comparisons.

* `find_insert_same`, `find_insert_astray`: a datum inserted along the way its key
  is looked for is found there, and one inserted along another way is not.
* `find_insert_other`: other keys are looked for as before.
* `toList_insert`, `map_toList_update`: what is stored.
* `mirror`, `Straight`: the sides of the nodes.
-/
namespace Sighttpd

inductive SearchTree (α : Type) where
  | nil
  | node (left : SearchTree α) (data : α) (right : SearchTree α)
  deriving Repr

namespace SearchTree
variable {α β : Type}

def toList : SearchTree α → List α
  | nil => []
  | node l d r => l.toList ++ d :: r.toList

def find (c : α → Int) : SearchTree α → Option α
  | nil => none
  | node l d r => if c d = 0 then some d else if c d < 0 then find c l else find c r

/-- A new leaf for `x`, to the left of the nodes with a negative comparison. -/
def insert (c : α → Int) (x : α) : SearchTree α → SearchTree α
  | nil => node nil x nil
  | node l d r => if c d < 0 then node (insert c x l) d r else node l d (insert c x r)

/-- Applies `f` to the datum that `find` returns. -/
def update (c : α → Int) (f : α → α) : SearchTree α → SearchTree α
  | nil => nil
  | node l d r =>
    if c d = 0 then node l (f d) r
    else if c d < 0 then node (update c f l) d r else node l d (update c f r)

/-- `c'` turns the same way as `c` at every node `find c` passes. -/
def SameWay (c c' : α → Int) : SearchTree α → Prop
  | nil => True
  | node l d r =>
    if c d = 0 then True
    else if c d < 0 then c' d < 0 ∧ SameWay c c' l else ¬ c' d < 0 ∧ SameWay c c' r

def decidableSameWay (c c' : α → Int) : (t : SearchTree α) → Decidable (SameWay c c' t)
  | nil => isTrue trivial
  | node l d r =>
    have := decidableSameWay c c' l
    have := decidableSameWay c c' r
    inferInstanceAs (Decidable (if c d = 0 then True
      else if c d < 0 then c' d < 0 ∧ SameWay c c' l else ¬ c' d < 0 ∧ SameWay c c' r))

instance (c c' : α → Int) (t : SearchTree α) : Decidable (SameWay c c' t) := decidableSameWay c c' t

/-! ## Looking up after an insertion -/

theorem find_insert_same {c c' : α → Int} {x : α} (hx : c x = 0) {t : SearchTree α}
    (hnew : find c t = none) (hway : SameWay c c' t) : find c (insert c' x t) = some x := by
  induction t with
  | nil => simp [insert, find, hx]
  | node l d r ihl ihr =>
    by_cases h0 : c d = 0
    · simp [find, h0] at hnew
    by_cases hlt : c d < 0
    · simp only [find, SameWay, h0, hlt, if_true, if_false] at hnew hway
      rw [insert, if_pos hway.1, find, if_neg h0, if_pos hlt]
      exact ihl hnew hway.2
    · simp only [find, SameWay, h0, hlt, if_false] at hnew hway
      rw [insert, if_neg hway.1, find, if_neg h0, if_neg hlt]
      exact ihr hnew hway.2

/-- The new leaf is not on the way, and the way has not changed. -/
theorem find_insert_astray {c c' : α → Int} {x : α} {t : SearchTree α}
    (hnew : find c t = none) (hway : ¬ SameWay c c' t) : find c (insert c' x t) = none := by
  induction t with
  | nil => exact absurd trivial hway
  | node l d r ihl ihr =>
    by_cases h0 : c d = 0
    · simp [find, h0] at hnew
    by_cases hlt : c d < 0
    · simp only [find, SameWay, h0, hlt, if_true, if_false, not_and] at hnew hway
      by_cases h' : c' d < 0
      · rw [insert, if_pos h', find, if_neg h0, if_pos hlt]
        exact ihl hnew (hway h')
      · rw [insert, if_neg h', find, if_neg h0, if_pos hlt]
        exact hnew
    · simp only [find, SameWay, h0, hlt, if_false, not_and] at hnew hway
      by_cases h' : c' d < 0
      · rw [insert, if_pos h', find, if_neg h0, if_neg hlt]
        exact hnew
      · rw [insert, if_neg h', find, if_neg h0, if_neg hlt]
        exact ihr hnew (hway h')

theorem find_insert_other {c c' : α → Int} {x : α} (hx : c x ≠ 0) (t : SearchTree α) :
    find c (insert c' x t) = find c t := by
  induction t with
  | nil => simp [insert, find, hx]
  | node l d r ihl ihr =>
    by_cases h' : c' d < 0
    · rw [insert, if_pos h', find, find, ihl]
    · rw [insert, if_neg h', find, find, ihr]

/-! ## Looking up after an update -/

theorem find_update_same {c : α → Int} {f : α → α} (hf : ∀ d, c (f d) = c d) (t : SearchTree α) :
    find c (update c f t) = (find c t).map f := by
  induction t with
  | nil => rfl
  | node l d r ihl ihr =>
    by_cases h0 : c d = 0
    · simp [update, find, h0, hf]
    · by_cases hlt : c d < 0 <;> simp [update, find, h0, hlt, ihl, ihr]

theorem find_update_other {c c' : α → Int} {f : α → α} (hf : ∀ d, c' (f d) = c' d)
    (hne : ∀ d, c d = 0 → c' d ≠ 0) (t : SearchTree α) : find c' (update c f t) = find c' t := by
  induction t with
  | nil => rfl
  | node l d r ihl ihr =>
    by_cases h0 : c d = 0
    · simp [update, find, h0, hf, hne d h0]
    · by_cases hlt : c d < 0 <;> simp [update, find, h0, hlt, ihl, ihr]

/-! ## What is stored -/

theorem toList_insert (c : α → Int) (x : α) (t : SearchTree α) :
    (insert c x t).toList.Perm (x :: t.toList) := by
  induction t with
  | nil => exact List.Perm.refl _
  | node l d r ihl ihr =>
    rw [insert]
    split
    · exact ihl.append_right _
    · exact ((ihr.cons d).append_left l.toList).trans
        (((List.Perm.swap x d r.toList).append_left l.toList).trans List.perm_middle)

theorem map_toList_update {c : α → Int} {f : α → α} {g : α → β} (hg : ∀ d, g (f d) = g d)
    (t : SearchTree α) : (update c f t).toList.map g = t.toList.map g := by
  induction t with
  | nil => rfl
  | node l d r ihl ihr =>
    rw [update]
    split
    · simp [toList, hg]
    · split <;> simp [toList, ihl, ihr]

/-! ## Sides -/

/-- The tree with left and right exchanged at every node. -/
def mirror : SearchTree α → SearchTree α
  | nil => nil
  | node l d r => node (mirror r) d (mirror l)

theorem toList_mirror (t : SearchTree α) : (mirror t).toList = t.toList.reverse := by
  induction t with
  | nil => rfl
  | node l d r ihl ihr => simp [mirror, toList, ihl, ihr]

/-- The root has no right child. -/
def rightless : SearchTree α → Prop
  | nil => True
  | node _ _ r => r = nil

/-- No left child has a right child. -/
def Straight : SearchTree α → Prop
  | nil => True
  | node l _ r => rightless l ∧ Straight l ∧ Straight r

end SearchTree
end Sighttpd
