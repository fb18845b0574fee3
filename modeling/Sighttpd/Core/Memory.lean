import Mathlib.Data.Set.Finite.Lemmas
import Mathlib.Order.Lattice.Nat
import Mathlib.Logic.Function.Basic

/-!
# Memory

A memory maps addresses to what is allocated there, and a write changes one place. A
write to an address where nothing is allocated is undefined. A memory where only finitely
much is allocated has a free address.
-/
namespace Sighttpd

/-- `none` where nothing is allocated. -/
abbrev Memory (β : Type) := Nat → Option β

namespace Memory
variable {β : Type}

def modify (m : Memory β) (p : Nat) (f : β → β) : Option (Memory β) :=
  (m p).map fun c => Function.update m p (some (f c))

theorem modify_eq {m : Memory β} {p : Nat} {c : β} (h : m p = some c) (f : β → β) :
    modify m p f = some (Function.update m p (some (f c))) := by
  rw [modify, h]
  rfl

/-- A new object at the address `n`. -/
def alloc (m : Memory β) (n : Nat) (c : β) : Memory β := Function.update m n (some c)

theorem alloc_self (m : Memory β) (n : Nat) (c : β) : alloc m n c n = some c :=
  Function.update_self ..

theorem alloc_of_ne {m : Memory β} {n b : Nat} (c : β) (h : b ≠ n) : alloc m n c b = m b :=
  Function.update_of_ne h _ _

theorem alloc_alloc (m : Memory β) (n : Nat) (c c' : β) :
    alloc (alloc m n c) n c' = alloc m n c' := Function.update_idem ..

/-- Without the object at the address `n`. -/
def free (m : Memory β) (n : Nat) : Memory β := Function.update m n none

theorem free_self (m : Memory β) (n : Nat) : free m n n = none := Function.update_self ..

theorem free_of_ne {m : Memory β} {n b : Nat} (h : b ≠ n) : free m n b = m b :=
  Function.update_of_ne h _ _

/-! ## Free addresses -/

/-- Only finitely much is allocated. -/
def Bounded (m : Memory β) : Prop := {a | m a ≠ none}.Finite

theorem bounded_empty : Bounded (fun _ => none : Memory β) := by
  unfold Bounded
  simp

/-- What changes only at `as` stays bounded. -/
theorem Bounded.change {m m' : Memory β} (h : Bounded m) (as : List Nat)
    (heq : ∀ a, a ∉ as → m' a = m a) : Bounded m' := by
  refine (h.union as.finite_toSet).subset fun a ha => ?_
  by_cases hm : a ∈ as
  · exact .inr hm
  · have hne : m a ≠ none := by rwa [← heq a hm]
    exact .inl hne

/-- The lowest address that is free. -/
noncomputable def firstFit (m : Memory β) : Nat := sInf {a | m a = none}

theorem Bounded.firstFit {m : Memory β} (h : Bounded m) : m (firstFit m) = none := by
  obtain ⟨a, ha⟩ := h.exists_notMem
  have hne : Set.Nonempty {a | m a = none} := ⟨a, by_contra fun hn => ha hn⟩
  exact Nat.sInf_mem hne

/-- The address `a`, unless it is taken. -/
noncomputable def prefer (a : Nat) (m : Memory β) : Nat := if m a = none then a else m.firstFit

theorem Bounded.prefer {m : Memory β} (h : Bounded m) (a : Nat) : m (prefer a m) = none := by
  unfold Memory.prefer
  split
  · assumption
  · exact h.firstFit

end Memory
end Sighttpd
