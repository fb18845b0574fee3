import Mathlib.Data.Set.Finite.Lemmas
import Mathlib.Order.Lattice.Nat
import Sighttpd.Core.Memory

/-!
# Ownership of what is allocated

`Changes m m' old new` says what a piece of code does to a memory of which it owns the addresses
`old`: afterwards it owns `new`, what is new was free before, what is given up is free now, and
nothing else has changed. A heap has one memory for each kind of object, and an address of the
heap is free when no kind has anything there.

* `Changes.trans`, `Changes.frame`, `Changes.keeps`: one piece of code after another, and what
  someone else owns.
* `Heap.changes_one`: one of many owners runs, and everything is still owned by one of them.
* `Heap.Changes.balance`: who owns nothing before and after has changed nothing.
* `firstFit_fresh`: an allocator.
-/
namespace Sighttpd

namespace Memory
variable {β : Type}

structure Changes (m m' : Memory β) (old new : Set Nat) : Prop where
  same : ∀ a, a ∉ old → a ∉ new → m' a = m a
  taken : ∀ a, a ∉ old → a ∈ new → m a = none
  freed : ∀ a, a ∈ old → a ∉ new → m' a = none

/-- Everything in `own` is allocated. -/
def Allocated (m : Memory β) (own : Set Nat) : Prop := ∀ a ∈ own, m a ≠ none

section Rules
variable {m m₁ m₂ m' : Memory β} {A B C D : Set Nat}

theorem Changes.refl (m : Memory β) (own : Set Nat) : Changes m m own own :=
  ⟨fun _ _ _ => rfl, fun _ h h' => absurd h' h, fun _ h h' => absurd h h'⟩

theorem Changes.trans (h₁ : Changes m m₁ A B) (h₂ : Changes m₁ m₂ B C) : Changes m m₂ A C := by
  refine ⟨fun a ha hc => ?_, fun a ha hc => ?_, fun a ha hc => ?_⟩ <;> by_cases hb : a ∈ B
  · rw [h₂.freed a hb hc, h₁.taken a ha hb]
  · rw [h₂.same a hb hc, h₁.same a ha hb]
  · exact h₁.taken a ha hb
  · rw [← h₁.same a ha hb]
    exact h₂.taken a hb hc
  · exact h₂.freed a hb hc
  · rw [h₂.same a hb hc]
    exact h₁.freed a ha hb

/-- Owning more changes nothing about what is done. -/
theorem Changes.frame (h : Changes m m' A B) (D : Set Nat) : Changes m m' (A ∪ D) (B ∪ D) := by
  refine ⟨fun a ha hb => ?_, fun a ha hb => ?_, fun a ha hb => ?_⟩
  · rw [Set.mem_union, not_or] at ha hb
    exact h.same a ha.1 hb.1
  · rw [Set.mem_union, not_or] at ha
    exact h.taken a ha.1 (hb.resolve_right ha.2)
  · rw [Set.mem_union, not_or] at hb
    exact h.freed a (ha.resolve_right hb.2) hb.1

/-- What is taken is apart from what someone else owns. -/
theorem Changes.apart (h : Changes m m' A B) (hd : Allocated m D) (hap : ∀ a ∈ A, a ∉ D) :
    ∀ a ∈ B, a ∉ D := by
  intro a hb hda
  exact hd a hda (h.taken a (fun ha => hap a ha hda) hb)

/-- What someone else owns stays as it is. -/
theorem Changes.keeps (h : Changes m m' A B) (hd : Allocated m D) (hap : ∀ a ∈ A, a ∉ D) :
    ∀ a ∈ D, m' a = m a := by
  intro a hda
  exact h.same a (fun ha => hap a ha hda) fun hb => h.apart hd hap a hb hda

end Rules

theorem changes_alloc {m : Memory β} {n : Nat} (hn : m n = none) (c : β) :
    Changes m (m.alloc n c) ∅ {n} := by
  refine ⟨fun a _ ha => alloc_of_ne c ha, fun a _ ha => ?_, fun a ha => absurd ha (Set.notMem_empty a)⟩
  obtain rfl := Set.mem_singleton_iff.mp ha
  exact hn

theorem changes_free (m : Memory β) (n : Nat) : Changes m (m.free n) {n} ∅ := by
  refine ⟨fun a ha _ => free_of_ne ha, fun a _ ha => absurd ha (Set.notMem_empty a), fun a ha _ => ?_⟩
  obtain rfl := Set.mem_singleton_iff.mp ha
  exact free_self m a

/-- Writes to what is owned. -/
theorem changes_write {m m' : Memory β} {own : Set Nat} (h : ∀ a, a ∉ own → m' a = m a) :
    Changes m m' own own :=
  ⟨fun a ha _ => h a ha, fun _ ha ha' => absurd ha' ha, fun _ ha ha' => absurd ha ha'⟩

end Memory

/-! ## Heaps -/

/-- A memory for each kind of object. -/
abbrev Heap (κ : Type) (β : κ → Type) := (k : κ) → Memory (β k)

namespace Heap
variable {κ ι : Type} {β : κ → Type}

/-- The addresses someone owns, of each kind. -/
abbrev Own (κ : Type) := κ → Set Nat

def Changes (h h' : Heap κ β) (old new : Own κ) : Prop :=
  ∀ k, Memory.Changes (h k) (h' k) (old k) (new k)

def Allocated (h : Heap κ β) (own : Own κ) : Prop := ∀ k, Memory.Allocated (h k) (own k)

/-- Nothing is allocated at the address. -/
def Free (h : Heap κ β) (a : Nat) : Prop := ∀ k, h k a = none

/-- There are finitely many objects. -/
def Bounded (h : Heap κ β) : Prop := {a | ¬ Free h a}.Finite

section Rules
variable {h h₁ h₂ h' : Heap κ β} {A B C : Own κ}

theorem Changes.refl (h : Heap κ β) (own : Own κ) : Changes h h own own :=
  fun k => Memory.Changes.refl (h k) (own k)

theorem Changes.trans (h₁₂ : Changes h h₁ A B) (h₂₃ : Changes h₁ h₂ B C) : Changes h h₂ A C :=
  fun k => (h₁₂ k).trans (h₂₃ k)

theorem Changes.balance (hc : Changes h h' (fun _ => ∅) fun _ => ∅) : h' = h :=
  funext fun k => funext fun a => (hc k).same a (Set.notMem_empty a) (Set.notMem_empty a)

theorem Changes.bounded [Finite κ] (hc : Changes h h' A B) (hb : Bounded h)
    (hB : ∀ k, (B k).Finite) : Bounded h' := by
  refine Set.Finite.subset (hb.union (Set.finite_iUnion hB)) fun a ha => ?_
  obtain ⟨k, hk⟩ := not_forall.mp ha
  by_cases hmem : a ∈ B k
  · exact Or.inr (Set.mem_iUnion.mpr ⟨k, hmem⟩)
  · have hold : a ∉ A k := fun hA => hk ((hc k).freed a hA hmem)
    exact Or.inl fun hfree => hk (((hc k).same a hold hmem).trans (hfree k))

end Rules

/-! ## Many owners -/

/-- Nobody owns what another one owns. -/
def Apart (own : ι → Own κ) : Prop := ∀ i j, i ≠ j → ∀ k, ∀ a ∈ own i k, a ∉ own j k

/-- What is owned by anyone. -/
def together (own : ι → Own κ) : Own κ := fun k => {a | ∃ i, a ∈ own i k}

/-- The owner `i` has run, and owns `new` now. -/
theorem changes_one [DecidableEq ι] {h h' : Heap κ β} {own : ι → Own κ} {i : ι} {new : Own κ}
    (hap : Apart own) (hall : ∀ j, Allocated h (own j)) (hc : Changes h h' (own i) new) :
    Apart (Function.update own i new) ∧
      Changes h h' (together own) (together (Function.update own i new)) ∧
      ∀ j, j ≠ i → ∀ k, ∀ a ∈ own j k, h' k a = h k a := by
  have hnew : ∀ j, j ≠ i → ∀ k, ∀ a ∈ new k, a ∉ own j k :=
    fun j hj k => (hc k).apart (hall j k) (hap i j (Ne.symm hj) k)
  refine ⟨fun j l hjl k a ha hl => ?_, fun k => ?_,
    fun j hj k => (hc k).keeps (hall j k) (hap i j (Ne.symm hj) k)⟩
  · by_cases hj : j = i
    · subst hj
      rw [Function.update_self] at ha
      rw [Function.update_of_ne (Ne.symm hjl)] at hl
      exact hnew l (Ne.symm hjl) k a ha hl
    · rw [Function.update_of_ne hj] at ha
      by_cases hli : l = i
      · subst hli
        rw [Function.update_self] at hl
        exact hnew j hj k a hl ha
      · rw [Function.update_of_ne hli] at hl
        exact hap j l hjl k a ha hl
  · -- the others are the frame
    have hframe := (hc k).frame {a | ∃ j, j ≠ i ∧ a ∈ own j k}
    have hold : own i k ∪ {a | ∃ j, j ≠ i ∧ a ∈ own j k} = together own k := by
      ext a
      constructor
      · rintro (ha | ⟨j, -, ha⟩)
        · exact ⟨i, ha⟩
        · exact ⟨j, ha⟩
      · rintro ⟨j, ha⟩
        by_cases hj : j = i
        · exact Or.inl (hj ▸ ha)
        · exact Or.inr ⟨j, hj, ha⟩
    have hnow : new k ∪ {a | ∃ j, j ≠ i ∧ a ∈ own j k} = together (Function.update own i new) k := by
      ext a
      constructor
      · rintro (ha | ⟨j, hj, ha⟩)
        · exact ⟨i, by rwa [Function.update_self]⟩
        · exact ⟨j, by rwa [Function.update_of_ne hj]⟩
      · rintro ⟨j, ha⟩
        by_cases hj : j = i
        · subst hj
          rw [Function.update_self] at ha
          exact Or.inl ha
        · rw [Function.update_of_ne hj] at ha
          exact Or.inr ⟨j, hj, ha⟩
    rwa [hold, hnow] at hframe

/-! ## An allocator -/

/-- The lowest address that is free. -/
noncomputable def firstFit (h : Heap κ β) : Nat := sInf {a | Free h a}

theorem firstFit_fresh {h : Heap κ β} (hb : Bounded h) : Free h (firstFit h) := by
  obtain ⟨a, ha⟩ := hb.exists_notMem
  have hne : Set.Nonempty {a | Free h a} := ⟨a, by_contra fun hn => ha hn⟩
  exact Nat.sInf_mem hne

end Heap
end Sighttpd
