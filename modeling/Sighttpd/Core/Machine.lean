/-!
# Machines driven by a list of labels

A machine is a partial step function: a label carries everything the outside
world decides (which call is made, with which arguments, what a system call
returned), `none` means that the label is not allowed in that state. A run is
the list of its labels.

* `Along P s ls`: `P` holds in `s` and in every state the run `ls` reaches.
* `Guarded C s ls`: every step the run takes meets `C`, a condition on the
  state before the step and the label.

`along_of_guarded` is the induction over runs: an invariant preserved by the steps
that meet `C` holds along every run guarded by `C`. `along_iff_guarded` adds the
converse for a `C` that is also necessary: a step that fails `C` leads to a state
without `P`. `guarded_congr` exchanges one condition for another. `exec_refines` is forward
simulation: a run of `M` is matched by one of another machine, its states related by a function.
`array` is machines of one kind side by side.
-/
namespace Sighttpd

structure Machine (S L : Type) where
  step : S → L → Option S

namespace Machine
variable {S L : Type} (M : Machine S L)

/-- The state a run ends in; `none` when some label is not allowed. -/
def exec : S → List L → Option S
  | s, [] => some s
  | s, l :: ls => (M.step s l).bind fun s' => exec s' ls

def Along (P : S → Prop) : S → List L → Prop
  | s, [] => P s
  | s, l :: ls => P s ∧ ∀ s', M.step s l = some s' → Along P s' ls

def Guarded (C : S → L → Prop) : S → List L → Prop
  | _, [] => True
  | s, l :: ls => ∀ s', M.step s l = some s' → C s l ∧ Guarded C s' ls

variable {M}

@[simp] theorem exec_nil (s : S) : M.exec s [] = some s := rfl

@[simp] theorem exec_cons (s : S) (l : L) (ls : List L) :
    M.exec s (l :: ls) = (M.step s l).bind fun s' => M.exec s' ls := rfl

theorem along_head {P : S → Prop} {s : S} {ls : List L} (h : M.Along P s ls) : P s := by
  cases ls with
  | nil => exact h
  | cons l ls => exact h.1

theorem exec_append (s : S) (ls ls' : List L) :
    M.exec s (ls ++ ls') = (M.exec s ls).bind fun s' => M.exec s' ls' := by
  induction ls generalizing s with
  | nil => rfl
  | cons l ls ih =>
    rw [List.cons_append, exec_cons, exec_cons]
    cases M.step s l with
    | none => rfl
    | some s₁ => exact ih s₁

/-- What a guarded run ends with is guarded in the state it starts from. -/
theorem guarded_exec {C : S → L → Prop} {s s' : S} {ls ls' : List L}
    (hg : M.Guarded C s (ls ++ ls')) (he : M.exec s ls = some s') : M.Guarded C s' ls' := by
  induction ls generalizing s with
  | nil => cases he; exact hg
  | cons l ls ih =>
    obtain ⟨s₁, h₁, he⟩ := Option.bind_eq_some_iff.mp he
    exact ih (hg s₁ h₁).2 he

/-- The front of a guarded run is guarded. -/
theorem guarded_left {C : S → L → Prop} {s : S} {ls ls' : List L} (hg : M.Guarded C s (ls ++ ls')) :
    M.Guarded C s ls := by
  induction ls generalizing s with
  | nil => trivial
  | cons l ls ih =>
    intro s' hs
    obtain ⟨hc, hg⟩ := hg s' hs
    exact ⟨hc, ih hg⟩

/-- An invariant that the steps meeting `C` preserve holds along a run of such steps. -/
theorem along_of_guarded {I P : S → Prop} {C : S → L → Prop} (inv : ∀ s, I s → P s)
    (step : ∀ s l s', I s → C s l → M.step s l = some s' → I s') {ls : List L} :
    ∀ {s : S}, I s → M.Guarded C s ls → M.Along P s ls := by
  induction ls with
  | nil => intro s hi _; exact inv s hi
  | cons l ls ih =>
    intro s hi hg
    refine ⟨inv s hi, fun s' hs => ?_⟩
    obtain ⟨hc, hg⟩ := hg s' hs
    exact ih (step s l s' hi hc hs) hg

/-- An invariant that every step preserves holds along every run. -/
theorem along_of_inv {I P : S → Prop} (inv : ∀ s, I s → P s)
    (step : ∀ s l s', I s → M.step s l = some s' → I s') {ls : List L} :
    ∀ {s : S}, I s → M.Along P s ls := by
  induction ls with
  | nil => intro s hi; exact inv s hi
  | cons l ls ih =>
    intro s hi
    exact ⟨inv s hi, fun s' hs => ih (step s l s' hi hs)⟩

/-- An invariant that every step preserves holds where a run ends. -/
theorem exec_inv {I : S → Prop} (step : ∀ s l s', I s → M.step s l = some s' → I s') {ls : List L} :
    ∀ {s s' : S}, I s → M.exec s ls = some s' → I s' := by
  induction ls with
  | nil =>
    intro s s' hi he
    cases he
    exact hi
  | cons l ls ih =>
    intro s s' hi he
    obtain ⟨s₁, h₁, he⟩ := Option.bind_eq_some_iff.mp he
    exact ih (step s l s₁ hi h₁) he

/-- **Refinement.** Where every step that meets `C` is matched by a run of `A` between the images
of the two states, so is every run of such steps. -/
theorem exec_refines {T K : Type} {A : Machine T K} {f : S → T} {I : S → Prop} {C : S → L → Prop}
    (step : ∀ s l s', I s → C s l → M.step s l = some s' →
      I s' ∧ ∃ ks, A.exec (f s) ks = some (f s')) {ls : List L} :
    ∀ {s s' : S}, I s → M.Guarded C s ls → M.exec s ls = some s' →
      I s' ∧ ∃ ks, A.exec (f s) ks = some (f s') := by
  induction ls with
  | nil =>
    intro s s' hi _ he
    cases he
    exact ⟨hi, [], rfl⟩
  | cons l ls ih =>
    intro s s' hi hg he
    obtain ⟨s₁, h₁, he⟩ := Option.bind_eq_some_iff.mp he
    obtain ⟨hc, hg⟩ := hg s₁ h₁
    obtain ⟨hi₁, ks, hks⟩ := step s l s₁ hi hc h₁
    obtain ⟨hi', ks', hks'⟩ := ih hi₁ hg he
    refine ⟨hi', ks ++ ks', ?_⟩
    rw [exec_append, hks]
    exact hks'

/-- Where the invariant makes `C` imply `D`, runs guarded by `C` are guarded by `D`. -/
theorem guarded_mono {I : S → Prop} {C D : S → L → Prop}
    (step : ∀ s l s', I s → C s l → M.step s l = some s' → I s')
    (imp : ∀ s l, I s → C s l → D s l) {ls : List L} :
    ∀ {s : S}, I s → M.Guarded C s ls → M.Guarded D s ls := by
  induction ls with
  | nil => intro s _ _; trivial
  | cons l ls ih =>
    intro s hi hg s' hs
    obtain ⟨hc, hg⟩ := hg s' hs
    exact ⟨imp s l hi hc, ih (step s l s' hi hc hs) hg⟩

/-- Two conditions that say the same of every step from `I` guard the same runs. -/
theorem guarded_congr {I : S → Prop} {C D : S → L → Prop}
    (step : ∀ s l s', I s → C s l → M.step s l = some s' → I s')
    (same : ∀ s l s', I s → M.step s l = some s' → (C s l ↔ D s l)) {ls : List L} :
    ∀ {s : S}, I s → (M.Guarded C s ls ↔ M.Guarded D s ls) := by
  induction ls with
  | nil => intro s _; exact Iff.rfl
  | cons l ls ih =>
    intro s hi
    constructor
    · intro hg s' hs
      obtain ⟨hc, hg⟩ := hg s' hs
      exact ⟨(same s l s' hi hs).mp hc, (ih (step s l s' hi hc hs)).mp hg⟩
    · intro hg s' hs
      obtain ⟨hd, hg⟩ := hg s' hs
      have hc := (same s l s' hi hs).mpr hd
      exact ⟨hc, (ih (step s l s' hi hc hs)).mpr hg⟩

/-- **Exact guard.** `I` implies `P`, the steps that meet `C` preserve `I`, and
a step from `I` into `P` meets `C`. Then a run from `I` has `P` in every state
it reaches exactly when all its steps meet `C`. -/
theorem along_iff_guarded {I P : S → Prop} {C : S → L → Prop} (inv : ∀ s, I s → P s)
    (step : ∀ s l s', I s → C s l → M.step s l = some s' → I s')
    (need : ∀ s l s', I s → M.step s l = some s' → P s' → C s l) {ls : List L} :
    ∀ {s : S}, I s → (M.Along P s ls ↔ M.Guarded C s ls) := by
  intro s hi
  refine ⟨fun ha => ?_, along_of_guarded inv step hi⟩
  induction ls generalizing s with
  | nil => trivial
  | cons l ls ih =>
    intro s' hs
    have hc := need s l s' hi hs (along_head (ha.2 s' hs))
    exact ⟨hc, ih (step s l s' hi hc hs) (ha.2 s' hs)⟩

/-! ## Machines side by side -/

theorem set_same {α : Type} {xs : List α} {i : Nat} {x : α} (hi : xs[i]? = some x) :
    xs.set i x = xs := by
  obtain ⟨hlt, rfl⟩ := List.getElem?_eq_some_iff.mp hi
  exact List.set_getElem_self hlt

/-- Machines of one kind side by side: a label is for one of them. -/
def array (M : Machine S L) : Machine (List S) (Nat × L) :=
  ⟨fun ss l => (ss[l.1]?).bind fun s => (M.step s l.2).map (ss.set l.1 ·)⟩

/-- A run of one of them, the others staying where they are. -/
theorem exec_array {ss : List S} {i : Nat} {s s' : S} {ls : List L} (hi : ss[i]? = some s)
    (he : M.exec s ls = some s') : M.array.exec ss (ls.map fun l => (i, l)) = some (ss.set i s') := by
  induction ls generalizing ss s with
  | nil =>
    cases he
    exact congrArg some (set_same hi).symm
  | cons l ls ih =>
    obtain ⟨s₁, h₁, he⟩ := Option.bind_eq_some_iff.mp he
    have hstep : M.array.step ss (i, l) = some (ss.set i s₁) := by
      show (ss[i]?).bind _ = _
      rw [hi, Option.bind_some, h₁]
      rfl
    have hlt := (List.getElem?_eq_some_iff.mp hi).1
    rw [List.map_cons, exec_cons, hstep, Option.bind_some,
      ih (List.getElem?_set_self hlt) he, List.set_set]

/-! ## Checking a run by evaluation -/

def decidableGuarded (C : S → L → Prop) [∀ s l, Decidable (C s l)] :
    (s : S) → (ls : List L) → Decidable (M.Guarded C s ls)
  | _, [] => isTrue trivial
  | s, l :: ls =>
    match e : M.step s l with
    | none => isTrue fun s' hs => by rw [e] at hs; cases hs
    | some s₁ =>
      have := decidableGuarded C s₁ ls
      decidable_of_iff (C s l ∧ M.Guarded C s₁ ls)
        ⟨fun h s' hs => by rw [e] at hs; cases hs; exact h, fun h => h s₁ e⟩

instance (C : S → L → Prop) [∀ s l, Decidable (C s l)] (s : S) (ls : List L) :
    Decidable (M.Guarded C s ls) := decidableGuarded C s ls

end Machine
end Sighttpd
