import Sighttpd.L1Data.ListOps
import Sighttpd.L1Data.ParamsNodes

/-!
# Removing a parameter (`params.c`)

`params_remove` compares names with `strcmp`, all other functions with `strcasecmp`: it
removes an entry under the spelling it was first added with and under no other. What is
freed may be allocated again.

* `paramsRemove_spec`: the entry of that spelling is unlinked and freed.
* `agrees_remove`: on the map.
* `paramsRemove_iff`: after any calls, a name is removed in all its spellings exactly when
  the entry of that name, if any, is spelled like the argument.
-/
namespace Sighttpd.L1
open Sighttpd.CString LinkedList

/-! ## The list and the map -/

section Entries
variable {l rest : List Param} {p : Param}

theorem paramsGet_without {q : Bytes} (hq : lower q ≠ lower p.key) :
    paramsGet (l ++ rest) q = paramsGet (l ++ p :: rest) q := by
  induction l with
  | nil => rw [List.nil_append, List.nil_append, paramsGet_cons, if_neg hq]
  | cons e l ih => rw [List.cons_append, List.cons_append, paramsGet_cons, paramsGet_cons, ih]

/-- With different names, no other entry has the name of this one. -/
theorem other_names (h : (names (l ++ p :: rest)).Nodup) :
    ∀ q ∈ l ++ rest, lower q.key ≠ lower p.key := by
  rw [names, List.map_append, List.map_cons, List.nodup_middle, List.nodup_cons,
    ← List.map_append] at h
  intro q hq he
  exact h.1 (he ▸ List.mem_map_of_mem (f := fun p : Param => lower p.key) hq)

end Entries

/-- The name goes when it is spelled like the one first added. -/
def ParamsRef.removeSpelled (r : ParamsRef) (key : Bytes) : ParamsRef :=
  if key ∈ r.order then ⟨r.order.erase key, Function.update r.value (lower key) none⟩ else r

theorem agrees_remove {l rest : List Param} {p : Param} {r : ParamsRef}
    (h : Agrees (l ++ p :: rest) r) : Agrees (l ++ rest) (r.removeSpelled p.key) := by
  have hothers := other_names h.distinct
  have hmem : p.key ∈ r.order := by
    rw [← h.order]
    simp
  rw [ParamsRef.removeSpelled, if_pos hmem]
  refine ⟨?_, fun q => ?_, ?_⟩
  · have hl : p.key ∉ l.map (·.key) := by
      rw [List.mem_map]
      rintro ⟨q, hq, he⟩
      exact hothers q (List.mem_append_left _ hq) (by rw [he])
    rw [← h.order, List.map_append, List.map_append, List.map_cons, List.erase_append_right _ hl,
      List.erase_cons_head]
  · simp only [ParamsRef.get, Function.update_apply]
    by_cases hq : lower q = lower p.key
    · rw [if_pos hq]
      exact paramsGet_none fun e he => hq ▸ hothers e he
    · rw [if_neg hq, paramsGet_without hq]
      exact h.get q
  · refine h.distinct.sublist (List.Sublist.map _ ?_)
    exact List.Sublist.append_left (List.sublist_cons_self p rest) l

theorem agrees_keep {params : List Param} {r : ParamsRef} {key : Bytes} (h : Agrees params r)
    (hkey : ∀ q ∈ params, q.key ≠ key) : Agrees params (r.removeSpelled key) := by
  have hmem : key ∉ r.order := by
    rw [← h.order, List.mem_map]
    rintro ⟨q, hq, he⟩
    exact hkey q hq he
  rwa [ParamsRef.removeSpelled, if_neg hmem]

namespace Nodes

/-! ## Model -/

/-- mirrors src/params.c:392-409 (`params_remove`), for a non-NULL `key`. The node is freed
with the record it points to. -/
def paramsRemove (rounds : Nat) (st : ParamStore) (params : Option Nat) (key : Bytes) :
    Option (ParamStore × Option Nat) := do
  match ← matchLoop (fun s => strcmp s key = 0) st.cells rounds params with
  | none => some (st, params)
  | some l =>
    let (m, params) ← listRemove st.cells params (some l)
    some ({ st with cells := m.free l }, params)

/-! ## One object -/

section Objects
variable {rounds : Nat} {st : ParamStore} {object : Nat → Option Nat}
  {contents : Nat → List (Nat × Param)} {i : Nat}

/-- What is left of the list: all but the entry of that spelling. -/
theorem paramsRemove_spec {xs : List (Nat × Param)} (h : IsList st.cells xs)
    (hk : xs.length < rounds) (key : Bytes) :
    (∃ ys x zs st', xs = ys ++ x :: zs ∧ x.2.key = key ∧
        paramsRemove rounds st (ptr xs) key = some (st', ptr (ys ++ zs)) ∧
        IsList st'.cells (ys ++ zs) ∧ st'.cells x.1 = none ∧
        ∀ b, b ∉ addrs xs → st'.cells b = st.cells b) ∨
      (∀ q ∈ entries xs, q.key ≠ key) ∧
        paramsRemove rounds st (ptr xs) key = some (st, ptr xs) := by
  have hloop := matchLoop_spec (fun s => strcmp s key = 0) h.linked hk
  simp only [decide_eq_true_eq, strcmp_eq_zero] at hloop
  rcases hloop with ⟨ys, x, zs, rfl, hx, -, hloop⟩ | ⟨hall, hloop⟩
  · left
    have hnd := h.distinct
    rw [addrs_append, addrs_cons, List.nodup_middle, List.nodup_cons, ← addrs_append] at hnd
    obtain ⟨m', hrem, hlist, heq⟩ := listRemove_spec h
    refine ⟨ys, x, zs, { st with cells := m'.free x.1 }, rfl, hx, ?_,
      hlist.congr fun a ha => Memory.free_of_ne fun he => hnd.1 (he ▸ ha),
      Memory.free_self .., fun b hb => ?_⟩
    · simp [paramsRemove, strcmp_eq_zero, hloop, hrem]
    · rw [addrs_append, addrs_cons, List.mem_append, List.mem_cons, not_or, not_or] at hb
      rw [← heq b (by simp [hb.1, hb.2.2])]
      exact Memory.free_of_ne hb.2.1
  · right
    exact ⟨hall, by simp [paramsRemove, strcmp_eq_zero, hloop]⟩

/-- The entry of that spelling is gone from object `i`, and the nodes of all others stay as
they are. -/
theorem remove_objects (h : Objects st object contents)
    (hk : (contents i).length < rounds) (key : Bytes) :
    ∃ st' xs', paramsRemove rounds st (object i) key = some (st', ptr xs') ∧
      Objects st' (Function.update object i (ptr xs')) (Function.update contents i xs') ∧
      ((∃ ys x zs, contents i = ys ++ x :: zs ∧ x.2.key = key ∧ xs' = ys ++ zs) ∨
        (∀ q ∈ entries (contents i), q.key ≠ key) ∧ xs' = contents i) ∧
      ∀ j, j ≠ i → ∀ a ∈ addrs (contents j), st'.cells a = st.cells a := by
  rw [h.root i]
  rcases paramsRemove_spec (h.lists i) hk key with
    ⟨ys, x, zs, st', hxs, hx, hrun, hlist, -, heq⟩ | ⟨hall, hrun⟩
  · have hsub : ∀ a ∈ addrs (ys ++ zs), a ∈ addrs (contents i) := by
      rw [hxs, addrs_append, addrs_append, addrs_cons]
      intro a ha
      rw [List.mem_append] at ha
      rw [List.mem_append, List.mem_cons]
      exact ha.imp_right Or.inr
    have hothers : ∀ j, j ≠ i → ∀ a ∈ addrs (contents j), st'.cells a = st.cells a :=
      fun j hj a ha => heq a fun hm => h.apart j i hj ha hm
    have hapart : ∀ j, j ≠ i → (addrs (ys ++ zs)).Disjoint (addrs (contents j)) :=
      fun j hj a ha hja => h.apart j i hj hja (hsub a ha)
    exact ⟨st', ys ++ zs, hrun, h.update hlist hapart hothers (h.bounded.change _ heq),
      Or.inl ⟨ys, x, zs, hxs, hx, rfl⟩, hothers⟩
  · refine ⟨st, contents i, hrun, ?_, Or.inr ⟨hall, rfl⟩, fun _ _ _ _ => rfl⟩
    rw [← h.root i, Function.update_eq_self, Function.update_eq_self]
    exact h

end Objects

/-! ## Histories -/

/-- A call that may also be a removal. -/
inductive ParamsEdit where
  | call (c : ParamsCall)
  | remove (i : Nat) (key : Bytes)

section Calls
variable (malloc : Nat → ListMem Param → Nat) (rounds : Nat)

def ParamsEdit.run (s : ParamsObjects) : ParamsEdit → Option ParamsObjects
  | .call c => c.run malloc rounds s
  | .remove i key => do
    let (st, p) ← paramsRemove rounds s.store (s.object i) key
    some ⟨st, Function.update s.object i p⟩

def runEdits : ParamsObjects → List ParamsEdit → Option ParamsObjects
  | s, [] => some s
  | s, edit :: edits => do runEdits (← edit.run malloc rounds s) edits

end Calls

/-- What a call makes of the maps. -/
def ParamsEdit.ref (maps : Nat → ParamsRef) : ParamsEdit → Nat → ParamsRef
  | .call c => c.ref maps
  | .remove i key => Function.update maps i ((maps i).removeSpelled key)

section Histories
variable {malloc : Nat → ListMem Param → Nat} {rounds : Nat} {K : List Bytes} {s : ParamsObjects}
  {contents : Nat → List (Nat × Param)} {maps : Nat → ParamsRef} {key : Bytes}

theorem edit_spec (hm : Fresh malloc) (h : Shows K s contents maps)
    (hk : K.length < rounds) (edit : ParamsEdit) :
    ∃ K' s' contents', edit.run malloc rounds s = some s' ∧ K'.length ≤ K.length + 1 ∧
      Shows K' s' contents' (edit.ref maps) := by
  cases edit with
  | call c =>
    obtain ⟨s', contents', hrun, h'⟩ := run_spec hm h hk c
    refine ⟨_, s', contents', hrun, ?_, h'⟩
    cases c <;> simp [ParamsCall.adds]
  | remove i key =>
    obtain ⟨st', xs', hrun, hobj, hleft, -⟩ :=
      remove_objects h.objects (Nat.lt_of_le_of_lt (h.within i).length_le hk) key
    have hagr := h.agrees i
    have hsub := h.subset i
    refine ⟨K, _, _, by simp [ParamsEdit.run, hrun], Nat.le_succ _,
      h.update hobj ?_ (List.Subset.refl K) ?_⟩
    · rcases hleft with ⟨ys, x, zs, hxs, rfl, rfl⟩ | ⟨hall, rfl⟩
      · rw [hxs, entries_append, entries_cons] at hagr
        rw [entries_append]
        exact agrees_remove hagr
      · exact agrees_keep hagr hall
    · rcases hleft with ⟨ys, x, zs, hxs, rfl, rfl⟩ | ⟨hall, rfl⟩
      · rw [hxs] at hsub
        refine List.Subset.trans (List.Sublist.subset (List.Sublist.map _ ?_)) hsub
        exact List.Sublist.map _ (List.Sublist.append_left (List.sublist_cons_self x zs) ys)
      · exact hsub

theorem runEdits_spec (hm : Fresh malloc) {edits : List ParamsEdit}
    (h : Shows K s contents maps) (hk : K.length + edits.length < rounds) :
    ∃ K' s' contents', runEdits malloc rounds s edits = some s' ∧ K'.length < rounds ∧
      Shows K' s' contents' (edits.foldl ParamsEdit.ref maps) := by
  induction edits generalizing K s contents maps with
  | nil => exact ⟨K, s, contents, rfl, hk, h⟩
  | cons edit edits ih =>
    rw [List.length_cons] at hk
    have hlt : K.length < rounds := by omega
    obtain ⟨K₁, s₁, contents₁, hrun, hK₁, h₁⟩ := edit_spec hm h hlt edit
    obtain ⟨K', s', contents', hruns, hK', h'⟩ := ih h₁ (by omega)
    exact ⟨K', s', contents', by simp [runEdits, hrun, hruns], hK', h'⟩

/-! ## All spellings -/

/-- The name is gone in every spelling, and the list is what it was without its entry. -/
structure Removed (rounds : Nat) (m : ListMem Param) (params : Option Nat)
    (xs : List (Nat × Param)) (key : Bytes) : Prop where
  gone : ∀ q, lower q = lower key → paramsGet rounds m params q = some none
  others : IsList m (xs.filter fun x => lower x.2.key ≠ lower key)
  head : params = ptr (xs.filter fun x => lower x.2.key ≠ lower key)

theorem filter_others {xs : List (Nat × Param)} (h : ∀ q ∈ entries xs, lower q.key ≠ lower key) :
    (xs.filter fun x => lower x.2.key ≠ lower key) = xs := by
  rw [List.filter_eq_self]
  intro x hx
  exact decide_eq_true (h x.2 (List.mem_map_of_mem hx))

theorem removed_of_others {m : ListMem Param} {xs ys : List (Nat × Param)} (h : IsList m ys)
    (hk : ys.length < rounds) (hys : ∀ q ∈ entries ys, lower q.key ≠ lower key)
    (hfilter : (xs.filter fun x => lower x.2.key ≠ lower key) = ys) :
    Removed rounds m (ptr ys) xs key := by
  refine ⟨fun q hq => ?_, hfilter ▸ h, hfilter ▸ rfl⟩
  rw [paramsGet_spec h hk, paramsGet_none fun e he => hq ▸ hys e he]

theorem removed_iff {st : ParamStore} {xs : List (Nat × Param)} (h : IsList st.cells xs)
    (hk : xs.length < rounds) (hnd : (names (entries xs)).Nodup) (key : Bytes) :
    ∃ st' p', paramsRemove rounds st (ptr xs) key = some (st', p') ∧
      (Removed rounds st'.cells p' xs key ↔
        ∀ q ∈ entries xs, lower q.key = lower key → q.key = key) := by
  rcases paramsRemove_spec h hk key with
    ⟨ys, x, zs, st', rfl, rfl, hrun, hlist, -⟩ | ⟨hall, hrun⟩
  · rw [entries_append, entries_cons] at hnd
    have hothers := other_names hnd
    rw [← entries_append] at hothers
    obtain ⟨hys, hzs⟩ := List.forall_mem_append.mp (entries_append ys zs ▸ hothers)
    refine ⟨st', _, hrun, iff_of_true (removed_of_others hlist ?_ hothers ?_) ?_⟩
    · simp only [List.length_append, List.length_cons] at hk ⊢
      omega
    · rw [List.filter_append, List.filter_cons_of_neg (by simp), filter_others hys,
        filter_others hzs]
    · intro q hq he
      rw [entries_append, entries_cons, List.mem_append, List.mem_cons] at hq
      rcases hq with hq | rfl | hq
      · exact absurd he (hys q hq)
      · rfl
      · exact absurd he (hzs q hq)
  · refine ⟨st, _, hrun, fun hrem q hq he => ?_, fun hspelled => ?_⟩
    · -- the entry is still there, under any spelling
      have hget := hrem.gone key rfl
      rw [paramsGet_spec h hk, Option.some.injEq, paramsGet_eq_none] at hget
      exact absurd (he ▸ List.mem_map_of_mem hq) hget
    · have hno : ∀ q ∈ entries xs, lower q.key ≠ lower key :=
        fun q hq he => hall q hq (hspelled q hq he)
      exact removed_of_others h hk hno (filter_others hno)

/-- **Removal, after any calls.** A name is gone from an object in every spelling, and
nothing else is, exactly when the entry of that name is spelled like the argument. -/
theorem paramsRemove_iff (hm : Fresh malloc) {edits : List ParamsEdit}
    (hk : edits.length < rounds) :
    ∃ s contents, runEdits malloc rounds allNull edits = some s ∧
      Objects s.store s.object contents ∧
      ∀ i key, ∃ st' p', paramsRemove rounds s.store (s.object i) key = some (st', p') ∧
        (Removed rounds st'.cells p' (contents i) key ↔
          ∀ q ∈ entries (contents i), lower q.key = lower key → q.key = key) := by
  have hlen : ([] : List Bytes).length + edits.length < rounds := by simpa using hk
  obtain ⟨K, s, contents, hrun, hK, h⟩ := runEdits_spec hm shows_allNull hlen
  refine ⟨s, contents, hrun, h.objects, fun i key => ?_⟩
  rw [h.objects.root i]
  exact removed_iff (h.objects.lists i) (Nat.lt_of_le_of_lt (h.within i).length_le hK)
    (h.agrees i).distinct key

end Histories

/-- A name in two spellings, and one that is removed. -/
def fishEdits : List ParamsEdit :=
  [.call (.append 0 (ascii "Fish") (ascii "haddock")), .call (.append 0 (ascii "cheese") (ascii "old")),
    .call (.append 0 (ascii "FISH") (ascii "bream")), .remove 0 (ascii "cheese")]

theorem paramsRemove_iff_fish :
    ∃ s contents, runEdits inOrder 5 allNull fishEdits = some s ∧
      Objects s.store s.object contents ∧
      ∀ i key, ∃ st' p', paramsRemove 5 s.store (s.object i) key = some (st', p') ∧
        (Removed 5 st'.cells p' (contents i) key ↔
          ∀ q ∈ entries (contents i), lower q.key = lower key → q.key = key) :=
  paramsRemove_iff inOrder_fresh (by decide)

/-- `fish` is looked up as `Fish` and not removed. -/
theorem paramsRemove_keeps_fish :
    ∃ s st' p', runEdits inOrder 5 allNull fishEdits = some s ∧
      paramsRemove 5 s.store (s.object 0) (ascii "fish") = some (st', p') ∧
      paramsGet 5 s.store.cells (s.object 0) (ascii "fish") = some (some (ascii "haddock,bream")) ∧
      paramsGet 5 st'.cells p' (ascii "fish") = some (some (ascii "haddock,bream")) := by
  refine ⟨_, _, _, rfl, rfl, ?_, ?_⟩
  · decide +kernel
  · decide +kernel

end Nodes
end Sighttpd.L1
