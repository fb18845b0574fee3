import Sighttpd.L1Data.XTreeHistory

/-!
# Freeing a binary tree (`x_tree.c`)

`x_tree_free_with` has no stack: each round goes down to a leaf, takes it off its parent,
frees it and starts again at the parent. A node that is freed is gone from the memory, so
reading a link in it, following one to it and freeing it again have no result.

* `nextLeafLoop_spec`: the leaf and the place it is in.
* `freeLoop_spec`: the rounds from any place of a tree that is partly taken down.
* `xTree_freed`: after any calls, with any comparator.
-/
namespace Sighttpd.L1
open LinkedTree
open SearchTree (nil fill Frame)

section Calls
variable {α σ : Type}

/-! ## Model -/

/-- mirrors src/x_tree.c:328-332, the loop of `x_next_leaf` with its variable `m` -/
def nextLeafLoop (h : CellMem α) : Nat → Nat → Option Nat
  | 0, _ => none
  | k + 1, m => do
    let here ← h m
    match here.left, here.right with
    | some l, _ => nextLeafLoop h k l
    | none, some r => nextLeafLoop h k r
    | none, none => some m

/-- mirrors src/x_tree.c:321-335 (`x_next_leaf`). The result `some none` is `NULL`. -/
def xNextLeaf (rounds : Nat) (h : CellMem α) : Option Nat → Option (Option Nat)
  | none => some none
  | some node => (nextLeafLoop h rounds node).map some

/-- `x_free`, which is undefined where nothing is allocated. -/
def xFree (h : CellMem α) (n : Nat) : Option (CellMem α) := (h n).map fun _ => h.free n

/-- mirrors src/x_tree.c:351-352: `free_func` may be `NULL` -/
def callFree (free_func : Option (α → σ → σ)) (h : CellMem α) (n : Nat) (s : σ) : Option σ :=
  match free_func with
  | none => some s
  | some f => (h n).map fun c => f c.data s

/-- mirrors src/x_tree.c:346-354, the loop with its variable `p`: the memory, what
`free_func` has made of its own state, and the nodes in the order they are freed. The
writes to the parent are those of a removal (`cutParent`). -/
def freeLoop (free_func : Option (α → σ → σ)) (rounds : Nat) :
    Nat → CellMem α → σ → Option Nat → Option (CellMem α × σ × List Nat)
  | 0, _, _, _ => none
  | k + 1, h, s, p => do
    match ← xNextLeaf rounds h p with
    | none => some (h, s, [])
    | some n =>
      let p := (← h n).parent
      let (h, _) ← cutParent h n p
      let s ← callFree free_func h n s
      let h ← xFree h n
      let (h, s, freed) ← freeLoop free_func rounds k h s p
      some (h, s, n :: freed)

/-- mirrors src/x_tree.c:337-359 (`x_tree_free_with`), before `x_free (tree)`; without
`free_func` it is `x_tree_free` (361-365) -/
def xTreeFreeWith (rounds : Nat) (tree : XTree α) (free_func : Option (α → σ → σ)) (s : σ) :
    Option (CellMem α × σ × List Nat) :=
  freeLoop free_func rounds rounds tree.nodes s tree.root

/-! ## Down to a leaf -/

variable {h : CellMem α} {par : Option Nat} {t : SearchTree (Nat × α)}
  {path : List (Frame (Nat × α))} {k rounds : Nat} {s : σ}

theorem nextLeafLoop_spec {q : Nat} (ht : Linked h par t) (hq : ptr t = some q)
    (hk : (addrs t).length < k) :
    ∃ path x, t = fill path (.node nil x nil) ∧ nextLeafLoop h k q = some x.1 := by
  induction t generalizing par q k with
  | nil => cases hq
  | node l x r ihl ihr =>
    cases hq
    obtain ⟨hx, hl, hr⟩ := ht
    rw [addrs_node, List.length_append, List.length_cons] at hk
    obtain ⟨k, rfl⟩ := Nat.exists_eq_succ_of_ne_zero (show k ≠ 0 by omega)
    cases el : ptr l with
    | some p =>
      obtain ⟨path, y, hfill, hloop⟩ := ihl hl el (k := k) (by omega)
      refine ⟨path ++ [.left x r], y, ?_, ?_⟩
      · rw [SearchTree.fill_append, ← hfill]
        rfl
      · simp [nextLeafLoop, hx, el, hloop]
    | none =>
      cases er : ptr r with
      | some p =>
        obtain ⟨path, y, hfill, hloop⟩ := ihr hr er (k := k) (by omega)
        refine ⟨path ++ [.right l x], y, ?_, ?_⟩
        · rw [SearchTree.fill_append, ← hfill]
          rfl
        · simp [nextLeafLoop, hx, el, er, hloop]
      | none =>
        obtain rfl := ptr_eq_none.mp el
        obtain rfl := ptr_eq_none.mp er
        exact ⟨[], x, rfl, by simp [nextLeafLoop, hx, ptr]⟩

/-! ## One round -/

/-- The leaf is taken off its parent and freed, and its place is empty. -/
theorem round_spec {x : Nat × α} (hh : Linked h none (fill path (.node nil x nil)))
    (hnd : (addrs (fill path (.node nil x nil))).Nodup) :
    ∃ h₁ h₂ b, h x.1 = some ⟨above path, none, none, x.2⟩ ∧
      cutParent h x.1 (above path) = some (h₁, b) ∧ h₁ x.1 = h x.1 ∧ xFree h₁ x.1 = some h₂ ∧
      Linked h₂ none (fill path nil) ∧ h₂ x.1 = none ∧
      ∀ b, b ∉ addrs (fill path (.node nil x nil)) → h₂ b = h b := by
  obtain ⟨⟨hx, -, -⟩, hp⟩ := (linked_fill path _).mp hh
  have hperm : (addrs (fill path (.node nil x nil))).Perm (x.1 :: rimAddrs path) :=
    addrs_fill path _
  obtain ⟨hxp, hndp⟩ := List.nodup_cons.mp (hperm.nodup_iff.mp hnd)
  obtain ⟨h₁, hcut, hp₁, heq⟩ := cutParent_spec hp hndp hxp
  have hx₁ := heq x.1 hxp
  refine ⟨h₁, h₁.free x.1, _, hx, hcut, hx₁, by rw [xFree, hx₁, hx]; rfl, ?_,
    Memory.free_self .., fun b hb => ?_⟩
  · rw [linked_fill]
    refine ⟨trivial, around_congr (fun a ha => ?_) hp₁⟩
    exact Memory.free_of_ne fun he => hxp (he ▸ ha)
  · rw [hperm.mem_iff, List.mem_cons, not_or] at hb
    rw [Memory.free_of_ne hb.1, heq b hb.2]

/-! ## All rounds -/

/-- The calls of `free_func` on the data of the nodes. -/
def callAll (free_func : Option (α → σ → σ)) (log : List (Nat × α)) (s : σ) : σ :=
  match free_func with
  | none => s
  | some f => log.foldl (fun s x => f x.2 s) s

theorem callFree_cons (free_func : Option (α → σ → σ)) {n : Nat} {c : Cell α} (hc : h n = some c)
    (s : σ) :
    ∃ s', callFree free_func h n s = some s' ∧
      ∀ log, callAll free_func ((n, c.data) :: log) s = callAll free_func log s' := by
  cases free_func with
  | none => exact ⟨s, rfl, fun _ => rfl⟩
  | some f => exact ⟨f c.data s, by simp [callFree, hc], fun _ => rfl⟩

/-- The parent of an empty place is the place the next round starts at. -/
theorem place_above (path : List (Frame (Nat × α))) :
    ∃ path' t, fill path nil = fill path' t ∧ ptr t = above path ∧ (t = nil → path' = []) := by
  cases path with
  | nil => exact ⟨[], nil, rfl, rfl, fun _ => rfl⟩
  | cons f up =>
    cases f with
    | left x r => exact ⟨up, .node nil x r, rfl, rfl, fun he => nomatch he⟩
    | right l x => exact ⟨up, .node l x nil, rfl, rfl, fun he => nomatch he⟩

/-- From any place of the tree: an empty place is the root of an empty tree. -/
theorem freeLoop_spec (free_func : Option (α → σ → σ)) (path : List (Frame (Nat × α)))
    (hh : Linked h none (fill path t)) (hnd : (addrs (fill path t)).Nodup)
    (hplace : t = nil → path = []) (hk : (addrs (fill path t)).length < k)
    (hr : (addrs (fill path t)).length < rounds) :
    ∃ h' log, freeLoop free_func rounds k h s (ptr t) =
        some (h', callAll free_func log s, log.map Prod.fst) ∧
      log.Perm (fill path t).toList ∧ (∀ a ∈ addrs (fill path t), h' a = none) ∧
      ∀ a, a ∉ addrs (fill path t) → h' a = h a := by
  induction k generalizing path t h s with
  | zero => exact absurd hk (Nat.not_lt_zero _)
  | succ k ih =>
    cases e : ptr t with
    | none =>
      obtain rfl := ptr_eq_none.mp e
      obtain rfl := hplace rfl
      refine ⟨h, [], ?_, List.Perm.refl _, ?_, fun _ _ => rfl⟩
      · cases free_func <;> rfl
      · intro a ha
        cases ha
    | some q =>
      have hsub := (addrs_fill path t).length_eq
      rw [List.length_append] at hsub
      obtain ⟨up, x, rfl, hleaf⟩ :=
        nextLeafLoop_spec ((linked_fill path t).mp hh).1 e (k := rounds) (by omega)
      rw [← SearchTree.fill_append] at hh hnd hk hr ⊢
      obtain ⟨h₁, h₂, b, hx, hcut, hx₁, hfree, hh₂, hgone, hrest⟩ := round_spec hh hnd
      obtain ⟨s', hcall, hall⟩ := callFree_cons free_func (hx₁.trans hx) s
      -- what is left, seen from the parent of the leaf
      have hperm : (fill (up ++ path) (.node nil x nil)).toList.Perm
          (x :: (fill (up ++ path) nil).toList) :=
        (SearchTree.perm_fill _ _).trans ((SearchTree.perm_fill _ nil).symm.cons x)
      have haddrs : (addrs (fill (up ++ path) (.node nil x nil))).Perm
          (x.1 :: addrs (fill (up ++ path) nil)) := hperm.map Prod.fst
      obtain ⟨path', t', hfill, hptr, hplace'⟩ := place_above (up ++ path)
      have hlen := haddrs.length_eq
      obtain ⟨hxn, hnd₂⟩ := List.nodup_cons.mp (haddrs.nodup_iff.mp hnd)
      rw [hfill] at hh₂ hlen hxn hnd₂ hperm haddrs
      rw [List.length_cons] at hlen
      obtain ⟨h', log, hloop, hlog, hnone, hkeep⟩ :=
        ih (s := s') path' hh₂ hnd₂ hplace' (by omega) (by omega)
      refine ⟨h', x :: log, ?_, (hlog.cons x).trans hperm.symm, fun a ha => ?_, fun a ha => ?_⟩
      · rw [hptr] at hloop
        simp [freeLoop, xNextLeaf, hleaf, hx, hcut, hcall, hfree, hloop, ← hall]
      · rcases List.mem_cons.mp (haddrs.mem_iff.mp ha) with rfl | ha
        · rw [hkeep _ hxn, hgone]
        · exact hnone a ha
      · rw [hkeep a fun hm => ha (haddrs.mem_iff.mpr (List.mem_cons_of_mem _ hm)), hrest a ha]

/-- Every node of the tree is freed once, and `free_func` is called on its datum. -/
theorem xTreeFreeWith_spec {tree : XTree α} (h : Holds tree t) (hr : (addrs t).length < rounds)
    (free_func : Option (α → σ → σ)) (s : σ) :
    ∃ h' log, xTreeFreeWith rounds tree free_func s =
        some (h', callAll free_func log s, log.map Prod.fst) ∧
      log.Perm t.toList ∧ ∀ a, h' a = none := by
  obtain ⟨h', log, hloop, hlog, hnone, hkeep⟩ :=
    freeLoop_spec (s := s) free_func [] h.linked h.distinct (fun _ => rfl) hr hr
  refine ⟨h', log, ?_, hlog, fun a => ?_⟩
  · rw [xTreeFreeWith, h.root_eq, hloop]
  · by_cases ha : a ∈ addrs t
    · exact hnone a ha
    · rw [hkeep a ha]
      by_contra hno
      exact ha (h.only a hno)

/-! ## After any calls -/

/-- `log` has each node of the tree once, with its datum. -/
structure EachOnce (tree : XTree α) (log : List (Nat × α)) : Prop where
  once : (log.map Prod.fst).Nodup
  every : ∀ n d, (n, d) ∈ log ↔ ∃ c, tree.nodes n = some c ∧ c.data = d

theorem eachOnce_of_holds {tree : XTree α} {log : List (Nat × α)} (h : Holds tree t)
    (hlog : log.Perm t.toList) : EachOnce tree log := by
  refine ⟨(hlog.map Prod.fst).nodup_iff.mpr h.distinct, fun n d => ?_⟩
  rw [hlog.mem_iff]
  constructor
  · exact fun hm => data_of_mem h.linked hm
  · rintro ⟨c, hc, rfl⟩
    obtain ⟨⟨m, d⟩, hx, rfl⟩ := List.mem_map.mp (h.only n (hc ▸ Option.some_ne_none c))
    obtain ⟨c', hc', hd⟩ := data_of_mem h.linked hx
    obtain rfl := Option.some.inj (hc.symm.trans hc')
    rwa [hd]

/-- **Freeing, after any calls.** With any comparator, `x_tree_free_with` ends, frees every
node once and calls `free_func` once on every stored datum, and no access on the way is
undefined. -/
theorem xTree_freed (cmp : α → α → Int) {calls : List (XCall α)} {rounds : Nat}
    (hk : calls.length < rounds) (hm : xTreeFresh rounds (xTreeNew cmp) calls)
    (free_func : Option (α → σ → σ)) (s : σ) :
    ∃ tree rets log h, xTreeRun rounds (xTreeNew cmp) calls = some (tree, rets) ∧
      EachOnce tree log ∧ xTreeFreeWith rounds tree free_func s =
        some (h, callAll free_func log s, log.map Prod.fst) ∧ ∀ a, h a = none := by
  obtain ⟨tree, hrun, -, h, hlen⟩ := xTreeRun_holds (holds_new cmp) (by simpa using hk) hm
  obtain ⟨h', log, hfree, hlog, hnone⟩ := xTreeFreeWith_spec h hlen free_func s
  exact ⟨tree, _, log, h', hrun, eachOnce_of_holds h hlog, hfree, hnone⟩

end Calls

/-- The data `free_func` is called on. -/
def collect : Option (Nat → List Nat → List Nat) := some fun d s => s ++ [d]

theorem xTree_freed_tens :
    ∃ tree rets log h, xTreeRun 8 (xTreeNew byTens) tensCalls = some (tree, rets) ∧
      EachOnce tree log ∧ xTreeFreeWith 8 tree collect [] =
        some (h, callAll collect log [], log.map Prod.fst) ∧ ∀ a, h a = none :=
  xTree_freed byTens (by decide) (by decide) collect []

example : ((xTreeRun 8 (xTreeNew byTens) tensCalls).bind fun s =>
    xTreeFreeWith 8 s.1 collect []).map Prod.snd = some ([5, 25, 13, 10], [1, 3, 4, 2]) := by decide

end Sighttpd.L1
