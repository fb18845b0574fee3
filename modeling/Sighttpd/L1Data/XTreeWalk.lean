import Sighttpd.L1Data.XTreeHistory

/-!
# Walks through a binary tree (`x_tree.c`)

`x_node_next` and `x_node_prev` go one link up at most: from the last node below a left
child that has a right child, the step forward is `NULL` although the walk is not over.

* `nodeStep_spec`: where a step leads.
* `walk_straight`, `walk_astray`: the walk forward visits all nodes in order exactly when
  no left child has a right child.
* `xTree_walks`: both walks, after any calls.
-/
namespace Sighttpd.L1
open LinkedTree
open SearchTree (nil mirror Straight rightless Ordered)

section Calls
variable {α : Type}

/-! ## Model -/

/-- mirrors src/x_tree.c:227 (`m->left != NULL; m = m->left`), also 235, 251 and 266, with
the side as a parameter -/
def edgeLoop (side : Cell α → Option Nat) (h : CellMem α) : Nat → Nat → Option Nat
  | 0, _ => none
  | k + 1, m => do
    match side (← h m) with
    | none => some m
    | some q => edgeLoop side h k q

/-- What `_x_tree_first` and `_x_tree_last` share. -/
def treeEdge (side : Cell α → Option Nat) (rounds : Nat) (tree : XTree α) : Option (Option Nat) :=
  match tree.root with
  | none => some none
  | some m => (edgeLoop side tree.nodes rounds m).map some

/-- mirrors src/x_tree.c:223-229 (`_x_tree_first`). The result `some none` is `NULL`. -/
def xTreeFirst (rounds : Nat) (tree : XTree α) : Option (Option Nat) :=
  treeEdge Cell.left rounds tree

/-- mirrors src/x_tree.c:231-237 (`_x_tree_last`) -/
def xTreeLast (rounds : Nat) (tree : XTree α) : Option (Option Nat) :=
  treeEdge Cell.right rounds tree

/-- mirrors src/x_tree.c:260-262: to the parent, when the node is its child on the side
`other` -/
def climb (other : Cell α → Option Nat) (tree : XTree α) (node : Nat) :
    Option Nat → Option (Option Nat)
  | none => some none
  | some p => do
    if other (← tree.nodes p) = some node then some (some p) else some none

/-- What `_x_node_next` and `_x_node_prev` share: `side` is where the step goes to,
`other` where it comes from. -/
def nodeStep (side other : Cell α → Option Nat) (rounds : Nat) (tree : XTree α) (node : Nat) :
    Option (Option Nat) := do
  let here ← tree.nodes node
  match side here with
  | none => climb other tree node here.parent
  | some m => (edgeLoop other tree.nodes rounds m).map some

/-- mirrors src/x_tree.c:239-253 (`_x_node_prev`) -/
def xNodePrev (rounds : Nat) (tree : XTree α) (node : Nat) : Option (Option Nat) :=
  nodeStep Cell.left Cell.right rounds tree node

/-- mirrors src/x_tree.c:255-269 (`_x_node_next`) -/
def xNodeNext (rounds : Nat) (tree : XTree α) (node : Nat) : Option (Option Nat) :=
  nodeStep Cell.right Cell.left rounds tree node

/-- The nodes from `n` on, with one step after the other until `NULL`. -/
def walk (step : Nat → Option (Option Nat)) : Nat → Option Nat → Option (List Nat)
  | 0, _ => none
  | _ + 1, none => some []
  | k + 1, some n => do
    (walk step k (← step n)).map (n :: ·)

/-- From `x_tree_first` on with `x_node_next`. -/
def walkAhead (rounds : Nat) (tree : XTree α) : Option (List Nat) := do
  walk (xNodeNext rounds tree) rounds (← xTreeFirst rounds tree)

/-- From `x_tree_last` on with `x_node_prev`. -/
def walkBack (rounds : Nat) (tree : XTree α) : Option (List Nat) := do
  walk (xNodePrev rounds tree) rounds (← xTreeLast rounds tree)

/-! ## The walk forward -/

variable {tree : XTree α} {par : Option Nat} {t l r : SearchTree (Nat × α)} {x : Nat × α}
  {rounds : Nat}

theorem edgeLoop_left {h : CellMem α} {q k : Nat} (ht : Linked h par t) (hq : ptr t = some q)
    (hk : (addrs t).length < k) : edgeLoop Cell.left h k q = (addrs t).head? := by
  induction t generalizing par q k with
  | nil => cases hq
  | node l x r ih _ =>
    cases hq
    obtain ⟨hx, hl, -⟩ := ht
    rw [addrs_node, List.length_append, List.length_cons] at hk
    obtain ⟨k, rfl⟩ := Nat.exists_eq_succ_of_ne_zero (show k ≠ 0 by omega)
    cases l with
    | nil => simp [edgeLoop, hx, ptr]
    | node l₁ y l₂ =>
      have h := ih hl (q := y.1) rfl (k := k) (by omega)
      simp only [edgeLoop, hx, ptr, Option.bind_eq_bind, Option.bind_some, h]
      simp

/-- A left child without a right child leads to its parent. -/
theorem climb_left {n : Nat} (ht : Linked tree.nodes par (.node l x r)) (hn : ptr l = some n) :
    climb Cell.left tree n (some x.1) = some (some x.1) := by
  simp [climb, ht.1, hn]

theorem climb_right {n : Nat} (ht : Linked tree.nodes par (.node l x r))
    (hnd : (addrs (.node l x r)).Nodup) (hn : ptr r = some n) :
    climb Cell.left tree n (some x.1) = some none := by
  have hne : ptr l ≠ some n := by
    intro hl
    rw [addrs_node] at hnd
    apply (List.nodup_append'.mp hnd).2.2 (mem_addrs_of_ptr hl)
    exact List.mem_cons_of_mem _ (mem_addrs_of_ptr hn)
  simp [climb, ht.1, hne]

/-- Without a right child the step is to the parent or not at all. -/
theorem xNodeNext_up (ht : Linked tree.nodes par (.node l x nil)) :
    xNodeNext rounds tree x.1 = climb Cell.left tree x.1 par := by
  simp [xNodeNext, nodeStep, ht.1, ptr]

theorem xNodeNext_down (ht : Linked tree.nodes par (.node l x r)) (hr : r ≠ nil)
    (hk : (addrs r).length < rounds) : xNodeNext rounds tree x.1 = some (addrs r).head? := by
  obtain ⟨hx, -, hlr⟩ := ht
  cases r with
  | nil => exact absurd rfl hr
  | node r₁ y r₂ =>
    have hedge := edgeLoop_left hlr rfl hk
    simp [xNodeNext, nodeStep, hx, ptr, hedge]

theorem walk_step {step : Nat → Option (Option Nat)} {n : Nat} {o : Option Nat}
    (h : step n = some o) (k : Nat) :
    walk step (k + 1) (some n) = (walk step k o).map (n :: ·) := by
  simp [walk, h]

theorem head_addrs (hl : l ≠ nil) : (addrs (.node l x r)).head? = (addrs l).head? := by
  cases l with
  | nil => exact absurd rfl hl
  | node l₁ y l₂ => simp

theorem exists_ptr (ht : t ≠ nil) : ∃ q, ptr t = some q :=
  Option.ne_none_iff_exists'.mp (mt ptr_eq_none.mp ht)

/-- The walk through a subtree, to where the step from its root leads when it has no right
child. -/
theorem walk_straight {q : Nat} (ht : Linked tree.nodes par t) (hnd : (addrs t).Nodup)
    (hs : Straight t) (hq : ptr t = some q) (hk : (addrs t).length < rounds) {o : Option Nat}
    (hup : rightless t → climb Cell.left tree q par = some o) (hend : ¬ rightless t → o = none)
    (k : Nat) :
    walk (xNodeNext rounds tree) (k + (addrs t).length) (addrs t).head? =
      (walk (xNodeNext rounds tree) k o).map (addrs t ++ ·) := by
  induction t generalizing par q o k with
  | nil => cases hq
  | node l x r ihl ihr =>
    cases hq
    obtain ⟨hleft, hsl, hsr⟩ := hs
    have hnd' := hnd
    rw [addrs_node] at hnd hk
    obtain ⟨hndl, hndr, -⟩ := List.nodup_append'.mp hnd
    rw [List.length_append, List.length_cons] at hk
    -- from the root on
    have hroot : ∀ k, walk (xNodeNext rounds tree) (k + (addrs r).length + 1) (some x.1) =
        (walk (xNodeNext rounds tree) k o).map ((x.1 :: addrs r) ++ ·) := by
      intro k
      by_cases hr : r = nil
      · subst hr
        apply walk_step
        rw [xNodeNext_up ht]
        exact hup rfl
      · obtain ⟨p, hp⟩ := exists_ptr hr
        obtain rfl := hend hr
        have h := ihr ht.2.2 (List.nodup_cons.mp hndr).2 hsr hp (by omega)
          (fun _ => climb_right ht hnd' hp) (fun _ => rfl) k
        rw [walk_step (xNodeNext_down ht hr (by omega)), h, Option.map_map]
        rfl
    by_cases hl : l = nil
    · subst hl
      have h := hroot k
      rw [Nat.add_assoc] at h
      simpa using h
    · obtain ⟨p, hp⟩ := exists_ptr hl
      have h := ihl ht.2.1 hndl hsl hp (by omega) (fun _ => climb_left ht hp)
        (fun hno => absurd hleft hno) (k + (addrs r).length + 1)
      rw [hroot, Option.map_map] at h
      have hlen : k + (addrs (.node l x r)).length = k + (addrs r).length + 1 + (addrs l).length := by
        rw [addrs_node, List.length_append, List.length_cons]
        omega
      rw [head_addrs hl, hlen, h, addrs_node]
      congr 1
      funext ns
      simp

/-- Elsewhere the walk ends before the subtree does. -/
theorem walk_astray (ht : Linked tree.nodes par t) (hnd : (addrs t).Nodup) (hs : ¬ Straight t)
    (hk : (addrs t).length < rounds) {k : Nat} (hlen : (addrs t).length < k) :
    ∃ ns, walk (xNodeNext rounds tree) k (addrs t).head? = some ns ∧ ns.length < (addrs t).length := by
  induction t generalizing par k with
  | nil => exact absurd trivial hs
  | node l x r ihl ihr =>
    have hnd' := hnd
    rw [addrs_node] at hnd
    obtain ⟨hndl, hndr, -⟩ := List.nodup_append'.mp hnd
    have hsize : (addrs (.node l x r)).length = (addrs l).length + ((addrs r).length + 1) := by
      rw [addrs_node, List.length_append, List.length_cons]
    rw [hsize] at hk hlen ⊢
    by_cases hsl : Straight l
    · by_cases hl : l = nil
      · -- from the root to the right, where the walk is cut
        subst hl
        have hsr : ¬ Straight r := fun h => hs ⟨trivial, trivial, h⟩
        have hr : r ≠ nil := fun he => hsr (he ▸ trivial)
        obtain ⟨k, rfl⟩ := Nat.exists_eq_succ_of_ne_zero (show k ≠ 0 by omega)
        obtain ⟨ns, hns, hlt⟩ := ihr ht.2.2 (List.nodup_cons.mp hndr).2 hsr (by omega) (k := k)
          (by omega)
        refine ⟨x.1 :: ns, ?_, ?_⟩
        · rw [addrs_node, addrs_nil, List.nil_append, List.head?_cons,
            walk_step (xNodeNext_down ht hr (by omega)), hns]
          rfl
        · rw [List.length_cons]
          omega
      · obtain ⟨p, hp⟩ := exists_ptr hl
        rw [head_addrs hl]
        obtain ⟨j, rfl⟩ := Nat.exists_eq_add_of_lt (show (addrs l).length < k by omega)
        rw [Nat.add_assoc, Nat.add_comm]
        by_cases hleft : rightless l
        · have hsr : ¬ Straight r := fun h => hs ⟨hleft, hsl, h⟩
          have hr : r ≠ nil := fun he => hsr (he ▸ trivial)
          obtain ⟨ns, hns, hlt⟩ := ihr ht.2.2 (List.nodup_cons.mp hndr).2 hsr (by omega) (k := j)
            (by omega)
          rw [walk_straight ht.2.1 hndl hsl hp (by omega) (fun _ => climb_left ht hp)
            (fun hno => absurd hleft hno), walk_step (xNodeNext_down ht hr (by omega)), hns]
          refine ⟨addrs l ++ x.1 :: ns, rfl, ?_⟩
          rw [List.length_append, List.length_cons]
          omega
        · -- the last node on the left has no way back to the root
          rw [walk_straight ht.2.1 hndl hsl hp (by omega) (fun h => absurd h hleft) (fun _ => rfl)]
          refine ⟨addrs l, ?_, by omega⟩
          simp [walk]
    · have hl : l ≠ nil := fun he => hsl (he ▸ trivial)
      rw [head_addrs hl]
      obtain ⟨ns, hns, hlt⟩ := ihl ht.2.1 hndl hsl (by omega) (k := k) (by omega)
      exact ⟨ns, hns, by omega⟩

/-! ## Whole walks -/

/-- No child on the side `other` has a child on the side `side`: from no node is the way
on more than one link up. -/
def OneUp (side other : Cell α → Option Nat) (tree : XTree α) : Prop :=
  ∀ p c n d, tree.nodes p = some c → other c = some n → tree.nodes n = some d → side d = none

theorem straight_of_oneUp (h : OneUp Cell.right Cell.left tree) (ht : Linked tree.nodes par t) :
    Straight t := by
  induction t generalizing par with
  | nil => exact trivial
  | node l x r ihl ihr =>
    obtain ⟨hx, hl, hr⟩ := ht
    refine ⟨?_, ihl hl, ihr hr⟩
    cases l with
    | nil => exact trivial
    | node l₁ y l₂ => exact ptr_eq_none.mp (h _ _ _ _ hx rfl hl.1)

theorem oneUp_iff (h : Holds tree t) : OneUp Cell.right Cell.left tree ↔ Straight t := by
  refine ⟨fun ho => straight_of_oneUp ho h.linked, fun hs => ?_⟩
  intro p c n d hp hn hd
  obtain ⟨path, l, e, r, ht⟩ := exists_fill_of_mem (h.only p (hp ▸ Option.some_ne_none c))
  obtain ⟨⟨hcell, hl, -⟩, -⟩ := (linked_fill path _).mp (ht ▸ h.linked)
  obtain ⟨hleft, -, -⟩ := SearchTree.straight_of_fill (ht ▸ hs)
  obtain rfl := Option.some.inj (hp.symm.trans hcell)
  cases l with
  | nil => cases hn
  | node l₁ y l₂ =>
    cases hn
    obtain rfl := Option.some.inj (hd.symm.trans hl.1)
    rw [show l₂ = nil from hleft]
    rfl

theorem xTreeFirst_spec (h : Holds tree t) (hk : (addrs t).length < rounds) :
    xTreeFirst rounds tree = some (addrs t).head? := by
  cases t with
  | nil => simp [xTreeFirst, treeEdge, h.root_eq, ptr]
  | node l x r =>
    have hedge := edgeLoop_left h.linked rfl hk
    simp [xTreeFirst, treeEdge, h.root_eq, ptr, hedge]

theorem walkAhead_straight (h : Holds tree t) (hk : (addrs t).length < rounds) (hs : Straight t) :
    walkAhead rounds tree = some (addrs t) := by
  rw [walkAhead, xTreeFirst_spec h hk]
  obtain ⟨j, hj⟩ := Nat.exists_eq_add_of_lt hk
  cases e : ptr t with
  | none =>
    obtain rfl := ptr_eq_none.mp e
    rw [hj]
    rfl
  | some q =>
    have hw := walk_straight h.linked h.distinct hs e hk (o := none) (fun _ => rfl) (fun _ => rfl)
      (j + 1)
    rw [show j + 1 + (addrs t).length = rounds by omega] at hw
    simpa [walk] using hw

theorem walkAhead_astray (h : Holds tree t) (hk : (addrs t).length < rounds) (hs : ¬ Straight t) :
    ∃ ns, walkAhead rounds tree = some ns ∧ ns.length < (addrs t).length := by
  rw [walkAhead, xTreeFirst_spec h hk]
  exact walk_astray h.linked h.distinct hs hk hk

theorem walkAhead_iff (h : Holds tree t) (hk : (addrs t).length < rounds) :
    walkAhead rounds tree = some (addrs t) ↔ OneUp Cell.right Cell.left tree := by
  rw [oneUp_iff h]
  refine ⟨fun hw => ?_, walkAhead_straight h hk⟩
  by_contra hs
  obtain ⟨ns, hns, hlt⟩ := walkAhead_astray h hk hs
  obtain rfl := Option.some.inj (hw.symm.trans hns)
  exact Nat.lt_irrefl _ hlt

/-! ## The walk back -/

/-- The tree with left and right exchanged. -/
def swapSides (tree : XTree α) : XTree α := { tree with nodes := swapped tree.nodes }

theorem edgeLoop_swapped {side other : Cell α → Option Nat} (hs : ∀ c, other (swap c) = side c)
    (h : CellMem α) (k m : Nat) : edgeLoop other (swapped h) k m = edgeLoop side h k m := by
  induction k generalizing m with
  | zero => rfl
  | succ k ih =>
    rw [edgeLoop, edgeLoop]
    cases e : h m with
    | none => simp [swapped, e]
    | some c => simp [swapped, e, hs, ih]

theorem right_of_swap (c : Cell α) : (swap c).left = c.right := rfl

theorem climb_swapSides (n : Nat) (par : Option Nat) :
    climb Cell.left (swapSides tree) n par = climb Cell.right tree n par := by
  cases par with
  | none => rfl
  | some p =>
    cases e : tree.nodes p with
    | none => simp [climb, swapSides, swapped, e]
    | some c => simp [climb, swapSides, swapped, e, swap]

theorem xNodePrev_eq : xNodePrev rounds tree = xNodeNext rounds (swapSides tree) := by
  funext n
  unfold xNodePrev xNodeNext nodeStep
  cases e : tree.nodes n with
  | none => simp [swapSides, swapped, e]
  | some c =>
    have hedge := edgeLoop_swapped right_of_swap tree.nodes rounds
    cases hl : c.left with
    | none => simp [swapSides, swapped, e, swap, hl, ← climb_swapSides]
    | some q => simp [swapSides, swapped, e, swap, hl, hedge]

theorem xTreeLast_eq : xTreeLast rounds tree = xTreeFirst rounds (swapSides tree) := by
  have hedge := edgeLoop_swapped right_of_swap tree.nodes rounds
  unfold xTreeLast xTreeFirst treeEdge
  cases e : tree.root with
  | none => simp [swapSides, e]
  | some q => simp [swapSides, e, hedge]

theorem walkBack_eq : walkBack rounds tree = walkAhead rounds (swapSides tree) := by
  rw [walkBack, walkAhead, xNodePrev_eq, xTreeLast_eq]

theorem holds_swapSides (h : Holds tree t) : Holds (swapSides tree) (mirror t) := by
  refine ⟨?_, linked_mirror h.linked, ?_, fun a ha => ?_⟩
  · rw [ptr_mirror]
    exact h.root_eq
  · rw [addrs_mirror, List.nodup_reverse]
    exact h.distinct
  · rw [addrs_mirror, List.mem_reverse]
    apply h.only a
    intro hno
    simp [swapSides, swapped, hno] at ha

theorem oneUp_swapSides :
    OneUp Cell.right Cell.left (swapSides tree) ↔ OneUp Cell.left Cell.right tree := by
  constructor
  · intro h p c n d hp hn hd
    exact h p (swap c) n (swap d) (by simp [swapSides, swapped, hp]) hn
      (by simp [swapSides, swapped, hd])
  · intro h p c' n d' hp' hn hd'
    obtain ⟨c, hp, rfl⟩ := Option.map_eq_some_iff.mp hp'
    obtain ⟨d, hd, rfl⟩ := Option.map_eq_some_iff.mp hd'
    exact h p c n d hp hn hd

theorem walkBack_iff (h : Holds tree t) (hk : (addrs t).length < rounds) :
    walkBack rounds tree = some (addrs t).reverse ↔ OneUp Cell.left Cell.right tree := by
  have hk' : (addrs (mirror t)).length < rounds := by
    rwa [addrs_mirror, List.length_reverse]
  rw [walkBack_eq, ← addrs_mirror, walkAhead_iff (holds_swapSides h) hk', oneUp_swapSides]

/-! ## After any calls -/

/-- Both walks visit `ns`: every node, once, in ascending order. -/
structure InOrderWalks (rounds : Nat) (tree : XTree α) (ns : List Nat) : Prop where
  ahead : walkAhead rounds tree = some ns
  back : walkBack rounds tree = some ns.reverse
  once : ns.Nodup
  every : ∀ a, a ∈ ns ↔ tree.nodes a ≠ none
  ascending : ns.Pairwise fun a b => ∀ c d, tree.nodes a = some c → tree.nodes b = some d →
    tree.cmp c.data d.data ≤ 0
  inorder : ∃ t, Holds tree t ∧ addrs t = ns

theorem ascending_of_holds (hc : TotalPreorder tree.cmp) (h : Holds tree t)
    (ho : Ordered (onData tree.cmp) t) : (addrs t).Pairwise fun a b => ∀ c d,
      tree.nodes a = some c → tree.nodes b = some d → tree.cmp c.data d.data ≤ 0 := by
  rw [addrs, List.pairwise_map]
  refine (SearchTree.pairwise_of_ordered (totalPreorder_onData hc) ho).imp_of_mem ?_
  intro x y hx hy hle c d hc hd
  obtain ⟨c', hc', hcx⟩ := data_of_mem h.linked hx
  obtain ⟨d', hd', hdy⟩ := data_of_mem h.linked hy
  obtain rfl := Option.some.inj (hc.symm.trans hc')
  obtain rfl := Option.some.inj (hd.symm.trans hd')
  rw [hcx, hdy]
  exact hle

theorem inOrderWalks_iff (hc : TotalPreorder tree.cmp) (h : Holds tree t)
    (ho : Ordered (onData tree.cmp) t) (hk : (addrs t).length < rounds) :
    (∃ ns, InOrderWalks rounds tree ns) ↔
      OneUp Cell.right Cell.left tree ∧ OneUp Cell.left Cell.right tree := by
  constructor
  · rintro ⟨ns, hw⟩
    obtain ⟨t', h', rfl⟩ := hw.inorder
    have hperm : (addrs t').Perm (addrs t) := by
      rw [List.perm_ext_iff_of_nodup h'.distinct h.distinct]
      intro a
      rw [hw.every]
      exact ⟨h.only a, ne_none_of_linked h.linked⟩
    have hk' : (addrs t').length < rounds := hperm.length_eq ▸ hk
    exact ⟨(walkAhead_iff h' hk').mp hw.ahead, (walkBack_iff h' hk').mp hw.back⟩
  · rintro ⟨hright, hleft⟩
    refine ⟨addrs t, (walkAhead_iff h hk).mpr hright, (walkBack_iff h hk).mpr hleft, h.distinct,
      fun a => ⟨ne_none_of_linked h.linked, h.only a⟩, ascending_of_holds hc h ho, t, h, rfl⟩

/-- **Both walks, after any calls.** They visit every node in order exactly when no left
child has a right child and no right child has a left child. -/
theorem xTree_walks {cmp : α → α → Int} (hc : TotalPreorder cmp) {calls : List (XCall α)}
    {rounds : Nat} (hk : calls.length < rounds) (hm : xTreeFresh rounds (xTreeNew cmp) calls) :
    ∃ tree rets, xTreeRun rounds (xTreeNew cmp) calls = some (tree, rets) ∧
      ((∃ ns, InOrderWalks rounds tree ns) ↔
        OneUp Cell.right Cell.left tree ∧ OneUp Cell.left Cell.right tree) := by
  obtain ⟨tree, rets, t, hrun, rfl, h, ho, hlen, -⟩ :=
    xTreeRun_spec hc rfl (holds_new cmp) trivial (by simpa using hk) hm
  exact ⟨tree, rets, hrun, inOrderWalks_iff hc h ho hlen⟩

end Calls

/-- The right child of a left child. -/
def leftRightCalls : List (XCall Nat) := [.insert 30 1, .insert 10 2, .insert 20 3]

theorem xTree_walks_leftRight :
    ∃ tree rets, xTreeRun 4 (xTreeNew byTens) leftRightCalls = some (tree, rets) ∧
      ((∃ ns, InOrderWalks 4 tree ns) ↔
        OneUp Cell.right Cell.left tree ∧ OneUp Cell.left Cell.right tree) :=
  xTree_walks totalPreorder_byTens (by decide) (by decide)

/-- The walk forward ends before the root, which stores the greatest datum. -/
theorem walkAhead_misses_root :
    TotalPreorder byTens ∧ xTreeFresh 4 (xTreeNew byTens) leftRightCalls ∧
      ∃ tree, xTreeRun 4 (xTreeNew byTens) leftRightCalls = some (tree, [true, true, true]) ∧
        tree.nodes 1 = some ⟨none, some 2, none, 30⟩ ∧ walkAhead 4 tree = some [2, 3] ∧
        ¬ ∃ ns, InOrderWalks 4 tree ns := by
  refine ⟨totalPreorder_byTens, by decide, _, rfl, rfl, rfl, ?_⟩
  rintro ⟨ns, h⟩
  obtain rfl := Option.some.inj (h.ahead.symm.trans rfl)
  exact absurd ((h.every 1).mpr (by decide)) (by decide)

end Sighttpd.L1
