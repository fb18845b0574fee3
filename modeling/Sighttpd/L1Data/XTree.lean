import Sighttpd.Core.LinkedTree

/-!
# The binary tree (`x_tree.c`)

The tree is modelled in memory, pointer by pointer: a cell for each `x_node_t`, `malloc`
as an address that comes with each insertion, and a removal that writes the links of the
source in its order. Reading or writing where nothing is allocated has no result, nor has
a loop that is not left within its rounds.

* `insertLoop_spec`, `findLoop_spec`, `lastLoop_spec`: what the loops find in a linked tree.
* `rejoin_spec`: the eight cases of a removal.
* `xTreeInsert_spec`, `xTreeRemove_spec`: each call keeps memory and tree in step.
-/
namespace Sighttpd.L1
open LinkedTree
open SearchTree (nil fill hang Frame Ordered)

/-! ## Model -/

/-- mirrors src/x_tree.c:51-61 (`struct _x_tree`, `struct _x_node`), with the memory
the nodes are in -/
structure XTree (α : Type) where
  cmp : α → α → Int
  root : Option Nat
  nodes : CellMem α

section Calls
variable {α : Type}

/-- mirrors src/x_tree.c:63-70 (`x_node_new`). `malloc` has returned `n`. -/
def xNodeNew (h : CellMem α) (n : Nat) (data : α) : CellMem α :=
  h.alloc n ⟨none, none, none, data⟩

/-- mirrors src/x_tree.c:72-79 (`x_tree_new`) -/
def xTreeNew (cmp : α → α → Int) : XTree α := ⟨cmp, none, fun _ => none⟩

/-- mirrors src/x_tree.c:81-83 (`ATTACH_LEFT`) -/
def attachLeft (h : CellMem α) (p n : Nat) : Option (CellMem α) := do
  setParent (← setLeft h p (some n)) n (some p)

/-- mirrors src/x_tree.c:85-87 (`ATTACH_RIGHT`) -/
def attachRight (h : CellMem α) (p n : Nat) : Option (CellMem α) := do
  setParent (← setRight h p (some n)) n (some p)

/-- mirrors src/x_tree.c:104-118, the loop with its variable `m` -/
def insertLoop (cmp : α → α → Int) (node : Nat) : Nat → CellMem α → Option Nat → Option (CellMem α)
  | 0, _, _ => none
  | _ + 1, h, none => some h
  | k + 1, h, some m => do
    let new ← h node
    let here ← h m
    if cmp new.data here.data < 0 then
      match here.left with
      | some l => insertLoop cmp node k h (some l)
      | none => insertLoop cmp node k (← attachLeft h m node) none
    else
      match here.right with
      | some r => insertLoop cmp node k h (some r)
      | none => insertLoop cmp node k (← attachRight h m node) none

/-- mirrors src/x_tree.c:90-131 (`_x_tree_insert`, `x_tree_insert`) -/
def xTreeInsert (rounds : Nat) (tree : XTree α) (data : α) (n : Nat) : Option (XTree α) :=
  let h := xNodeNew tree.nodes n data
  match tree.root with
  | none => some { tree with root := some n, nodes := h }
  | some m => do
    some { tree with nodes := ← insertLoop tree.cmp n rounds h (some m) }

/-- mirrors src/x_tree.c:139-148, the loop with its variable `n` -/
def findLoop (cmp : α → α → Int) (data : α) (h : CellMem α) : Nat → Option Nat → Option (Option Nat)
  | 0, _ => none
  | _ + 1, none => some none
  | k + 1, some n => do
    let here ← h n
    let ret := cmp data here.data
    if ret = 0 then some (some n)
    else if ret < 0 then findLoop cmp data h k here.left
    else findLoop cmp data h k here.right

/-- mirrors src/x_tree.c:133-151 (`_x_tree_find`). The result `some none` is `NULL`. -/
def xTreeFind (rounds : Nat) (tree : XTree α) (data : α) : Option (Option Nat) :=
  findLoop tree.cmp data tree.nodes rounds tree.root

/-- mirrors src/x_tree.c:167-174: the link from the parent, and `was_left` -/
def cutParent (h : CellMem α) (node : Nat) : Option Nat → Option (CellMem α × Bool)
  | none => some (h, false)
  | some p => do
    if (← h p).left = some node then some (← setLeft h p none, true)
    else some (← setRight h p none, false)

/-- mirrors src/x_tree.c:176-182: the link from a child -/
def cutChild (h : CellMem α) : Option Nat → Option (CellMem α)
  | none => some h
  | some l => setParent h l none

/-- mirrors src/x_tree.c:205, 209 (`for (lx = l; lx->right; lx = lx->right)`) -/
def lastLoop (h : CellMem α) : Nat → Nat → Option Nat
  | 0, _ => none
  | k + 1, lx => do
    match (← h lx).right with
    | none => some lx
    | some r => lastLoop h k r

/-- mirrors src/x_tree.c:193-197 (and 199-203, 211-215) -/
def attachSide (wasLeft : Bool) (h : CellMem α) (p n : Nat) : Option (CellMem α) :=
  if wasLeft then attachLeft h p n else attachRight h p n

/-- mirrors src/x_tree.c:184-216, the eight cases, with the new `tree->root` -/
def rejoin (rounds : Nat) (h : CellMem α) (root : Option Nat) (wasLeft : Bool) :
    Option Nat → Option Nat → Option Nat → Option (CellMem α × Option Nat)
  | none, none, none => some (h, none)
  | none, none, some r => some (h, some r)
  | none, some l, none => some (h, some l)
  | some _, none, none => some (h, root)
  | some p, some l, none => do
    some (← attachSide wasLeft h p l, root)
  | some p, none, some r => do
    some (← attachSide wasLeft h p r, root)
  | none, some l, some r => do
    let lx ← lastLoop h rounds l
    some (← attachRight h lx r, some l)
  | some p, some l, some r => do
    let lx ← lastLoop h rounds l
    let h ← attachRight h lx r
    some (← attachSide wasLeft h p l, root)

/-- mirrors src/x_tree.c:153-221 (`x_tree_remove`). The flag tells the tree from `NULL`
as the result. -/
def xTreeRemove (rounds : Nat) (tree : XTree α) (data : α) : Option (XTree α × Bool) := do
  match ← xTreeFind rounds tree data with
  | none => some (tree, false)
  | some node =>
    let p := (← tree.nodes node).parent
    let (h, wasLeft) ← cutParent tree.nodes node p
    let l := (← h node).left
    let h ← cutChild h l
    let r := (← h node).right
    let h ← cutChild h r
    let (h, root) ← rejoin rounds h tree.root wasLeft p l r
    some ({ tree with root := root, nodes := h.free node }, true)

/-! ## Loops over a linked tree -/

theorem findLoop_spec {cmp : α → α → Int} {data : α} {h : CellMem α} {par : Option Nat}
    {t : SearchTree (Nat × α)} (ht : Linked h par t) {k : Nat} (hk : (addrs t).length < k) :
    findLoop cmp data h k (ptr t) = some ((t.find fun y => cmp data y.2).map Prod.fst) := by
  obtain ⟨k, rfl⟩ := Nat.exists_eq_add_of_lt (Nat.zero_lt_of_lt hk)
  rw [Nat.zero_add] at hk ⊢
  induction t generalizing par k with
  | nil => rfl
  | node l x r ihl ihr =>
    obtain ⟨hx, hl, hr⟩ := ht
    rw [addrs_node, List.length_append, List.length_cons] at hk
    obtain ⟨k, rfl⟩ := Nat.exists_eq_succ_of_ne_zero (show k ≠ 0 by omega)
    simp only [findLoop, ptr, hx, SearchTree.find, Option.bind_eq_bind, Option.bind_some]
    split
    · rfl
    · split
      · exact ihl hl k (by omega)
      · exact ihr hr k (by omega)

theorem lastLoop_spec {h : CellMem α} {par : Option Nat} {t : SearchTree (Nat × α)} {q : Nat}
    (ht : Linked h par t) (hq : ptr t = some q) {k : Nat} (hk : (addrs t).length < k) :
    ∃ a x up, t = fill (.right a x :: up) nil ∧ (∀ r, hang t r = fill (.right a x :: up) r) ∧
      lastLoop h k q = some x.1 := by
  induction t generalizing par q k with
  | nil => cases hq
  | node a x b _ ih =>
    cases hq
    obtain ⟨hx, -, hb⟩ := ht
    rw [addrs_node, List.length_append, List.length_cons] at hk
    obtain ⟨k, rfl⟩ := Nat.exists_eq_succ_of_ne_zero (show k ≠ 0 by omega)
    cases e : ptr b with
    | none =>
      cases b with
      | node b₁ y b₂ => cases e
      | nil => exact ⟨a, x, [], rfl, fun _ => rfl, by simp [lastLoop, hx, ptr]⟩
    | some q =>
      obtain ⟨a', x', up, hfill, hhang, hloop⟩ := ih hb e (k := k) (by omega)
      refine ⟨a', x', up ++ [.right a x], ?_, fun r => ?_, ?_⟩
      · rw [← List.cons_append, SearchTree.fill_append, ← hfill]
        rfl
      · rw [← List.cons_append, SearchTree.fill_append, ← hhang]
        rfl
      · simp [lastLoop, hx, e, hloop]

/-- The loop stops at the place where the new leaf belongs. -/
theorem insertLoop_spec {cmp : α → α → Int} {n : Nat} {h : CellMem α} {new : Cell α}
    (hn : h n = some new) (x : Nat × α) {par : Option Nat} {t : SearchTree (Nat × α)}
    (ht : Linked h par t) (hne : t ≠ nil) {k : Nat} (hk : (addrs t).length < k) :
    ∃ f up, t = fill (f :: up) nil ∧
      t.insert (fun y => cmp new.data y.2) x = fill (f :: up) (.node nil x nil) ∧
      insertLoop cmp n k h (ptr t) = attach h f n := by
  induction t generalizing par k with
  | nil => exact absurd rfl hne
  | node l y r ihl ihr =>
    obtain ⟨hy, hl, hr⟩ := ht
    rw [addrs_node, List.length_append, List.length_cons] at hk
    obtain ⟨k, rfl⟩ := Nat.exists_eq_succ_of_ne_zero (show k ≠ 0 by omega)
    obtain ⟨j, rfl⟩ := Nat.exists_eq_succ_of_ne_zero (show k ≠ 0 by omega)
    have hend : ∀ o : Option (CellMem α), (o.bind fun h => insertLoop cmp n (j + 1) h none) = o := by
      intro o
      cases o <;> rfl
    rw [ptr, insertLoop, SearchTree.insert]
    simp only [hn, hy, Option.bind_eq_bind, Option.bind_some]
    split
    · cases l with
      | nil => exact ⟨.left y r, [], rfl, rfl, hend _⟩
      | node l₁ z l₂ =>
        obtain ⟨f, up, hfill, hins, hloop⟩ := ihl hl (by simp) (k := j + 1) (by omega)
        refine ⟨f, up ++ [.left y r], ?_, ?_, hloop⟩
        · rw [← List.cons_append, SearchTree.fill_append, ← hfill]
          rfl
        · rw [← List.cons_append, SearchTree.fill_append, ← hins]
          rfl
    · cases r with
      | nil => exact ⟨.right l y, [], rfl, rfl, hend _⟩
      | node r₁ z r₂ =>
        obtain ⟨f, up, hfill, hins, hloop⟩ := ihr hr (by simp) (k := j + 1) (by omega)
        refine ⟨f, up ++ [.right l y], ?_, ?_, hloop⟩
        · rw [← List.cons_append, SearchTree.fill_append, ← hfill]
          rfl
        · rw [← List.cons_append, SearchTree.fill_append, ← hins]
          rfl

/-! ## The steps of a removal -/

/-- On which side of its parent the place is. -/
def wasLeft : List (Frame (Nat × α)) → Bool
  | .left _ _ :: _ => true
  | _ => false

theorem attach_side (h : CellMem α) (f : Frame (Nat × α)) (up : List (Frame (Nat × α))) (n : Nat) :
    attachSide (wasLeft (f :: up)) h (addr f) n = attach h f n := by
  cases f <;> rfl

theorem cutParent_spec {h : CellMem α} {path : List (Frame (Nat × α))} {n : Nat}
    (hp : Around h path (some n)) (hnd : (rimAddrs path).Nodup) (hn : n ∉ rimAddrs path) :
    ∃ h', cutParent h n (above path) = some (h', wasLeft path) ∧ Around h' path none ∧
      ∀ b, b ∉ rimAddrs path → h' b = h b := by
  cases path with
  | nil => exact ⟨h, rfl, trivial, fun _ _ => rfl⟩
  | cons f up =>
    have hf : addr f ∈ rimAddrs (f :: up) := mem_rimAddrs_of_above (above_cons f up)
    obtain ⟨h', hset, hup, heq⟩ := change_child hp hnd none
    refine ⟨h', ?_, hup, fun b hb => heq b fun he => hb (he ▸ hf)⟩
    cases f with
    | left x r =>
      rw [setChild] at hset
      simp [above, cutParent, hp.1, hset, wasLeft]
    | right l x =>
      -- the sibling on the left is another node
      have hne : ptr l ≠ some n := fun he =>
        hn (by simp [rimAddrs_right, mem_addrs_of_ptr he])
      rw [setChild] at hset
      simp [above, cutParent, hp.1, hne, hset, wasLeft]

theorem cutChild_spec {h : CellMem α} {par : Option Nat} {t : SearchTree (Nat × α)}
    (ht : Linked h par t) (hnd : (addrs t).Nodup) :
    ∃ h', cutChild h (ptr t) = some h' ∧ Linked h' none t ∧ ∀ b, b ∉ addrs t → h' b = h b := by
  cases e : ptr t with
  | none =>
    cases t with
    | nil => exact ⟨h, rfl, trivial, fun _ _ => rfl⟩
    | node l x r => cases e
  | some q =>
    obtain ⟨h', hset, ht', heq⟩ := change_parent ht hnd e none
    exact ⟨h', hset, ht', fun b hb => heq b fun he => hb (he ▸ mem_addrs_of_ptr e)⟩

/-- The right subtree below the last node of the left one. -/
theorem hang_spec {h : CellMem α} {l r : SearchTree (Nat × α)} {ql qr : Nat}
    (hl : Linked h none l) (hr : Linked h none r) (hql : ptr l = some ql) (hqr : ptr r = some qr)
    (hnd : (addrs l ++ addrs r).Nodup) {k : Nat} (hk : (addrs l).length < k) :
    ∃ lx h', lastLoop h k ql = some lx ∧ attachRight h lx qr = some h' ∧
      Linked h' none (hang l r) ∧ ∀ b, b ∉ addrs l ++ addrs r → h' b = h b := by
  obtain ⟨a, x, up, hfill, hhang, hloop⟩ := lastLoop_spec hl hql hk
  have hperm : (addrs l).Perm (rimAddrs (.right a x :: up)) := by
    rw [hfill]
    exact (addrs_fill _ _).trans (by simp)
  have hup : Around h (.right a x :: up) none := ((linked_fill _ nil).mp (hfill ▸ hl)).2
  have hall : (addrs r ++ rimAddrs (.right a x :: up)).Perm (addrs l ++ addrs r) :=
    List.perm_append_comm.trans (hperm.symm.append_right _)
  obtain ⟨h', hatt, hlinked, heq⟩ := attach_spec hup hr hqr (hall.nodup_iff.mpr hnd)
  refine ⟨x.1, h', hloop, hatt, hhang r ▸ hlinked, fun b hb => heq b fun hm => ?_⟩
  exact hb (hall.mem_iff.mp hm)

theorem rejoin_root_spec {h : CellMem α} {l r : SearchTree (Nat × α)} (root : Option Nat)
    (hl : Linked h none l) (hr : Linked h none r) (hnd : (addrs l ++ addrs r).Nodup) {k : Nat}
    (hk : (addrs l).length < k) :
    ∃ h', rejoin k h root false none (ptr l) (ptr r) = some (h', ptr (hang l r)) ∧
      Linked h' none (hang l r) ∧ ∀ b, b ∉ addrs l ++ addrs r → h' b = h b := by
  cases hql : ptr l with
  | none =>
    obtain rfl := ptr_eq_none.mp hql
    cases hqr : ptr r with
    | none => exact ⟨h, by simp [rejoin, hang, hqr], hr, fun _ _ => rfl⟩
    | some qr => exact ⟨h, by simp [rejoin, hang, hqr], hr, fun _ _ => rfl⟩
  | some ql =>
    rw [ptr_hang hql]
    cases hqr : ptr r with
    | none =>
      obtain rfl := ptr_eq_none.mp hqr
      exact ⟨h, rfl, (SearchTree.hang_nil l).symm ▸ hl, fun _ _ => rfl⟩
    | some qr =>
      obtain ⟨lx, h', hloop, hatt, hlinked, heq⟩ := hang_spec hl hr hql hqr hnd hk
      exact ⟨h', by simp [rejoin, hloop, hatt], hlinked, heq⟩

theorem rejoin_below_spec {h : CellMem α} {f : Frame (Nat × α)} {up : List (Frame (Nat × α))}
    {l r : SearchTree (Nat × α)} {root : Option Nat} (hp : Around h (f :: up) none)
    (hl : Linked h none l) (hr : Linked h none r)
    (hnd : (addrs l ++ addrs r ++ rimAddrs (f :: up)).Nodup) {k : Nat} (hk : (addrs l).length < k) :
    ∃ h', rejoin k h root (wasLeft (f :: up)) (some (addr f)) (ptr l) (ptr r) = some (h', root) ∧
      Linked h' none (fill (f :: up) (hang l r)) ∧
      ∀ b, b ∉ addrs l ++ addrs r ++ rimAddrs (f :: up) → h' b = h b := by
  cases hql : ptr l with
  | none =>
    obtain rfl := ptr_eq_none.mp hql
    cases hqr : ptr r with
    | none =>
      obtain rfl := ptr_eq_none.mp hqr
      exact ⟨h, rfl, (linked_fill _ _).mpr ⟨trivial, hp⟩, fun _ _ => rfl⟩
    | some qr =>
      obtain ⟨h', hatt, hlinked, heq⟩ := attach_spec hp hr hqr hnd
      refine ⟨h', ?_, hlinked, heq⟩
      rw [← attach_side h f up] at hatt
      simp [rejoin, hatt]
  | some ql =>
    cases hqr : ptr r with
    | none =>
      obtain rfl := ptr_eq_none.mp hqr
      rw [addrs_nil, List.append_nil] at hnd ⊢
      obtain ⟨h', hatt, hlinked, heq⟩ := attach_spec hp hl hql hnd
      refine ⟨h', ?_, (SearchTree.hang_nil l).symm ▸ hlinked, heq⟩
      rw [← attach_side h f up] at hatt
      simp [rejoin, hatt]
    | some qr =>
      obtain ⟨hndlr, -, hdisj⟩ := List.nodup_append'.mp hnd
      obtain ⟨lx, h₁, hloop, hatt₁, hlinked₁, heq₁⟩ := hang_spec hl hr hql hqr hndlr hk
      have hp₁ : Around h₁ (f :: up) none :=
        around_congr (fun a ha => heq₁ a fun hm => hdisj hm ha) hp
      rw [← addrs_hang] at hnd
      obtain ⟨h', hatt, hlinked, heq⟩ := attach_spec hp₁ hlinked₁ (ptr_hang hql r) hnd
      refine ⟨h', ?_, hlinked, fun b hb => ?_⟩
      · rw [← attach_side h₁ f up] at hatt
        simp [rejoin, hloop, hatt₁, hatt]
      · rw [heq b (addrs_hang l r ▸ hb), heq₁ b fun hm => hb (List.mem_append_left _ hm)]

theorem rejoin_spec {h : CellMem α} {path : List (Frame (Nat × α))} {l r : SearchTree (Nat × α)}
    (t₀ : SearchTree (Nat × α)) (hp : Around h path none) (hl : Linked h none l) (hr : Linked h none r)
    (hnd : (addrs l ++ addrs r ++ rimAddrs path).Nodup) {k : Nat} (hk : (addrs l).length < k) :
    ∃ h', rejoin k h (ptr (fill path t₀)) (wasLeft path) (above path) (ptr l) (ptr r) =
        some (h', ptr (fill path (hang l r))) ∧
      Linked h' none (fill path (hang l r)) ∧
      ∀ b, b ∉ addrs l ++ addrs r ++ rimAddrs path → h' b = h b := by
  cases path with
  | nil =>
    have hrim : rimAddrs ([] : List (Frame (Nat × α))) = [] := rfl
    rw [hrim, List.append_nil] at hnd ⊢
    exact rejoin_root_spec _ hl hr hnd hk
  | cons f up =>
    rw [ptr_fill f up t₀ (hang l r), above_cons]
    exact rejoin_below_spec hp hl hr hnd hk

/-! ## The calls -/

/-- The memory holds the cells of `t`, linked as `t` is shaped, and no others. -/
structure Holds (tree : XTree α) (t : SearchTree (Nat × α)) : Prop where
  root_eq : tree.root = ptr t
  linked : Linked tree.nodes none t
  distinct : (addrs t).Nodup
  only : ∀ a, tree.nodes a ≠ none → a ∈ addrs t

theorem holds_new (cmp : α → α → Int) : Holds (xTreeNew cmp) nil :=
  ⟨rfl, trivial, List.nodup_nil, fun _ h => absurd rfl h⟩

variable {tree : XTree α} {t : SearchTree (Nat × α)} {k : Nat}

theorem xTreeFind_spec (h : Holds tree t) (hk : (addrs t).length < k) (data : α) :
    xTreeFind k tree data = some ((t.find fun y => tree.cmp data y.2).map Prod.fst) := by
  rw [xTreeFind, h.root_eq]
  exact findLoop_spec h.linked hk

theorem addrs_insert (c : Nat × α → Int) (x : Nat × α) (t : SearchTree (Nat × α)) :
    (addrs (t.insert c x)).Perm (x.1 :: addrs t) := (SearchTree.toList_insert c x t).map _

theorem xTreeInsert_spec (h : Holds tree t) (hk : (addrs t).length < k) {n : Nat}
    (hn : tree.nodes n = none) (data : α) :
    ∃ tree', xTreeInsert k tree data n = some tree' ∧ tree'.cmp = tree.cmp ∧
      Holds tree' (t.insert (fun y => tree.cmp data y.2) (n, data)) := by
  have hnt : n ∉ addrs t := fun hm => ne_none_of_linked h.linked hm hn
  have hnew : xNodeNew tree.nodes n data n = some ⟨none, none, none, data⟩ := Memory.alloc_self ..
  have hold : ∀ b, b ≠ n → xNodeNew tree.nodes n data b = tree.nodes b :=
    fun b hb => Memory.alloc_of_ne _ hb
  have hlinked : Linked (xNodeNew tree.nodes n data) none t :=
    linked_congr (fun a ha => hold a fun he => hnt (he ▸ ha)) h.linked
  have hleaf : Linked (xNodeNew tree.nodes n data) none (.node nil (n, data) nil) :=
    ⟨hnew, trivial, trivial⟩
  have hperm := addrs_insert (fun y => tree.cmp data y.2) (n, data) t
  have hdistinct := hperm.nodup_iff.mpr (List.nodup_cons.mpr ⟨hnt, h.distinct⟩)
  have honly : ∀ a, xNodeNew tree.nodes n data a ≠ none →
      a ∈ addrs (t.insert (fun y => tree.cmp data y.2) (n, data)) := by
    intro a ha
    rw [hperm.mem_iff, List.mem_cons]
    by_cases he : a = n
    · exact Or.inl he
    · exact Or.inr (h.only a (hold a he ▸ ha))
  cases e : ptr t with
  | none =>
    obtain rfl := ptr_eq_none.mp e
    refine ⟨{ tree with root := some n, nodes := xNodeNew tree.nodes n data }, ?_, rfl, rfl, hleaf,
      hdistinct, honly⟩
    rw [xTreeInsert, h.root_eq, e]
  | some m =>
    have hne : t ≠ nil := fun he => by simp [he, ptr] at e
    obtain ⟨f, up, ht, hins, hloop⟩ := insertLoop_spec hnew (n, data) hlinked hne hk
    have hrim : (addrs t).Perm (rimAddrs (f :: up)) := by
      rw [ht]
      exact (addrs_fill _ _).trans (by simp)
    have hup := ((linked_fill (f :: up) nil).mp (ht ▸ hlinked)).2
    have hnd : (addrs (.node nil (n, data) nil) ++ rimAddrs (f :: up)).Nodup :=
      List.nodup_cons.mpr ⟨fun hm => hnt (hrim.mem_iff.mpr hm), hrim.nodup_iff.mp h.distinct⟩
    obtain ⟨h', hatt, hlinked', heq⟩ := attach_spec hup hleaf rfl hnd
    rw [← hloop, e] at hatt
    refine ⟨{ tree with nodes := h' }, ?_, rfl, ?_, hins ▸ hlinked', hdistinct, fun a ha => ?_⟩
    · rw [xTreeInsert, h.root_eq, e]
      simp [hatt]
    · rw [hins, h.root_eq, ht]
      exact ptr_fill ..
    · by_contra hno
      refine hno (honly a ?_)
      rwa [← heq a fun hm => hno ?_]
      exact hins ▸ (addrs_fill _ _).mem_iff.mpr hm

theorem xTreeRemove_spec (h : Holds tree t) (hk : (addrs t).length < k) {data : α} {x : Nat × α}
    (hx : t.find (fun y => tree.cmp data y.2) = some x) :
    ∃ tree', xTreeRemove k tree data = some (tree', true) ∧ tree'.cmp = tree.cmp ∧
      Holds tree' (t.remove fun y => tree.cmp data y.2) := by
  obtain ⟨path, l, r, ht, hrem⟩ := SearchTree.find_path hx
  have hperm : (addrs t).Perm (x.1 :: (addrs l ++ addrs r ++ rimAddrs path)) := by
    rw [ht]
    refine (addrs_fill _ _).trans ?_
    rw [addrs_node]
    exact List.perm_middle.append_right _
  obtain ⟨hxn, hnd⟩ := List.nodup_cons.mp (hperm.nodup_iff.mp h.distinct)
  obtain ⟨hndlr, hndp, hdisj⟩ := List.nodup_append'.mp hnd
  obtain ⟨hndl, hndr, hdisjlr⟩ := List.nodup_append'.mp hndlr
  obtain ⟨hxlr, hxp⟩ := not_or.mp (fun hm => hxn (List.mem_append.mpr hm))
  obtain ⟨hxl, hxr⟩ := not_or.mp (fun hm => hxlr (List.mem_append.mpr hm))
  obtain ⟨⟨hcell, hl, hr⟩, hp⟩ := (linked_fill path _).mp (ht ▸ h.linked)
  -- the three cuts, none of which touches the node itself
  obtain ⟨h₁, hcut₁, hp₁, heq₁⟩ := cutParent_spec hp hndp hxp
  have hcell₁ := (heq₁ x.1 hxp).trans hcell
  have hl₁ := linked_congr (fun a ha => heq₁ a fun hm => hdisj (List.mem_append_left _ ha) hm) hl
  have hr₁ := linked_congr (fun a ha => heq₁ a fun hm => hdisj (List.mem_append_right _ ha) hm) hr
  obtain ⟨h₂, hcut₂, hl₂, heq₂⟩ := cutChild_spec hl₁ hndl
  have hcell₂ := (heq₂ x.1 hxl).trans hcell₁
  have hp₂ := around_congr (fun a ha => heq₂ a fun hm => hdisj (List.mem_append_left _ hm) ha) hp₁
  have hr₂ := linked_congr (fun a ha => heq₂ a fun hm => hdisjlr hm ha) hr₁
  obtain ⟨h₃, hcut₃, hr₃, heq₃⟩ := cutChild_spec hr₂ hndr
  have hp₃ := around_congr (fun a ha => heq₃ a fun hm => hdisj (List.mem_append_right _ hm) ha) hp₂
  have hl₃ := linked_congr (fun a ha => heq₃ a fun hm => hdisjlr ha hm) hl₂
  have hkl : (addrs l).length < k := by
    have := hperm.length_eq
    simp only [List.length_cons, List.length_append] at this
    omega
  obtain ⟨h₄, hjoin, hlinked, heq₄⟩ :=
    rejoin_spec (.node l x r) hp₃ hl₃ hr₃ hnd hkl
  have hperm' : (addrs (fill path (hang l r))).Perm (addrs l ++ addrs r ++ rimAddrs path) := by
    rw [← addrs_hang]
    exact addrs_fill _ _
  have hfree : ∀ b, b ≠ x.1 → h₄.free x.1 b = h₄ b := fun b hb => Memory.free_of_ne hb
  rw [hrem]
  refine ⟨⟨tree.cmp, ptr (fill path (hang l r)), h₄.free x.1⟩, ?_, rfl, rfl, ?_,
    hperm'.nodup_iff.mpr hnd, fun a (ha : h₄.free x.1 a ≠ none) => ?_⟩
  · rw [← ht, ← h.root_eq] at hjoin
    simp [xTreeRemove, xTreeFind_spec h hk, hx, hcell, hcut₁, hcell₁, hcut₂, hcell₂, hcut₃, hjoin]
  · exact linked_congr (fun a ha => hfree a fun he => hxn (hperm'.mem_iff.mp (he ▸ ha))) hlinked
  · by_contra hno
    have hx' : a ≠ x.1 := fun he => ha (he ▸ Memory.free_self ..)
    rw [hperm'.mem_iff] at hno
    have hno' := hno
    simp only [List.mem_append, not_or] at hno'
    rw [hfree a hx', heq₄ a hno, heq₃ a hno'.1.2, heq₂ a hno'.1.1, heq₁ a hno'.2] at ha
    rcases List.mem_cons.mp (hperm.mem_iff.mp (h.only a ha)) with he | hm
    · exact hx' he
    · exact hno hm

/-- Nothing is changed where `find` finds nothing. -/
theorem xTreeRemove_missing (h : Holds tree t) (hk : (addrs t).length < k) {data : α}
    (hx : t.find (fun y => tree.cmp data y.2) = none) :
    xTreeRemove k tree data = some (tree, false) := by
  simp [xTreeRemove, xTreeFind_spec h hk, hx]

end Calls
end Sighttpd.L1
