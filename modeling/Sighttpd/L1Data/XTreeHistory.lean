import Mathlib.Data.Multiset.ZeroCons
import Sighttpd.L1Data.XTree

/-!
# Histories of a binary tree (`x_tree.c`)

* `parentLinks_of_holds`: parent links are the inverse of child links.
* `xTree_history`: after any calls the order, the links and the stored data are right,
  and `x_tree_find` finds what is stored.
-/
namespace Sighttpd.L1
open LinkedTree
open SearchTree (nil fill Frame Ordered)

section Calls
variable {α : Type} {tree : XTree α} {t : SearchTree (Nat × α)} {k : Nat}

/-! ## Links -/

/-- `b` is a child of `a` exactly when `a` is the parent of `b`; the root has no parent. -/
structure ParentLinks (tree : XTree α) : Prop where
  inverse : ∀ a b, (∃ c, tree.nodes a = some c ∧ (c.left = some b ∨ c.right = some b)) ↔
    ∃ c, tree.nodes b = some c ∧ c.parent = some a
  root : ∀ a, tree.root = some a → ∃ c, tree.nodes a = some c ∧ c.parent = none

theorem exists_fill_of_mem {t : SearchTree (Nat × α)} {a : Nat} (h : a ∈ addrs t) :
    ∃ path l d r, t = fill path (.node l (a, d) r) := by
  induction t with
  | nil => cases h
  | node l x r ihl ihr =>
    rw [addrs_node, List.mem_append, List.mem_cons] at h
    rcases h with h | rfl | h
    · obtain ⟨path, l', d, r', rfl⟩ := ihl h
      exact ⟨path ++ [.left x r], l', d, r', by rw [SearchTree.fill_append]; rfl⟩
    · exact ⟨[], l, x.2, r, rfl⟩
    · obtain ⟨path, l', d, r', rfl⟩ := ihr h
      exact ⟨path ++ [.right l x], l', d, r', by rw [SearchTree.fill_append]; rfl⟩

theorem parent_of_ptr {h : CellMem α} {par : Option Nat} {t : SearchTree (Nat × α)} {b : Nat}
    (ht : Linked h par t) (hb : ptr t = some b) : ∃ c, h b = some c ∧ c.parent = par := by
  cases t with
  | nil => cases hb
  | node l x r =>
    cases hb
    exact ⟨_, ht.1, rfl⟩

theorem child_of_above {h : CellMem α} {path : List (Frame (Nat × α))} {a b : Nat}
    (hp : Around h path (some b)) (ha : above path = some a) :
    ∃ c, h a = some c ∧ (c.left = some b ∨ c.right = some b) := by
  cases path with
  | nil => cases ha
  | cons f up =>
    cases f with
    | left x r =>
      cases ha
      exact ⟨_, hp.1, Or.inl rfl⟩
    | right l x =>
      cases ha
      exact ⟨_, hp.1, Or.inr rfl⟩

theorem parentLinks_of_holds (h : Holds tree t) : ParentLinks tree := by
  refine ⟨fun a b => ⟨?_, ?_⟩, fun a ha => parent_of_ptr h.linked (h.root_eq ▸ ha)⟩
  · rintro ⟨c, hc, hb⟩
    obtain ⟨path, l, d, r, ht⟩ := exists_fill_of_mem (h.only a (hc ▸ Option.some_ne_none c))
    obtain ⟨⟨hcell, hl, hr⟩, -⟩ := (linked_fill path _).mp (ht ▸ h.linked)
    obtain rfl := Option.some.inj (hc.symm.trans hcell)
    rcases hb with hb | hb
    · exact parent_of_ptr hl hb
    · exact parent_of_ptr hr hb
  · rintro ⟨c, hc, ha⟩
    obtain ⟨path, l, d, r, ht⟩ := exists_fill_of_mem (h.only b (hc ▸ Option.some_ne_none c))
    obtain ⟨⟨hcell, -, -⟩, hp⟩ := (linked_fill path _).mp (ht ▸ h.linked)
    obtain rfl := Option.some.inj (hc.symm.trans hcell)
    exact child_of_above hp ha

/-! ## Histories -/

/-- A call, an insertion with the address its `malloc` returns. -/
inductive XCall (α : Type) where
  | insert (data : α) (node : Nat)
  | remove (data : α)

/-- The flag tells the tree from `NULL` as the result. -/
def XCall.run (rounds : Nat) (tree : XTree α) : XCall α → Option (XTree α × Bool)
  | .insert data n => (xTreeInsert rounds tree data n).map (·, true)
  | .remove data => xTreeRemove rounds tree data

def xTreeRun (rounds : Nat) : XTree α → List (XCall α) → Option (XTree α × List Bool)
  | tree, [] => some (tree, [])
  | tree, call :: calls => do
    let (tree, ret) ← call.run rounds tree
    let (tree, rets) ← xTreeRun rounds tree calls
    some (tree, ret :: rets)

/-- `malloc` returns addresses that are not in use. -/
def xTreeFresh (rounds : Nat) : XTree α → List (XCall α) → Bool
  | _, [] => true
  | tree, call :: calls =>
    (match call with
      | .insert _ n => (tree.nodes n).isNone
      | .remove _ => true) &&
    (match call.run rounds tree with
      | some (tree, _) => xTreeFresh rounds tree calls
      | none => true)

/-- What is stored before and after the calls, given their results. -/
inductive Ledger (cmp : α → α → Int) :
    Multiset α → List (XCall α) → List Bool → Multiset α → Prop where
  | done (s) : Ledger cmp s [] [] s
  | inserted {s s' calls rets} (data n) : Ledger cmp (data ::ₘ s) calls rets s' →
      Ledger cmp s (.insert data n :: calls) (true :: rets) s'
  | removed {s s' calls rets data x} : cmp data x = 0 → Ledger cmp s calls rets s' →
      Ledger cmp (x ::ₘ s) (.remove data :: calls) (true :: rets) s'
  | missing {s s' calls rets data} : (∀ x ∈ s, cmp data x ≠ 0) → Ledger cmp s calls rets s' →
      Ledger cmp s (.remove data :: calls) (false :: rets) s'

/-- The data in a tree. -/
def stored (t : SearchTree (Nat × α)) : Multiset α := (t.toList.map Prod.snd : List α)

theorem forall_stored {t : SearchTree (Nat × α)} {P : α → Prop} :
    (∀ d ∈ stored t, P d) ↔ ∀ x ∈ t.toList, P x.2 := by
  simp only [stored, Multiset.mem_coe, List.forall_mem_map]

theorem stored_insert (c : Nat × α → Int) (x : Nat × α) (t : SearchTree (Nat × α)) :
    stored (t.insert c x) = x.2 ::ₘ stored t :=
  Multiset.coe_eq_coe.mpr ((SearchTree.toList_insert c x t).map _)

theorem stored_remove {c : Nat × α → Int} {x : Nat × α} {t : SearchTree (Nat × α)}
    (h : t.find c = some x) : stored t = x.2 ::ₘ stored (t.remove c) :=
  Multiset.coe_eq_coe.mpr ((SearchTree.perm_remove h).map _)

/-- The comparator on the data beside the addresses. -/
def onData (cmp : α → α → Int) (x y : Nat × α) : Int := cmp x.2 y.2

theorem totalPreorder_onData {cmp : α → α → Int} (hc : TotalPreorder cmp) :
    TotalPreorder (onData cmp) :=
  ⟨fun x y => hc.swap x.2 y.2, fun x y z => hc.trans x.2 y.2 z.2⟩

theorem find_eq_none {cmp : α → α → Int} (hc : TotalPreorder cmp) {t : SearchTree (Nat × α)}
    (ho : Ordered (onData cmp) t) (data : α) :
    t.find (fun y => cmp data y.2) = none ↔ ∀ d ∈ stored t, cmp data d ≠ 0 := by
  rw [forall_stored]
  exact SearchTree.find_eq_none_iff (totalPreorder_onData hc) (k := (0, data)) ho

/-- The calls on the tree as a value. -/
def treeRun (cmp : α → α → Int) :
    SearchTree (Nat × α) → List (XCall α) → SearchTree (Nat × α) × List Bool
  | t, [] => (t, [])
  | t, .insert data n :: calls =>
    let run := treeRun cmp (t.insert (fun y => cmp data y.2) (n, data)) calls
    (run.1, true :: run.2)
  | t, .remove data :: calls =>
    let run := treeRun cmp (t.remove fun y => cmp data y.2) calls
    (run.1, (t.find fun y => cmp data y.2).isSome :: run.2)

/-- With any comparator, the memory keeps in step with the tree as a value. -/
theorem xTreeRun_holds {k : Nat} {calls : List (XCall α)} {tree : XTree α}
    {t : SearchTree (Nat × α)} (h : Holds tree t) (hk : (addrs t).length + calls.length < k)
    (hm : xTreeFresh k tree calls) :
    ∃ tree', xTreeRun k tree calls = some (tree', (treeRun tree.cmp t calls).2) ∧
      tree'.cmp = tree.cmp ∧ Holds tree' (treeRun tree.cmp t calls).1 ∧
      (addrs (treeRun tree.cmp t calls).1).length < k := by
  induction calls generalizing tree t with
  | nil => exact ⟨tree, rfl, rfl, h, hk⟩
  | cons call calls ih =>
    rw [List.length_cons] at hk
    obtain ⟨hn, hm⟩ := Bool.and_eq_true_iff.mp hm
    cases call with
    | insert data n =>
      obtain ⟨tree', hrun, hcmp, h'⟩ :=
        xTreeInsert_spec h (k := k) (by omega) (Option.isNone_iff_eq_none.mp hn) data
      have hlen := (addrs_insert (fun y => tree.cmp data y.2) (n, data) t).length_eq
      rw [List.length_cons] at hlen
      simp only [XCall.run, hrun, Option.map_some] at hm
      obtain ⟨tree'', hruns, hcmp', h'', hk''⟩ := ih h' (by omega) hm
      rw [hcmp] at hruns hcmp' h'' hk''
      exact ⟨tree'', by simp [xTreeRun, XCall.run, hrun, hruns, treeRun], hcmp', h'', hk''⟩
    | remove data =>
      cases e : t.find fun y => tree.cmp data y.2 with
      | none =>
        have hrun := xTreeRemove_missing h (k := k) (by omega) e
        simp only [XCall.run, hrun] at hm
        rw [treeRun, SearchTree.remove_of_find_eq_none e, e]
        obtain ⟨tree'', hruns, hcmp', h'', hk''⟩ := ih h (by omega) hm
        exact ⟨tree'', by simp [xTreeRun, XCall.run, hrun, hruns], hcmp', h'', hk''⟩
      | some x =>
        obtain ⟨tree', hrun, hcmp, h'⟩ := xTreeRemove_spec h (k := k) (by omega) e
        have hlen := ((SearchTree.perm_remove e).map Prod.fst).length_eq
        rw [List.map_cons, List.length_cons] at hlen
        simp only [XCall.run, hrun] at hm
        rw [treeRun, e]
        obtain ⟨tree'', hruns, hcmp', h'', hk''⟩ :=
          ih h' (by simp only [addrs] at hk ⊢; omega) hm
        rw [hcmp] at hruns hcmp' h'' hk''
        exact ⟨tree'', by simp [xTreeRun, XCall.run, hrun, hruns], hcmp', h'', hk''⟩

theorem treeRun_ledger {cmp : α → α → Int} (hc : TotalPreorder cmp) (calls : List (XCall α))
    {t : SearchTree (Nat × α)} (ho : Ordered (onData cmp) t) :
    Ordered (onData cmp) (treeRun cmp t calls).1 ∧
      Ledger cmp (stored t) calls (treeRun cmp t calls).2 (stored (treeRun cmp t calls).1) := by
  induction calls generalizing t with
  | nil => exact ⟨ho, .done _⟩
  | cons call calls ih =>
    cases call with
    | insert data n =>
      obtain ⟨ho', hled⟩ := ih (SearchTree.ordered_insert (x := (n, data)) ho)
      refine ⟨ho', .inserted data n ?_⟩
      rw [stored_insert] at hled
      exact hled
    | remove data =>
      obtain ⟨ho', hled⟩ := ih (SearchTree.ordered_remove (totalPreorder_onData hc) ho)
      refine ⟨ho', ?_⟩
      cases e : t.find fun y => cmp data y.2 with
      | none =>
        rw [treeRun, e]
        rw [SearchTree.remove_of_find_eq_none e] at hled ⊢
        exact .missing ((find_eq_none hc ho data).mp e) hled
      | some x =>
        rw [treeRun, e, stored_remove e]
        apply Ledger.removed _ hled
        exact SearchTree.eq_zero_of_find (c := fun y : Nat × α => cmp data y.2) e

/-- The calls from any tree on. -/
theorem xTreeRun_spec {cmp : α → α → Int} (hc : TotalPreorder cmp) {k : Nat} {calls : List (XCall α)}
    {tree : XTree α} {t : SearchTree (Nat × α)} (hcmp : tree.cmp = cmp) (h : Holds tree t)
    (ho : Ordered (onData cmp) t) (hk : (addrs t).length + calls.length < k)
    (hm : xTreeFresh k tree calls) :
    ∃ tree' rets t', xTreeRun k tree calls = some (tree', rets) ∧ tree'.cmp = cmp ∧
      Holds tree' t' ∧ Ordered (onData cmp) t' ∧ (addrs t').length < k ∧
      Ledger cmp (stored t) calls rets (stored t') := by
  subst hcmp
  obtain ⟨tree', hrun, hcmp', h', hk'⟩ := xTreeRun_holds h hk hm
  obtain ⟨ho', hled⟩ := treeRun_ledger hc calls ho
  exact ⟨tree', _, _, hrun, hcmp', h', ho', hk', hled⟩

/-- `x_tree_find` returns a node that compares equal exactly when one is stored, and
`x_tree_remove` returns `NULL` and changes nothing when none is. -/
structure Exact (rounds : Nat) (tree : XTree α) (s : Multiset α) : Prop where
  find : ∀ data, ∃ r, xTreeFind rounds tree data = some r ∧
    (r ≠ none ↔ ∃ d ∈ s, tree.cmp data d = 0) ∧
    ∀ n, r = some n → ∃ c, tree.nodes n = some c ∧ tree.cmp data c.data = 0
  missing : ∀ data, (∀ d ∈ s, tree.cmp data d ≠ 0) → xTreeRemove rounds tree data = some (tree, false)

theorem exact_of_holds (hc : TotalPreorder tree.cmp) (h : Holds tree t)
    (ho : Ordered (onData tree.cmp) t) (hk : (addrs t).length < k) : Exact k tree (stored t) := by
  have hnone := find_eq_none hc ho
  refine ⟨fun data => ⟨_, xTreeFind_spec h hk data, ?_, fun n hn => ?_⟩, fun data hd =>
    xTreeRemove_missing h hk ((hnone data).mpr hd)⟩
  · rw [ne_eq, Option.map_eq_none_iff, hnone]
    push Not
    rfl
  · obtain ⟨⟨n', d⟩, hx, rfl⟩ := Option.map_eq_some_iff.mp hn
    obtain ⟨path, l, r, ht, -⟩ := SearchTree.find_path hx
    obtain ⟨⟨hcell, -, -⟩, -⟩ := (linked_fill path _).mp (ht ▸ h.linked)
    exact ⟨_, hcell, SearchTree.eq_zero_of_find (c := fun y : Nat × α => tree.cmp data y.2) hx⟩

/-- **Every history.** With a comparator that is a total preorder, any calls end, and leave
an ordered tree with inverse links that stores what the calls have stored. -/
theorem xTree_history {cmp : α → α → Int} (hc : TotalPreorder cmp) {calls : List (XCall α)}
    {rounds : Nat} (hk : calls.length < rounds) (hm : xTreeFresh rounds (xTreeNew cmp) calls) :
    ∃ tree rets t, xTreeRun rounds (xTreeNew cmp) calls = some (tree, rets) ∧ tree.cmp = cmp ∧
      Holds tree t ∧ Ordered (onData cmp) t ∧ ParentLinks tree ∧
      Ledger cmp 0 calls rets (stored t) ∧ Exact rounds tree (stored t) := by
  obtain ⟨tree, rets, t, hrun, rfl, h, ho, hlen, hled⟩ :=
    xTreeRun_spec hc rfl (holds_new cmp) trivial (by simpa using hk) hm
  exact ⟨tree, rets, t, hrun, rfl, h, ho, parentLinks_of_holds h, hled, exact_of_holds hc h ho hlen⟩

end Calls

/-- Numbers compared by their tens. -/
def byTens (x y : Nat) : Int := (x / 10 : Nat) - (y / 10 : Nat)

theorem totalPreorder_byTens : TotalPreorder byTens := by
  constructor
  · intro x y
    unfold byTens
    omega
  · intro x y z
    unfold byTens
    omega

/-- The root goes although another datum equal to it stays, nothing is at 99, and the
freed node is used again. -/
def tensCalls : List (XCall Nat) :=
  [.insert 20 1, .insert 10 2, .insert 25 3, .insert 13 4, .remove 22, .remove 99, .insert 5 1]

theorem xTree_history_tens :
    ∃ tree rets t, xTreeRun 8 (xTreeNew byTens) tensCalls = some (tree, rets) ∧ tree.cmp = byTens ∧
      Holds tree t ∧ Ordered (onData byTens) t ∧ ParentLinks tree ∧
      Ledger byTens 0 tensCalls rets (stored t) ∧ Exact 8 tree (stored t) :=
  xTree_history totalPreorder_byTens (by decide) (by decide)

example : (xTreeRun 8 (xTreeNew byTens) tensCalls).map (fun s => (s.1.root, s.2)) =
    some (some 2, [true, true, true, true, true, false, true]) := by decide

end Sighttpd.L1
