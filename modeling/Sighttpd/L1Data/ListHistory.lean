import Mathlib.Data.List.Induction
import Mathlib.Data.List.Perm.Subperm
import Sighttpd.L1Data.ListOps

/-!
# Histories of lists (`list.c`)

Any number of lists in one memory. A call goes on with the head it returns, a join takes
the second list into the first one.

* `readsAs_of_isList`: a list reads as its sequence in both directions.
* `call_spec`: one call does to one list what it does to the sequence.
* `lists_history`: after any calls each list reads as the sequence of the operations.
-/
namespace Sighttpd.L1
open LinkedList

variable {α : Type}

/-! ## Reading a list -/

/-- The nodes and data from `l` on, along the link `link`, until `NULL`. -/
def follow (link : ListCell α → Option Nat) (m : ListMem α) : Nat → Option Nat → Option (List (Nat × α))
  | 0, _ => none
  | _ + 1, none => some []
  | k + 1, some l => do
    let c ← m l
    (follow link m k (link c)).map ((l, c.data) :: ·)

/-- The list reads as `xs` by `next` from its head, and backwards by `prev` from
`list_tail`; the head has no `prev`, and `list_length` is the length, as an `int`. -/
structure ReadsAs (rounds : Nat) (m : ListMem α) (list : Option Nat) (xs : List (Nat × α)) : Prop where
  forward : follow ListCell.next m rounds list = some xs
  back : (listTail m rounds list).bind (follow ListCell.prev m rounds) = some xs.reverse
  first : ∀ l, list = some l → ∃ c, m l = some c ∧ c.prev = none
  length : listLength rounds m list = some (toInt xs.length)
  exact : xs.length < 2147483648 → listLength rounds m list = some (xs.length : Int)

section Reading
variable {m : ListMem α} {p : Option Nat} {xs : List (Nat × α)} {k : Nat}

theorem follow_step {link : ListCell α → Option Nat} {l : Nat} {c : ListCell α} (h : m l = some c) :
    follow link m (k + 1) (some l) = (follow link m k (link c)).map ((l, c.data) :: ·) := by
  simp [follow, h]

theorem follow_next (h : Seg m p xs none) (hk : xs.length < k) :
    follow ListCell.next m k (ptr xs) = some xs := by
  obtain ⟨k, rfl⟩ := Nat.exists_eq_succ_of_ne_zero (Nat.ne_zero_of_lt hk)
  induction xs generalizing p k with
  | nil => rfl
  | cons x xs ih =>
    obtain ⟨hx, hxs⟩ := h
    rw [List.length_cons] at hk
    obtain ⟨k, rfl⟩ := Nat.exists_eq_succ_of_ne_zero (show k ≠ 0 by omega)
    rw [ptr_cons, follow_step hx, Option.or_none, ih hxs k (by omega)]
    rfl

/-- From the last node of a segment back to what its first one points to. -/
theorem follow_prev {n : Option Nat} (h : Seg m p xs n) :
    follow ListCell.prev m (k + xs.length) ((lastPtr xs).or p) =
      (follow ListCell.prev m k p).map (xs.reverse ++ ·) := by
  induction xs using List.reverseRecOn generalizing n with
  | nil => simp [lastPtr]
  | append_singleton xs x ih =>
    obtain ⟨hxs, hx, -⟩ := (seg_append xs [x]).mp h
    rw [lastPtr_concat, List.length_append, List.length_singleton, ← Nat.add_assoc, Option.some_or,
      follow_step hx, ih hxs, Option.map_map]
    congr 1
    funext ys
    simp

theorem readsAs_of_isList (h : IsList m xs) (hk : xs.length < k) : ReadsAs k m (ptr xs) xs := by
  have hlength := listLength_spec h hk
  refine ⟨follow_next h.linked hk, ?_, fun l hl => ?_, hlength, fun hint => ?_⟩
  · obtain ⟨j, rfl⟩ := Nat.exists_eq_add_of_lt hk
    have hback := follow_prev (k := j + 1) h.linked
    rw [Option.or_none, Nat.add_comm (j + 1), ← Nat.add_assoc] at hback
    rw [listTail_spec h.linked hk, Option.bind_some, hback]
    simp [follow]
  · cases xs with
    | nil => cases hl
    | cons x xs =>
      cases hl
      exact ⟨_, h.linked.1, rfl⟩
  · rw [hlength, toInt_of_lt hint]

end Reading

/-! ## Sequences -/

/-- `y` in front of the node. -/
def insertBefore (node : Nat) (y : Nat × α) : List (Nat × α) → List (Nat × α)
  | [] => []
  | x :: xs => if x.1 = node then y :: x :: xs else x :: insertBefore node y xs

/-- `y` behind the node. -/
def insertAfter (node : Nat) (y : Nat × α) : List (Nat × α) → List (Nat × α)
  | [] => []
  | x :: xs => if x.1 = node then x :: y :: xs else x :: insertAfter node y xs

/-- The sequence without the node. -/
def removeNode (node : Nat) (xs : List (Nat × α)) : List (Nat × α) := xs.filter (·.1 ≠ node)

section Sequences
variable {xs ys zs : List (Nat × α)} {x y : Nat × α}

theorem insertBefore_split (h : x.1 ∉ addrs ys) :
    insertBefore x.1 y (ys ++ x :: zs) = ys ++ y :: x :: zs := by
  induction ys with
  | nil => simp [insertBefore]
  | cons z ys ih =>
    obtain ⟨hz, hys⟩ := not_or.mp (mt List.mem_cons.mpr h)
    rw [List.cons_append, insertBefore, if_neg (Ne.symm hz), ih hys]
    rfl

theorem insertAfter_split (h : x.1 ∉ addrs ys) :
    insertAfter x.1 y (ys ++ x :: zs) = ys ++ x :: y :: zs := by
  induction ys with
  | nil => simp [insertAfter]
  | cons z ys ih =>
    obtain ⟨hz, hys⟩ := not_or.mp (mt List.mem_cons.mpr h)
    rw [List.cons_append, insertAfter, if_neg (Ne.symm hz), ih hys]
    rfl

theorem removeNode_of_notMem {node : Nat} (h : node ∉ addrs xs) : removeNode node xs = xs := by
  rw [removeNode, List.filter_eq_self]
  intro x hx
  apply decide_eq_true
  rintro rfl
  exact h (List.mem_map_of_mem hx)

theorem removeNode_split (hy : x.1 ∉ addrs ys) (hz : x.1 ∉ addrs zs) :
    removeNode x.1 (ys ++ x :: zs) = ys ++ zs := by
  rw [removeNode, List.filter_append, List.filter_cons_of_neg (by simp)]
  exact congrArg₂ (· ++ ·) (removeNode_of_notMem hy) (removeNode_of_notMem hz)

theorem exists_split {node : Nat} (h : node ∈ addrs xs) (hnd : (addrs xs).Nodup) :
    ∃ ys x zs, xs = ys ++ x :: zs ∧ x.1 = node ∧ x.1 ∉ addrs ys ∧ x.1 ∉ addrs zs := by
  obtain ⟨x, hx, rfl⟩ := List.mem_map.mp h
  obtain ⟨ys, zs, rfl⟩ := List.append_of_mem hx
  rw [addrs_append, addrs_cons, List.nodup_middle, List.nodup_cons, List.mem_append, not_or] at hnd
  exact ⟨ys, x, zs, rfl, rfl, hnd.1⟩

end Sequences

/-! ## Calls -/

/-- A call on list `i`, whose result becomes the head of list `i`; `n` is the node that
`malloc` returns. -/
inductive ListCall (α : Type) where
  | prepend (i : Nat) (data : α) (n : Nat)
  | append (i : Nat) (data : α) (n : Nat)
  | addBefore (i : Nat) (data : α) (node : Option Nat) (n : Nat)
  | addAfter (i : Nat) (data : α) (node : Option Nat) (n : Nat)
  | remove (i : Nat) (node : Nat)
  | join (i j : Nat)

/-- The heads of the lists of a program and their memory. -/
structure ListHeap (α : Type) where
  cells : ListMem α
  heads : Nat → Option Nat

/-- List `i` goes on with the head that is returned. -/
def ListHeap.goOn (s : ListHeap α) (i : Nat) (r : ListMem α × Option Nat) : ListHeap α :=
  ⟨r.1, Function.update s.heads i r.2⟩

/-- The second head is given up by a join. -/
def ListHeap.giveUp (s : ListHeap α) (j : Nat) : ListHeap α :=
  { s with heads := Function.update s.heads j none }

def ListCall.run (rounds : Nat) (s : ListHeap α) : ListCall α → Option (ListHeap α)
  | .prepend i data n => (listPrepend s.cells (s.heads i) data n).map (s.goOn i)
  | .append i data n => (listAppend rounds s.cells (s.heads i) data n).map (s.goOn i)
  | .addBefore i data node n =>
    (listAddBefore rounds s.cells (s.heads i) data node n).map (s.goOn i)
  | .addAfter i data node n => (listAddAfter s.cells (s.heads i) data node n).map (s.goOn i)
  | .remove i node => (listRemove s.cells (s.heads i) (some node)).map (s.goOn i)
  | .join i j => (listJoin rounds s.cells (s.heads i) (s.heads j)).map ((s.giveUp j).goOn i)

def runListCalls (rounds : Nat) : ListHeap α → List (ListCall α) → Option (ListHeap α)
  | s, [] => some s
  | s, call :: calls => do runListCalls rounds (← call.run rounds s) calls

/-- What a call makes of the sequences. -/
def ListCall.seqs (lists : Nat → List (Nat × α)) : ListCall α → Nat → List (Nat × α)
  | .prepend i data n => Function.update lists i ((n, data) :: lists i)
  | .append i data n => Function.update lists i (lists i ++ [(n, data)])
  | .addBefore i data none n => Function.update lists i (lists i ++ [(n, data)])
  | .addBefore i data (some node) n =>
    Function.update lists i (insertBefore node (n, data) (lists i))
  | .addAfter i data none n => Function.update lists i ((n, data) :: lists i)
  | .addAfter i data (some node) n =>
    Function.update lists i (insertAfter node (n, data) (lists i))
  | .remove i node => Function.update lists i (removeNode node (lists i))
  | .join i j => Function.update (Function.update lists j []) i (lists i ++ lists j)

/-- The node that `malloc` returns is in no list, a given node is in the list, and a join
is of two lists. -/
def ListCall.Allowed (lists : Nat → List (Nat × α)) : ListCall α → Prop
  | .prepend _ _ n => ∀ j, n ∉ addrs (lists j)
  | .append _ _ n => ∀ j, n ∉ addrs (lists j)
  | .addBefore i _ node n => (∀ j, n ∉ addrs (lists j)) ∧ ∀ a ∈ node, a ∈ addrs (lists i)
  | .addAfter i _ node n => (∀ j, n ∉ addrs (lists j)) ∧ ∀ a ∈ node, a ∈ addrs (lists i)
  | .remove i node => node ∈ addrs (lists i)
  | .join i j => i ≠ j

def AllAllowed : (Nat → List (Nat × α)) → List (ListCall α) → Prop
  | _, [] => True
  | lists, call :: calls => call.Allowed lists ∧ AllAllowed (call.seqs lists) calls

/-- Each list is held in memory, apart from all others and with its nodes in `U`. -/
structure ListsHeld (U : List Nat) (s : ListHeap α) (lists : Nat → List (Nat × α)) : Prop where
  heads : ∀ i, s.heads i = ptr (lists i)
  held : ∀ i, IsList s.cells (lists i)
  apart : ∀ i j, i ≠ j → (addrs (lists i)).Disjoint (addrs (lists j))
  within : ∀ i, addrs (lists i) ⊆ U

section Calls
variable {U : List Nat} {s : ListHeap α} {lists : Nat → List (Nat × α)} {rounds : Nat}

theorem ListsHeld.length_le (h : ListsHeld U s lists) (i : Nat) : (lists i).length ≤ U.length := by
  have hle := ((h.held i).distinct.subperm (h.within i)).length_le
  rwa [length_addrs] at hle

/-- List `i` becomes `xs'`, of its own nodes and new ones. -/
theorem ListsHeld.goOn (h : ListsHeld U s lists) {i : Nat} {m' : ListMem α} {xs' : List (Nat × α)}
    {U' : List Nat} (hlist : IsList m' xs')
    (hsub : ∀ a ∈ addrs xs', a ∈ addrs (lists i) ∨ ∀ j, a ∉ addrs (lists j))
    (hframe : ∀ b, b ∉ addrs xs' → m' b = s.cells b) (hU : U ⊆ U') (hxs : addrs xs' ⊆ U') :
    ListsHeld U' (s.goOn i (m', ptr xs')) (Function.update lists i xs') := by
  have hapart : ∀ j, j ≠ i → (addrs xs').Disjoint (addrs (lists j)) := by
    intro j hj a ha hja
    rcases hsub a ha with ha | ha
    · exact h.apart i j (Ne.symm hj) ha hja
    · exact ha j hja
  refine ⟨fun j => ?_, fun j => ?_, apart_update h.apart hapart, fun j => ?_⟩
  · by_cases hj : j = i
    · subst hj
      rw [Function.update_self]
      exact Function.update_self ..
    · rw [Function.update_of_ne hj]
      exact (Function.update_of_ne hj ..).trans (h.heads j)
  · by_cases hj : j = i
    · subst hj
      rwa [Function.update_self]
    · rw [Function.update_of_ne hj]
      exact (h.held j).congr fun a ha => hframe a fun hx => hapart j hj hx ha
  · by_cases hj : j = i
    · subst hj
      rwa [Function.update_self]
    · rw [Function.update_of_ne hj]
      exact List.Subset.trans (h.within j) hU

theorem ListsHeld.giveUp (h : ListsHeld U s lists) (j : Nat) :
    ListsHeld U (s.giveUp j) (Function.update lists j []) := by
  have hgo := h.goOn (i := j) (isList_nil s.cells) (fun a ha => nomatch ha) (fun _ _ => rfl)
    (List.Subset.refl U) (List.nil_subset U)
  exact hgo

/-- List `i` becomes `xs'`, which has a new node. -/
theorem ListsHeld.insert (h : ListsHeld U s lists) {n i : Nat} (hn : ∀ j, n ∉ addrs (lists j))
    {r : Option (ListMem α × Option Nat)} {xs' : List (Nat × α)}
    (hr : ∃ m', r = some (m', ptr xs') ∧ IsList m' xs' ∧ ∀ b, b ∉ addrs xs' → m' b = s.cells b)
    (hperm : (addrs xs').Perm (n :: addrs (lists i))) :
    ∃ s' U', r.map (s.goOn i) = some s' ∧ U'.length ≤ U.length + 1 ∧
      ListsHeld U' s' (Function.update lists i xs') := by
  obtain ⟨m', rfl, hlist, hframe⟩ := hr
  refine ⟨_, n :: U, rfl, Nat.le_refl _, h.goOn hlist (fun a ha => ?_) hframe
    (List.subset_cons_self ..) fun a ha => ?_⟩
  · rcases List.mem_cons.mp (hperm.mem_iff.mp ha) with rfl | ha
    · exact Or.inr hn
    · exact Or.inl ha
  · rcases List.mem_cons.mp (hperm.mem_iff.mp ha) with rfl | ha
    · exact List.mem_cons_self
    · exact List.mem_cons_of_mem _ (h.within i ha)

theorem perm_insert (xs ys : List (Nat × α)) (n : Nat) (data : α) :
    (addrs (xs ++ (n, data) :: ys)).Perm (n :: addrs (xs ++ ys)) := by
  rw [addrs_append, addrs_append]
  exact List.perm_middle

theorem addBefore_step (h : ListsHeld U s lists) {i n node : Nat} (hn : ∀ j, n ∉ addrs (lists j))
    (hnode : node ∈ addrs (lists i)) (data : α) :
    ∃ s' U', (listAddBefore rounds s.cells (s.heads i) data (some node) n).map (s.goOn i) = some s' ∧
      U'.length ≤ U.length + 1 ∧
      ListsHeld U' s' (Function.update lists i (insertBefore node (n, data) (lists i))) := by
  obtain ⟨ys, x, zs, hxs, rfl, hys, -⟩ := exists_split hnode (h.held i).distinct
  have hnew := hn i
  have hlist := h.held i
  rw [hxs] at hnew hlist
  refine h.insert hn ?_ ?_
  · rw [h.heads i, hxs, insertBefore_split hys]
    exact listAddBefore_spec hlist data hnew
  · rw [hxs, insertBefore_split hys]
    exact perm_insert ..

theorem addAfter_step (h : ListsHeld U s lists) {i n node : Nat} (hn : ∀ j, n ∉ addrs (lists j))
    (hnode : node ∈ addrs (lists i)) (data : α) :
    ∃ s' U', (listAddAfter s.cells (s.heads i) data (some node) n).map (s.goOn i) = some s' ∧
      U'.length ≤ U.length + 1 ∧
      ListsHeld U' s' (Function.update lists i (insertAfter node (n, data) (lists i))) := by
  obtain ⟨ys, x, zs, hxs, rfl, hys, -⟩ := exists_split hnode (h.held i).distinct
  have hcat : lists i = (ys ++ [x]) ++ zs := by rw [hxs, List.append_cons]
  have hins : insertAfter x.1 (n, data) (lists i) = (ys ++ [x]) ++ (n, data) :: zs := by
    rw [hxs, insertAfter_split hys, List.append_cons]
  have hnew := hn i
  have hlist := h.held i
  rw [hcat] at hnew hlist
  refine h.insert hn ?_ ?_
  · rw [h.heads i, hins, hcat]
    exact listAddAfter_spec hlist (lastPtr_concat ys x) data hnew
  · rw [hins, hcat]
    exact perm_insert ..

theorem prepend_step (h : ListsHeld U s lists) {i n : Nat} (hn : ∀ j, n ∉ addrs (lists j)) (data : α) :
    ∃ s' U', (listPrepend s.cells (s.heads i) data n).map (s.goOn i) = some s' ∧
      U'.length ≤ U.length + 1 ∧
      ListsHeld U' s' (Function.update lists i ((n, data) :: lists i)) := by
  refine h.insert hn ?_ (List.Perm.refl _)
  rw [h.heads i]
  exact listPrepend_spec (h.held i) data (hn i)

theorem append_step (h : ListsHeld U s lists) (hk : U.length < rounds) {i n : Nat}
    (hn : ∀ j, n ∉ addrs (lists j)) (data : α) :
    ∃ s' U', (listAppend rounds s.cells (s.heads i) data n).map (s.goOn i) = some s' ∧
      U'.length ≤ U.length + 1 ∧
      ListsHeld U' s' (Function.update lists i (lists i ++ [(n, data)])) := by
  refine h.insert hn ?_ ?_
  · rw [h.heads i]
    exact listAppend_spec (h.held i) data (hn i) (Nat.lt_of_le_of_lt (h.length_le i) hk)
  · rw [addrs_append]
    exact List.perm_append_singleton ..

theorem remove_step (h : ListsHeld U s lists) {i node : Nat} (hnode : node ∈ addrs (lists i)) :
    ∃ s', (listRemove s.cells (s.heads i) (some node)).map (s.goOn i) = some s' ∧
      ListsHeld U s' (Function.update lists i (removeNode node (lists i))) := by
  obtain ⟨ys, x, zs, hxs, rfl, hys, hzs⟩ := exists_split hnode (h.held i).distinct
  have hlist := h.held i
  rw [hxs] at hlist
  obtain ⟨m', hrun, hlist', hframe⟩ := listRemove_spec hlist
  have hsub : ∀ a ∈ addrs (ys ++ zs), a ∈ addrs (lists i) := by
    rw [hxs, addrs_append, addrs_append, addrs_cons]
    intro a ha
    rw [List.mem_append, List.mem_cons]
    exact (List.mem_append.mp ha).imp_right Or.inr
  rw [h.heads i, hxs, hrun, removeNode_split hys hzs]
  exact ⟨_, rfl, h.goOn hlist' (fun a ha => Or.inl (hsub a ha)) hframe (List.Subset.refl U)
    fun a ha => h.within i (hsub a ha)⟩

theorem join_step (h : ListsHeld U s lists) (hk : U.length < rounds) {i j : Nat} (hij : i ≠ j) :
    ∃ s', (listJoin rounds s.cells (s.heads i) (s.heads j)).map ((s.giveUp j).goOn i) = some s' ∧
      ListsHeld U s' (Function.update (Function.update lists j []) i (lists i ++ lists j)) := by
  obtain ⟨m', hrun, hlist, hframe⟩ := listJoin_spec (h.held i) (h.held j) (h.apart i j hij)
    (Nat.lt_of_le_of_lt (h.length_le i) hk)
  have hmem : ∀ a ∈ addrs (lists i ++ lists j), a ∈ addrs (lists i) ∨ a ∈ addrs (lists j) := by
    intro a ha
    rwa [addrs_append, List.mem_append] at ha
  rw [h.heads i, h.heads j, hrun]
  refine ⟨_, rfl, (h.giveUp j).goOn hlist (fun a ha => ?_) hframe (List.Subset.refl U) fun a ha => ?_⟩
  · -- the nodes of the second list are in no other one
    rw [Function.update_of_ne hij]
    refine (hmem a ha).imp_right fun ha k hk => ?_
    by_cases hkj : k = j
    · subst hkj
      rw [Function.update_self] at hk
      cases hk
    · rw [Function.update_of_ne hkj] at hk
      exact h.apart j k (Ne.symm hkj) ha hk
  · rcases hmem a ha with ha | ha
    · exact h.within i ha
    · exact h.within j ha

/-- One call. -/
theorem call_spec (h : ListsHeld U s lists) (hk : U.length < rounds) (call : ListCall α)
    (ha : call.Allowed lists) :
    ∃ s' U', call.run rounds s = some s' ∧ U'.length ≤ U.length + 1 ∧
      ListsHeld U' s' (call.seqs lists) := by
  cases call with
  | prepend i data n => exact prepend_step h ha data
  | append i data n => exact append_step h hk ha data
  | addBefore i data node n =>
    cases node with
    | none =>
      rw [ListCall.run, listAddBefore_null]
      exact append_step h hk ha.1 data
    | some node => exact addBefore_step h ha.1 (ha.2 node rfl) data
  | addAfter i data node n =>
    cases node with
    | none => exact prepend_step h ha.1 data
    | some node => exact addAfter_step h ha.1 (ha.2 node rfl) data
  | remove i node =>
    obtain ⟨s', hrun, h'⟩ := remove_step h ha
    exact ⟨s', U, hrun, Nat.le_succ _, h'⟩
  | join i j =>
    obtain ⟨s', hrun, h'⟩ := join_step h hk ha
    exact ⟨s', U, hrun, Nat.le_succ _, h'⟩

theorem runListCalls_spec {calls : List (ListCall α)} (h : ListsHeld U s lists)
    (hk : U.length + calls.length < rounds) (ha : AllAllowed lists calls) :
    ∃ s' U', runListCalls rounds s calls = some s' ∧ U'.length < rounds ∧
      ListsHeld U' s' (calls.foldl ListCall.seqs lists) := by
  induction calls generalizing U s lists with
  | nil => exact ⟨s, U, rfl, hk, h⟩
  | cons call calls ih =>
    rw [List.length_cons] at hk
    have hlt : U.length < rounds := by omega
    obtain ⟨s₁, U₁, hrun, hU₁, h₁⟩ := call_spec h hlt call ha.1
    obtain ⟨s', U', hruns, hU', h'⟩ := ih h₁ (by omega) ha.2
    exact ⟨s', U', by simp [runListCalls, hrun, hruns], hU', h'⟩

/-- **Every history.** After any calls, in any memory, each list reads as the sequence that
the corresponding operations make, in both directions. -/
theorem lists_history {calls : List (ListCall α)} (hk : calls.length < rounds)
    (ha : AllAllowed (fun _ => []) calls) (m : ListMem α) :
    ∃ s, runListCalls rounds ⟨m, fun _ => listNew⟩ calls = some s ∧
      ∀ i, ReadsAs rounds s.cells (s.heads i) (calls.foldl ListCall.seqs (fun _ => []) i) := by
  have hnew : ListsHeld [] ⟨m, fun _ => listNew⟩ fun _ => ([] : List (Nat × α)) :=
    ⟨fun _ => rfl, fun _ => isList_nil m, (fun _ _ _ _ h => nomatch h), fun _ => List.nil_subset _⟩
  obtain ⟨s, U, hrun, hU, h⟩ := runListCalls_spec hnew (by simpa using hk) ha
  refine ⟨s, hrun, fun i => ?_⟩
  rw [h.heads i]
  exact readsAs_of_isList (h.held i) (Nat.lt_of_le_of_lt (h.length_le i) hU)

end Calls

/-- Insertions at both ends and around nodes, a join, and a removal of the head. -/
def someListCalls : List (ListCall Char) :=
  [.addBefore 0 'a' none 1, .addBefore 0 'b' (some 1) 2, .addAfter 0 'c' (some 2) 3,
    .append 1 'd' 4, .join 0 1, .remove 0 2, .prepend 1 'e' 2]

theorem allAllowed_some : AllAllowed (fun _ => []) someListCalls := by
  simp [someListCalls, AllAllowed, ListCall.Allowed, ListCall.seqs, insertBefore, insertAfter,
    removeNode, Function.update_apply]
  refine ⟨fun j => ?_, fun j => ?_, fun j => ?_, fun j => ?_⟩
  all_goals by_cases h0 : j = 0 <;> by_cases h1 : j = 1 <;> simp [h0, h1]

theorem lists_history_some :
    ∃ s, runListCalls 8 ⟨fun _ => none, fun _ => listNew⟩ someListCalls = some s ∧
      ∀ i, ReadsAs 8 s.cells (s.heads i) (someListCalls.foldl ListCall.seqs (fun _ => []) i) :=
  lists_history (by decide) allAllowed_some _

example : (runListCalls 8 ⟨fun _ => none, fun _ => listNew⟩ someListCalls).bind
    (fun s => follow ListCell.next s.cells 8 (s.heads 0)) = some [(3, 'c'), (1, 'a'), (4, 'd')] := by
  decide

end Sighttpd.L1
