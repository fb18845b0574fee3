import Sighttpd.L1Data.Lists
import Sighttpd.L3Config.CfgRead

/-!
# Blocks and their scopes (`cfg-read.c`)

The callbacks in memory: `block_dict` is a pointer that may be NULL, dictionaries are
allocated and freed, and `list_join` links the resources of a block behind those that
are there. Calls come in any order.

The dictionary is any that behaves as a map from names, ignoring case (`CaseMap`), and a
module makes at most one resource of it.

* `run_represents`: each call does in memory what the callback of `CfgRead` does.
* `step_scoped`: these keep the scopes apart.
* `cfg_scopes`: after any calls the state is what the scopes say.
-/
namespace Sighttpd.L3
open Sighttpd.CString Sighttpd.L1 LinkedList

/-! ## Parameters -/

/-- A dictionary that behaves as a map from names, ignoring case. -/
structure CaseMap (δ : Type) where
  new : δ
  insert : δ → Bytes → Bytes → δ
  lookup : δ → Bytes → Option Bytes
  lookup_new : ∀ q, lookup new q = none
  lookup_insert : ∀ d name value q,
    lookup (insert d name value) q = if lower q = lower name then some value else lookup d q

/-- The constructors of the resources, and the modules that may be left out. -/
structure ResourceModules (ρ : Type) where
  statictextResource : Bytes → Bytes → Bytes → ρ
  fdstreamResource : Bytes → Bytes → Option ρ
  oggstdinResources : Option ((Bytes → Option Bytes) → Option ρ)
  shrecordResources : Option ((Bytes → Option Bytes) → Option ρ)

variable {δ ρ : Type}

/-! ## Model -/

/-- The memory and the members of `struct cfg`. -/
structure CfgState (δ ρ : Type) where
  dicts : Memory δ
  cells : ListMem ρ
  dictionary : Nat
  blockDict : Option Nat
  resources : Option Nat

section Modules
variable (mods : ResourceModules ρ) (rounds : Nat)

/-- The resource of a StaticText block; mirrors src/statictext.c:90-97 -/
def statictextYield (config : Bytes → Option Bytes) : Option ρ :=
  let ctype := (config (ascii "Type")).getD (ascii "text/plain")
  match config (ascii "Path"), config (ascii "Text") with
  | some path, some text => some (mods.statictextResource path text ctype)
  | _, _ => none

/-- The resource of a Stdin block; mirrors src/fdstream.c:145-151 -/
def fdstreamYield (config : Bytes → Option Bytes) : Option ρ :=
  let ctype := (config (ascii "Type")).getD (ascii "video/mp4")
  match config (ascii "Path") with
  | some path => mods.fdstreamResource path ctype
  | none => none

/-- A new list with the resource, if there is one: mirrors `l = list_new ()` and
`list_append (l, r)` in the `*_resources` functions. `malloc` returns `n`. -/
def resourceList (m : ListMem ρ) (n : Nat) (r : Option ρ) : Option (ListMem ρ × Option Nat) :=
  match r with
  | some r => listAppend rounds m listNew r n
  | none => some (m, listNew)

/-- mirrors src/statictext.c:80-100 (`statictext_resources`) -/
def statictextResources (m : ListMem ρ) (n : Nat) (config : Bytes → Option Bytes) :
    Option (ListMem ρ × Option Nat) := resourceList rounds m n (statictextYield mods config)

/-- mirrors src/fdstream.c:135-158 (`fdstream_resources`) -/
def fdstreamResources (m : ListMem ρ) (n : Nat) (config : Bytes → Option Bytes) :
    Option (ListMem ρ × Option Nat) := resourceList rounds m n (fdstreamYield mods config)

/-- mirrors src/cfg-read.c:43-55: `cfg->resources` joined with the resources of the block -/
def joinResources (name : Bytes) (config : Bytes → Option Bytes) (n : Nat) (m : ListMem ρ)
    (resources : Option Nat) : Option (ListMem ρ × Option Nat) :=
  let join (list : Option (ListMem ρ × Option Nat)) : Option (ListMem ρ × Option Nat) := do
    let (m, l) ← list
    listJoin rounds m resources l
  if strncasecmp name (ascii "StaticText") 10 = 0 then
    join (statictextResources mods rounds m n config)
  else if strncasecmp name (ascii "Stdin") 5 = 0 then join (fdstreamResources mods rounds m n config)
  else if mods.oggstdinResources.isSome ∧ strncasecmp name (ascii "OggStdin") 8 = 0 then
    join (resourceList rounds m n (mods.oggstdinResources.bind (· config)))
  else if mods.shrecordResources.isSome ∧ strncasecmp name (ascii "SHRecord") 8 = 0 then
    join (resourceList rounds m n (mods.shrecordResources.bind (· config)))
  else some (m, resources)

/-- A call of the parser, with the address of the dictionary or list node it allocates. -/
inductive CfgCall where
  | blockStart (name : Bytes) (dict : Nat)
  | assign (name value : Bytes)
  | blockEnd (name : Bytes) (node : Nat)

namespace InMemory
variable (maps : CaseMap δ)

/-- mirrors src/cfg-read.c:18-31 (`cfg_read_block_start`) -/
def cfgReadBlockStart (cfg : CfgState δ ρ) (dict : Nat) : CopaStatus × CfgState δ ρ :=
  if cfg.blockDict.isSome then (.stopErr, cfg)
  else (.ok, { cfg with dicts := cfg.dicts.alloc dict maps.new, blockDict := some dict })

/-- mirrors src/cfg-read.c:33-61 (`cfg_read_block_end`) -/
def cfgReadBlockEnd (name : Bytes) (cfg : CfgState δ ρ) (n : Nat) :
    Option (CopaStatus × CfgState δ ρ) :=
  match cfg.blockDict with
  | none => some (.stopErr, cfg)
  | some p => do
    let config := maps.lookup (← cfg.dicts p)
    let (m, resources) ← joinResources mods rounds name config n cfg.cells cfg.resources
    some (.ok, { cfg with
      dicts := cfg.dicts.free p, cells := m, blockDict := none, resources := resources })

/-- mirrors src/cfg-read.c:63-77 (`cfg_read_assign`) -/
def cfgReadAssign (name value : Bytes) (cfg : CfgState δ ρ) : Option (CopaStatus × CfgState δ ρ) := do
  let dict := match cfg.blockDict with
    | some p => p
    | none => cfg.dictionary
  let dicts ← cfg.dicts.modify dict fun d => maps.insert d name value
  some (.ok, { cfg with dicts := dicts })

def run (cfg : CfgState δ ρ) : CfgCall → Option (CopaStatus × CfgState δ ρ)
  | .blockStart _ dict => some (cfgReadBlockStart maps cfg dict)
  | .assign name value => cfgReadAssign maps name value cfg
  | .blockEnd name node => cfgReadBlockEnd mods rounds maps name cfg node

/-- The calls go on whatever they return. -/
def runCalls : CfgState δ ρ → List CfgCall → Option (List CopaStatus × CfgState δ ρ)
  | cfg, [] => some ([], cfg)
  | cfg, call :: calls => do
    let (status, cfg) ← run mods rounds maps cfg call
    let (statuses, cfg) ← runCalls cfg calls
    some (status :: statuses, cfg)

/-- The address the call comes with is not in use. -/
def fresh (cfg : CfgState δ ρ) : CfgCall → Bool
  | .blockStart _ dict => cfg.blockDict.isSome || (cfg.dicts dict).isNone
  | .assign _ _ => true
  | .blockEnd _ node => (cfg.cells node).isNone

/-- `malloc` returns addresses that are not in use. -/
def mallocFresh : CfgState δ ρ → List CfgCall → Bool
  | _, [] => true
  | cfg, call :: calls =>
    fresh cfg call &&
    (match run mods rounds maps cfg call with
      | some (_, cfg) => mallocFresh cfg calls
      | none => true)

/-- mirrors src/cfg-read.c:85-90: the fresh `cfg` of `cfg_read`, its dictionary at `dict` -/
def freshCfg (dict : Nat) : CfgState δ ρ where
  dicts := Memory.alloc (fun _ => none) dict maps.new
  cells := fun _ => none
  dictionary := dict
  blockDict := none
  resources := listNew

end InMemory

/-! ## Resources of a block -/

/-- What a block of that name yields. -/
def blockYield (name : Bytes) (config : Bytes → Option Bytes) : Option ρ :=
  if strncasecmp name (ascii "StaticText") 10 = 0 then statictextYield mods config
  else if strncasecmp name (ascii "Stdin") 5 = 0 then fdstreamYield mods config
  else if mods.oggstdinResources.isSome ∧ strncasecmp name (ascii "OggStdin") 8 = 0 then
    mods.oggstdinResources.bind (· config)
  else if mods.shrecordResources.isSome ∧ strncasecmp name (ascii "SHRecord") 8 = 0 then
    mods.shrecordResources.bind (· config)
  else none

/-- The modules as `CfgRead` takes them. -/
def cfgModules (maps : CaseMap δ) : CfgModules δ ρ where
  dictionaryNew := maps.new
  dictionaryInsert := maps.insert
  statictextResources d := (statictextYield mods (maps.lookup d)).toList
  fdstreamResources d := (fdstreamYield mods (maps.lookup d)).toList
  oggstdinResources := mods.oggstdinResources.map fun f d => (f (maps.lookup d)).toList
  shrecordResources := mods.shrecordResources.map fun f d => (f (maps.lookup d)).toList

theorem blockResources_cfgModules (maps : CaseMap δ) (name : Bytes) (d : δ) :
    blockResources (cfgModules mods maps) name d = (blockYield mods name (maps.lookup d)).toList := by
  have hparam : ∀ o : Option ((Bytes → Option Bytes) → Option ρ),
      ((o.map fun f d => (f (maps.lookup d)).toList).map (· d)).getD [] =
        (o.bind (· (maps.lookup d))).toList := fun o => by cases o <;> rfl
  simp only [blockResources, cfgModules, blockYield, hparam, Option.isSome_map]
  split
  · rfl
  · split
    · rfl
    · split
      · rfl
      · split <;> rfl

variable {mods} {rounds}

/-- A list with at most one resource, joined behind those that are there. -/
theorem join_resourceList {m : ListMem ρ} {xs : List (Nat × ρ)} (hx : IsList m xs) {n : Nat}
    (hn : m n = none) (hk : xs.length < rounds) (r : Option ρ) :
    ∃ m' xs', (resourceList rounds m n r >>= fun l => listJoin rounds l.1 (ptr xs) l.2) =
        some (m', ptr xs') ∧ IsList m' xs' ∧ xs'.map Prod.snd = xs.map Prod.snd ++ r.toList := by
  cases r with
  | none =>
    obtain ⟨m', hjoin, hlist, -⟩ :=
      listJoin_spec hx (isList_nil m) (List.disjoint_nil_right _) hk
    exact ⟨m', xs ++ [], hjoin, hlist, by simp⟩
  | some r =>
    have hnx := hx.fresh hn
    have hx' : IsList (listNodeNew m n r) xs :=
      hx.congr fun a ha => listNodeNew_of_ne r fun he => hnx (he ▸ ha)
    obtain ⟨m', hjoin, hlist, -⟩ :=
      listJoin_spec hx' (isList_nodeNew m n r) (by simpa using hnx) hk
    exact ⟨m', xs ++ [(n, r)], hjoin, hlist, by simp⟩

variable (mods) in
theorem joinResources_spec {m : ListMem ρ} {xs : List (Nat × ρ)} (hx : IsList m xs) {n : Nat}
    (hn : m n = none) (hk : xs.length < rounds) (name : Bytes) (config : Bytes → Option Bytes) :
    ∃ m' xs', joinResources mods rounds name config n m (ptr xs) = some (m', ptr xs') ∧
      IsList m' xs' ∧ xs'.map Prod.snd = xs.map Prod.snd ++ (blockYield mods name config).toList := by
  rw [joinResources, blockYield]
  split
  · exact join_resourceList hx hn hk _
  · split
    · exact join_resourceList hx hn hk _
    · split
      · exact join_resourceList hx hn hk _
      · split
        · exact join_resourceList hx hn hk _
        · exact ⟨m, xs, rfl, hx, by simp⟩

end Modules

/-! ## The memory represents a configuration -/

/-- The callback on the configuration as a value. -/
def CfgCall.step (m : CfgModules δ ρ) (cfg : Cfg δ ρ) : CfgCall → CopaStatus × Cfg δ ρ
  | .blockStart name _ => L3.cfgReadBlockStart m name cfg
  | .assign name value => (.ok, L3.cfgReadAssign m name value cfg)
  | .blockEnd name _ => L3.cfgReadBlockEnd m name cfg

/-- The dictionaries are two objects, and `resources` is the list `xs`. -/
structure Represents (st : CfgState δ ρ) (cfg : Cfg δ ρ) (xs : List (Nat × ρ)) : Prop where
  dictionary : st.dicts st.dictionary = some cfg.dictionary
  blockDict : st.blockDict.map st.dicts = cfg.blockDict.map some
  apart : st.blockDict ≠ some st.dictionary
  root : st.resources = ptr xs
  list : IsList st.cells xs
  data : xs.map Prod.snd = cfg.resources

section Runs
variable {mods : ResourceModules ρ} {rounds : Nat} {maps : CaseMap δ} {st st' : CfgState δ ρ}
  {cfg : Cfg δ ρ} {xs : List (Nat × ρ)}

open InMemory

theorem Represents.block (h : Represents st cfg xs) :
    st.blockDict = none ∧ cfg.blockDict = none ∨
      ∃ p d, st.blockDict = some p ∧ cfg.blockDict = some d ∧ st.dicts p = some d ∧
        p ≠ st.dictionary := by
  have hb := h.blockDict
  cases hp : st.blockDict with
  | none =>
    rw [hp] at hb
    cases hd : cfg.blockDict with
    | none => exact Or.inl ⟨rfl, rfl⟩
    | some d => rw [hd] at hb; cases hb
  | some p =>
    rw [hp] at hb
    cases hd : cfg.blockDict with
    | none => rw [hd] at hb; cases hb
    | some d =>
      rw [hd] at hb
      exact Or.inr ⟨p, d, rfl, rfl, Option.some.inj hb, fun he => h.apart (he ▸ hp)⟩

theorem represents_fresh (maps : CaseMap δ) (dict : Nat) :
    Represents (freshCfg maps dict : CfgState δ ρ) ⟨maps.new, none, []⟩ [] where
  dictionary := Memory.alloc_self (fun _ => none) dict maps.new
  blockDict := rfl
  apart := by simp [freshCfg]
  root := rfl
  list := isList_nil _
  data := rfl

variable (mods maps) in
theorem blockStart_represents (h : Represents st cfg xs) (name : Bytes) {dict : Nat}
    (hm : fresh st (.blockStart name dict)) :
    (InMemory.cfgReadBlockStart maps st dict).1 =
        (L3.cfgReadBlockStart (cfgModules mods maps) name cfg).1 ∧
      Represents (InMemory.cfgReadBlockStart maps st dict).2
        (L3.cfgReadBlockStart (cfgModules mods maps) name cfg).2 xs := by
  rcases h.block with ⟨hp, hd⟩ | ⟨p, d, hp, hd, -, -⟩
  · have hnew : st.dicts dict = none := by simpa [fresh, hp] using hm
    have hne : st.dictionary ≠ dict := fun he => by
      have := h.dictionary
      rw [he, hnew] at this
      cases this
    simp only [InMemory.cfgReadBlockStart, L3.cfgReadBlockStart, hp, hd, Option.isSome_none,
      Bool.false_eq_true, if_false]
    exact ⟨trivial,
      { dictionary := (Memory.alloc_of_ne _ hne).trans h.dictionary
        blockDict := congrArg some (Memory.alloc_self ..)
        apart := fun he => hne (Option.some.inj he).symm
        root := h.root
        list := h.list
        data := h.data }⟩
  · simp only [InMemory.cfgReadBlockStart, L3.cfgReadBlockStart, hp, hd, Option.isSome_some, if_true]
    exact ⟨trivial, h⟩

theorem assign_represents (h : Represents st cfg xs) (name value : Bytes) :
    ∃ st', InMemory.cfgReadAssign maps name value st = some (.ok, st') ∧
      Represents st' (L3.cfgReadAssign (cfgModules mods maps) name value cfg) xs := by
  rcases h.block with ⟨hp, hd⟩ | ⟨p, d, hp, hd, hdict, hne⟩
  · refine ⟨_, by simp [InMemory.cfgReadAssign, hp, Memory.modify_eq h.dictionary]; rfl, ?_⟩
    rw [L3.cfgReadAssign, hd]
    exact
      { dictionary := Function.update_self ..
        blockDict := rfl
        apart := fun he => (by cases he)
        root := h.root
        list := h.list
        data := h.data }
  · refine ⟨_, by simp [InMemory.cfgReadAssign, hp, Memory.modify_eq hdict]; rfl, ?_⟩
    rw [L3.cfgReadAssign, hd]
    exact
      { dictionary := (Function.update_of_ne (Ne.symm hne) _ _).trans h.dictionary
        blockDict := congrArg some (Function.update_self ..)
        apart := fun he => hne (Option.some.inj he)
        root := h.root
        list := h.list
        data := h.data }

theorem blockEnd_represents (h : Represents st cfg xs) (hk : xs.length < rounds) (name : Bytes)
    {node : Nat} (hm : st.cells node = none) :
    ∃ st' xs', InMemory.cfgReadBlockEnd mods rounds maps name st node =
        some ((L3.cfgReadBlockEnd (cfgModules mods maps) name cfg).1, st') ∧
      Represents st' (L3.cfgReadBlockEnd (cfgModules mods maps) name cfg).2 xs' := by
  rcases h.block with ⟨hp, hd⟩ | ⟨p, d, hp, hd, hdict, hne⟩
  · refine ⟨st, xs, ?_, ?_⟩
    · rw [InMemory.cfgReadBlockEnd, hp, L3.cfgReadBlockEnd, hd]
    · rw [L3.cfgReadBlockEnd, hd]
      exact h
  · obtain ⟨m', xs', hjoin, hlist, hdata⟩ :=
      joinResources_spec mods h.list hm hk name (maps.lookup d)
    refine ⟨_, xs', by simp [InMemory.cfgReadBlockEnd, hp, hdict, h.root, hjoin,
      L3.cfgReadBlockEnd, hd]; rfl, ?_⟩
    rw [L3.cfgReadBlockEnd, hd]
    exact
      { dictionary := (Memory.free_of_ne (Ne.symm hne)).trans h.dictionary
        blockDict := rfl
        apart := fun he => (by cases he)
        root := rfl
        list := hlist
        data := by rw [hdata, h.data, ← blockResources_cfgModules] }

variable (mods maps) in
/-- One call. -/
theorem run_represents (h : Represents st cfg xs) (hk : xs.length < rounds) {call : CfgCall}
    (hm : fresh st call) :
    ∃ st' xs', run mods rounds maps st call =
        some ((call.step (cfgModules mods maps) cfg).1, st') ∧
      Represents st' (call.step (cfgModules mods maps) cfg).2 xs' := by
  cases call with
  | blockStart name dict =>
    obtain ⟨hstatus, h'⟩ := blockStart_represents mods maps h name hm
    exact ⟨_, xs, congrArg some (Prod.ext hstatus rfl), h'⟩
  | assign name value =>
    obtain ⟨st', hrun, h'⟩ := assign_represents h name value
    exact ⟨st', xs, hrun, h'⟩
  | blockEnd name node =>
    exact blockEnd_represents h hk name (Option.isNone_iff_eq_none.mp hm)

/-! ## Scopes -/

/-- The map a sequence of assignments makes. -/
def assigned (own : List (Bytes × Bytes)) : Bytes → Option Bytes :=
  own.foldl (fun f a q => if lower q = lower a.1 then some a.2 else f q) fun _ => none

/-- The assignments outside blocks, those of the open block, and the ended blocks, each with
its end name and its own assignments. -/
structure Scopes where
  globals : List (Bytes × Bytes)
  current : Option (List (Bytes × Bytes))
  blocks : List (Bytes × List (Bytes × Bytes))

namespace Scopes

def fresh : Scopes := ⟨[], none, []⟩

def step (s : Scopes) : CfgCall → CopaStatus × Scopes
  | .blockStart _ _ =>
    match s.current with
    | none => (.ok, { s with current := some [] })
    | some _ => (.stopErr, s)
  | .assign name value =>
    match s.current with
    | none => (.ok, { s with globals := s.globals ++ [(name, value)] })
    | some own => (.ok, { s with current := some (own ++ [(name, value)]) })
  | .blockEnd name _ =>
    match s.current with
    | none => (.stopErr, s)
    | some own => (.ok, { s with current := none, blocks := s.blocks ++ [(name, own)] })

def run : Scopes → List CfgCall → List CopaStatus × Scopes
  | s, [] => ([], s)
  | s, call :: calls => ((s.step call).1 :: (run (s.step call).2 calls).1, (run (s.step call).2 calls).2)

/-- The resources of the ended blocks, in their order. -/
def resources (mods : ResourceModules ρ) (s : Scopes) : List ρ :=
  s.blocks.flatMap fun b => (blockYield mods b.1 (assigned b.2)).toList

end Scopes

/-- Dictionaries hold what is assigned in their scope. -/
structure Scoped (mods : ResourceModules ρ) (maps : CaseMap δ) (cfg : Cfg δ ρ) (s : Scopes) :
    Prop where
  globals : maps.lookup cfg.dictionary = assigned s.globals
  current : cfg.blockDict.map maps.lookup = s.current.map assigned
  resources : cfg.resources = s.resources mods

theorem assigned_concat (own : List (Bytes × Bytes)) (a : Bytes × Bytes) (q : Bytes) :
    assigned (own ++ [a]) q = if lower q = lower a.1 then some a.2 else assigned own q := by
  rw [assigned, List.foldl_append]
  rfl

theorem lookup_insert_assigned {d : δ} {own : List (Bytes × Bytes)}
    (h : maps.lookup d = assigned own) (name value : Bytes) :
    maps.lookup (maps.insert d name value) = assigned (own ++ [(name, value)]) := by
  funext q
  rw [maps.lookup_insert, assigned_concat, h]

theorem step_scoped {s : Scopes} (h : Scoped mods maps cfg s) (call : CfgCall) :
    (call.step (cfgModules mods maps) cfg).1 = (s.step call).1 ∧
      Scoped mods maps (call.step (cfgModules mods maps) cfg).2 (s.step call).2 := by
  have hcur := h.current
  cases hd : cfg.blockDict with
  | none =>
    have hs : s.current = none := by
      cases e : s.current with
      | none => rfl
      | some own => rw [hd, e] at hcur; cases hcur
    cases call with
    | blockStart name dict =>
      simp only [CfgCall.step, L3.cfgReadBlockStart, Scopes.step, hd, hs, Option.isSome_none,
        Bool.false_eq_true, if_false]
      exact ⟨trivial, h.globals, congrArg some (funext maps.lookup_new), h.resources⟩
    | assign name value =>
      simp only [CfgCall.step, L3.cfgReadAssign, Scopes.step, hd, hs]
      exact ⟨trivial, lookup_insert_assigned h.globals name value, rfl, h.resources⟩
    | blockEnd name node =>
      simp only [CfgCall.step, L3.cfgReadBlockEnd, Scopes.step, hd, hs]
      exact ⟨trivial, h⟩
  | some d =>
    obtain ⟨own, hs, hown⟩ : ∃ own, s.current = some own ∧ maps.lookup d = assigned own := by
      cases e : s.current with
      | none => rw [hd, e] at hcur; cases hcur
      | some own => rw [hd, e] at hcur; exact ⟨own, rfl, Option.some.inj hcur⟩
    cases call with
    | blockStart name dict =>
      simp only [CfgCall.step, L3.cfgReadBlockStart, Scopes.step, hd, hs, Option.isSome_some, if_true]
      exact ⟨trivial, h⟩
    | assign name value =>
      simp only [CfgCall.step, L3.cfgReadAssign, Scopes.step, hd, hs]
      exact ⟨trivial, h.globals, congrArg some (lookup_insert_assigned hown name value), h.resources⟩
    | blockEnd name node =>
      simp only [CfgCall.step, L3.cfgReadBlockEnd, Scopes.step, hd, hs]
      refine ⟨trivial, h.globals, rfl, ?_⟩
      rw [blockResources_cfgModules, hown, h.resources, Scopes.resources, Scopes.resources,
        List.flatMap_append, List.flatMap_singleton]

theorem length_resources_le (mods : ResourceModules ρ) (s : Scopes) :
    (s.resources mods).length ≤ s.blocks.length := by
  rw [Scopes.resources]
  induction s.blocks with
  | nil => simp
  | cons b blocks ih =>
    rw [List.flatMap_cons, List.length_append, List.length_cons]
    have hone := Option.length_toList_le (o := blockYield mods b.1 (assigned b.2))
    omega

theorem length_blocks_step (s : Scopes) (call : CfgCall) :
    (s.step call).2.blocks.length ≤ s.blocks.length + 1 := by
  cases call <;> cases h : s.current <;> simp [Scopes.step, h]

theorem runCalls_spec {s : Scopes} {calls : List CfgCall} (h : Represents st cfg xs)
    (hs : Scoped mods maps cfg s) (hk : s.blocks.length + calls.length < rounds)
    (hm : mallocFresh mods rounds maps st calls) :
    ∃ st' cfg' xs', runCalls mods rounds maps st calls = some ((s.run calls).1, st') ∧
      Represents st' cfg' xs' ∧ Scoped mods maps cfg' (s.run calls).2 := by
  induction calls generalizing st cfg xs s with
  | nil => exact ⟨st, cfg, xs, rfl, h, hs⟩
  | cons call calls ih =>
    obtain ⟨hnew, hm⟩ := Bool.and_eq_true_iff.mp hm
    rw [List.length_cons] at hk
    have hxs : xs.length < rounds := by
      have hle := length_resources_le mods s
      rw [← hs.resources, ← h.data, List.length_map] at hle
      omega
    obtain ⟨st₁, xs₁, hrun, h₁⟩ := run_represents mods maps h hxs hnew
    obtain ⟨hstatus, hs₁⟩ := step_scoped hs call
    have hblocks := length_blocks_step s call
    simp only [hrun] at hm
    obtain ⟨st', cfg', xs', hruns, h', hs'⟩ := ih h₁ hs₁ (by omega) hm
    refine ⟨st', cfg', xs', ?_, h', hs'⟩
    simp [runCalls, hrun, hruns, hstatus, Scopes.run]

/-- The members of `struct cfg` are what the scopes say. -/
structure InScope (mods : ResourceModules ρ) (maps : CaseMap δ) (st : CfgState δ ρ) (s : Scopes) :
    Prop where
  block : st.blockDict = none ↔ s.current = none
  globals : ∃ d, st.dicts st.dictionary = some d ∧ maps.lookup d = assigned s.globals
  current : ∀ own, s.current = some own → ∃ p d, st.blockDict = some p ∧ p ≠ st.dictionary ∧
    st.dicts p = some d ∧ maps.lookup d = assigned own
  resources : ∃ xs, IsList st.cells xs ∧ st.resources = ptr xs ∧
    xs.map Prod.snd = s.resources mods

theorem inScope_of_represents {s : Scopes} (h : Represents st cfg xs)
    (hs : Scoped mods maps cfg s) : InScope mods maps st s := by
  have hcur := hs.current
  refine ⟨?_, ⟨_, h.dictionary, hs.globals⟩, fun own hown => ?_,
    ⟨xs, h.list, h.root, h.data.trans hs.resources⟩⟩
  · rw [← Option.map_eq_none_iff (f := st.dicts), h.blockDict, Option.map_eq_none_iff,
      ← Option.map_eq_none_iff (f := maps.lookup), hcur, Option.map_eq_none_iff]
  · rcases h.block with ⟨-, hd⟩ | ⟨p, d, hp, hd, hdict, hne⟩
    · rw [hd, hown] at hcur
      cases hcur
    · rw [hd, hown] at hcur
      exact ⟨p, d, hp, hne, hdict, Option.some.inj hcur⟩

/-- What `STOP_ERR` and an assignment leave as it is. -/
structure Confined (mods : ResourceModules ρ) (rounds : Nat) (maps : CaseMap δ)
    (st : CfgState δ ρ) : Prop where
  stopErr : ∀ call st', run mods rounds maps st call = some (.stopErr, st') → st' = st
  assign : ∀ name value, ∃ dicts,
    run mods rounds maps st (.assign name value) = some (.ok, { st with dicts := dicts }) ∧
    ∀ p, p ≠ st.blockDict.getD st.dictionary → dicts p = st.dicts p

theorem stopErr_unchanged {call : CfgCall}
    (h : run mods rounds maps st call = some (.stopErr, st')) : st' = st := by
  cases call with
  | blockStart name dict =>
    rw [run, InMemory.cfgReadBlockStart] at h
    split at h
    · cases h; rfl
    · cases h
  | assign name value =>
    rw [run, InMemory.cfgReadAssign] at h
    obtain ⟨d, -, h⟩ := Option.bind_eq_some_iff.mp h
    cases h
  | blockEnd name node =>
    rw [run, InMemory.cfgReadBlockEnd] at h
    split at h
    · cases h; rfl
    · obtain ⟨d, -, h⟩ := Option.bind_eq_some_iff.mp h
      obtain ⟨r, -, h⟩ := Option.bind_eq_some_iff.mp h
      cases h

theorem confined_of_represents (h : Represents st cfg xs) : Confined mods rounds maps st := by
  refine ⟨fun call st' => stopErr_unchanged, fun name value => ?_⟩
  rw [run, InMemory.cfgReadAssign]
  rcases h.block with ⟨hp, -⟩ | ⟨p, d, hp, -, hdict, -⟩
  · rw [hp]
    exact ⟨_, by simp [Memory.modify_eq h.dictionary]; rfl, fun p hne => Function.update_of_ne hne _ _⟩
  · rw [hp]
    exact ⟨_, by simp [Memory.modify_eq hdict]; rfl, fun q hne => Function.update_of_ne hne _ _⟩

/-- **Every order of calls.** The statuses, the open block, both dictionaries and the
resources are what the scopes say, and calls change no more than their own part. -/
theorem cfg_scopes {calls : List CfgCall} {dict : Nat} (hk : calls.length < rounds)
    (hm : mallocFresh mods rounds maps (freshCfg maps dict) calls) :
    ∃ st, runCalls mods rounds maps (freshCfg maps dict) calls =
        some ((Scopes.fresh.run calls).1, st) ∧
      InScope mods maps st (Scopes.fresh.run calls).2 ∧ Confined mods rounds maps st := by
  have hs : Scoped mods maps ⟨maps.new, none, []⟩ Scopes.fresh :=
    ⟨funext maps.lookup_new, rfl, rfl⟩
  have hlen : Scopes.fresh.blocks.length + calls.length < rounds := by simpa [Scopes.fresh] using hk
  obtain ⟨st, cfg, xs, hrun, h, hs⟩ := runCalls_spec (represents_fresh maps dict) hs hlen hm
  exact ⟨st, hrun, inScope_of_represents h hs, confined_of_represents h⟩

end Runs

/-- The assignments, the last one first. -/
def assocMap : CaseMap (List (Bytes × Bytes)) where
  new := []
  insert d name value := (name, value) :: d
  lookup d q := (d.find? fun a => lower q = lower a.1).map Prod.snd
  lookup_new _ := rfl
  lookup_insert d name value q := by
    by_cases h : lower q = lower name <;> simp [h]

/-- Resources as their paths. -/
def pathModules : ResourceModules Bytes := ⟨fun path _ _ => path, fun path _ => some path, none, none⟩

/-- A nested start, an end too many, and a Stdin block without a path of its own. -/
def twoBlocks : List CfgCall :=
  [.blockStart (ascii "StaticText") 1, .assign (ascii "path") (ascii "/a"),
    .blockStart (ascii "Stdin") 2, .assign (ascii "TEXT") (ascii "x"),
    .blockEnd (ascii "StaticText") 1, .blockEnd (ascii "Stdin") 2, .assign (ascii "Path") (ascii "/g"),
    .blockStart (ascii "Stdin") 1, .blockEnd (ascii "Stdin") 2,
    .blockStart (ascii "Stdin") 2, .assign (ascii "Path") (ascii "/b"), .blockEnd (ascii "Stdin") 2]

theorem cfg_scopes_twoBlocks :
    ∃ st, InMemory.runCalls pathModules 13 assocMap (InMemory.freshCfg assocMap 0) twoBlocks =
        some ((Scopes.fresh.run twoBlocks).1, st) ∧
      InScope pathModules assocMap st (Scopes.fresh.run twoBlocks).2 ∧
      Confined pathModules 13 assocMap st :=
  cfg_scopes (by decide) (by decide +kernel)

example : (Scopes.fresh.run twoBlocks).2.resources pathModules = [ascii "/a", ascii "/b"] := by
  decide +kernel

end Sighttpd.L3
