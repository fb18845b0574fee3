import Sighttpd.L4Http.Dispatch

/-!
# The encoders of a configuration (`shrecord.c`)

`shrecord_resource` tests `nr_encoders > MAX_ENCODERS` before it takes the element
`encdata[nr_encoders]`, so the ninth block writes behind the array. `shrecord_main` fills in
`argv` and leaves out the `NULL` that ends it: what `execvp` sees there is what the stack
happened to hold.

* `shrecordResources_spec`: what one block does.
* `config_within`, `config_beyond`: the elements that the blocks of a configuration take.
* `encoders_iff`: the arrays are kept to and the arguments are right exactly with eight
  accepted blocks at most and a `NULL` in the slot that is not written.
-/
namespace Sighttpd.L4
open Sighttpd.CString Sighttpd.L1 Sighttpd.Numeral

/-! ## Model -/

/-- mirrors src/shrecord.c:55-65 (`struct encode_data`), without the thread and the ring
buffer; the strings are those that were copied -/
structure EncodeData where
  alive : Bool
  path : Bytes
  ctrlFilename : Bytes
  fifo : Bytes
  fifoPath : Bytes
  deriving DecidableEq, Repr

/-- mirrors src/shrecord.c:67-78 (`struct private_data`), without the thread and the
descriptors. `encdata` goes on with what lies behind the array. -/
structure PrivateData where
  nrEncoders : Nat
  encdata : Nat → EncodeData
  pid : Int
  doPreview : Bool

/-- mirrors src/shrecord.c:413-425 (`shrecord_init`) -/
def shrecordInit : PrivateData := ⟨0, fun _ => ⟨false, [], [], [], []⟩, 0, true⟩

/-- mirrors src/shrecord.c:356-357 -/
def ctrlFilename (pid : Int) (n : Nat) : Bytes :=
  ascii "/tmp/shrecord_ctrl-" ++ decimal pid ++ ascii "." ++ decimal n

/-- mirrors src/shrecord.c:358-359 -/
def fifoName (pid : Int) (n : Nat) : Bytes :=
  ascii "shrecord_fifo-" ++ decimal pid ++ ascii "." ++ decimal n

/-- mirrors src/shrecord.c:340-379 (`shrecord_resource`), when the files and the buffer can be
made; the result is the element of `encdata` that was written, the data of the resource. -/
def shrecordResource (pvt : PrivateData) (path : Bytes) : PrivateData × Option Nat :=
  if pvt.nrEncoders > maxEncoders then (pvt, none)
  else
    let n := pvt.nrEncoders
    let ed : EncodeData :=
      { alive := true, path := path.take maxPathLen, ctrlFilename := ctrlFilename pvt.pid n,
        fifo := fifoName pvt.pid n, fifoPath := ascii "/tmp/" ++ fifoName pvt.pid n }
    ({ pvt with encdata := Function.update pvt.encdata n ed, nrEncoders := n + 1 }, some n)

/-- What a block says about the preview: `on` and `off` are looked for at the front. -/
def previewOf (config : Bytes → Option Bytes) : Option Bool :=
  (config (ascii "Preview")).bind fun preview =>
    if strncasecmp preview (ascii "on") 2 = 0 then some true
    else if strncasecmp preview (ascii "off") 3 = 0 then some false
    else none

/-- mirrors src/shrecord.c:381-411 (`shrecord_resources`) for a block with the dictionary
`config`, in the process `pid` -/
def shrecordResources (pid : Int) (pvt : PrivateData) (config : Bytes → Option Bytes) :
    PrivateData × Option Nat :=
  let pvt := { pvt with pid := pid }
  let r := match config (ascii "Path"), config (ascii "CtlFile") with
    | some path, some _ => shrecordResource pvt path
    | _, _ => (pvt, none)
  match previewOf config with
  | some on => ({ r.1 with doPreview := on }, r.2)
  | none => r

/-- The SHRecord blocks of a configuration in order, with the element each one takes. -/
def shrecordConfig (pid : Int) : PrivateData → List (Bytes → Option Bytes) →
    PrivateData × List (Option Nat)
  | pvt, [] => (pvt, [])
  | pvt, config :: configs =>
    let r := shrecordResources pid pvt config
    let rest := shrecordConfig pid r.1 configs
    (rest.1, r.2 :: rest.2)

/-- The arguments, as far as they have been written, and `n`. A slot is a string or `NULL`. -/
structure Argv where
  slots : Nat → Option Bytes
  n : Nat

/-- `argv[n++] = s` -/
def Argv.push (a : Argv) (s : Bytes) : Argv := ⟨Function.update a.slots a.n (some s), a.n + 1⟩

/-- mirrors src/shrecord.c:154-160, the arguments that `shrecord_main` makes; `stack` is what
the local array held before -/
def shrecordArgv (pvt : PrivateData) (stack : Nat → Option Bytes) : Argv :=
  let argv : Argv := ⟨stack, 0⟩
  let argv := argv.push (ascii "shcodecs-record")
  let argv := if !pvt.doPreview then argv.push (ascii "-P") else argv
  (List.range pvt.nrEncoders).foldl (fun argv i => argv.push (pvt.encdata i).ctrlFilename) argv

/-! ## One block -/

/-- A block with both directives. -/
def accepted (config : Bytes → Option Bytes) : Bool :=
  (config (ascii "Path")).isSome && (config (ascii "CtlFile")).isSome

/-- The elements in use have the control file of their number. -/
def Named (pid : Int) (pvt : PrivateData) : Prop :=
  ∀ i < pvt.nrEncoders, (pvt.encdata i).ctrlFilename = ctrlFilename pid i

theorem named_init (pid : Int) : Named pid shrecordInit := fun i hi => absurd hi (Nat.not_lt_zero i)

section Configs
variable {pid : Int} {pvt : PrivateData}

theorem named_resource (h : Named pid pvt) (hpid : pvt.pid = pid) (path : Bytes) :
    Named pid (shrecordResource pvt path).1 := by
  unfold shrecordResource
  split
  · exact h
  · intro i hi
    dsimp only at hi ⊢
    by_cases hn : i = pvt.nrEncoders
    · rw [hn, Function.update_self, hpid]
    · rw [Function.update_of_ne hn]
      exact h i (by omega)

/-- An accepted block takes the next element as long as the test lets it. -/
theorem shrecordResources_spec (h : Named pid pvt) (config : Bytes → Option Bytes) :
    Named pid (shrecordResources pid pvt config).1 ∧
      (shrecordResources pid pvt config).1.doPreview = (previewOf config).getD pvt.doPreview ∧
      ((shrecordResources pid pvt config).2, (shrecordResources pid pvt config).1.nrEncoders) =
        if accepted config ∧ pvt.nrEncoders ≤ maxEncoders then
          (some pvt.nrEncoders, pvt.nrEncoders + 1)
        else (none, pvt.nrEncoders) := by
  have hnamed : Named pid { pvt with pid := pid } := h
  unfold shrecordResources accepted
  cases hpath : config (ascii "Path") with
  | none => cases previewOf config <;> exact ⟨hnamed, rfl, rfl⟩
  | some path =>
    cases hctl : config (ascii "CtlFile") with
    | none => cases previewOf config <;> exact ⟨hnamed, rfl, rfl⟩
    | some ctlfile =>
      have hres := named_resource hnamed rfl path
      by_cases hfull : pvt.nrEncoders ≤ maxEncoders
      · have hnot : ¬ pvt.nrEncoders > maxEncoders := by omega
        cases previewOf config <;>
          exact ⟨hres, by simp [shrecordResource, hnot], by simp [shrecordResource, hnot, hfull]⟩
      · have hgt : pvt.nrEncoders > maxEncoders := by omega
        cases previewOf config <;>
          exact ⟨hres, by simp [shrecordResource, hgt], by simp [shrecordResource, hgt, hfull]⟩

/-! ## All blocks -/

/-- The last block that says something about the preview decides. -/
theorem config_preview (configs : List (Bytes → Option Bytes)) (h : Named pid pvt) :
    (shrecordConfig pid pvt configs).1.doPreview =
      ((configs.filterMap previewOf).getLast?).getD pvt.doPreview := by
  induction configs generalizing pvt with
  | nil => rfl
  | cons config configs ih =>
    obtain ⟨hnamed, hpreview, -⟩ := shrecordResources_spec h config
    unfold shrecordConfig
    rw [ih hnamed, hpreview, List.filterMap_cons]
    cases previewOf config with
    | none => rfl
    | some on => rw [List.getLast?_cons, Option.getD_some, Option.getD_some]

theorem config_accepted (configs : List (Bytes → Option Bytes)) {config : Bytes → Option Bytes}
    (h : Named pid pvt) (hacc : accepted config = true) (hn : pvt.nrEncoders ≤ maxEncoders) :
    ∃ pvt' : PrivateData, Named pid pvt' ∧ pvt'.nrEncoders = pvt.nrEncoders + 1 ∧
      shrecordConfig pid pvt (config :: configs) = ((shrecordConfig pid pvt' configs).1,
        some pvt.nrEncoders :: (shrecordConfig pid pvt' configs).2) := by
  obtain ⟨hnamed, -, htaken⟩ := shrecordResources_spec h config
  rw [if_pos ⟨hacc, hn⟩, Prod.mk.injEq] at htaken
  exact ⟨_, hnamed, htaken.2, by rw [← htaken.1]; rfl⟩

theorem config_refused (configs : List (Bytes → Option Bytes)) {config : Bytes → Option Bytes}
    (h : Named pid pvt) (hacc : ¬ accepted config = true) :
    ∃ pvt' : PrivateData, Named pid pvt' ∧ pvt'.nrEncoders = pvt.nrEncoders ∧
      shrecordConfig pid pvt (config :: configs) =
        ((shrecordConfig pid pvt' configs).1, none :: (shrecordConfig pid pvt' configs).2) := by
  obtain ⟨hnamed, -, htaken⟩ := shrecordResources_spec h config
  rw [if_neg (fun hboth => hacc hboth.1), Prod.mk.injEq] at htaken
  exact ⟨_, hnamed, htaken.2, by rw [← htaken.1]; rfl⟩

/-- As long as the blocks fit, the accepted ones take the elements in order. -/
theorem config_within {configs : List (Bytes → Option Bytes)} (h : Named pid pvt)
    (hle : pvt.nrEncoders + configs.countP accepted ≤ maxEncoders) :
    Named pid (shrecordConfig pid pvt configs).1 ∧
      (shrecordConfig pid pvt configs).1.nrEncoders = pvt.nrEncoders + configs.countP accepted ∧
      (shrecordConfig pid pvt configs).2.filterMap id =
        List.range' pvt.nrEncoders (configs.countP accepted) := by
  induction configs generalizing pvt with
  | nil => exact ⟨h, rfl, rfl⟩
  | cons config configs ih =>
    by_cases hacc : accepted config = true
    · rw [List.countP_cons_of_pos hacc] at hle ⊢
      obtain ⟨pvt', hnamed, hnext, heq⟩ := config_accepted configs h hacc (by omega)
      obtain ⟨hrest, hnr, helems⟩ := ih hnamed (by omega)
      rw [heq]
      refine ⟨hrest, by rw [hnr]; omega, ?_⟩
      rw [List.range'_succ, ← hnext, ← helems]
      rfl
    · rw [List.countP_cons_of_neg hacc] at hle ⊢
      obtain ⟨pvt', hnamed, hnext, heq⟩ := config_refused configs h hacc
      rw [← hnext] at hle ⊢
      rw [heq]
      exact ih hnamed hle

/-- One accepted block too many takes the element behind the array. -/
theorem config_beyond {configs : List (Bytes → Option Bytes)} (h : Named pid pvt)
    (hn : pvt.nrEncoders ≤ maxEncoders)
    (hlt : maxEncoders < pvt.nrEncoders + configs.countP accepted) :
    some maxEncoders ∈ (shrecordConfig pid pvt configs).2 := by
  induction configs generalizing pvt with
  | nil => exact absurd hlt (Nat.not_lt.2 hn)
  | cons config configs ih =>
    by_cases hacc : accepted config = true
    · rw [List.countP_cons_of_pos hacc] at hlt
      obtain ⟨pvt', hnamed, hnext, heq⟩ := config_accepted configs h hacc hn
      rw [heq]
      by_cases hfull : pvt.nrEncoders = maxEncoders
      · rw [hfull]
        exact List.mem_cons_self
      · exact List.mem_cons_of_mem _ (ih hnamed (by omega) (by omega))
    · rw [List.countP_cons_of_neg hacc] at hlt
      obtain ⟨pvt', hnamed, hnext, heq⟩ := config_refused configs h hacc
      rw [heq]
      exact List.mem_cons_of_mem _ (ih hnamed (by omega) (by omega))

/-- From the start, with at most eight accepted blocks. -/
theorem config_init {configs : List (Bytes → Option Bytes)} (pid : Int)
    (hle : configs.countP accepted ≤ maxEncoders) :
    Named pid (shrecordConfig pid shrecordInit configs).1 ∧
      (shrecordConfig pid shrecordInit configs).1.nrEncoders = configs.countP accepted ∧
      (shrecordConfig pid shrecordInit configs).2.filterMap id =
        List.range (configs.countP accepted) := by
  have hzero : shrecordInit.nrEncoders + configs.countP accepted = configs.countP accepted :=
    Nat.zero_add _
  have hwithin := config_within (named_init pid) (hzero.trans_le hle)
  rw [hzero] at hwithin
  rw [List.range_eq_range']
  exact hwithin

end Configs

/-! ## The arguments -/

/-- The slots are `args` and then what they were. -/
structure Argv.Holds (a : Argv) (args : List Bytes) (stack : Nat → Option Bytes) : Prop where
  n_eq : a.n = args.length
  slots_eq : ∀ k, a.slots k = args[k]?.or (stack k)

theorem Argv.Holds.push {a : Argv} {args : List Bytes} {stack : Nat → Option Bytes}
    (h : a.Holds args stack) (s : Bytes) : (a.push s).Holds (args ++ [s]) stack := by
  refine ⟨by simp [Argv.push, h.n_eq], fun k => ?_⟩
  simp only [Argv.push, Function.update_apply]
  rw [h.n_eq, h.slots_eq]
  by_cases hk : k = args.length
  · rw [if_pos hk, hk, List.getElem?_concat_length]
    rfl
  · rw [if_neg hk]
    rcases Nat.lt_or_gt_of_ne hk with hlt | hgt
    · rw [List.getElem?_append_left hlt]
    · rw [List.getElem?_eq_none (by omega), List.getElem?_eq_none (by simp; omega)]

theorem Argv.Holds.foldl {ι : Type} {a : Argv} {args : List Bytes} {stack : Nat → Option Bytes}
    (h : a.Holds args stack) (f : ι → Bytes) (is : List ι) :
    (is.foldl (fun a i => a.push (f i)) a).Holds (args ++ is.map f) stack := by
  induction is generalizing a args with
  | nil => simpa using h
  | cons i is ih =>
    have hrest := ih (h.push (f i))
    rwa [List.append_assoc, List.singleton_append] at hrest

/-- The arguments that `shcodecs-record` is to be given for `n` encoders. -/
def recordArgs (pid : Int) (preview : Bool) (n : Nat) : List Bytes :=
  [ascii "shcodecs-record"] ++ (if preview then [] else [ascii "-P"]) ++
    (List.range n).map (ctrlFilename pid)

theorem recordArgs_length (pid : Int) (preview : Bool) (n : Nat) :
    (recordArgs pid preview n).length = 1 + (if preview then 0 else 1) + n := by
  unfold recordArgs
  cases preview <;> simp <;> omega

theorem shrecordArgv_holds {pid : Int} {pvt : PrivateData} (h : Named pid pvt)
    (stack : Nat → Option Bytes) :
    (shrecordArgv pvt stack).Holds (recordArgs pid pvt.doPreview pvt.nrEncoders) stack := by
  have hempty : Argv.Holds ⟨stack, 0⟩ [] stack := ⟨rfl, fun k => rfl⟩
  have hname := hempty.push (ascii "shcodecs-record")
  have hfiles : (List.range pvt.nrEncoders).map (fun i => (pvt.encdata i).ctrlFilename) =
      (List.range pvt.nrEncoders).map (ctrlFilename pid) :=
    List.map_congr_left fun i hi => h i (List.mem_range.1 hi)
  unfold shrecordArgv recordArgs
  rw [← hfiles]
  cases pvt.doPreview with
  | true => exact hname.foldl _ _
  | false => exact (hname.push (ascii "-P")).foldl _ _

/-! ## Main result -/

/-- What the configuration says about the preview, which is on at first. -/
def previewOn (configs : List (Bytes → Option Bytes)) : Bool :=
  ((configs.filterMap previewOf).getLast?).getD true

/-- What `execvp` reads: `args` and then a `NULL`, all of it in the array. -/
structure Argv.Ends (a : Argv) (args : List Bytes) : Prop where
  inside : args.length < maxEncoders + 3
  slots_eq : ∀ k ≤ args.length, a.slots k = args[k]?

/-- What is asked of the blocks `configs`, of the loops of `shrecord_main` and of the
arguments that it makes where the local array held `stack` before. -/
structure EncodersSafe (pid : Int) (configs : List (Bytes → Option Bytes))
    (stack : Nat → Option Bytes) : Prop where
  elements : ∀ i, some i ∈ (shrecordConfig pid shrecordInit configs).2 → i < maxEncoders
  order : (shrecordConfig pid shrecordInit configs).2.filterMap id =
    List.range (configs.countP accepted)
  count : ∀ done, done <+: configs →
    (shrecordConfig pid shrecordInit done).1.nrEncoders ≤ maxEncoders
  loops : ∀ i < (shrecordConfig pid shrecordInit configs).1.nrEncoders, i < maxEncoders
  argv : (shrecordArgv (shrecordConfig pid shrecordInit configs).1 stack).n ≤ maxEncoders + 3
  args : (shrecordArgv (shrecordConfig pid shrecordInit configs).1 stack).Ends
    (recordArgs pid (previewOn configs) (configs.countP accepted))

/-- **The encoders.** They are right exactly when at most eight blocks are accepted and the
slot behind the last argument, which is not written, happens to hold `NULL`. -/
theorem encoders_iff (pid : Int) (configs : List (Bytes → Option Bytes))
    (stack : Nat → Option Bytes) :
    EncodersSafe pid configs stack ↔ configs.countP accepted ≤ maxEncoders ∧
      stack (1 + (if previewOn configs then 0 else 1) + configs.countP accepted) = none := by
  have hpreview := config_preview configs (named_init pid)
  rw [← recordArgs_length pid]
  constructor
  · intro hsafe
    have hle : configs.countP accepted ≤ maxEncoders := by
      by_contra hgt
      have hbeyond : some maxEncoders ∈ (shrecordConfig pid shrecordInit configs).2 :=
        config_beyond (named_init pid) (Nat.zero_le _)
          ((Nat.lt_of_not_le hgt).trans_eq (Nat.zero_add _).symm)
      exact absurd (hsafe.elements _ hbeyond) (Nat.lt_irrefl _)
    obtain ⟨hnamed, hnr, -⟩ := config_init pid hle
    have hend := hsafe.args.slots_eq _ le_rfl
    rw [(shrecordArgv_holds hnamed stack).slots_eq, hpreview, hnr] at hend
    exact ⟨hle, by simpa [previewOn, shrecordInit] using hend⟩
  · intro h
    obtain ⟨hle, hnull⟩ := h
    obtain ⟨hnamed, hnr, helems⟩ := config_init pid hle
    have hholds := shrecordArgv_holds hnamed stack
    rw [hpreview, hnr, show ((configs.filterMap previewOf).getLast?).getD shrecordInit.doPreview =
      previewOn configs from rfl] at hholds
    have hlength : (recordArgs pid (previewOn configs) (configs.countP accepted)).length <
        maxEncoders + 3 := by
      rw [recordArgs_length]
      split <;> omega
    refine ⟨fun i hi => ?_, helems, fun done hdone => ?_, fun i hi => ?_, ?_, hlength, fun k hk => ?_⟩
    · have hmem : i ∈ (shrecordConfig pid shrecordInit configs).2.filterMap id :=
        List.mem_filterMap.2 ⟨some i, hi, rfl⟩
      rw [helems, List.mem_range] at hmem
      omega
    · have hsub : done.countP accepted ≤ configs.countP accepted := hdone.sublist.countP_le
      rw [(config_init pid (hsub.trans hle)).2.1]
      exact hsub.trans hle
    · rw [hnr] at hi
      omega
    · rw [hholds.n_eq]
      omega
    · rw [hholds.slots_eq]
      rcases Nat.lt_or_eq_of_le hk with hlt | heq
      · rw [List.getElem?_eq_getElem hlt]
        rfl
      · rw [heq, hnull, Option.or_none]

/-- A block with both directives and no word on the preview. -/
def cameraBlock : Bytes → Option Bytes := fun directive =>
  if directive = ascii "Path" then some (ascii "/video.264")
  else if directive = ascii "CtlFile" then some (ascii "/etc/k264.ctl")
  else none

/-- Nine blocks: the ninth takes the element behind the array. One block, and a slot that is
not `NULL`: the command is given one argument more. -/
theorem ninth_element_and_stray_argument :
    some 8 ∈ (shrecordConfig 100 shrecordInit (List.replicate 9 cameraBlock)).2 ∧
      (shrecordConfig 100 shrecordInit (List.replicate 9 cameraBlock)).1.nrEncoders = 9 ∧
      (∀ stack, ¬ EncodersSafe 100 (List.replicate 9 cameraBlock) stack) ∧
      (shrecordArgv (shrecordConfig 100 shrecordInit [cameraBlock]).1
        fun _ => some (ascii "stale")).slots 2 = some (ascii "stale") ∧
      ¬ EncodersSafe 100 [cameraBlock] fun _ => some (ascii "stale") := by
  have hnine : (shrecordConfig 100 shrecordInit (List.replicate 9 cameraBlock)).2 =
      (List.range 9).map some := by decide
  have hstray : (shrecordArgv (shrecordConfig 100 shrecordInit [cameraBlock]).1
      fun _ => some (ascii "stale")).slots 2 = some (ascii "stale") := by decide
  refine ⟨by rw [hnine]; decide, by decide, fun stack hsafe => ?_, hstray, fun hsafe => ?_⟩
  · exact absurd (hsafe.elements 8 (by rw [hnine]; decide)) (by decide)
  · exact absurd (hstray.symm.trans (hsafe.args.slots_eq 2 (by decide))) (by decide)

end Sighttpd.L4
