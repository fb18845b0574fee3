import Sighttpd.L1Data.Dictionary
import Sighttpd.L3Config.CfgReplay
import Sighttpd.L3Config.CfgScopes

/-!
# What a configuration file means (`cfg_read` over `dictionary.c`)

`cfg_read` with the dictionaries of `dictionary.c`. Each directive that takes effect may
allocate a `Variable`, whose bytes decide where it is put; `records` gives them.

A file is read as settings and blocks. A block is named by its end tag, and a tag that is out
of place is refused: until the next tag no directive takes effect, but nothing fails.

* `step_means`: a report does to the configuration what it means.
* `cfgReadDict_eq`, `takeReports_means`: any file that can be opened.
* `cfgRead_items`: a document of settings and blocks.

## Hypotheses

A document of well-formed lines is of ASCII without NUL and backslash and is read in full pieces
of eight bytes, so that its length is a multiple of eight. Each record of a setting is allocated
where the dictionary finds it again (`RecordOk`).

`cfg-read.c` calls the functions that make the resources of a block without a declaration, so
that the pointers they return go through an `int`: they are taken to come back as they were,
as they do where an `int` holds a pointer and where the heap is at low addresses.
-/
namespace Sighttpd.L3
open Sighttpd.CString Sighttpd.L1

variable {ρ : Type}

/-! ## Model -/

section Model
variable (mods : ResourceModules ρ) (hash : Bytes → Fin 16)

/-- The modules over `dictionary.c`; `record` is the string at the address of the `Variable`
that an insertion may allocate. -/
def dictModules (record : Bytes) : CfgModules Dictionary ρ where
  dictionaryNew := dictionaryNew
  dictionaryInsert d name value := dictionaryInsert hash d name value record
  statictextResources d := (statictextYield mods (dictionaryLookup hash d)).toList
  fdstreamResources d := (fdstreamYield mods (dictionaryLookup hash d)).toList
  oggstdinResources := mods.oggstdinResources.map fun f d => (f (dictionaryLookup hash d)).toList
  shrecordResources := mods.shrecordResources.map fun f d => (f (dictionaryLookup hash d)).toList

/-- The user data of `cfg_read`, with the number of insertions so far. -/
structure DictCfg (ρ : Type) where
  cfg : Cfg Dictionary ρ
  inserts : Nat

def DictCfg.fresh : DictCfg ρ := ⟨⟨dictionaryNew, none, []⟩, 0⟩

/-- mirrors src/cfg-read.c:18-77: the callbacks of `CfgRead`, the insertion with its record -/
def dictCallbacks (records : Nat → Bytes) : Callbacks (DictCfg ρ) where
  blockStart := some fun name s =>
    let r := cfgReadBlockStart (dictModules mods hash []) name s.cfg
    (r.1, { s with cfg := r.2 })
  blockEnd := some fun name s =>
    let r := cfgReadBlockEnd (dictModules mods hash []) name s.cfg
    (r.1, { s with cfg := r.2 })
  assign := some fun name value s =>
    ⟨cfgReadAssign (dictModules mods hash (records s.inserts)) name value s.cfg, s.inserts + 1⟩

/-- mirrors src/cfg-read.c:79-102 (`cfg_read`) -/
def cfgReadDict (records : Nat → Bytes) (file : Option (List (Option Bytes))) :
    Option (DictCfg ρ) :=
  let r := copaRead (dictCallbacks mods hash records) file DictCfg.fresh
  if r.1 = .ok then some r.2.user else none

/-- The dictionary that an assignment goes to. -/
def Cfg.target (cfg : Cfg Dictionary ρ) : Dictionary := cfg.blockDict.getD cfg.dictionary

/-- The reports in turn, with the status of the last tag. -/
def reportMachine (records : Nat → Bytes) : Machine (CopaStatus × DictCfg ρ) CfgReport where
  step s r := some ((dictCallbacks mods hash records).handle s r)

/-- The record of a name that is new in its dictionary is walked to where the name is looked for. -/
def RecordOk (records : Nat → Bytes) (s : CopaStatus × DictCfg ρ) : CfgReport → Prop
  | .assign name value =>
    s.1 = .ok → InsertOk hash ⟨s.2.cfg.target, []⟩ ⟨name, value, records s.2.inserts⟩
  | .tag _ _ => True

instance (records : Nat → Bytes) (s : CopaStatus × DictCfg ρ) (r : CfgReport) :
    Decidable (RecordOk hash records s r) := by
  cases r <;> unfold RecordOk <;> infer_instance

end Model

/-! ## Meaning -/

/-- The call of a callback that a report asks for, less what it allocates. -/
def CfgReport.call : CfgReport → CfgCall
  | .assign name value => .assign name value
  | .tag false block => .blockStart block 0
  | .tag true block => .blockEnd block 0

/-- The status of the last tag, and the scopes; directives behind a refused tag are dropped. -/
def meansStep (s : CopaStatus × Scopes) (r : CfgReport) : CopaStatus × Scopes :=
  match r with
  | .assign _ _ => if s.1 = .ok then s.2.step r.call else s
  | .tag _ _ => s.2.step r.call

def meaning (reports : List CfgReport) : CopaStatus × Scopes :=
  reports.foldl meansStep (.ok, Scopes.fresh)

/-- A setting, or a block with what is assigned in it; only the name in the end tag counts. -/
inductive CfgItem where
  | setting (name value : Bytes)
  | block (startName : Bytes) (own : List (Bytes × Bytes)) (endName : Bytes)
  deriving DecidableEq, Repr

def CfgItem.reports : CfgItem → List CfgReport
  | setting name value => [.assign name value]
  | block startName own endName =>
    .tag false startName :: (own.map fun a => CfgReport.assign a.1 a.2) ++ [.tag true endName]

/-- The settings outside blocks. -/
def settings (items : List CfgItem) : List (Bytes × Bytes) :=
  items.filterMap fun
    | .setting name value => some (name, value)
    | .block _ _ _ => none

/-- The blocks by their end tags. -/
def blocks (items : List CfgItem) : List (Bytes × List (Bytes × Bytes)) :=
  items.filterMap fun
    | .setting _ _ => none
    | .block _ own endName => some (endName, own)

/-- The resources that the blocks yield, in their order. -/
def itemResources (mods : ResourceModules ρ) (items : List CfgItem) : List ρ :=
  (blocks items).flatMap fun b => (blockYield mods b.1 (assigned b.2)).toList

theorem means_own (own : List (Bytes × Bytes)) (globals : List (Bytes × Bytes))
    (before : List (Bytes × Bytes)) (bs : List (Bytes × List (Bytes × Bytes))) :
    (own.map fun a => CfgReport.assign a.1 a.2).foldl meansStep (.ok, ⟨globals, some before, bs⟩) =
      (.ok, ⟨globals, some (before ++ own), bs⟩) := by
  induction own generalizing before with
  | nil => simp
  | cons a own ih =>
    rw [List.map_cons, List.foldl_cons]
    have hstep : meansStep (.ok, ⟨globals, some before, bs⟩) (.assign a.1 a.2) =
        (.ok, ⟨globals, some (before ++ [a]), bs⟩) := rfl
    rw [hstep, ih, List.append_assoc, List.singleton_append]

/-- Items one after the other, behind what is there already. -/
theorem means_items (items : List CfgItem) (globals : List (Bytes × Bytes))
    (bs : List (Bytes × List (Bytes × Bytes))) :
    (items.flatMap CfgItem.reports).foldl meansStep (.ok, ⟨globals, none, bs⟩) =
      (.ok, ⟨globals ++ settings items, none, bs ++ blocks items⟩) := by
  induction items generalizing globals bs with
  | nil => simp [settings, blocks]
  | cons item items ih =>
    rw [List.flatMap_cons, List.foldl_append]
    cases item with
    | setting name value =>
      have hstep : (CfgItem.setting name value).reports.foldl meansStep (.ok, ⟨globals, none, bs⟩) =
          (.ok, ⟨globals ++ [(name, value)], none, bs⟩) := rfl
      rw [hstep, ih]
      simp [settings, blocks]
    | block startName own endName =>
      have hstep : (CfgItem.block startName own endName).reports.foldl meansStep
          (.ok, ⟨globals, none, bs⟩) = (.ok, ⟨globals, none, bs ++ [(endName, own)]⟩) := by
        rw [CfgItem.reports, List.cons_append, List.foldl_cons, List.foldl_append]
        have hstart : meansStep (.ok, ⟨globals, none, bs⟩) (.tag false startName) =
            (.ok, ⟨globals, some [], bs⟩) := rfl
        rw [hstart, means_own]
        rfl
      rw [hstep, ih]
      simp [settings, blocks]

theorem meaning_items (items : List CfgItem) : meaning (items.flatMap CfgItem.reports) =
    (.ok, ⟨settings items, none, blocks items⟩) :=
  means_items items [] []

/-! ## The dictionaries hold what is assigned -/

section Means
variable {mods : ResourceModules ρ} {hash : Bytes → Fin 16} {records : Nat → Bytes}

/-- A dictionary made by insertions, which looks up what `own` assigns. -/
def Holds (hash : Bytes → Fin 16) (d : Dictionary) (own : List (Bytes × Bytes)) : Prop :=
  ∃ log, DictInv hash ⟨d, log⟩ ∧ ∀ q, lastInserted q log = assigned own q

theorem holds_new (hash : Bytes → Fin 16) : Holds hash dictionaryNew [] :=
  ⟨[], inv_fresh hash, fun _ => rfl⟩

theorem Holds.lookup {d : Dictionary} {own : List (Bytes × Bytes)} (h : Holds hash d own) :
    dictionaryLookup hash d = assigned own := by
  obtain ⟨log, hinv, hlog⟩ := h
  funext q
  rw [← hlog]
  exact hinv.lookup q

theorem Holds.insert {d : Dictionary} {own : List (Bytes × Bytes)} {name value record : Bytes}
    (h : Holds hash d own) (hok : InsertOk hash ⟨d, []⟩ ⟨name, value, record⟩) :
    Holds hash (dictionaryInsert hash d name value record) (own ++ [(name, value)]) := by
  obtain ⟨log, hinv, hlog⟩ := h
  refine ⟨⟨name, value, record⟩ :: log, inv_insert hash hinv hok rfl, fun q => ?_⟩
  rw [assigned_concat, lastInserted, hlog]

/-- The members of `struct cfg` are what the scopes say. -/
structure Means (mods : ResourceModules ρ) (hash : Bytes → Fin 16) (s : CopaStatus × DictCfg ρ)
    (m : CopaStatus × Scopes) : Prop where
  status : s.1 = m.1
  globals : Holds hash s.2.cfg.dictionary m.2.globals
  block : s.2.cfg.blockDict = none ∧ m.2.current = none ∨
    ∃ d own, s.2.cfg.blockDict = some d ∧ m.2.current = some own ∧ Holds hash d own
  resources : s.2.cfg.resources = m.2.resources mods

variable {s : CopaStatus × DictCfg ρ} {m : CopaStatus × Scopes}

theorem blockResources_dict (name : Bytes) (d : Dictionary) :
    blockResources (dictModules mods hash []) name d =
      (blockYield mods name (dictionaryLookup hash d)).toList := by
  have hparam : ∀ o : Option ((Bytes → Option Bytes) → Option ρ),
      ((o.map fun f d => (f (dictionaryLookup hash d)).toList).map (· d)).getD [] =
        (o.bind (· (dictionaryLookup hash d))).toList := fun o => by cases o <;> rfl
  simp only [blockResources, dictModules, blockYield, hparam, Option.isSome_map]
  split
  · rfl
  · split
    · rfl
    · split
      · rfl
      · split <;> rfl

theorem assign_means (h : Means mods hash s m) {name value : Bytes}
    (hok : RecordOk hash records s (.assign name value)) :
    Means mods hash ((dictCallbacks mods hash records).handle s (.assign name value))
      (meansStep m (.assign name value)) := by
  obtain ⟨hstatus, hglobals, hblock, hres⟩ := h
  by_cases hrun : s.1 = .ok
  · have hrun' : m.1 = .ok := hstatus ▸ hrun
    have hins := hok hrun
    simp only [Callbacks.handle, dictCallbacks, meansStep, if_pos hrun, if_pos hrun', CfgReport.call]
    rcases hblock with ⟨hd, hm⟩ | ⟨d, own, hd, hm, hown⟩
    · rw [Cfg.target, hd] at hins
      simp only [cfgReadAssign, Scopes.step, hd, hm]
      exact ⟨rfl, hglobals.insert hins, .inl ⟨rfl, rfl⟩, hres⟩
    · rw [Cfg.target, hd] at hins
      simp only [cfgReadAssign, Scopes.step, hd, hm]
      exact ⟨rfl, hglobals, .inr ⟨_, _, rfl, rfl, hown.insert hins⟩, hres⟩
  · have hrun' : m.1 ≠ .ok := hstatus ▸ hrun
    simp only [Callbacks.handle, dictCallbacks, meansStep, if_neg hrun, if_neg hrun']
    exact ⟨hstatus, hglobals, hblock, hres⟩

theorem tag_means (h : Means mods hash s m) (isEnd : Bool) (name : Bytes) :
    Means mods hash ((dictCallbacks mods hash records).handle s (.tag isEnd name))
      (meansStep m (.tag isEnd name)) := by
  obtain ⟨-, hglobals, hblock, hres⟩ := h
  cases isEnd with
  | false =>
    have hhandle : (dictCallbacks mods hash records).handle s (.tag false name) =
        ((cfgReadBlockStart (dictModules mods hash []) name s.2.cfg).1,
          { s.2 with cfg := (cfgReadBlockStart (dictModules mods hash []) name s.2.cfg).2 }) := rfl
    rw [hhandle]
    rcases hblock with ⟨hd, hm⟩ | ⟨d, own, hd, hm, hown⟩
    · simp only [cfgReadBlockStart, meansStep, CfgReport.call, Scopes.step, hd, hm,
        Option.isSome_none, Bool.false_eq_true, if_false]
      exact ⟨rfl, hglobals, .inr ⟨_, _, rfl, rfl, holds_new hash⟩, hres⟩
    · simp only [cfgReadBlockStart, meansStep, CfgReport.call, Scopes.step, hd, hm,
        Option.isSome_some, if_true]
      exact ⟨rfl, hglobals, .inr ⟨d, own, hd, hm, hown⟩, hres⟩
  | true =>
    have hhandle : (dictCallbacks mods hash records).handle s (.tag true name) =
        ((cfgReadBlockEnd (dictModules mods hash []) name s.2.cfg).1,
          { s.2 with cfg := (cfgReadBlockEnd (dictModules mods hash []) name s.2.cfg).2 }) := rfl
    rw [hhandle]
    rcases hblock with ⟨hd, hm⟩ | ⟨d, own, hd, hm, hown⟩
    · simp only [cfgReadBlockEnd, meansStep, CfgReport.call, Scopes.step, hd, hm]
      exact ⟨rfl, hglobals, .inl ⟨hd, hm⟩, hres⟩
    · simp only [cfgReadBlockEnd, meansStep, CfgReport.call, Scopes.step, hd, hm]
      refine ⟨rfl, hglobals, .inl ⟨rfl, rfl⟩, ?_⟩
      simp only [hres, blockResources_dict, hown.lookup, Scopes.resources, List.flatMap_append,
        List.flatMap_singleton]

/-- One report. -/
theorem step_means (h : Means mods hash s m) {r : CfgReport} (hok : RecordOk hash records s r) :
    Means mods hash ((dictCallbacks mods hash records).handle s r) (meansStep m r) := by
  cases r with
  | assign name value => exact assign_means h hok
  | tag isEnd name => exact tag_means h isEnd name

theorem replay_means {reports : List CfgReport} (h : Means mods hash s m)
    (hok : (reportMachine mods hash records).Guarded (RecordOk hash records) s reports) :
    Means mods hash (reports.foldl (dictCallbacks mods hash records).handle s)
      (reports.foldl meansStep m) := by
  induction reports generalizing s m with
  | nil => exact h
  | cons r reports ih =>
    obtain ⟨hr, hrest⟩ := hok _ rfl
    exact ih (step_means h hr) hrest

theorem means_fresh (mods : ResourceModules ρ) (hash : Bytes → Fin 16) :
    Means mods hash (.ok, DictCfg.fresh) (.ok, Scopes.fresh) where
  status := rfl
  globals := holds_new hash
  block := .inl ⟨rfl, rfl⟩
  resources := rfl

/-- The state of the callbacks behind the reports. -/
def takeReports (mods : ResourceModules ρ) (hash : Bytes → Fin 16) (records : Nat → Bytes)
    (reports : List CfgReport) : CopaStatus × DictCfg ρ :=
  reports.foldl (dictCallbacks mods hash records).handle (.ok, DictCfg.fresh)

/-- A file that can be opened is read, whatever its tags are. -/
theorem cfgReadDict_eq (mods : ResourceModules ρ) (hash : Bytes → Fin 16) (records : Nat → Bytes)
    (fd : List (Option Bytes)) : cfgReadDict mods hash records (some fd) =
      some (takeReports mods hash records (found fd)).2 := by
  obtain ⟨-, hreplay⟩ := readFd_replays (dictCallbacks mods hash records) fd DictCfg.fresh
  exact congrArg some (congrArg Prod.snd hreplay)

/-- **Files.** The configuration is what is found in the file, provided that every record is
walked to its name. -/
theorem takeReports_means {reports : List CfgReport}
    (hok : (reportMachine mods hash records).Guarded (RecordOk hash records) (.ok, DictCfg.fresh)
      reports) : Means mods hash (takeReports mods hash records reports) (meaning reports) :=
  replay_means (means_fresh mods hash) hok

/-- A document of items that is read eight bytes at a time. -/
theorem document_read {doc : List CfgLine} {pieces : List Bytes} {items : List CfgItem}
    (hlines : ∀ l ∈ doc, l.Ok) (hascii : ∀ c ∈ printDocument doc, c < 128 ∧ c ≠ 0 ∧ c ≠ 92)
    (hne : pieces ≠ []) (hfull : ∀ q ∈ pieces, q.length = 8)
    (hread : pieces.flatten = printDocument doc)
    (hitems : (doc.flatMap fun l => l.body.reports) = items.flatMap CfgItem.reports) :
    cfgReadDict mods hash records (some (pieces.map some)) =
      some (takeReports mods hash records (items.flatMap CfgItem.reports)).2 := by
  rw [cfgReadDict_eq, found_document hlines hascii hne hfull hread, hitems]

theorem items_means {items : List CfgItem}
    (hok : (reportMachine mods hash records).Guarded (RecordOk hash records) (.ok, DictCfg.fresh)
      (items.flatMap CfgItem.reports)) :
    Means mods hash (takeReports mods hash records (items.flatMap CfgItem.reports))
      (.ok, ⟨settings items, none, blocks items⟩) := by
  rw [← meaning_items]
  exact takeReports_means hok

/-- **Documents.** A document of settings and blocks, read eight bytes at a time: names are
looked up as the settings outside blocks say, the last one counting, and the resources are those
of the blocks, in their order. -/
theorem cfgRead_items {doc : List CfgLine} {pieces : List Bytes} {items : List CfgItem}
    (hlines : ∀ l ∈ doc, l.Ok) (hascii : ∀ c ∈ printDocument doc, c < 128 ∧ c ≠ 0 ∧ c ≠ 92)
    (hne : pieces ≠ []) (hfull : ∀ q ∈ pieces, q.length = 8)
    (hread : pieces.flatten = printDocument doc)
    (hitems : (doc.flatMap fun l => l.body.reports) = items.flatMap CfgItem.reports)
    (hok : (reportMachine mods hash records).Guarded (RecordOk hash records) (.ok, DictCfg.fresh)
      (items.flatMap CfgItem.reports)) :
    ∃ s, cfgReadDict mods hash records (some (pieces.map some)) = some s ∧
      dictionaryLookup hash s.cfg.dictionary = assigned (settings items) ∧
      s.cfg.resources = itemResources mods items := by
  have hmeans := items_means hok
  exact ⟨_, document_read hlines hascii hne hfull hread hitems, hmeans.globals.lookup, hmeans.resources⟩

end Means

/-- A setting, and a block whose tags differ in case. -/
def welcomeDocument : List CfgLine :=
  [⟨[], .directive (ascii "Listen") (ascii " ") (.unquoted (ascii "3000")), [], none⟩,
   ⟨[], .blockStart (ascii "StaticText"), [], some (ascii " index")⟩,
   ⟨ascii " ", .directive (ascii "Path") (ascii " ") (.unquoted (ascii "/a")), [], none⟩,
   ⟨ascii " ", .directive (ascii "Text") (ascii " ") (.quoted 34 (ascii "hello")), [], none⟩,
   ⟨[], .blockEnd (ascii "statictext"), [], none⟩] ++
  List.replicate 3 ⟨[], .blank, [], none⟩

def welcomeReads : List Bytes :=
  [ascii "Listen 3", ascii "000\n<Sta", ascii "ticText>", ascii "# index\n", ascii " Path /a",
   ascii "\n Text \"", ascii "hello\"\n<", ascii "/statict", ascii "ext>\n\n\n\n"]

def welcomeItems : List CfgItem :=
  [.setting (ascii "Listen") (ascii "3000"),
   .block (ascii "StaticText") [(ascii "Path", ascii "/a"), (ascii "Text", ascii "hello")]
    (ascii "statictext")]

/-- Names of one length share a bucket. -/
def lengthHash (name : Bytes) : Fin 16 := Fin.ofNat 16 name.length

theorem welcomeDocument_ok : ∀ l ∈ welcomeDocument, l.Ok := by
  simp only [welcomeDocument, List.forall_mem_append, List.forall_mem_cons]
  refine ⟨⟨⟨?_, ?_, ?_, ?_, ?_⟩, ⟨?_, ?_, ?_, ?_, ?_⟩, ⟨?_, ?_, ?_, ?_, ?_⟩, ⟨?_, ?_, ?_, ?_, ?_⟩,
    ⟨?_, ?_, ?_, ?_, ?_⟩, by simp⟩, fun l hl => ?_⟩
  on_goal 26 =>
    obtain rfl := List.eq_of_mem_replicate hl
    constructor
  all_goals simp [Blanks, CfgBody.Ok, CfgValue.Ok, TagName, CfgBody.runsOn, ascii, isspace]

/-- The record of `Text` starts with 200, behind `path` as `text` is. -/
theorem cfgRead_items_welcome : ∃ s,
    cfgReadDict pathModules lengthHash (fun _ => [200]) (some (welcomeReads.map some)) = some s ∧
      dictionaryLookup lengthHash s.cfg.dictionary = assigned (settings welcomeItems) ∧
      s.cfg.resources = itemResources pathModules welcomeItems :=
  cfgRead_items welcomeDocument_ok (by decide +kernel) (by decide) (by decide) (by decide +kernel)
    (by decide +kernel) (by decide +kernel)

end Sighttpd.L3
