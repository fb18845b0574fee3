import Sighttpd.L3Config.CfgParse

/-!
# Reading a configuration (`cfg-read.c`)

The callbacks collect the assignments of a block in a dictionary of its own and
turn it into resources at the end of the block. Dictionaries and the modules that
make resources of them are parameters; a module left out by `HAVE_OGGZ` or
`HAVE_SHCODECS` is `none`.
-/
namespace Sighttpd.L3
open Sighttpd.CString

/-- mirrors src/cfg-read.h (`struct cfg`) -/
structure Cfg (δ ρ : Type) where
  dictionary : δ
  blockDict : Option δ
  resources : List ρ

structure CfgModules (δ ρ : Type) where
  dictionaryNew : δ
  dictionaryInsert : δ → Bytes → Bytes → δ
  statictextResources : δ → List ρ
  fdstreamResources : δ → List ρ
  oggstdinResources : Option (δ → List ρ)
  shrecordResources : Option (δ → List ρ)

section Modules
variable {δ ρ : Type} (m : CfgModules δ ρ)

/-- mirrors src/cfg-read.c:18-31 (`cfg_read_block_start`) -/
def cfgReadBlockStart (_name : Bytes) (cfg : Cfg δ ρ) : CopaStatus × Cfg δ ρ :=
  if cfg.blockDict.isSome then (.stopErr, cfg)
  else (.ok, { cfg with blockDict := some m.dictionaryNew })

/-- The resources of a block, by its name; mirrors src/cfg-read.c:43-55 -/
def blockResources (name : Bytes) (dict : δ) : List ρ :=
  if strncasecmp name (ascii "StaticText") 10 = 0 then m.statictextResources dict
  else if strncasecmp name (ascii "Stdin") 5 = 0 then m.fdstreamResources dict
  else if m.oggstdinResources.isSome ∧ strncasecmp name (ascii "OggStdin") 8 = 0 then
    (m.oggstdinResources.map (· dict)).getD []
  else if m.shrecordResources.isSome ∧ strncasecmp name (ascii "SHRecord") 8 = 0 then
    (m.shrecordResources.map (· dict)).getD []
  else []

/-- mirrors src/cfg-read.c:33-61 (`cfg_read_block_end`) -/
def cfgReadBlockEnd (name : Bytes) (cfg : Cfg δ ρ) : CopaStatus × Cfg δ ρ :=
  match cfg.blockDict with
  | none => (.stopErr, cfg)
  | some dict =>
    (.ok, { cfg with resources := cfg.resources ++ blockResources m name dict, blockDict := none })

/-- mirrors src/cfg-read.c:63-77 (`cfg_read_assign`) -/
def cfgReadAssign (name value : Bytes) (cfg : Cfg δ ρ) : Cfg δ ρ :=
  match cfg.blockDict with
  | some dict => { cfg with blockDict := some (m.dictionaryInsert dict name value) }
  | none => { cfg with dictionary := m.dictionaryInsert cfg.dictionary name value }

def cfgCallbacks : Callbacks (Cfg δ ρ) where
  blockStart := some (cfgReadBlockStart m)
  blockEnd := some (cfgReadBlockEnd m)
  assign := some (cfgReadAssign m)

/-- mirrors src/cfg-read.c:79-102 (`cfg_read`); `none` is NULL -/
def cfgRead (file : Option (List (Option Bytes))) : Option (Cfg δ ρ) :=
  let r := copaRead (cfgCallbacks m) file ⟨m.dictionaryNew, none, []⟩
  if r.1 = .ok then some r.2.user else none

end Modules

end Sighttpd.L3
