import Sighttpd.L4Http.Respond

/-!
# Which resource answers (`fdstream.c`, `ogg-stdin.c`, `shrecord.c`)

Every module tests whether the path of a request begins with the path in the data of the
resource. For Ogg that data is a single static variable, and for SHRecord an element of
a static array, whose `path` has 4096 bytes with `ctrl_filename` behind them. A block is
one that has the directives its module asks for, and whose files could be made.

* `cfgData_some`: the paths in the data when the configuration has been read.
* `ownAnswer_iff`: when every block answers requests for its own path.
-/
namespace Sighttpd.L4
open Sighttpd.CString Sighttpd.L1 Sighttpd.Numeral

inductive Block where
  | staticText (path text : Bytes) (type : Option Bytes)
  | stdin (path : Bytes) (type : Option Bytes)
  | oggStdin (path : Bytes) (type : Option Bytes)
  | shRecord (path : Bytes)
  deriving DecidableEq, Repr

def Block.path : Block → Bytes
  | staticText path _ _ => path
  | stdin path _ => path
  | oggStdin path _ => path
  | shRecord path => path

def Block.isShRecord : Block → Bool
  | shRecord _ => true
  | _ => false

/-- The path of an OggStdin block. -/
def Block.oggPath : Block → Option Bytes
  | oggStdin path _ => some path
  | _ => none

/-- `oggstdin_pvt`, and the string at the `path` of each element of `encdata` in use -/
structure Globals where
  oggPath : Bytes
  oggType : Bytes
  encoders : List Bytes

/-- The `data` of a resource; a pointer into the static data where it is one. -/
inductive ResourceData where
  | statictext (path text ctype : Bytes)
  | fdstream (path contentType : Bytes)
  | oggstdin
  | encoder (i : Nat)
  deriving DecidableEq, Repr

def maxEncoders : Nat := 8

def maxPathLen : Nat := 4096

/-- The string at `ed->path` after the `strncpy`: a path of 4096 bytes has no NUL, and goes on
with `ctrl_filename`; mirrors src/shrecord.c:355-357 -/
def encoderPath (pid : Int) (n : Nat) (path : Bytes) : Bytes :=
  if path.length < maxPathLen then path
  else path.take maxPathLen ++ (ascii "/tmp/shrecord_ctrl-" ++ decimal pid ++ ascii "." ++ decimal n)

/-- The data of the resource of a block; `none` behind the end of `encdata`, where the test
`nr_encoders > MAX_ENCODERS` lets the ninth encoder through. -/
def blockData (pid : Int) (g : Globals) : Block → Option (Globals × ResourceData)
  | .staticText path text type => some (g, .statictext path text (type.getD (ascii "text/plain")))
  | .stdin path type => some (g, .fdstream path (type.getD (ascii "video/mp4")))
  | .oggStdin path type =>
    some ({ g with oggPath := path, oggType := type.getD (ascii "application/ogg") }, .oggstdin)
  | .shRecord path =>
    if g.encoders.length < maxEncoders then
      some ({ g with encoders := g.encoders ++ [encoderPath pid g.encoders.length path] },
        .encoder g.encoders.length)
    else none

/-- The blocks of a configuration in order. -/
def cfgData (pid : Int) : Globals → List Block → Option (Globals × List ResourceData)
  | g, [] => some (g, [])
  | g, b :: bs => do
    let (g, d) ← blockData pid g b
    let (g, ds) ← cfgData pid g bs
    some (g, d :: ds)

/-! ## Resources -/

/-- The path that the test of a resource compares with. -/
def ResourceData.path (g : Globals) : ResourceData → Bytes
  | statictext path _ _ => path
  | fdstream path _ => path
  | oggstdin => g.oggPath
  | encoder i => g.encoders.getD i []

/-- A resource with a stream for a body, which writes what `body` says. -/
def streamResource (path ctype : Bytes) (body : HttpRequest → List Param → Bytes) : Resource where
  check request := startsWith request.path path
  head _ _ responseHeaders :=
    (httpStatusLine .ok, paramsAppend responseHeaders (ascii "Content-Type") ctype)
  body := body

/-- mirrors src/fdstream.c:28-47, src/ogg-stdin.c:126-146 and src/shrecord.c:239-258, with the
resources made there -/
def resourceOf (streamed : ResourceData → HttpRequest → List Param → Bytes) (g : Globals) :
    ResourceData → Resource
  | .statictext path text ctype => statictextResource path text ctype
  | .fdstream path ctype => streamResource path ctype (streamed (.fdstream path ctype))
  | .oggstdin => streamResource g.oggPath g.oggType (streamed .oggstdin)
  | .encoder i => streamResource (g.encoders.getD i []) (ascii "video/mp4") (streamed (.encoder i))

/-- The position of the resource that answers. -/
def answeredBy (resources : List Resource) (request : HttpRequest) : Option Nat :=
  resources.findIdx? (·.check request)

/-- Every block's own resource answers the requests for its path, whatever resources are
appended behind those of the configuration. -/
def OwnAnswer (streamed : ResourceData → HttpRequest → List Param → Bytes) (pid : Int)
    (rest : List Resource) (blocks : List Block) : Prop :=
  ∃ g ds, cfgData pid ⟨[], [], []⟩ blocks = some (g, ds) ∧
    ∀ i b, blocks[i]? = some b → ∀ request : HttpRequest,
      request.method = .get ∨ request.method = .head → request.path = b.path →
      answeredBy (ds.map (resourceOf streamed g) ++ rest) request = some i

/-- The resource that answers gives the head and the body. -/
theorem respond_answeredBy {resources : List Resource} {request : HttpRequest} {i : Nat}
    (h : answeredBy resources request = some i) : ∃ r, resources[i]? = some r ∧
      (∀ requestHeaders headers,
        respondGetHead resources request requestHeaders headers = r.head request requestHeaders headers) ∧
      ∀ requestHeaders, respondGetBody resources request requestHeaders = r.body request requestHeaders := by
  obtain ⟨hi, hr, hbefore⟩ := List.findIdx?_eq_some_iff_getElem.mp h
  have hfind : resources.find? (·.check request) = some resources[i] :=
    List.find?_eq_some_iff_getElem.mpr ⟨hr, i, hi, rfl, fun j hj => by simpa using hbefore j hj⟩
  exact ⟨resources[i], List.getElem?_eq_getElem hi, fun _ _ => by rw [respondGetHead, hfind],
    fun _ => by rw [respondGetBody, hfind]⟩

theorem startsWith_iff {path pre : Bytes} : startsWith path pre = true ↔ pre <+: path := by
  rw [startsWith, decide_eq_true_eq, strcmp_eq_zero, List.prefix_iff_eq_take]
  exact eq_comm

theorem check_resourceOf (streamed : ResourceData → HttpRequest → List Param → Bytes) (g : Globals)
    (d : ResourceData) (request : HttpRequest) :
    (resourceOf streamed g d).check request = startsWith request.path (d.path g) := by
  cases d <;> rfl

/-! ## The stored paths -/

/-- The path that the resource of a block compares with, as it is stored behind `n` encoders;
`ogg` is what is found for the path of an OggStdin block. -/
def Block.stored (pid : Int) (ogg : Bytes → Bytes) (n : Nat) : Block → Bytes
  | staticText path _ _ => path
  | stdin path _ => path
  | oggStdin path _ => ogg path
  | shRecord path => encoderPath pid n path

def storedPaths (pid : Int) (ogg : Bytes → Bytes) : Nat → List Block → List Bytes
  | _, [] => []
  | n, b :: bs => b.stored pid ogg n :: storedPaths pid ogg (n + if b.isShRecord then 1 else 0) bs

/-- The path left in `oggstdin_pvt` -/
def lastOgg (before : Bytes) (blocks : List Block) : Bytes :=
  (blocks.filterMap Block.oggPath).getLast?.getD before

/-- A path does not begin with an earlier stored path, and begins with its own. -/
def Apart (stored paths : List Bytes) : Prop :=
  ∀ (i : Nat) q, paths[i]? = some q → ∀ (j : Nat) p, stored[j]? = some p →
    (j < i → ¬ p <+: q) ∧ (j = i → p <+: q)

/-- No path begins with the path stored for an earlier block, and with one of the static
variables nothing is lost. -/
structure PathsApart (pid : Int) (blocks : List Block) : Prop where
  encoders : blocks.countP Block.isShRecord ≤ maxEncoders
  oggStdin : (blocks.filterMap Block.oggPath).length ≤ 1
  apart : Apart (storedPaths pid id 0 blocks) (blocks.map Block.path)

section Stored
variable {pid : Int} {ogg : Bytes → Bytes} {blocks : List Block}

theorem length_storedPaths (n : Nat) (blocks : List Block) :
    (storedPaths pid ogg n blocks).length = blocks.length := by
  induction blocks generalizing n with
  | nil => rfl
  | cons b bs ih => rw [storedPaths, List.length_cons, List.length_cons, ih]

theorem lastOgg_cons (before : Bytes) (b : Block) (bs : List Block) :
    lastOgg before (b :: bs) = lastOgg (b.oggPath.getD before) bs := by
  rw [lastOgg, List.filterMap_cons]
  cases b.oggPath with
  | none => rfl
  | some p => rw [List.getLast?_cons]; rfl

theorem getD_appended (xs more : List Bytes) (x : Bytes) :
    (xs ++ [x] ++ more).getD xs.length [] = x := by
  rw [List.append_assoc, List.getD_eq_getElem?_getD, List.getElem?_append_right (Nat.le_refl _),
    Nat.sub_self]
  rfl

/-- **The paths in the data** when the configuration has been read: one that is stored keeps its
place, and all OggStdin blocks are left with the last path. -/
theorem cfgData_some {g g' : Globals} {ds : List ResourceData}
    (h : cfgData pid g blocks = some (g', ds)) :
    g'.oggPath = lastOgg g.oggPath blocks ∧ (∃ more, g'.encoders = g.encoders ++ more) ∧
      ds.map (·.path g') = storedPaths pid (fun _ => g'.oggPath) g.encoders.length blocks := by
  induction blocks generalizing g ds with
  | nil =>
    obtain ⟨rfl, rfl⟩ : g = g' ∧ [] = ds := by simpa [cfgData] using h
    exact ⟨rfl, ⟨[], (List.append_nil _).symm⟩, rfl⟩
  | cons b bs ih =>
    obtain ⟨⟨g₁, d⟩, hb, h⟩ := Option.bind_eq_some_iff.mp h
    obtain ⟨⟨g₂, ds⟩, hbs, h⟩ := Option.bind_eq_some_iff.mp h
    obtain ⟨rfl, rfl⟩ : g₂ = g' ∧ d :: ds = _ := by simpa using h
    obtain ⟨hogg, ⟨more, hmore⟩, hpaths⟩ := ih hbs
    rw [lastOgg_cons, storedPaths, List.map_cons, hpaths]
    cases b with
    | staticText path text type =>
      obtain ⟨rfl, rfl⟩ : g = g₁ ∧ _ = d := by simpa [blockData] using hb
      exact ⟨hogg, ⟨more, hmore⟩, rfl⟩
    | stdin path type =>
      obtain ⟨rfl, rfl⟩ : g = g₁ ∧ _ = d := by simpa [blockData] using hb
      exact ⟨hogg, ⟨more, hmore⟩, rfl⟩
    | oggStdin path type =>
      obtain ⟨rfl, rfl⟩ : _ = g₁ ∧ _ = d := by simpa [blockData] using hb
      exact ⟨hogg, ⟨more, hmore⟩, rfl⟩
    | shRecord path =>
      rw [blockData] at hb
      split at hb
      · obtain ⟨rfl, rfl⟩ : _ = g₁ ∧ _ = d := by simpa using hb
        refine ⟨hogg, ⟨_ :: more, by rw [hmore, List.append_assoc]; rfl⟩, ?_⟩
        rw [ResourceData.path, hmore, getD_appended, List.length_append]
        rfl
      · exact absurd hb (by simp)

/-- The array of encoders suffices for eight blocks. -/
theorem cfgData_isSome (pid : Int) (g : Globals) (blocks : List Block) (hg : g.encoders.length ≤ maxEncoders) :
    (∃ r, cfgData pid g blocks = some r) ↔
      g.encoders.length + blocks.countP Block.isShRecord ≤ maxEncoders := by
  induction blocks generalizing g with
  | nil => exact iff_of_true ⟨_, rfl⟩ hg
  | cons b bs ih =>
    have hcons : ∀ {g₁ d}, blockData pid g b = some (g₁, d) →
        ((∃ r, cfgData pid g (b :: bs) = some r) ↔ ∃ r, cfgData pid g₁ bs = some r) := by
      intro g₁ d hb
      rw [cfgData, hb]
      simp only [Option.bind_eq_bind, Option.bind_some]
      cases cfgData pid g₁ bs with
      | none => simp
      | some r => simp
    cases b with
    | staticText path text type =>
      rw [hcons rfl, ih g hg, List.countP_cons_of_neg (by simp [Block.isShRecord])]
    | stdin path type =>
      rw [hcons rfl, ih g hg, List.countP_cons_of_neg (by simp [Block.isShRecord])]
    | oggStdin path type =>
      rw [hcons rfl, ih ⟨path, _, g.encoders⟩ hg, List.countP_cons_of_neg (by simp [Block.isShRecord])]
    | shRecord path =>
      rw [List.countP_cons_of_pos (by rfl)]
      by_cases hlt : g.encoders.length < maxEncoders
      · rw [hcons (if_pos hlt), ih _ (by rw [List.length_append]; exact hlt), List.length_append,
          List.length_singleton]
        omega
      · refine iff_of_false ?_ (by omega)
        rintro ⟨r, h⟩
        rw [cfgData, blockData, if_neg hlt] at h
        exact absurd h (by simp)

theorem storedPaths_congr {ogg' : Bytes → Bytes} (n : Nat)
    (h : ∀ p ∈ blocks.filterMap Block.oggPath, ogg p = ogg' p) :
    storedPaths pid ogg n blocks = storedPaths pid ogg' n blocks := by
  induction blocks generalizing n with
  | nil => rfl
  | cons b bs ih =>
    rw [storedPaths, storedPaths]
    cases b with
    | staticText path text type => rw [ih _ h]; rfl
    | stdin path type => rw [ih _ h]; rfl
    | oggStdin path type =>
      obtain ⟨hpath, hbs⟩ := List.forall_mem_cons.mp h
      rw [ih _ hbs, Block.stored, Block.stored, hpath]
    | shRecord path => rw [ih _ h]; rfl

theorem storedPaths_oggStdin {i : Nat} {path : Bytes} {type : Option Bytes} (n : Nat)
    (h : blocks[i]? = some (Block.oggStdin path type)) :
    (storedPaths pid ogg n blocks)[i]? = some (ogg path) := by
  induction blocks generalizing n i with
  | nil => exact absurd h (by simp)
  | cons b bs ih =>
    cases i with
    | zero =>
      obtain rfl : b = .oggStdin path type := by simpa using h
      rfl
    | succ i => exact ih _ h

/-- The path left is that of a block. -/
theorem exists_lastOgg (before : Bytes) (h : 1 ≤ (blocks.filterMap Block.oggPath).length) :
    ∃ (j : Nat) (type : Option Bytes), blocks[j]? = some (Block.oggStdin (lastOgg before blocks) type) := by
  induction blocks generalizing before with
  | nil => exact absurd h (by simp)
  | cons b bs ih =>
    rw [lastOgg_cons]
    by_cases hbs : 1 ≤ (bs.filterMap Block.oggPath).length
    · obtain ⟨j, type, hj⟩ := ih _ hbs
      exact ⟨j + 1, type, hj⟩
    · have hnil : bs.filterMap Block.oggPath = [] := List.length_eq_zero_iff.mp (by omega)
      rw [lastOgg, hnil]
      rw [List.filterMap_cons] at h
      cases b with
      | oggStdin path type => exact ⟨0, type, rfl⟩
      | staticText path text type => exact absurd h hbs
      | stdin path type => exact absurd h hbs
      | shRecord path => exact absurd h hbs

/-- Of two OggStdin blocks one has lost its path to a later one. -/
theorem exists_lostOgg (before : Bytes) (h : 2 ≤ (blocks.filterMap Block.oggPath).length) :
    ∃ (i j : Nat) (path : Bytes) (type type' : Option Bytes), i < j ∧ blocks[i]? = some (Block.oggStdin path type) ∧
      blocks[j]? = some (Block.oggStdin (lastOgg before blocks) type') := by
  induction blocks generalizing before with
  | nil => exact absurd h (by simp)
  | cons b bs ih =>
    rw [lastOgg_cons]
    by_cases hbs : 2 ≤ (bs.filterMap Block.oggPath).length
    · obtain ⟨i, j, path, type, type', hij, hi, hj⟩ := ih _ hbs
      exact ⟨i + 1, j + 1, path, type, type', by omega, hi, hj⟩
    · rw [List.filterMap_cons] at h
      cases b with
      | oggStdin path type =>
        obtain ⟨j, type', hj⟩ := exists_lastOgg path (show 1 ≤ (bs.filterMap Block.oggPath).length by
          exact Nat.le_of_succ_le_succ h)
        exact ⟨0, j + 1, path, type, type', by omega, rfl, hj⟩
      | staticText path text type => exact absurd h hbs
      | stdin path type => exact absurd h hbs
      | shRecord path => exact absurd h hbs

/-- With the one variable for all OggStdin blocks there can be one of them. -/
theorem apart_lastOgg_iff :
    Apart (storedPaths pid (fun _ => lastOgg [] blocks) 0 blocks) (blocks.map Block.path) ↔
      (blocks.filterMap Block.oggPath).length ≤ 1 ∧
        Apart (storedPaths pid id 0 blocks) (blocks.map Block.path) := by
  have hone : (blocks.filterMap Block.oggPath).length ≤ 1 →
      storedPaths pid (fun _ => lastOgg [] blocks) 0 blocks = storedPaths pid id 0 blocks := by
    intro hle
    refine storedPaths_congr 0 fun p hp => ?_
    obtain ⟨q, hq⟩ := List.length_eq_one_iff.mp
      (Nat.le_antisymm hle (List.length_pos_of_mem hp))
    rw [hq, List.mem_singleton] at hp
    rw [lastOgg, hq, hp]
    rfl
  constructor
  · intro h
    have hle : (blocks.filterMap Block.oggPath).length ≤ 1 := by
      by_contra hgt
      have hgt : 2 ≤ (blocks.filterMap Block.oggPath).length := by omega
      obtain ⟨i, j, path, type, type', hij, hi, hj⟩ := exists_lostOgg [] hgt
      have hpath : (blocks.map Block.path)[j]? = some (lastOgg [] blocks) := by
        rw [List.getElem?_map, hj]
        rfl
      exact (h j _ hpath i _ (storedPaths_oggStdin 0 hi)).1 hij (List.prefix_refl _)
    exact ⟨hle, hone hle ▸ h⟩
  · rintro ⟨hle, h⟩
    rw [hone hle]
    exact h

end Stored

/-! ## The first that accepts -/

/-- A resource of a block answers when its path is the first that the request begins with. -/
theorem answeredBy_iff (streamed : ResourceData → HttpRequest → List Param → Bytes) (g : Globals)
    (ds : List ResourceData) (rest : List Resource) (request : HttpRequest) {i : Nat}
    (hi : i < ds.length) :
    answeredBy (ds.map (resourceOf streamed g) ++ rest) request = some i ↔
      ∀ (j : Nat) p, (ds.map (·.path g))[j]? = some p →
        (j < i → ¬ p <+: request.path) ∧ (j = i → p <+: request.path) := by
  have hcheck : ∀ (j : Nat) (hj : j < ds.length) (hj' : j < (ds.map (resourceOf streamed g) ++ rest).length),
      ((ds.map (resourceOf streamed g) ++ rest)[j].check request = true ↔
        ds[j].path g <+: request.path) := by
    intro j hj hj'
    rw [List.getElem_append_left (by simpa using hj), List.getElem_map, check_resourceOf, startsWith_iff]
  rw [answeredBy, List.findIdx?_eq_some_iff_getElem]
  constructor
  · rintro ⟨hlen, hi', hbefore⟩ j p hp
    obtain ⟨d, hd, rfl⟩ := Option.map_eq_some_iff.mp (List.getElem?_map .. ▸ hp)
    obtain ⟨hj, rfl⟩ := List.getElem?_eq_some_iff.mp hd
    refine ⟨fun hlt hpre => hbefore j hlt ((hcheck j hj _).mpr hpre), ?_⟩
    rintro rfl
    exact (hcheck j hj hlen).mp hi'
  · intro h
    have hpath : ∀ (j : Nat) (hj : j < ds.length), (ds.map (·.path g))[j]? = some (ds[j].path g) :=
      fun j hj => by rw [List.getElem?_map, List.getElem?_eq_getElem hj]; rfl
    refine ⟨by rw [List.length_append, List.length_map]; omega, ?_, fun j hlt => ?_⟩
    · exact (hcheck i hi _).mpr ((h i _ (hpath i hi)).2 rfl)
    · exact fun hc => (h j _ (hpath j (by omega))).1 hlt ((hcheck j (by omega) _).mp hc)

/-- The resources of a configuration answer for their own blocks when the paths they compare
with are apart. -/
theorem ownAnswers_iff_apart (streamed : ResourceData → HttpRequest → List Param → Bytes)
    (g : Globals) (ds : List ResourceData) (rest : List Resource) {blocks : List Block}
    (hlen : ds.length = blocks.length) :
    (∀ i b, blocks[i]? = some b → ∀ request : HttpRequest,
        request.method = .get ∨ request.method = .head → request.path = b.path →
        answeredBy (ds.map (resourceOf streamed g) ++ rest) request = some i) ↔
      Apart (ds.map (·.path g)) (blocks.map Block.path) := by
  constructor
  · intro h i q hq
    obtain ⟨b, hb, rfl⟩ := Option.map_eq_some_iff.mp (List.getElem?_map .. ▸ hq)
    have hi : i < ds.length := hlen ▸ (List.getElem?_eq_some_iff.mp hb).1
    exact (answeredBy_iff streamed g ds rest ⟨[], .get, .v1_1, b.path⟩ hi).mp
      (h i b hb _ (Or.inl rfl) rfl)
  · intro h i b hb request _ hpath
    have hi : i < ds.length := hlen ▸ (List.getElem?_eq_some_iff.mp hb).1
    rw [answeredBy_iff streamed g ds rest request hi, hpath]
    exact h i b.path (by rw [List.getElem?_map, hb]; rfl)

/-- **Own answers**: every block answers the requests for its own path if and only if no path
begins with one that is stored for an earlier block, and each with its own. -/
theorem ownAnswer_iff (streamed : ResourceData → HttpRequest → List Param → Bytes) (pid : Int)
    (rest : List Resource) (blocks : List Block) :
    OwnAnswer streamed pid rest blocks ↔ PathsApart pid blocks := by
  have hdata : ∀ {g ds}, cfgData pid ⟨[], [], []⟩ blocks = some (g, ds) →
      ((∀ i b, blocks[i]? = some b → ∀ request : HttpRequest,
          request.method = .get ∨ request.method = .head → request.path = b.path →
          answeredBy (ds.map (resourceOf streamed g) ++ rest) request = some i) ↔
        Apart (storedPaths pid (fun _ => lastOgg [] blocks) 0 blocks) (blocks.map Block.path)) := by
    intro g ds h
    obtain ⟨hogg, -, hpaths⟩ := cfgData_some h
    have hlen : ds.length = blocks.length := by
      simpa [length_storedPaths] using congrArg List.length hpaths
    rw [ownAnswers_iff_apart streamed g ds rest hlen, hpaths, hogg]
    rfl
  have hsome := cfgData_isSome pid ⟨[], [], []⟩ blocks (Nat.zero_le _)
  constructor
  · rintro ⟨g, ds, hcfg, hown⟩
    have henc := hsome.mp ⟨_, hcfg⟩
    obtain ⟨hogg, hapart⟩ := apart_lastOgg_iff.mp ((hdata hcfg).mp hown)
    exact ⟨by simpa using henc, hogg, hapart⟩
  · intro h
    obtain ⟨⟨g, ds⟩, hcfg⟩ := hsome.mpr (by simpa using h.encoders)
    exact ⟨g, ds, hcfg, (hdata hcfg).mpr (apart_lastOgg_iff.mpr ⟨h.oggStdin, h.apart⟩)⟩

/-- A request for `/ab` is answered by the resource for `/a` where that one comes first. -/
theorem ownAnswer_false :
    ([Block.staticText (ascii "/a") [] none, Block.staticText (ascii "/ab") [] none].map
        Block.path).Nodup ∧
      ¬ OwnAnswer (fun _ _ _ => []) 1 []
        [Block.staticText (ascii "/a") [] none, Block.staticText (ascii "/ab") [] none] := by
  refine ⟨by decide +kernel, fun ⟨g, ds, hcfg, hown⟩ => ?_⟩
  obtain ⟨rfl, rfl⟩ : (⟨[], [], []⟩ : Globals) = g ∧
      [ResourceData.statictext (ascii "/a") [] (ascii "text/plain"),
        ResourceData.statictext (ascii "/ab") [] (ascii "text/plain")] = ds := by
    simpa [cfgData, blockData] using hcfg
  have h := hown 1 _ rfl ⟨[], .get, .v1_1, ascii "/ab"⟩ (Or.inl rfl) rfl
  exact absurd h (by decide +kernel)

end Sighttpd.L4
