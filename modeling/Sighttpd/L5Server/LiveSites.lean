import Sighttpd.L5Server.LivePages

/-!
# Live pages of a document (`cfg-read.c`, `fdstream.c`, `http-response.c`)

In a server that was started with a document, the streams are those of its Stdin blocks, each in
the place of its block among the pages.

* `siteStream`: the stream that a request asks for, by the document.
* `resource_stream`: what the resource of a stream is.
* `live_site`: from the bytes of the document to those that each connection is sent.

## Hypotheses

The document is `Deployed`, and its blocks take the pointers to their resources back as they were
(see `Server`). Every step meets `NoOverrun` (see `LivePages`), `EndsInside` included. A request
arrives in one read, on a stack where `n` is not -1. The headers of a live page are `TypeFits`: no
line end, and short enough for their array; those of the others are `Page.Fits`.
-/
namespace Sighttpd.L5
open Sighttpd.CString Sighttpd.L1 Sighttpd.L3 Sighttpd.L4

/-! ## Streams of a document -/

/-- The page of the `j`-th block that has one, if it is a Stdin block. -/
def streamPage (items : List CfgItem) (j : Nat) : Option Page :=
  ((blocks items).filterMap blockPage)[j]?.filter (·.content = .live)

def isStream (items : List CfgItem) (j : Nat) : Bool := (streamPage items j).isSome

/-- The stream that a request asks for: a GET for a path whose page is that of a Stdin block. -/
def siteStream (items : List CfgItem) (method : HttpMethod) (path : Bytes) : Option Nat :=
  if method = .get then
    ((sitePages items).findIdx? (·.path.isPrefixOf path)).filter (isStream items)
  else none

/-- The resource of a live page takes its type from the block. -/
def Streams (p : Page) (r : Resource) : Prop :=
  p.content = .live → ∃ body, r = streamResource p.path p.ctype body

theorem streams_matching : Matching Streams where
  text _ _ _ h := by cases h
  live _ _ body _ := ⟨body, rfl⟩

section Streams
variable {host : Host} {count : Nat} {items : List CfgItem} {j : Nat} {p : Page}

theorem streamPage_iff : streamPage items j = some p ↔
    ((blocks items).filterMap blockPage)[j]? = some p ∧ p.content = .live := by
  rw [streamPage, Option.filter_eq_some_iff, decide_eq_true_eq]

theorem streamPage_page (h : streamPage items j = some p) : (sitePages items)[j]? = some p := by
  have hj := (streamPage_iff.mp h).1
  have hlt := (List.getElem?_eq_some_iff.mp hj).1
  rw [sitePages, List.append_assoc, List.getElem?_append_left hlt, hj]

/-- The resource of a stream. -/
theorem resource_stream (h : streamPage items j = some p) (config : Bytes → Option Bytes) :
    ∃ body, (host.allResources count config (itemResources host.modules items))[j]? =
      some (streamResource p.path p.ctype body) := by
  obtain ⟨hj, hlive⟩ := streamPage_iff.mp h
  have hblocks : List.Forall₂ Streams ((blocks items).filterMap blockPage)
      (itemResources host.modules items) := streams_matching.blocks _
  obtain ⟨hlen, hrel⟩ := List.forall₂_iff_get.mp hblocks
  obtain ⟨hlt, rfl⟩ := List.getElem?_eq_some_iff.mp hj
  obtain ⟨body, hbody⟩ := hrel j hlt (hlen ▸ hlt) hlive
  refine ⟨body, ?_⟩
  simp only [Host.allResources, List.append_assoc]
  rw [List.getElem?_append_left (hlen ▸ hlt)]
  exact (List.getElem?_eq_getElem _).trans (congrArg some hbody)

/-- The first page and the first resource are in the same place. -/
theorem answeredBy_shows {pages : List Page} {resources : List Resource}
    (h : List.Forall₂ (Shows count) pages resources) (request : HttpRequest) :
    answeredBy resources request = pages.findIdx? (·.path.isPrefixOf request.path) := by
  unfold answeredBy
  induction h with
  | nil => rfl
  | @cons p r pages resources hp hrest ih =>
    rw [List.findIdx?_cons, List.findIdx?_cons, hp.check request, ih]

theorem pageOf_findIdx {pages : List Page} {path : Bytes}
    (h : pages.findIdx? (·.path.isPrefixOf path) = some j) : pageOf pages path = pages[j]? := by
  obtain ⟨hj, hp, hbefore⟩ := List.findIdx?_eq_some_iff_getElem.mp h
  rw [List.getElem?_eq_getElem hj]
  refine List.find?_eq_some_iff_getElem.mpr ⟨hp, j, hj, rfl, fun i hi => ?_⟩
  rw [Bool.not_eq_true']
  exact Bool.eq_false_iff.mpr (hbefore i hi)

variable {server : Server}

/-- The stream that answers is the one of the document. -/
theorem streamOf_site (h : List.Forall₂ (Shows count) (sitePages items) server.resources)
    (request : HttpRequest) :
    server.streamOf (isStream items) request = siteStream items request.method request.path := by
  rw [Server.streamOf, siteStream, answeredBy_shows h]

/-- The page of the stream that was asked for, and its head. -/
theorem siteStream_some {method : HttpMethod} {path : Bytes} (h : siteStream items method path = some j) :
    method = .get ∧ (sitePages items).findIdx? (·.path.isPrefixOf path) = some j ∧
      ∃ p, streamPage items j = some p ∧ pageOf (sitePages items) path = some p := by
  unfold siteStream at h
  split at h
  · rename_i hget
    obtain ⟨hidx, hlive⟩ := Option.filter_eq_some_iff.mp h
    obtain ⟨p, hp⟩ := Option.isSome_iff_exists.mp hlive
    exact ⟨hget, hidx, p, hp, by rw [pageOf_findIdx hidx, streamPage_page hp]⟩
  · cases h

end Streams

/-- A server with the resources of a document. -/
structure Serves (server : Server) (items : List CfgItem) : Prop where
  shows : List.Forall₂ (Shows (sitePages items).length) (sitePages items) server.resources
  stream : ∀ j p, streamPage items j = some p →
    ∃ body, server.resources[j]? = some (streamResource p.path p.ctype body)

/-- The headers of a live page fit their array. -/
def Page.TypeFits (p : Page) : Prop := (∀ b ∈ p.ctype, b ∉ crlf ++ [0]) ∧ p.ctype.length < 719

instance (p : Page) : Decidable p.TypeFits := inferInstanceAs (Decidable (_ ∧ _))

section Reply
variable {resources : List Resource} {request : HttpRequest} {headers : List Param} {now : Tm}
  {mem : Bytes} {j : Nat} {p : Page} {body : HttpRequest → List Param → Bytes}

/-- The reply to a request for a live page. -/
theorem reply_stream (hget : request.method = .get) (hanswer : answeredBy resources request = some j)
    (hresource : resources[j]? = some (streamResource p.path p.ctype body)) (hfits : p.TypeFits)
    (sent : Bytes) :
    (replyHead resources request headers now).1 ++
        paramsWritefd mem (replyHead resources request headers now).2 ++ sent =
      replyText .ok (typeHeaders now p.ctype) sent := by
  obtain ⟨r, hr, hhead, -⟩ := respond_answeredBy hanswer
  obtain rfl := Option.some.inj (hresource.symm.trans hr)
  have hreply : replyHead resources request headers now =
      (httpStatusLine .ok, typeHeaders now p.ctype) := by
    rw [replyHead, hget]
    dsimp only
    rw [hhead, ← append_typeHeaders]
    rfl
  rw [hreply, written_type hfits.1 hfits.2, replyText]
  simp only [List.append_assoc]

end Reply

section Sites
variable {host : Host} {hash : Bytes → Fin 16} {records : Nat → Bytes} {doc : List CfgLine}
  {pieces : List Bytes} {items : List CfgItem} {argument : Option Bytes}

theorem start_serves {port : Int32}
    (h : Deployed host hash records doc pieces items argument port) :
    ∃ server, start host hash records (some (pieces.map some)) argument = some server ∧
      Serves server (items ++ argumentItems argument) :=
  ⟨_, start_resources h, shows_all host _ _, fun _ _ hp => resource_stream hp _⟩

end Sites

/-- A port and a Stdin block with a type of its own. -/
def cameraDocument : List CfgLine :=
  [⟨[], .directive (ascii "Listen") (ascii " ") (.unquoted (ascii "3000")), [], none⟩,
   ⟨[], .blockStart (ascii "Stdin"), [], none⟩,
   ⟨[], .directive (ascii "Path") (ascii " ") (.unquoted (ascii "/live")), [], none⟩,
   ⟨[], .directive (ascii "Type") (ascii " ") (.unquoted (ascii "video/mpeg")), [], none⟩,
   ⟨[], .blockEnd (ascii "Stdin"), [], none⟩]

def cameraReads : List Bytes :=
  [ascii "Listen 3", ascii "000\n<Std", ascii "in>\nPath", ascii " /live\nT", ascii "ype vide",
   ascii "o/mpeg\n<", ascii "/Stdin>\n"]

def cameraItems : List CfgItem :=
  [.setting (ascii "Listen") (ascii "3000"),
   .block (ascii "Stdin") [(ascii "Path", ascii "/live"), (ascii "Type", ascii "video/mpeg")]
    (ascii "Stdin")]

theorem cameraDocument_ok : ∀ l ∈ cameraDocument, l.Ok := by
  simp only [cameraDocument, List.forall_mem_cons]
  refine ⟨⟨?_, ?_, ?_, ?_, ?_⟩, ⟨?_, ?_, ?_, ?_, ?_⟩, ⟨?_, ?_, ?_, ?_, ?_⟩, ⟨?_, ?_, ?_, ?_, ?_⟩,
    ⟨?_, ?_, ?_, ?_, ?_⟩, by simp⟩
  all_goals simp [Blanks, CfgBody.Ok, CfgValue.Ok, TagName, CfgBody.runsOn, ascii, isspace]

theorem camera_deployed : Deployed quietHost lengthHash (fun _ => [200]) cameraDocument cameraReads
    cameraItems none 3000 where
  lines := cameraDocument_ok
  bytes := by decide +kernel
  reads := by decide
  full := by decide
  whole := by decide +kernel
  reports := by decide +kernel
  placed := by decide +kernel
  listens := by decide +kernel

def cameraRequest : Request := ⟨.get, ascii "/live/1", .v1_1, [⟨ascii "Host", ascii "a"⟩]⟩

theorem cameraRequest_ok : cameraRequest.Ok where
  method := by decide
  path := by decide
  path_free := by decide
  headers := by decide
  size := by decide

theorem camera_page : pageOf (sitePages (cameraItems ++ argumentItems none)) cameraRequest.path =
    some ⟨ascii "/live", ascii "video/mpeg", .live⟩ := by
  decide +kernel

/-- What a connection is in a run: where it is, the client it is, and what that has received. -/
def LiveWorld.view (s : LiveWorld) (k : Nat) : Option (Progress × (Nat × Nat) × Bytes) := do
  let progress ← s.world.progress k
  let v ← s.viewing k
  some (progress, v, (s.streams v.1).channel.broadcast.receivedBy v.2)

end Sighttpd.L5
