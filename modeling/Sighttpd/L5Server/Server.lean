import Sighttpd.L3Config.CfgMeaning
import Sighttpd.L4Http.OneRead
import Sighttpd.L4Http.Replies
import Sighttpd.L4Http.Dispatch

/-!
# From the configuration to the replies (`sighttpd.c`, `main.c`)

The server without OggStdin and SHRecord: `cfg_read`, the port on the command line,
`sighttpd_init` with the resources that are always there, and what a connection writes.

A site is the list of pages that a document asks for, in the order in which they are tried.

* `start_resources`, `start_pages`: the resources are the pages of the document.
* `respond_site`: the reply to any request for a page.
* `site_served`: from the bytes of the document and of the request to those of the reply.

## Hypotheses

A document is `Deployed` when

* its lines are well formed, of ASCII without NUL and backslash (`lines`, `bytes`);
* it is read in full pieces of eight bytes, so that its length is a multiple of eight
  (`reads`, `full`, `whole`);
* what it says is a list of settings and blocks (`reports`);
* each record of a setting is allocated where the dictionary finds it again (`placed`);
* it, or the command line, names a port, as a number or a service (`listens`).

`cfg-read.c` calls the functions that make the resources of a block without a declaration, so
that the pointers they return go through an `int`: they are taken to come back as they were,
as they do where an `int` holds a pointer and where the heap is at low addresses.

A request is well formed, has headers, and arrives in one read; `n` is not -1 on the stack
when `http_response` is called. `Page.Fits` says that the headers of a page have no line end
and fit their array, and that a text has a length. Each `write` of a reply takes all its bytes.
-/
namespace Sighttpd.L5
open Sighttpd.CString Sighttpd.L1 Sighttpd.L3 Sighttpd.L4 Sighttpd.Numeral

/-! ## Resources that are always there -/

/-- mirrors src/status.c:54-80 (`status_body`); what is written, which fits `buf` -/
def statusText (count : Nat) : Bytes :=
  ascii "<html>\n<head>\n<title>Sighttpd/1.2.0 - Status</title>\n</head>\n<body>\n" ++
    ascii "<h1>Sighttpd/1.2.0 Status</h1>\n" ++
    (ascii "<p>Active resources: " ++ natText 10 count ++ ascii "</p>\n") ++
    ascii "</body>\n</head>\n"

/-- mirrors src/status.c:30-86; `count` is the length of `sighttpd->resources` -/
def statusResource (count : Nat) : Resource :=
  streamResource (ascii "/status") (ascii "text/html") fun _ _ => statusText count

def flimText : Bytes := ascii "flim flim flim\n"

/-- mirrors src/flim.c:13-51 -/
def flimResource : Resource :=
  statictextResource (ascii "/flim.txt") flimText (ascii "text/plain")

/-- mirrors src/uiomux.c:58-83 (`uiomux_body`); `shell` is what `shell_stream` copies of the
output of a command -/
def uiomuxText (shell : Bytes → Bytes) : Bytes :=
  ascii "<html>\n<head>\n<title>Sighttpd/1.2.0 - UIOMux</title>\n</head>\n<body>\n" ++
    ascii "<h1>UIOMux status</h1>\n<pre>" ++
    (shell (ascii "uiomux info") ++ shell (ascii "uiomux meminfo")) ++
    ascii "</pre>\n</body>\n</head>\n"

/-- mirrors src/uiomux.c:31-89 -/
def uiomuxResource (shell : Bytes → Bytes) : Resource :=
  streamResource (ascii "/uiomux") (ascii "text/html") fun _ _ => uiomuxText shell

/-- mirrors src/kongou.c:142-160, 291-295; `kongou_append_headers` returns nothing, so that `headers` is what the
caller takes for its value, and `body` what `kongou_body` writes -/
def kongouResource (headers : List Param → List Param) (body : HttpRequest → Bytes) : Resource where
  check request := startsWith request.path (ascii "/kongou")
  head _ _ responseHeaders := (httpStatusLine .ok, headers responseHeaders)
  body request _ := body request

/-! ## Starting -/

/-- What is outside the program, or not settled by its text. -/
structure Host where
  getservbyname : Bytes → Option UInt16    -- `ntohs (srv->s_port)`
  shell : Bytes → Bytes
  kongouHeaders : List Param → List Param
  kongouBody : HttpRequest → Bytes
  streamed : Bytes → Bytes → HttpRequest → List Param → Bytes

/-- The modules of a build without Oggz and SHCodecs. -/
def Host.modules (host : Host) : ResourceModules Resource where
  statictextResource := statictextResource
  fdstreamResource path ctype := some (streamResource path ctype (host.streamed path ctype))
  oggstdinResources := none
  shrecordResources := none

/-- mirrors src/sighttpd.h (`struct sighttpd`) -/
structure Server where
  port : Int32
  resources : List Resource

/-- `htons` takes the low 16 bits; mirrors src/main.c:195 -/
def Server.bound (server : Server) : UInt16 := server.port.toUInt32.toUInt16

/-- mirrors src/sighttpd.c:40-52 -/
def portNumber (getservbyname : Bytes → Option UInt16) (portname : Bytes) : Option Int32 :=
  if isDigit (portname.headD 0) then some (Int32.ofInt (atoi portname))
  else (getservbyname portname).map fun port => Int32.ofNat port.toNat

/-- mirrors src/sighttpd.c:56-62; `count` is for the page of the status -/
def Host.allResources (host : Host) (count : Nat) (config : Bytes → Option Bytes)
    (resources : List Resource) : List Resource :=
  resources ++ [statusResource count] ++ [flimResource] ++ [uiomuxResource host.shell] ++
    [kongouResource host.kongouHeaders host.kongouBody] ++
    (statictextYield host.modules config).toList

/-- mirrors src/sighttpd.c:24-65 (`sighttpd_init`); `none` where it exits. `config` looks up in
`cfg->dictionary` -/
def sighttpdInit (host : Host) (config : Bytes → Option Bytes) (resources : List Resource) :
    Option Server := do
  let portname ← config (ascii "Listen")
  let port ← portNumber host.getservbyname portname
  let count := (host.allResources 0 config resources).length
  some ⟨port, host.allResources count config resources⟩

section Start
variable (host : Host) (hash : Bytes → Fin 16) (records : Nat → Bytes)

/-- mirrors src/main.c:157-159; `argument` is the port on the command line -/
def insertListen (argument : Option Bytes) (s : DictCfg Resource) : DictCfg Resource :=
  match argument with
  | some value =>
    let d := dictionaryInsert hash s.cfg.dictionary (ascii "Listen") value (records s.inserts)
    ⟨{ s.cfg with dictionary := d }, s.inserts + 1⟩
  | none => s

/-- mirrors src/main.c:151-163 -/
def start (file : Option (List (Option Bytes))) (argument : Option Bytes) : Option Server := do
  let s ← cfgReadDict host.modules hash records file
  let s := insertListen hash records argument s
  sighttpdInit host (dictionaryLookup hash s.cfg.dictionary) s.cfg.resources

end Start

/-- What a connection writes; `none` where the program has no defined behaviour, or does not end.
A request that was not filled in is `stale`, what the stack holds, if that is a request. -/
def Server.written (server : Server) (stale : Option HttpRequest) (now : Tm) (headersOut : Bytes) :
    Outcome → Option Bytes
  | .responded filled headers _ =>
    (filled.or stale).map fun request => respond server.resources request headers now headersOut
  | .closed => some []
  | _ => none

/-! ## Sites -/

/-- What is behind the headers of a page. -/
inductive Content where
  | text (text : Bytes)
  | status
  | live
  deriving DecidableEq, Repr

structure Page where
  path : Bytes
  ctype : Bytes
  content : Content
  deriving DecidableEq, Repr

/-- The page of a StaticText block, or of the settings outside blocks. -/
def staticPage (own : List (Bytes × Bytes)) : Option Page :=
  match assigned own (ascii "Path"), assigned own (ascii "Text") with
  | some path, some text =>
    some ⟨path, (assigned own (ascii "Type")).getD (ascii "text/plain"), .text text⟩
  | _, _ => none

/-- The page of a Stdin block. -/
def stdinPage (own : List (Bytes × Bytes)) : Option Page :=
  (assigned own (ascii "Path")).map fun path =>
    ⟨path, (assigned own (ascii "Type")).getD (ascii "video/mp4"), .live⟩

/-- The kind of a block is told by the front of the name in its end tag. -/
def blockPage (b : Bytes × List (Bytes × Bytes)) : Option Page :=
  if strncasecmp b.1 (ascii "StaticText") 10 = 0 then staticPage b.2
  else if strncasecmp b.1 (ascii "Stdin") 5 = 0 then stdinPage b.2
  else none

/-- The pages of a document, in the order in which they are tried. -/
def sitePages (items : List CfgItem) : List Page :=
  (blocks items).filterMap blockPage ++
    [⟨ascii "/status", ascii "text/html", .status⟩, ⟨ascii "/flim.txt", ascii "text/plain", .text flimText⟩,
      ⟨ascii "/uiomux", ascii "text/html", .live⟩, ⟨ascii "/kongou", ascii "text/html", .live⟩] ++
    (staticPage (settings items)).toList

/-- The first page whose path the request begins with. -/
def pageOf (pages : List Page) (path : Bytes) : Option Page :=
  pages.find? (·.path.isPrefixOf path)

def typeHeaders (now : Tm) (ctype : Bytes) : List Param :=
  [⟨ascii "Date", (httpdate now).take 255⟩, ⟨ascii "Server", ascii "Sighttpd/1.2.0"⟩,
    ⟨ascii "Content-Type", ctype⟩]

def allowHeaders (now : Tm) : List Param :=
  [⟨ascii "Date", (httpdate now).take 255⟩, ⟨ascii "Server", ascii "Sighttpd/1.2.0"⟩,
    ⟨ascii "Allow", ascii "GET,HEAD"⟩]

/-- A status line, a line for each header, an empty line and the body. -/
def replyText (status : HttpStatus) (headers : List Param) (body : Bytes) : Bytes :=
  httpStatusLine status ++ (linesText (headerLines headers) ++ crlf ++ body)

/-- The reply to GET; `none` for what is not settled here. -/
def pageReply (pages : List Page) (now : Tm) (path : Bytes) : Option (HttpStatus × List Param × Bytes) :=
  match pageOf pages path with
  | none =>
    let body := httpStatusStreamBody .notFound
    some (.notFound, lengthHeaders now (ascii "text/html") body.length, body)
  | some ⟨_, ctype, .text text⟩ => some (.ok, lengthHeaders now ctype text.length, text)
  | some ⟨_, ctype, .status⟩ => some (.ok, typeHeaders now ctype, statusText pages.length)
  | some ⟨_, _, .live⟩ => none

/-- The reply to a request: the body is for GET only, and other methods are not allowed. -/
def siteReply (pages : List Page) (now : Tm) (method : HttpMethod) (path : Bytes) : Option Bytes :=
  match method with
  | .get => (pageReply pages now path).map fun r => replyText r.1 r.2.1 r.2.2
  | .head => (pageReply pages now path).map fun r => replyText r.1 r.2.1 []
  | _ => some (replyText .methodNotAllowed (allowHeaders now) [])

/-! ## Resources and pages -/

/-- The resource answers for the page. -/
structure Shows (count : Nat) (p : Page) (r : Resource) : Prop where
  check : ∀ request : HttpRequest, r.check request = p.path.isPrefixOf request.path
  text : ∀ text, p.content = .text text → r = statictextResource p.path text p.ctype
  status : p.content = .status →
    p.ctype = ascii "text/html" ∧ r = streamResource p.path p.ctype fun _ _ => statusText count

section Pages
variable {host : Host} {count : Nat}

theorem startsWith_eq (path pre : Bytes) : startsWith path pre = pre.isPrefixOf path := by
  rw [Bool.eq_iff_iff, startsWith_iff, List.isPrefixOf_iff_prefix]

theorem shows_text (path text ctype : Bytes) :
    Shows count ⟨path, ctype, .text text⟩ (statictextResource path text ctype) where
  check request := startsWith_eq request.path path
  text t ht := by rw [Content.text.inj ht]
  status h := by cases h

theorem shows_live {path : Bytes} (ctype : Bytes) {r : Resource}
    (hcheck : ∀ request : HttpRequest, r.check request = startsWith request.path path) :
    Shows count ⟨path, ctype, .live⟩ r where
  check request := by rw [hcheck, startsWith_eq]
  text t ht := by cases ht
  status h := by cases h

theorem shows_status : Shows count ⟨ascii "/status", ascii "text/html", .status⟩ (statusResource count) where
  check request := startsWith_eq request.path (ascii "/status")
  text t ht := by cases ht
  status _ := ⟨rfl, rfl⟩

/-- A relation that holds of the pages of text and of the live ones, each with its resource. -/
structure Matching (R : Page → Resource → Prop) : Prop where
  text : ∀ path text ctype, R ⟨path, ctype, .text text⟩ (statictextResource path text ctype)
  live : ∀ path ctype body, R ⟨path, ctype, .live⟩ (streamResource path ctype body)

theorem shows_matching : Matching (Shows count) where
  text := shows_text
  live _ ctype _ := shows_live ctype fun _ => rfl

section Matching
variable {R : Page → Resource → Prop}

/-- A StaticText block and its resource. -/
theorem Matching.static (h : Matching R) (own : List (Bytes × Bytes)) :
    List.Forall₂ R (staticPage own).toList (statictextYield host.modules (assigned own)).toList := by
  unfold staticPage statictextYield
  cases hpath : assigned own (ascii "Path") with
  | none => exact .nil
  | some path =>
    cases htext : assigned own (ascii "Text") with
    | none => exact .nil
    | some text => exact .cons (h.text path text _) .nil

theorem Matching.stdin (h : Matching R) (own : List (Bytes × Bytes)) :
    List.Forall₂ R (stdinPage own).toList (fdstreamYield host.modules (assigned own)).toList := by
  unfold stdinPage fdstreamYield
  cases hpath : assigned own (ascii "Path") with
  | none => exact .nil
  | some path => exact .cons (h.live path _ _) .nil

theorem Matching.block (h : Matching R) (b : Bytes × List (Bytes × Bytes)) :
    List.Forall₂ R (blockPage b).toList (blockYield host.modules b.1 (assigned b.2)).toList := by
  have hogg : host.modules.oggstdinResources = none := rfl
  have hsh : host.modules.shrecordResources = none := rfl
  unfold blockPage blockYield
  rw [hogg, hsh]
  simp only [Option.isSome_none, Bool.false_eq_true, false_and, if_false]
  split
  · exact h.static b.2
  · split
    · exact h.stdin b.2
    · exact .nil

theorem Matching.blocks (h : Matching R) (bs : List (Bytes × List (Bytes × Bytes))) :
    List.Forall₂ R (bs.filterMap blockPage)
      (bs.flatMap fun b => (blockYield host.modules b.1 (assigned b.2)).toList) := by
  induction bs with
  | nil => exact .nil
  | cons b bs ih =>
    have hcons : (b :: bs).filterMap blockPage = (blockPage b).toList ++ bs.filterMap blockPage := by
      rw [List.filterMap_cons]
      cases blockPage b <;> rfl
    rw [hcons, List.flatMap_cons]
    exact List.rel_append (h.block b) ih

end Matching

/-- The resources of the server are the pages of the document. -/
theorem shows_all (host : Host) (count : Nat) (items : List CfgItem) :
    List.Forall₂ (Shows count) (sitePages items)
      (host.allResources count (assigned (settings items)) (itemResources host.modules items)) := by
  have hbuiltin : List.Forall₂ (Shows count)
      [⟨ascii "/status", ascii "text/html", .status⟩, ⟨ascii "/flim.txt", ascii "text/plain", .text flimText⟩,
        ⟨ascii "/uiomux", ascii "text/html", .live⟩, ⟨ascii "/kongou", ascii "text/html", .live⟩]
      [statusResource count, flimResource, uiomuxResource host.shell,
        kongouResource host.kongouHeaders host.kongouBody] :=
    .cons shows_status (.cons (shows_text _ _ _) (.cons (shows_live _ fun _ => rfl)
      (.cons (shows_live _ fun _ => rfl) .nil)))
  rw [sitePages, Host.allResources, itemResources]
  simp only [List.append_assoc]
  exact List.rel_append (shows_matching.blocks _) (List.rel_append hbuiltin (shows_matching.static _))

/-- The first page and the first resource. -/
theorem find_shows {pages : List Page} {resources : List Resource}
    (h : List.Forall₂ (Shows count) pages resources) (request : HttpRequest) :
    Option.Rel (Shows count) (pageOf pages request.path) (resources.find? (·.check request)) := by
  unfold pageOf
  induction h with
  | nil => exact .none
  | @cons p r pages resources hp hrest ih =>
    rw [List.find?_cons, List.find?_cons, hp.check request]
    cases p.path.isPrefixOf request.path with
    | true => exact .some hp
    | false => exact ih

end Pages

/-! ## Replies -/

/-- The headers fit their array, and the text has a length. -/
def Page.Fits (now : Tm) (p : Page) : Prop :=
  (∀ b ∈ p.ctype, b ∉ crlf ++ [0]) ∧ ∀ text, p.content = .text text → TextFits now p.ctype text

section Headers
variable {now : Tm} {ctype mem : Bytes}

theorem headerLine_free {key value : Bytes} (hkey : Printable (key ++ ascii ": "))
    (hvalue : ∀ b ∈ value, b ∉ crlf ++ [0]) : ∀ b ∈ headerLine ⟨key, value⟩, b ∉ crlf ++ [0] := by
  intro b hb
  rcases List.mem_append.mp hb with hb | hb
  · exact hkey.free b hb
  · exact hvalue b hb

theorem date_printable (now : Tm) : Printable ((httpdate now).take 255) :=
  fun b hb => printable_httpdate now b (List.mem_of_mem_take hb)

/-- Three headers, of which the first two are in every reply. -/
theorem headersOk_three {key value : Bytes} (hkey : Printable (key ++ ascii ": "))
    (hvalue : ∀ b ∈ value, b ∉ crlf ++ [0]) :
    HeadersOk [⟨ascii "Date", (httpdate now).take 255⟩, ⟨ascii "Server", ascii "Sighttpd/1.2.0"⟩,
      ⟨key, value⟩] := by
  have hserver : Printable (ascii "Sighttpd/1.2.0") := by unfold Printable; decide
  have hdate : Printable (ascii "Date" ++ ascii ": ") := by unfold Printable; decide
  have hname : Printable (ascii "Server" ++ ascii ": ") := by unfold Printable; decide
  refine headersOk_of_free (by simp) (show 3 ≤ 1000 by decide) ?_
  simp only [List.forall_mem_cons]
  exact ⟨headerLine_free hdate (date_printable now).free, headerLine_free hname hserver.free,
    headerLine_free hkey hvalue, fun e he => absurd he (by simp)⟩

theorem length_three (now : Tm) (key value : Bytes) :
    (linesText (headerLines [⟨ascii "Date", (httpdate now).take 255⟩,
      ⟨ascii "Server", ascii "Sighttpd/1.2.0"⟩, ⟨key, value⟩])).length ≤
      291 + key.length + value.length := by
  have hdate : ((httpdate now).take 255).length ≤ 255 := List.length_take_le ..
  simp only [headerLines_cons, headerLines_nil, linesText_cons, linesText_nil, headerLine,
    List.length_append, List.length_nil]
  rw [show (ascii "Date").length = 4 from rfl, show (ascii ": ").length = 2 from rfl,
    show crlf.length = 2 from rfl, show (ascii "Server").length = 6 from rfl,
    show (ascii "Sighttpd/1.2.0").length = 14 from rfl]
  omega

theorem written_three {key value : Bytes} (hkey : Printable (key ++ ascii ": "))
    (hvalue : ∀ b ∈ value, b ∉ crlf ++ [0]) (hlen : key.length + value.length < 731) :
    paramsWritefd mem [⟨ascii "Date", (httpdate now).take 255⟩,
        ⟨ascii "Server", ascii "Sighttpd/1.2.0"⟩, ⟨key, value⟩] =
      linesText (headerLines [⟨ascii "Date", (httpdate now).take 255⟩,
        ⟨ascii "Server", ascii "Sighttpd/1.2.0"⟩, ⟨key, value⟩]) ++ crlf := by
  have hle := length_three now key value
  exact written_fit (headersOk_three hkey hvalue) (by omega)

theorem written_type (hctype : ∀ b ∈ ctype, b ∉ crlf ++ [0]) (hlen : ctype.length < 719) :
    paramsWritefd mem (typeHeaders now ctype) = linesText (headerLines (typeHeaders now ctype)) ++ crlf := by
  refine written_three ?_ hctype ?_
  · unfold Printable
    decide
  · rw [show (ascii "Content-Type").length = 12 from rfl]
    omega

theorem written_allow :
    paramsWritefd mem (allowHeaders now) = linesText (headerLines (allowHeaders now)) ++ crlf := by
  refine written_three ?_ (by decide) (by decide)
  unfold Printable
  decide

theorem written_length {text : Bytes} (hctype : ∀ b ∈ ctype, b ∉ crlf ++ [0])
    (hfit : TextFits now ctype text) : paramsWritefd mem (lengthHeaders now ctype text.length) =
      linesText (headerLines (lengthHeaders now ctype text.length)) ++ crlf :=
  written_fit (headersOk_length hctype) (by rw [length_lengthHeaders]; exact hfit.1)

theorem append_typeHeaders (now : Tm) (ctype : Bytes) :
    paramsAppend (responseHeadersNew now) (ascii "Content-Type") ctype = typeHeaders now ctype := by
  have hnames := headerNames_distinct
  simp only [List.pairwise_cons, List.forall_mem_cons] at hnames
  obtain ⟨⟨hds, hdt, -⟩, ⟨hst, -⟩, -⟩ := hnames
  simp only [responseHeadersNew, paramsAppend, typeHeaders, if_neg hds, if_neg hdt, if_neg hst]

theorem append_allowHeaders (now : Tm) :
    (respondMethodNotAllowed (responseHeadersNew now)).2 = allowHeaders now := by
  have hds : strcasecmp (ascii "Date") (ascii "Server") ≠ 0 := by decide +kernel
  have hda : strcasecmp (ascii "Date") (ascii "Allow") ≠ 0 := by decide +kernel
  have hsa : strcasecmp (ascii "Server") (ascii "Allow") ≠ 0 := by decide +kernel
  have hself : strcasecmp (ascii "Allow") (ascii "Allow") = 0 := strcasecmp_eq_zero.mpr rfl
  simp only [respondMethodNotAllowed, responseHeadersNew, paramsAppend, if_neg hds, if_neg hda,
    if_neg hsa, if_pos hself, allowHeaders]
  rfl

/-- The page that is served where nothing matches fits. -/
theorem notFound_fits (now : Tm) :
    TextFits now (ascii "text/html") (httpStatusStreamBody .notFound) := by
  have hlen := length_streamBody_lt .notFound
  have hdate : ((httpdate now).take 255).length ≤ 255 := List.length_take_le ..
  have htext : (lengthText (httpStatusStreamBody .notFound).length).length ≤ 15 := List.length_take_le ..
  have htype : (ascii "text/html").length = 9 := rfl
  refine ⟨?_, by omega⟩
  rw [htype]
  omega

end Headers

section Respond
variable {pages : List Page} {resources : List Resource} {request : HttpRequest}
  {requestHeaders : List Param} {now : Tm} {mem : Bytes} {status : HttpStatus}
  {headers : List Param} {body : Bytes}

/-- What the functions of the first resource, or the page that nothing matches, give. -/
theorem get_site (requestHeaders : List Param) (mem : Bytes) (h : List.Forall₂ (Shows pages.length) pages resources)
    (hfits : ∀ p, pageOf pages request.path = some p → p.Fits now)
    (hreply : pageReply pages now request.path = some (status, headers, body)) :
    respondGetHead resources request requestHeaders (responseHeadersNew now) =
        (httpStatusLine status, headers) ∧
      respondGetBody resources request requestHeaders = body ∧
      paramsWritefd mem headers = linesText (headerLines headers) ++ crlf := by
  have hfind := find_shows h request
  unfold pageReply at hreply
  rw [respondGetHead, respondGetBody]
  cases hpage : pageOf pages request.path with
  | none =>
    rw [hpage] at hfind hreply
    obtain ⟨rfl, rfl, rfl⟩ : _ = status ∧ _ = headers ∧ _ = body := by simpa using hreply
    cases hres : resources.find? (·.check request) with
    | some r =>
      rw [hres] at hfind
      cases hfind
    | none =>
      dsimp only
      rw [notFound_head]
      refine ⟨rfl, rfl, written_length ?_ (notFound_fits now)⟩
      decide
  | some p =>
    obtain ⟨hctype, htextfits⟩ := hfits p hpage
    rw [hpage] at hfind hreply
    cases hres : resources.find? (·.check request) with
    | none =>
      rw [hres] at hfind
      cases hfind
    | some r =>
      rw [hres] at hfind
      cases hfind with
      | some hshows =>
        obtain ⟨path, ctype, content⟩ := p
        dsimp only at hreply ⊢
        cases content with
        | live => cases hreply
        | text text =>
          obtain ⟨rfl, rfl, rfl⟩ : _ = status ∧ _ = headers ∧ _ = body := by simpa using hreply
          obtain rfl := hshows.text text rfl
          rw [statictext_head]
          exact ⟨rfl, rfl, written_length hctype (htextfits text rfl)⟩
        | status =>
          obtain ⟨rfl, rfl, rfl⟩ : _ = status ∧ _ = headers ∧ _ = body := by simpa using hreply
          obtain ⟨htype, rfl⟩ := hshows.status rfl
          have hlen : ctype.length < 719 := by
            rw [show ctype = ascii "text/html" from htype]
            decide
          refine ⟨?_, rfl, written_type hctype hlen⟩
          rw [← append_typeHeaders]
          rfl

theorem siteReply_other {method : HttpMethod} (hget : method ≠ .get) (hhead : method ≠ .head)
    {path : Bytes} : siteReply pages now method path =
      some (replyText .methodNotAllowed (allowHeaders now) []) := by
  cases method with
  | get => exact absurd rfl hget
  | head => exact absurd rfl hhead
  | _ => rfl

theorem replyHead_other (hget : request.method ≠ .get) (hhead : request.method ≠ .head) :
    replyHead resources request requestHeaders now =
      (httpStatusLine .methodNotAllowed, allowHeaders now) := by
  obtain ⟨line, method, version, path⟩ := request
  rw [← append_allowHeaders]
  cases method with
  | get => exact absurd rfl hget
  | head => exact absurd rfl hhead
  | _ => rfl

/-- **Replies.** What `respond` writes is the reply of the site, whatever is in the array for the
headers. -/
theorem respond_site (h : List.Forall₂ (Shows pages.length) pages resources)
    (hfits : ∀ p, pageOf pages request.path = some p → p.Fits now) {out : Bytes}
    (hout : siteReply pages now request.method request.path = some out) :
    respond resources request requestHeaders now mem = out := by
  by_cases hget : request.method = .get
  · rw [hget, siteReply] at hout
    obtain ⟨⟨status, headers, body⟩, hreply, rfl⟩ := Option.map_eq_some_iff.mp hout
    obtain ⟨hhead, hbody, hwritten⟩ := get_site requestHeaders mem h hfits hreply
    rw [respond, replyHead, hget]
    dsimp only
    rw [if_pos rfl, hhead, hbody, hwritten, replyText]
  · by_cases hmethod : request.method = .head
    · rw [hmethod, siteReply] at hout
      obtain ⟨⟨status, headers, body⟩, hreply, rfl⟩ := Option.map_eq_some_iff.mp hout
      obtain ⟨hhead, -, hwritten⟩ := get_site requestHeaders mem h hfits hreply
      rw [respond, replyHead, hmethod]
      dsimp only
      rw [if_neg (by decide), hhead, hwritten, replyText]
    · rw [siteReply_other hget hmethod] at hout
      obtain rfl := Option.some.inj hout
      rw [respond, replyHead_other hget hmethod, if_neg hget, written_allow, replyText]

/-- The reply to a request that was understood. -/
theorem written_site {server : Server} {stale : Option HttpRequest}
    (h : List.Forall₂ (Shows pages.length) pages server.resources)
    {r : Request} {o : Outcome} (hanswer : Answered r o)
    (hfits : ∀ p, pageOf pages r.path = some p → p.Fits now) {out : Bytes}
    (hout : siteReply pages now r.method r.path = some out) :
    server.written stale now mem o = some out := by
  obtain ⟨request, headers, rfl, hmethod, hpath, -⟩ := hanswer
  rw [← hpath] at hfits hout
  rw [← hmethod] at hout
  rw [Server.written, Option.some_or, Option.map_some, respond_site h hfits hout]

end Respond

/-! ## From the document -/

/-- The port on the command line is one more setting. -/
def argumentItems (argument : Option Bytes) : List CfgItem :=
  argument.toList.map (CfgItem.setting (ascii "Listen") ·)

section Start
variable {host : Host} {hash : Bytes → Fin 16} {records : Nat → Bytes} {doc : List CfgLine}
  {pieces : List Bytes} {items : List CfgItem} {argument : Option Bytes}

/-- What `main` inserts is what another directive would have inserted. -/
theorem insertListen_eq (host : Host) {s : DictCfg Resource} (hblock : s.cfg.blockDict = none) :
    ((argumentItems argument).flatMap CfgItem.reports).foldl
      (dictCallbacks host.modules hash records).handle (.ok, s) =
        (.ok, insertListen hash records argument s) := by
  cases argument with
  | none => rfl
  | some value =>
    have hstep : (dictCallbacks host.modules hash records).handle (.ok, s)
        (.assign (ascii "Listen") value) = (.ok, insertListen hash records (some value) s) := by
      simp only [Callbacks.handle, dictCallbacks, if_true, insertListen, cfgReadAssign, hblock]
      rfl
    exact hstep

theorem blocks_argument (items : List CfgItem) (argument : Option Bytes) :
    blocks (items ++ argumentItems argument) = blocks items := by
  cases argument with
  | none => exact congrArg blocks (List.append_nil items)
  | some value =>
    rw [blocks, List.filterMap_append]
    exact List.append_nil _

/-- The dictionary with the port on the command line, and the resources of the document. -/
theorem insertListen_means
    (hok : (reportMachine host.modules hash records).Guarded (RecordOk hash records)
      (.ok, DictCfg.fresh) ((items ++ argumentItems argument).flatMap CfgItem.reports)) :
    Means host.modules hash (.ok, insertListen hash records argument
        (takeReports host.modules hash records (items.flatMap CfgItem.reports)).2)
      (.ok, ⟨settings (items ++ argumentItems argument), none, blocks items⟩) := by
  have hall := items_means hok
  have hfront : (reportMachine host.modules hash records).Guarded (RecordOk hash records)
      (.ok, DictCfg.fresh) (items.flatMap CfgItem.reports) := by
    rw [List.flatMap_append] at hok
    exact Machine.guarded_left hok
  have hitems := items_means hfront
  have hblock : (takeReports host.modules hash records (items.flatMap CfgItem.reports)).2.cfg.blockDict =
      none := by
    rcases hitems.block with ⟨hd, -⟩ | ⟨d, own, -, hm, -⟩
    · exact hd
    · cases hm
  have hstate : takeReports host.modules hash records (items.flatMap CfgItem.reports) =
      (.ok, (takeReports host.modules hash records (items.flatMap CfgItem.reports)).2) :=
    Prod.ext hitems.status rfl
  have hargument : takeReports host.modules hash records
      ((items ++ argumentItems argument).flatMap CfgItem.reports) =
        (.ok, insertListen hash records argument
          (takeReports host.modules hash records (items.flatMap CfgItem.reports)).2) := by
    rw [← insertListen_eq host hblock, ← hstate]
    rw [takeReports, List.flatMap_append, List.foldl_append, takeReports]
  rw [hargument, blocks_argument] at hall
  exact hall

/-- A document of items with a port to listen on, read eight bytes at a time, and the records that
are allocated for its settings. -/
structure Deployed (host : Host) (hash : Bytes → Fin 16) (records : Nat → Bytes) (doc : List CfgLine)
    (pieces : List Bytes) (items : List CfgItem) (argument : Option Bytes) (port : Int32) :
    Prop where
  lines : ∀ l ∈ doc, l.Ok
  bytes : ∀ c ∈ printDocument doc, c < 128 ∧ c ≠ 0 ∧ c ≠ 92
  reads : pieces ≠ []
  full : ∀ q ∈ pieces, q.length = 8
  whole : pieces.flatten = printDocument doc
  reports : (doc.flatMap fun l => l.body.reports) = items.flatMap CfgItem.reports
  placed : (reportMachine host.modules hash records).Guarded (RecordOk hash records)
    (.ok, DictCfg.fresh) ((items ++ argumentItems argument).flatMap CfgItem.reports)
  listens : (assigned (settings (items ++ argumentItems argument)) (ascii "Listen")).bind
    (portNumber host.getservbyname) = some port

/-- **Starting.** With a port to listen on, the server has the resources of the blocks and the
others behind them. -/
theorem start_resources {port : Int32}
    (h : Deployed host hash records doc pieces items argument port) :
    start host hash records (some (pieces.map some)) argument = some ⟨port,
      host.allResources (sitePages (items ++ argumentItems argument)).length
        (assigned (settings (items ++ argumentItems argument)))
        (itemResources host.modules (items ++ argumentItems argument))⟩ := by
  have hmeans := insertListen_means h.placed
  have hresources : (insertListen hash records argument
      (takeReports host.modules hash records (items.flatMap CfgItem.reports)).2).cfg.resources =
      itemResources host.modules (items ++ argumentItems argument) := by
    rw [hmeans.resources, itemResources, blocks_argument]
    rfl
  have hcount := (shows_all host 0 (items ++ argumentItems argument)).length_eq
  rw [start, document_read h.lines h.bytes h.reads h.full h.whole h.reports]
  simp only [Option.bind_eq_bind, Option.bind_some]
  rw [hmeans.globals.lookup, hresources]
  obtain ⟨portname, hname, hnumber⟩ := Option.bind_eq_some_iff.mp h.listens
  simp only [sighttpdInit, hname, hnumber, Option.bind_eq_bind, Option.bind_some, ← hcount]

/-- There is one for each page of the document. -/
theorem start_pages {port : Int32} (h : Deployed host hash records doc pieces items argument port) :
    ∃ server, start host hash records (some (pieces.map some)) argument = some server ∧
      server.port = port ∧
      List.Forall₂ (Shows (sitePages (items ++ argumentItems argument)).length)
        (sitePages (items ++ argumentItems argument)) server.resources :=
  ⟨_, start_resources h, rfl, shows_all host _ _⟩

end Start

/-- A host where the programs print nothing and the streams are silent. -/
def quietHost : Host where
  getservbyname _ := none
  shell _ := []
  kongouHeaders headers := headers
  kongouBody _ := []
  streamed _ _ _ _ := []

/-- The port on the command line counts. -/
theorem welcome_deployed : Deployed quietHost lengthHash (fun _ => [200]) welcomeDocument welcomeReads
    welcomeItems (some (ascii "8080")) 8080 where
  lines := welcomeDocument_ok
  bytes := by decide +kernel
  reads := by decide
  full := by decide
  whole := by decide +kernel
  reports := by decide +kernel
  placed := by decide +kernel
  listens := by decide +kernel

def welcomeRequest : Request := ⟨.get, ascii "/a/b", .v1_1, [⟨ascii "Host", ascii "a"⟩]⟩

theorem welcomeRequest_ok : welcomeRequest.Ok where
  method := by decide
  path := by decide
  path_free := by decide
  headers := by decide
  size := by decide

/-- A day after the epoch. -/
def epoch : Tm where
  wday := ⟨5, by decide⟩
  mday := 2
  mon := ⟨0, Nat.zero_lt_succ 11⟩
  year := 1970
  hour := 0
  min := 0
  sec := 0

theorem welcome_page : pageOf (sitePages (welcomeItems ++ argumentItems (some (ascii "8080"))))
    welcomeRequest.path = some ⟨ascii "/a", ascii "text/plain", .text (ascii "hello")⟩ := by
  decide +kernel

theorem welcome_fits (now : Tm) : ∀ p, pageOf (sitePages (welcomeItems ++
    argumentItems (some (ascii "8080")))) welcomeRequest.path = some p → p.Fits now := by
  intro p hp
  obtain rfl := Option.some.inj (welcome_page.symm.trans hp)
  refine ⟨by decide, fun text ht => ?_⟩
  obtain rfl := Content.text.inj ht
  have hdate : ((httpdate now).take 255).length ≤ 255 := List.length_take_le ..
  have htype : (ascii "text/plain").length = 10 := rfl
  have htext : (lengthText (ascii "hello").length).length = 1 := by decide
  refine ⟨?_, by decide⟩
  rw [htype, htext]
  omega

theorem welcome_reply (now : Tm) : siteReply (sitePages (welcomeItems ++
    argumentItems (some (ascii "8080")))) now welcomeRequest.method welcomeRequest.path =
      some (replyText .ok (lengthHeaders now (ascii "text/plain") 5) (ascii "hello")) := by
  rw [show welcomeRequest.method = .get from rfl, siteReply, pageReply, welcome_page]
  rfl

end Sighttpd.L5
