import Sighttpd.Core.Numeral
import Sighttpd.L1Data.ParamsBuffer
import Sighttpd.L4Http.Reqline

/-!
# Replies (`http-response.c`, `respond`)

A resource is its three functions with the data they are given. `respond` asks the first
resource whose test accepts the request for the head, and again the first for the body.

The array `headers_out` holds whatever the stack holds, and the date is that of `gmtime`.

* `httpStatusLine_line`: there is a line for every status.
* `length_streamBody`: the length that is computed by hand is that of the body.
* `atoi_lengthText`: the length in a header is that of the text as an `int`.
-/
namespace Sighttpd.L4
open Sighttpd.CString Sighttpd.L1 Sighttpd.Numeral

/-! ## Status lines -/

/-- mirrors src/http-status.h:6-47 (`http_status`) -/
inductive HttpStatus where
  | continue_
  | switchingProtocols
  | ok
  | created
  | accepted
  | nonAuthoritativeInformation
  | noContent
  | resetContent
  | partialContent
  | multipleChoices
  | movedPermanently
  | found
  | seeOther
  | notModified
  | useProxy
  | temporaryRedirect
  | badRequest
  | unauthorized
  | paymentRequired
  | forbidden
  | notFound
  | methodNotAllowed
  | notAcceptable
  | proxyAuthenticationRequired
  | requestTimeout
  | conflict
  | gone
  | lengthRequired
  | preconditionFailed
  | requestEntityTooLarge
  | requestUriTooLarge
  | unsupportedMediaType
  | requestedRangeNotSatisfiable
  | expectationFailed
  | internalServerError
  | notImplemented
  | badGateway
  | serviceUnavailable
  | gatewayTimeout
  | httpVersionNotSupported
  deriving DecidableEq, Repr

open HttpStatus in
/-- The code and the reason of each status. -/
def httpStatusText : HttpStatus → String
  | continue_ => "100 Continue"
  | switchingProtocols => "101 Switching Protocols"
  | ok => "200 OK"
  | created => "201 Created"
  | accepted => "202 Accepted"
  | nonAuthoritativeInformation => "203 Non-Authoritative Information"
  | noContent => "204 No Content"
  | resetContent => "205 Reset Content"
  | partialContent => "206 Partial Content"
  | multipleChoices => "300 Multiple Choices"
  | movedPermanently => "301 Moved Permanently"
  | found => "302 Found"
  | seeOther => "303 See Other"
  | notModified => "304 Not Modified"
  | useProxy => "305 Use Proxy"
  | temporaryRedirect => "307 Temporary Redirect"
  | badRequest => "400 Bad Request"
  | unauthorized => "401 Unauthorized"
  | paymentRequired => "402 Payment Required"
  | forbidden => "403 Forbidden"
  | notFound => "404 Not Found"
  | methodNotAllowed => "405 Method Not Allowed"
  | notAcceptable => "406 Not Acceptable"
  | proxyAuthenticationRequired => "407 Proxy Authentication Required"
  | requestTimeout => "408 Request Time-out"
  | conflict => "409 Conflict"
  | gone => "410 Gone"
  | lengthRequired => "411 Length Required"
  | preconditionFailed => "412 Precondition Failed"
  | requestEntityTooLarge => "413 Request Entity Too Large"
  | requestUriTooLarge => "414 Request-URI Too Large"
  | unsupportedMediaType => "415 Unsupported Media Type"
  | requestedRangeNotSatisfiable => "416 Requested range not satisfiable"
  | expectationFailed => "417 Expectation Failed"
  | internalServerError => "500 Internal Server Error"
  | notImplemented => "501 Not Implemented"
  | badGateway => "502 Bad Gateway"
  | serviceUnavailable => "503 Service Unavailable"
  | gatewayTimeout => "504 Gateway Time-out"
  | httpVersionNotSupported => "505 HTTP Version not supported"

/-- mirrors src/http-status.c:10-138 (`http_status_line`) -/
def httpStatusLine (status : HttpStatus) : Bytes :=
  ascii "HTTP/1.1 " ++ ascii (httpStatusText status) ++ crlf

/-- `%d` of a length, in 16 bytes -/
def lengthText (len : Nat) : Bytes := (decimal (intOfSize len)).take 15

/-- `HTTP_STATUS_TMPL` with both its `%s` replaced -/
def httpStatusTmpl (s t : Bytes) : Bytes :=
  ascii "<html><head><title>" ++ s ++ ascii "</title></head><body><h1>" ++ t ++
    ascii "</h1></body></html>\r\n"

/-- mirrors src/http-status.c:143-158 (`http_status_append_headers`) -/
def httpStatusAppendHeaders (responseHeaders : List Param) (status : HttpStatus) : List Param :=
  let responseHeaders := paramsAppend responseHeaders (ascii "Content-Type") (ascii "text/html")
  let n := (httpStatusLine status).length
  paramsAppend responseHeaders (ascii "Content-Length")
    (lengthText ((httpStatusTmpl (ascii "%s") (ascii "%s")).length - 4 + n * 2))

/-- mirrors src/http-status.c:160-172 (`http_status_stream_body`); what is written. It fits the
1024 bytes of `buf` for every status. -/
def httpStatusStreamBody (status : HttpStatus) : Bytes :=
  httpStatusTmpl (httpStatusLine status) (httpStatusLine status)

/-! ## Resources -/

/-- mirrors src/resource.h:8-20 (`resource`), the functions applied to `data`. `head` gives the
status line and the headers, `body` what it writes. -/
structure Resource where
  check : HttpRequest → Bool
  head : HttpRequest → List Param → List Param → Bytes × List Param
  body : HttpRequest → List Param → Bytes

/-- `strncmp (path, prefix, strlen (prefix))` is 0. -/
def startsWith (path pre : Bytes) : Bool := strcmp (path.take pre.length) pre = 0

/-- mirrors src/statictext.c:23-78 (`statictext_check`, `statictext_head`, `statictext_body`,
`statictext_resource`) -/
def statictextResource (path text ctype : Bytes) : Resource where
  check request := startsWith request.path path
  head _ _ responseHeaders :=
    let r := paramsAppend responseHeaders (ascii "Content-Type") ctype
    (httpStatusLine .ok, paramsAppend r (ascii "Content-Length") (lengthText text.length))
  body _ _ := text

/-! ## Responding -/

def wdays : Vector String 7 := #v["Sun", "Mon", "Tue", "Wed", "Thu", "Fri", "Sat"]

def months : Vector String 12 :=
  #v["Jan", "Feb", "Mar", "Apr", "May", "Jun", "Jul", "Aug", "Sep", "Oct", "Nov", "Dec"]

/-- What `gmtime` gives; `year` is `tm_year + 1900`. -/
structure Tm where
  wday : Fin 7
  mday : Nat
  mon : Fin 12
  year : Nat
  hour : Nat
  min : Nat
  sec : Nat

/-- mirrors src/http-date.c:24-34 (`httpdate_snprint`) -/
def httpdate (g : Tm) : Bytes :=
  ascii wdays[g.wday] ++ ascii ", " ++ zeroPadded 2 (natText 10 g.mday) ++ ascii " " ++
    ascii months[g.mon] ++ ascii " " ++ spacePadded 4 (natText 10 g.year) ++ ascii " " ++
    zeroPadded 2 (natText 10 g.hour) ++ ascii ":" ++ zeroPadded 2 (natText 10 g.min) ++
    ascii ":" ++ zeroPadded 2 (natText 10 g.sec) ++ ascii " GMT"

/-- mirrors src/http-response.c:25-36 (`response_headers_new`) -/
def responseHeadersNew (now : Tm) : List Param :=
  paramsAppend (paramsAppend [] (ascii "Date") ((httpdate now).take 255)) (ascii "Server")
    (ascii "Sighttpd/1.2.0")

/-- mirrors src/http-response.c:38-46 (`params_writefd`); `headersOut` is the memory from the
array on, and the result what is written -/
def paramsWritefd (headersOut : Bytes) (params : List Param) : Bytes :=
  strAt (paramsSnprint headersOut 1024 params .headers).2 0

/-- mirrors src/http-response.c:48-66 (`respond_get_head`) -/
def respondGetHead (resources : List Resource) (request : HttpRequest)
    (requestHeaders responseHeaders : List Param) : Bytes × List Param :=
  match resources.find? (·.check request) with
  | some r => r.head request requestHeaders responseHeaders
  | none => (httpStatusLine .notFound, httpStatusAppendHeaders responseHeaders .notFound)

/-- mirrors src/http-response.c:68-85 (`respond_get_body`) -/
def respondGetBody (resources : List Resource) (request : HttpRequest)
    (requestHeaders : List Param) : Bytes :=
  match resources.find? (·.check request) with
  | some r => r.body request requestHeaders
  | none => httpStatusStreamBody .notFound

/-- mirrors src/http-response.c:87-93 (`respond_method_not_allowed`) -/
def respondMethodNotAllowed (responseHeaders : List Param) : Bytes × List Param :=
  (httpStatusLine .methodNotAllowed,
    paramsAppend (paramsAppend responseHeaders (ascii "Allow") (ascii "GET")) (ascii "Allow")
      (ascii "HEAD"))

/-- The status line and the headers of the reply. -/
def replyHead (resources : List Resource) (request : HttpRequest) (requestHeaders : List Param)
    (now : Tm) : Bytes × List Param :=
  match request.method with
  | .head | .get => respondGetHead resources request requestHeaders (responseHeadersNew now)
  | _ => respondMethodNotAllowed (responseHeadersNew now)

/-- mirrors src/http-response.c:95-125 (`respond`); what is written -/
def respond (resources : List Resource) (request : HttpRequest) (requestHeaders : List Param)
    (now : Tm) (headersOut : Bytes) : Bytes :=
  (replyHead resources request requestHeaders now).1 ++
    (paramsWritefd headersOut (replyHead resources request requestHeaders now).2 ++
      if request.method = .get then respondGetBody resources request requestHeaders else [])

/-! ## Lines and lengths -/

structure IsStatusLine (s : Bytes) : Prop where
  start : ascii "HTTP/1.1 " <+: s
  line : ∃ t, s = t ++ crlf ∧ ∀ b ∈ t, b ∉ crlf

theorem httpStatusText_ok (status : HttpStatus) : (ascii (httpStatusText status)).length ≤ 39 ∧
    ∀ b ∈ ascii (httpStatusText status), b ∉ crlf := by
  cases status <;> decide +kernel

theorem httpStatusLine_line (status : HttpStatus) : IsStatusLine (httpStatusLine status) where
  start := by
    rw [httpStatusLine, List.append_assoc]
    exact List.prefix_append ..
  line := by
    refine ⟨_, rfl, fun b hb => ?_⟩
    rcases List.mem_append.mp hb with hb | hb
    · exact (show ∀ b ∈ ascii "HTTP/1.1 ", b ∉ crlf by decide) b hb
    · exact (httpStatusText_ok status).2 b hb

theorem length_statusLine_le (status : HttpStatus) : (httpStatusLine status).length ≤ 50 := by
  have := (httpStatusText_ok status).1
  rw [httpStatusLine, List.length_append, List.length_append, show (ascii "HTTP/1.1 ").length = 9 from rfl,
    show crlf.length = 2 from rfl]
  omega

theorem length_httpStatusTmpl (s t : Bytes) :
    (httpStatusTmpl s t).length = 65 + s.length + t.length := by
  simp only [httpStatusTmpl, List.length_append]
  rw [show (ascii "<html><head><title>").length = 19 from rfl,
    show (ascii "</title></head><body><h1>").length = 25 from rfl,
    show (ascii "</h1></body></html>\r\n").length = 21 from rfl]
  omega

/-- The length computed by hand for the body of a status. -/
theorem length_streamBody (status : HttpStatus) : (httpStatusStreamBody status).length =
    (httpStatusTmpl (ascii "%s") (ascii "%s")).length - 4 + (httpStatusLine status).length * 2 := by
  rw [httpStatusStreamBody, length_httpStatusTmpl, length_httpStatusTmpl]
  rw [show (ascii "%s").length = 2 from rfl]
  omega

theorem length_streamBody_lt (status : HttpStatus) : (httpStatusStreamBody status).length < 1024 := by
  have := length_statusLine_le status
  rw [httpStatusStreamBody, length_httpStatusTmpl]
  omega

theorem intOfSize_ge (len : Nat) : -2147483648 ≤ intOfSize len := by
  rw [intOfSize_def]
  split <;> omega

theorem length_decimal_le {z : Int} (h1 : -2147483648 ≤ z) (h2 : z < 2147483648) :
    (decimal z).length ≤ 15 := by
  have hdigits : (natText 10 z.natAbs).length ≤ 10 := by
    rw [natText, List.length_map]
    exact (Nat.length_toDigits_le_iff (by decide) (by decide)).mpr (by omega)
  unfold decimal
  split
  · rw [List.length_cons]
    omega
  · omega

theorem lengthText_eq (len : Nat) : lengthText len = decimal (intOfSize len) :=
  List.take_of_length_le (length_decimal_le (intOfSize_ge len) (intOfSize_lt len))

/-- The number in a `Content-Length` is the length, as an `int`. -/
theorem atoi_lengthText (len : Nat) : atoi (lengthText len) = intOfSize len := by
  rw [lengthText_eq]
  exact atoi_decimal (intOfSize_ge len) (intOfSize_lt len)

end Sighttpd.L4
