import FrontierSim.Lib.Text
import FrontierSim.Lib.U64

/-!
# `FrontierSim.Transport.Probe`: the probe of a URL

`ProbeHandler` and the evaluation of its headers in `probe_url` (`transport/src/probe.rs`),
for a transfer that succeeds. curl calls `header` for each header line of each response of
the redirect chain.

A length that curl reports is a whole number, and negative when the length is not known. The
other fields of `ProbeResult` are times, endpoints and a hash, which nothing reads back.
-/

set_option autoImplicit false

namespace FrontierSim

open Lib

/-- The handler of a probe: the headers that it was given, with their names in lower case. -/
structure ProbeHandler where
  headers : List (List Char × List Char)
  deriving DecidableEq, Repr

namespace ProbeHandler

/-- The handler before the first header line. -/
def new : ProbeHandler where
  headers := []

/-- The name and the value of a header line. A line that is not UTF-8 is `none`. -/
def headerField (line : Option (List Char)) : Option (List Char × List Char) := do
  let (key, value) ← Text.splitOnce ':' (Text.trim (← line))
  return (Text.lowercase (Text.trim key), Text.trim value)

/-- A header line. A line without a colon is dropped, and a status line starts nothing new. -/
def header (h : ProbeHandler) (line : Option (List Char)) : ProbeHandler :=
  match headerField line with
  | some field => { h with headers := h.headers ++ [field] }
  | none => h

end ProbeHandler

/-- Some `Accept-Ranges` header names bytes. -/
def rangeSupport (headers : List (List Char × List Char)) : Bool :=
  headers.any fun (k, v) =>
    k == "accept-ranges".toList && Text.contains (Text.lowercase v) "bytes".toList

/-- The value of the first `Content-Length` header. -/
def headerLength (headers : List (List Char × List Char)) : Option Nat :=
  (headers.find? fun (k, _) => k == "content-length".toList).bind fun (_, v) => Text.parseU64 v

/-- `none` is a failed query of the length that curl knows. -/
def contentLength (curlLength : Option Int) (headers : List (List Char × List Char)) :
    Option Nat :=
  match curlLength with
  | none => none
  | some l =>
    -- The cast of a float saturates.
    if l > 0 then some (min l.toNat U64.maxValue) else headerLength headers

/-- What a probe finds out about the URL. -/
structure ProbeResult where
  rangeSupport : Bool
  contentLength : Option Nat
  responseHeaders : List (List Char × List Char)
  deriving DecidableEq, Repr

/-- The result of a probe in which curl passed `lines` to the handler and reports
`curlLength`. -/
def probeUrl (curlLength : Option Int) (lines : List (Option (List Char))) : ProbeResult :=
  let headers := (lines.foldl ProbeHandler.header .new).headers
  { rangeSupport := rangeSupport headers
    contentLength := contentLength curlLength headers
    responseHeaders := headers }

/-! ### Redirect chains -/

/-- A status line opens a response. -/
def isStatusLine (line : Option (List Char)) : Bool :=
  match line with
  | some line => Text.startsWith (Text.trim line) "HTTP/".toList
  | none => false

/-- The header lines of one response. -/
structure Response where
  status : Option (List Char)
  fields : List (Option (List Char))
  status_opens : isStatusLine status = true
  fields_inside : ∀ line ∈ fields, isStatusLine line = false

namespace Response

/-- The lines of the response, as curl passes them on. -/
def lines (r : Response) : List (Option (List Char)) := r.status :: r.fields

/-- The headers that the handler takes from the response. -/
def headers (r : Response) : List (List Char × List Char) :=
  r.lines.filterMap ProbeHandler.headerField

end Response

/-- The lines of a redirect chain that ends in `last`. -/
def chainLines (earlier : List Response) (last : Response) : List (Option (List Char)) :=
  (earlier ++ [last]).flatMap Response.lines

end FrontierSim
