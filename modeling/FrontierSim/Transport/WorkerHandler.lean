import FrontierSim.Lib.Text
import FrontierSim.Lib.U64
import FrontierSim.Telemetry.Events

/-!
# `FrontierSim.Transport.WorkerHandler`: the curl callbacks of a worker

A worker keeps one `WorkerHandler` for the whole run and calls `reinit` before each
request. curl then calls `header` for each response header line and `write` for each piece
of the body. `writePass` is one pass of the `while remaining > 0` loop in `write`
(`transport/src/reactor.rs`). The worker of the model takes the passes one by one, because
other workers send their own events between the page events of one `write`.

The `headers` field of the source is left out: the reactor never reads it.

A `Transfer` is one answer of curl: the callbacks in order, the error of `perform`, and
what the worker reads off the handle afterwards.
-/

set_option autoImplicit false

namespace FrontierSim

open Lib

/-- The handler of a worker: the request it works on, the page in progress, and the bytes of the
transfer so far. -/
structure WorkerHandler where
  requestId : Nat
  chunkId : Nat
  pageSize : Nat
  currentPageBytes : Nat
  currentPageIndex : Nat
  bytesReceived : Nat
  responseCode : Option Nat
  deriving DecidableEq, Repr

namespace WorkerHandler

/-- The handler before its first request. -/
def new (pageSize : Nat) : WorkerHandler where
  requestId := 0
  chunkId := 0
  pageSize := pageSize
  currentPageBytes := 0
  currentPageIndex := 0
  bytesReceived := 0
  responseCode := none

/-- `none` is the division by zero of a zero page size. -/
def reinit (h : WorkerHandler) (requestId chunkId rangeStart : Nat) : Option WorkerHandler := do
  let pageIndex ← U64.checkedDiv rangeStart h.pageSize
  -- The pages are counted from `rangeStart` on. An offset inside a page is not kept.
  return { h with
    requestId := requestId
    chunkId := chunkId
    currentPageBytes := 0
    currentPageIndex := pageIndex
    bytesReceived := 0
    responseCode := none }

/-- The page event for the bytes of the current page. -/
def pageCompleted (h : WorkerHandler) (timestampNs : Nat) : PageCompleted :=
  let pageStart := h.currentPageIndex * h.pageSize
  { requestId := h.requestId
    chunkId := h.chunkId
    pageIndex := h.currentPageIndex
    pageStartByte := pageStart
    pageEndByte := pageStart + h.currentPageBytes
    pageBytes := h.currentPageBytes
    cumulativeBytes := h.bytesReceived
    timestampNs := timestampNs }

/-- `current_page_bytes += n; bytes_received += n`. -/
def consume (h : WorkerHandler) (n : Nat) : WorkerHandler :=
  { h with
    currentPageBytes := h.currentPageBytes + n
    bytesReceived := h.bytesReceived + n }

/-- `current_page_index += 1; current_page_bytes = 0`. -/
def nextPage (h : WorkerHandler) : WorkerHandler :=
  { h with currentPageIndex := h.currentPageIndex + 1, currentPageBytes := 0 }

/-- One pass of the loop in `write`: the handler, the bytes that remain, and the page
event when the pass completes the page. -/
def writePass (h : WorkerHandler) (remaining timestampNs : Nat) :
    WorkerHandler × Nat × Option PageCompleted :=
  -- The page has room: the pass that fills a page also closes it.
  let toConsume := min remaining (h.pageSize - h.currentPageBytes)
  let h' := h.consume toConsume
  if h'.currentPageBytes ≥ h'.pageSize then
    (h'.nextPage, remaining - toConsume, some (h'.pageCompleted timestampNs))
  else
    (h', remaining - toConsume, none)

/-- The status code that a header line leaves behind. A status line replaces the code of
the response before it, and a code that does not parse replaces it by `none`. A line that
is not UTF-8 is `none`. -/
def headerCode (code : Option Nat) (line : Option (List Char)) : Option Nat :=
  match line with
  | none => code
  | some line =>
    let trimmed := Text.trim line
    -- After a redirect there is a status line for each response.
    if "HTTP/".toList.isPrefixOf trimmed then
      match (Text.splitWhitespace trimmed)[1]? with
      | some codeStr => Text.parseU32 codeStr
      | none => code
    else code

/-- A header line may set the status code. -/
def header (h : WorkerHandler) (line : Option (List Char)) : WorkerHandler :=
  { h with responseCode := headerCode h.responseCode line }

end WorkerHandler

/-- One callback of curl: a header line (`none` when it is not UTF-8), or `len` bytes of
body. -/
inductive Callback
  | header (line : Option (List Char))
  | write (len : Nat)
  deriving DecidableEq, Repr

/-- One answer of curl to a request. -/
structure Transfer where
  callbacks : List Callback
  /-- The error of `perform`, as it displays. -/
  curlErr : Option (List Char)
  connId : Int
  newConnection : Bool
  overTls : Bool
  httpVersion : String
  localEp : String
  remoteEp : String
  deriving DecidableEq, Repr

namespace Callback

/-- The body bytes of a callback. -/
def bytes : Callback → Nat
  | .header _ => 0
  | .write len => len

/-- The status code after a callback. -/
def code (code : Option Nat) : Callback → Option Nat
  | .header line => WorkerHandler.headerCode code line
  | .write _ => code

end Callback

namespace Transfer

/-- The length of the body. -/
def bodyBytes (t : Transfer) : Nat := (t.callbacks.map Callback.bytes).sum

/-- The status of the last response of the transfer. -/
def finalStatus (t : Transfer) : Option Nat := t.callbacks.foldl Callback.code none

/-- The protocol as the records of the connections name it. -/
def protocolStr (t : Transfer) : String :=
  (if t.overTls then "https/" else "http/") ++ t.httpVersion

end Transfer

/-- The class of a curl error, from its lower-cased description. -/
def classifyCurlErr (err : List Char) : ErrorClass :=
  let desc := Text.toLowercase err
  let has (word : String) := Text.contains desc word.toList
  if has "timeout" || has "timed out" then .timeout
  else if has "reset" || (has "connection" && has "refused") then .connectionReset
  else if has "resolve" || has "dns" then .dnsFailure
  else if has "ssl" || has "tls" || has "certificate" then .tlsFailure
  else if has "recv" || has "eof" || has "closed" then .recvError
  else .other

/-- The class of a finished request: the curl error, or else a status from 400 on. -/
def errorClass (curlErr : Option (List Char)) (responseCode : Option Nat) : Option ErrorClass :=
  match curlErr with
  | some err => some (classifyCurlErr err)
  | none =>
    match responseCode with
    | some code => if code ≥ 400 then some .httpError else none
    | none => none

end FrontierSim
