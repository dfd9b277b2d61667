import FrontierSim.Transport.Download
import FrontierSim.Transport.Probe
import Mathlib.Algebra.Order.Field.Rat

/-!
# `FrontierSim.Transport.DownloadRange`: the download of a single range

`download_range` (`transport/src/download.rs`) performs one request on a handle of its own and
sends the events of the request. There is no reactor, no retry and no connection to share.

An `EasyAnswer` is what the handle answers in the course of the call. The hash of the effective
URL is a parameter. The times that curl measures are milliseconds, and a query that fails is
`none`. The `timeout` of the parameters goes to curl and is left out.
-/

set_option autoImplicit false

namespace FrontierSim

open Lib

/-- What a single download is asked for. -/
structure DownloadParams where
  requestId : Nat
  chunkId : Nat
  url : String
  rangeStart : Nat
  rangeEnd : Nat
  lane : Lane
  attempt : Nat
  pageSize : Nat
  sink : Sink
  deriving DecidableEq, Repr

/-- The calls that set up the handle, in the order of the source. -/
inductive SetupCall
  | url
  | followLocation
  | timeout
  | range
  deriving DecidableEq, Repr

/-- The message of a call that fails. -/
def SetupCall.message (call : SetupCall) (e : String) : String :=
  match call with
  | .url => "set URL: " ++ e
  | .followLocation => "follow location: " ++ e
  | .timeout => "timeout: " ++ e
  | .range => "set range: " ++ e

/-- What curl does with the handle of a download: the calls it refuses, its callbacks, and what can
be read off the handle afterwards. A time that curl does not know is `none`. -/
structure EasyAnswer where
  /-- The first setup call that fails. -/
  setupErr : Option (SetupCall × String)
  callbacks : List Callback
  performErr : Option String
  namelookupMs : Option ℚ
  connectMs : Option ℚ
  appconnectMs : Option ℚ
  starttransferMs : Option ℚ
  totalMs : Option ℚ
  connId : Int
  queueUs : Int
  primaryIp : String
  primaryPort : Nat
  localIp : String
  localPort : Nat
  effectiveUrl : Option String
  deriving DecidableEq

/-- The length of the body. -/
def EasyAnswer.bodyBytes (a : EasyAnswer) : Nat := (a.callbacks.map Callback.bytes).sum

/-- What `download_range` returns when the transfer went well. -/
structure DownloadResult where
  requestId : Nat
  totalBytes : Nat
  dnsMs : ℚ
  connectMs : ℚ
  tlsMs : ℚ
  ttfbMs : ℚ
  queueMs : ℚ
  totalMs : ℚ
  httpVersion : String
  connectionId : Int
  newConnection : Bool
  responseCode : Nat
  effectiveUrlHash : String
  remoteEndpoint : String
  localEndpoint : String
  deriving DecidableEq

/-! ### The transfer -/

/-- A header line, as the worker's handler takes it. -/
def DownloadHandler.header (h : DownloadHandler) (line : Option (List Char)) : DownloadHandler :=
  { h with responseCode := WorkerHandler.headerCode h.responseCode line }

/-- The handler with the headers that it has collected. -/
structure Downloading where
  handler : DownloadHandler
  headers : List (List Char × List Char)

namespace Downloading

/-- One callback of curl. A header line is also kept for the version. -/
def call (d : Downloading) (clock : Clock) : Callback → Option (Written Downloading)
  | .header line =>
    some ({ handler := d.handler.header line
            headers := d.headers ++ (ProbeHandler.headerField line).toList }, [], clock)
  | .write len => do
    let (handler, pages, clock) ← d.handler.write len clock
    return ({ d with handler := handler }, pages, clock)

/-- `perform`: curl makes its callbacks. -/
def perform : List Callback → Downloading → Clock → Option (Written Downloading)
  | [], d, clock => some (d, [], clock)
  | callback :: rest, d, clock => do
    let (d, pages, clock) ← d.call clock callback
    let (d, more, clock) ← perform rest d clock
    return (d, pages ++ more, clock)

/-- The partial page at the end of a transfer. The clock is read for the event only. -/
def lastPage (d : Downloading) (clock : Clock) : List PageCompleted × Clock :=
  if d.handler.currentPageBytes > 0 then
    ([d.handler.emitPageCompleted clock.read.1], clock.read.2)
  else ([], clock)

/-- The first header whose name looks like a status line. -/
def httpVersion (d : Downloading) : String :=
  match d.headers.find? fun (k, _) => Text.startsWith k "http/".toList with
  | some (k, _) => String.ofList k
  | none => "h1.1"

end Downloading

/-! ### The function -/

namespace DownloadParams

/-- The announcement, with the fields of the request as they were given. -/
def started (params : DownloadParams) (timestampNs : Nat) : RequestStarted where
  requestId := params.requestId
  chunkId := params.chunkId
  lane := params.lane
  attempt := params.attempt
  requestedRange := rangeString params.rangeStart params.rangeEnd
  timestampNs := timestampNs

/-- What the function reads off the handle after the transfer. -/
def result (params : DownloadParams) (sha256 : String → String) (a : EasyAnswer)
    (d : Downloading) : DownloadResult :=
  let connectMs := a.connectMs.getD 0
  { requestId := params.requestId
    totalBytes := d.handler.bytesReceived
    dnsMs := a.namelookupMs.getD 0
    connectMs := connectMs
    tlsMs := max (a.appconnectMs.getD 0 - connectMs) 0
    ttfbMs := a.starttransferMs.getD 0
    queueMs := a.queueUs / 1000
    totalMs := a.totalMs.getD 0
    httpVersion := d.httpVersion
    connectionId := a.connId
    -- A connection that takes longer than half a millisecond counts as new.
    newConnection := decide (connectMs > 1 / 2)
    responseCode := d.handler.responseCode.getD 0
    effectiveUrlHash := sha256 (a.effectiveUrl.getD params.url)
    remoteEndpoint := a.primaryIp ++ ":" ++ toString a.primaryPort
    localEndpoint := a.localIp ++ ":" ++ toString a.localPort }

end DownloadParams

/-- The end of the request as the function reports it. It has no error class, whatever the
status. -/
def DownloadResult.finished (r : DownloadResult) (timestampNs : Nat) : RequestFinished where
  requestId := r.requestId
  totalBytes := r.totalBytes
  httpVersion := r.httpVersion
  connectionId := r.connectionId
  newConnection := r.newConnection
  errorClass := none
  timestampNs := timestampNs

/-- The events that the function sends and what it returns. `none` is a panic. -/
def downloadRange (sha256 : String → String) (params : DownloadParams) (a : EasyAnswer)
    (clock : Clock) : Option (List TraceEvent × Except String DownloadResult) := do
  let handler ← DownloadHandler.new params.requestId params.chunkId params.rangeStart
    params.pageSize params.sink
  match a.setupErr with
  | some (call, e) => return ([], .error (call.message e))
  | none =>
    let (startedNs, clock) := clock.read
    let (d, pages, clock) ← Downloading.perform a.callbacks ⟨handler, []⟩ clock
    let sent := .requestStarted (params.started startedNs) :: pages.map .pageCompleted
    match a.performErr with
    -- The partial page and the end of the request are not reported.
    | some e => return (sent, .error ("perform: " ++ e))
    | none =>
      let (last, clock) := d.lastPage clock
      let result := params.result sha256 a d
      return (sent ++ last.map .pageCompleted ++ [.requestFinished (result.finished clock.read.1)],
        .ok result)

end FrontierSim
