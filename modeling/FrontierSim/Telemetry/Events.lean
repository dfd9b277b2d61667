import Mathlib.Init

/-!
# `FrontierSim.Telemetry.Events`: the trace events

The variants of `TraceEvent` that the benchmark path sends (`telemetry/src/events.rs`).
Every variant is a structure, as the Rust variants are records. Fields that hold measured
floating-point times (`dns_ms`, `connect_ms`, `tls_ms`, `ttfb_ms`, `queue_ms`, `total_ms`)
are left out: nothing reads them back. All integers are `Nat`, and the configuration of a run is
the text of its JSON.
-/

set_option autoImplicit false

namespace FrontierSim

/-- The priority of a request. Urgent chunks are popped first. -/
inductive Lane
  | urgent
  | prefetch
  deriving DecidableEq, Repr

/-- The classes of failure that a finished request can have. -/
inductive ErrorClass
  | timeout
  | connectionReset
  | dnsFailure
  | tlsFailure
  | httpError
  | recvError
  | cancelled
  | other
  deriving DecidableEq, Repr

/-- The event that the command sends before any thread starts. -/
structure RunStarted where
  runId : String
  assetKey : String
  /-- The settings of the benchmark, as the JSON text that serde writes for them. -/
  config : String
  timestampNs : Nat
  deriving DecidableEq, Repr

/-- A worker announces an attempt, before it calls curl. -/
structure RequestStarted where
  requestId : Nat
  chunkId : Nat
  lane : Lane
  attempt : Nat
  requestedRange : String
  timestampNs : Nat
  deriving DecidableEq, Repr

/-- The connection that the transfer used, known at its end. -/
structure RequestPrereq where
  requestId : Nat
  connectionId : Int
  newConnection : Bool
  localEndpoint : String
  remoteEndpoint : String
  protocol : String
  timestampNs : Nat
  deriving DecidableEq, Repr

/-- Bytes of one page have arrived. The last event of a transfer may be for a part of a page. -/
structure PageCompleted where
  requestId : Nat
  chunkId : Nat
  pageIndex : Nat
  pageStartByte : Nat
  pageEndByte : Nat
  pageBytes : Nat
  cumulativeBytes : Nat
  timestampNs : Nat
  deriving DecidableEq, Repr

/-- The rest of a chunk was queued again, for the attempt with this number. -/
structure RequestResumed where
  requestId : Nat
  suffixRange : String
  attempt : Nat
  timestampNs : Nat
  deriving DecidableEq, Repr

/-- The transfer has ended with this many bytes, whether they are all or not. -/
structure RequestFinished where
  requestId : Nat
  totalBytes : Nat
  httpVersion : String
  connectionId : Int
  newConnection : Bool
  errorClass : Option ErrorClass
  timestampNs : Nat
  deriving DecidableEq, Repr

/-- The contiguous frontier has moved to this byte. -/
structure FrontierAdvanced where
  frontierByte : Nat
  frontierPage : Nat
  contiguousBytes : Nat
  timestampNs : Nat
  deriving DecidableEq, Repr

/-- The record of a connection at the end of the run. -/
structure ConnectionLifecycle where
  connectionId : Int
  protocol : String
  localEndpoint : String
  remoteEndpoint : String
  requestsCount : Nat
  bytesTotal : Nat
  firstUseNs : Nat
  lastUseNs : Nat
  deriving DecidableEq, Repr

/-- The events that the modelled code sends, in the order of the source. -/
inductive TraceEvent
  | runStarted (e : RunStarted)
  | requestStarted (e : RequestStarted)
  | requestPrereq (e : RequestPrereq)
  | pageCompleted (e : PageCompleted)
  | requestResumed (e : RequestResumed)
  | requestFinished (e : RequestFinished)
  | frontierAdvanced (e : FrontierAdvanced)
  | connectionLifecycle (e : ConnectionLifecycle)
  deriving DecidableEq, Repr

namespace TraceEvent

/-- The page report, when the event is one. -/
def page? : TraceEvent → Option PageCompleted
  | .pageCompleted e => some e
  | _ => none

/-- The event as `request_started`. The functions below read the other kinds the same way. -/
def started? : TraceEvent → Option RequestStarted
  | .requestStarted e => some e
  | _ => none

/-- The event as `request_resumed`. -/
def resumed? : TraceEvent → Option RequestResumed
  | .requestResumed e => some e
  | _ => none

/-- The event as `request_finished`. -/
def finished? : TraceEvent → Option RequestFinished
  | .requestFinished e => some e
  | _ => none

/-- The event as `request_prereq`. -/
def prereq? : TraceEvent → Option RequestPrereq
  | .requestPrereq e => some e
  | _ => none

/-- The event as `frontier_advanced`, which only the tracker thread sends. -/
def advanced? : TraceEvent → Option FrontierAdvanced
  | .frontierAdvanced e => some e
  | _ => none

/-- Only a page event is read as one. -/
theorem page?_eq_some {event : TraceEvent} {e : PageCompleted} :
    event.page? = some e ↔ event = .pageCompleted e := by
  cases event <;> simp [page?]

/-- Only a `request_started` is read as one. -/
theorem started?_eq_some {event : TraceEvent} {e : RequestStarted} :
    event.started? = some e ↔ event = .requestStarted e := by
  cases event <;> simp [started?]

end TraceEvent

end FrontierSim
