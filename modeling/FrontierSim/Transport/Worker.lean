import FrontierSim.Transport.Reactor

/-!
# `FrontierSim.Transport.Worker`: one worker thread

A `Phase` is a point between two atomic actions in the body of a worker of `run_parallel`
(`transport/src/reactor.rs`), with the locals that are still needed. Every event is sent
in two actions: the worker first builds it, which reads the clock, and puts it in
`outbox`; then it sends it. Other threads act in between.

`Worker.localStep` is one action that touches nothing shared. The actions that take a lock
or send are in `FrontierSim.Benchmark`.

A fault (`reinit` with page size zero, or a range length that is not a `u64`) panics the
thread with the request still in its hands.
-/

set_option autoImplicit false

namespace FrontierSim

open Lib

/-- A chunk with the request id it was given. -/
structure Request where
  requestId : Nat
  chunk : PrioritizedChunk
  deriving DecidableEq, Repr

/-- Where the thread of a worker stands. Between two phases lies one action. -/
inductive Phase
  /-- The head of the loop, before the time check. -/
  | loopHead
  /-- The time check passed. Before the lock of the pop section. -/
  | locking
  /-- No chunk was ready. Before the lock that checks for the end. -/
  | sleeping
  | popped (chunk : PrioritizedChunk)
  /-- The request has an id. Before `reinit`. -/
  | assigned (req : Request)
  /-- Before `perform`. -/
  | ready (req : Request)
  /-- Inside `perform`: the callbacks that are left, and the bytes that remain in the
  current `write`. -/
  | performing (req : Request) (t : Transfer) (left : List Callback) (remaining : Nat)
  /-- `perform` returned. Before `request_finished`. -/
  | finishing (req : Request) (t : Transfer) (bytes : Nat) (isComplete : Bool)
  /-- Before `request_prereq`. -/
  | reporting (req : Request) (t : Transfer) (bytes : Nat) (isComplete : Bool)
  /-- Before the lock of the commit section. -/
  | committing (req : Request) (t : Transfer) (bytes : Nat) (isComplete : Bool)
  | exited
  | panicked (req : Request)
  deriving DecidableEq, Repr

namespace Phase

/-- The chunk that the worker popped and has not committed. -/
def held : Phase → Option PrioritizedChunk
  | .popped chunk => some chunk
  | .assigned req | .ready req | .performing req .. | .finishing req .. | .reporting req ..
  | .committing req .. | .panicked req => some req.chunk
  | .loopHead | .locking | .sleeping | .exited => none

/-- The thread has ended. -/
def stopped : Phase → Bool
  | .exited | .panicked _ => true
  | _ => false

end Phase

/-- A worker thread: its handler, where it stands, and an event that it has built and will send
next. -/
structure Worker where
  handler : WorkerHandler
  phase : Phase
  outbox : Option TraceEvent
  deriving DecidableEq, Repr

/-- Body bytes that arrived: `len` bytes of the file from `offset` on. -/
structure Delivery where
  requestId : Nat
  offset : Nat
  len : Nat
  deriving DecidableEq, Repr

namespace Request

/-- The number of the attempt. -/
def attempt (req : Request) : Nat := req.chunk.nextAttempt

/-- The range of the request as a text. -/
def range (req : Request) : String := rangeString req.chunk.rangeStart req.chunk.rangeEnd

/-- The announcement of the request. -/
def started (req : Request) (timestampNs : Nat) : RequestStarted where
  requestId := req.requestId
  chunkId := req.chunk.chunkId
  lane := req.chunk.lane
  attempt := req.attempt
  requestedRange := req.range
  timestampNs := timestampNs

/-- The end of the request, with the bytes that its handler counted. -/
def finished (req : Request) (t : Transfer) (bytes : Nat) (responseCode : Option Nat)
    (timestampNs : Nat) : RequestFinished where
  requestId := req.requestId
  totalBytes := bytes
  httpVersion := t.httpVersion
  connectionId := t.connId
  newConnection := t.newConnection
  errorClass := errorClass t.curlErr responseCode
  timestampNs := timestampNs

/-- The connection of the request, as curl names it after the transfer. -/
def prereq (req : Request) (t : Transfer) (timestampNs : Nat) : RequestPrereq where
  requestId := req.requestId
  connectionId := t.connId
  newConnection := t.newConnection
  localEndpoint := t.localEp
  remoteEndpoint := t.remoteEp
  protocol := t.protocolStr
  timestampNs := timestampNs

/-- The event of a retry that queued `entry`. -/
def resumed (req : Request) (entry : PrioritizedChunk) (timestampNs : Nat) : RequestResumed where
  requestId := req.requestId
  suffixRange := rangeString entry.rangeStart entry.rangeEnd
  attempt := req.attempt + 1
  timestampNs := timestampNs

end Request

namespace Worker

/-- A thread before its first time check. -/
def new (pageSize : Nat) : Worker where
  handler := .new pageSize
  phase := .loopHead
  outbox := none

/-- The chunk that the worker has taken from the queue and not committed. -/
def held (w : Worker) : Option PrioritizedChunk := w.phase.held

/-- `reinit`, then build `request_started`. -/
def begin (w : Worker) (now : Nat) (req : Request) : Worker :=
  match w.handler.reinit req.requestId req.chunk.chunkId req.chunk.rangeStart with
  | none => { w with phase := .panicked req }
  | some handler =>
    { handler := handler
      phase := .ready req
      outbox := some (.requestStarted (req.started now)) }

/-- One pass of the loop in `write`. -/
def writeStep (w : Worker) (now : Nat) (req : Request) (t : Transfer) (left : List Callback)
    (remaining : Nat) : Worker :=
  let (handler, remaining, page) := w.handler.writePass remaining now
  { handler := handler
    phase := .performing req t left remaining
    outbox := page.map TraceEvent.pageCompleted }

/-- The code after `perform`: `bytes`, `expected`, `is_complete` and the partial page. -/
def afterPerform (w : Worker) (now : Nat) (req : Request) (t : Transfer) : Worker :=
  -- The status and the error of `perform` play no part here.
  let bytes := w.handler.bytesReceived
  match req.chunk.expected with
  | none => { w with phase := .panicked req }
  | some expected =>
    { w with
      phase := .finishing req t bytes (decide (bytes ≥ expected))
      outbox := if w.handler.currentPageBytes > 0 then
          some (.pageCompleted (w.handler.pageCompleted now))
        else none }

/-- One action of the worker's own code at the time `now`, when `outbox` is empty. The
second component is the piece of the body that arrived. -/
def localStep (w : Worker) (now : Nat) : Option (Worker × Option Delivery) :=
  match w.phase with
  | .assigned req => some (w.begin now req, none)
  | .performing req t left remaining =>
    -- Inside a `write`. Otherwise curl makes the next callback, or returns.
    if remaining > 0 then some (w.writeStep now req t left remaining, none)
    else match left with
      | [] => some (w.afterPerform now req t, none)
      | .header line :: rest =>
        some ({ w with
          handler := w.handler.header line
          phase := .performing req t rest 0 }, none)
      | .write len :: rest =>
        some ({ w with phase := .performing req t rest len },
          some ⟨req.requestId, req.chunk.rangeStart + w.handler.bytesReceived, len⟩)
  | .finishing req t bytes isComplete =>
    some ({ w with
      phase := .reporting req t bytes isComplete
      outbox := some (.requestFinished (req.finished t bytes w.handler.responseCode now)) }, none)
  | .reporting req t bytes isComplete =>
    some ({ w with
      phase := .committing req t bytes isComplete
      outbox := some (.requestPrereq (req.prereq t now)) }, none)
  | _ => none

end Worker

end FrontierSim
