import FrontierSim.Frontier.Runner
import FrontierSim.Lib.Channel
import FrontierSim.Lib.TransitionSystem
import FrontierSim.Transport.Worker

/-!
# `FrontierSim.Benchmark`: the reactor, the tracker thread and the channels

`System` is the state of a benchmark run: the mutex-protected `SharedState`, the request
counter, the worker threads of `run_parallel`, the coordinator thread, the tracker thread
of `run_frontier_tracker`, and the two FIFO channels between them. The event channel already
holds the `run_started` that the command sends before it spawns the threads.

One step of a worker or of the coordinator is one atomic action: a critical section, a send, a
receive, or a piece of the thread's own code. The coordinator takes a frontier value in one step
and stores it in another. A step of the tracker thread is one whole event: it takes the event,
moves the tracker, and writes to its output and to the feedback channel what follows. Nothing
else touches the tracker in between, and only the two channels connect it to the other threads.
The label says which thread acts, and carries the answer of curl and the passing of time. So a
run is an arbitrary interleaving with arbitrary transfers.

`delivered` and `commits` are history: no step reads them. `delivered` lists the pieces of
the file that arrived, and `commits` lists the outcome of every transfer in commit order.
-/

set_option autoImplicit false

namespace FrontierSim

open Lib

/-- What a commit records beside the chunk: the request and curl's answer. -/
structure CommitNote where
  requestId : Nat
  transfer : Transfer
  deriving DecidableEq, Repr

/-- The outcome of a transfer for a chunk, as the history lists it. -/
abbrev ChunkCommit := Commit PrioritizedChunk CommitNote

/-- What `run_parallel` returns: the sums over all transfers, and a record for each connection in
the order of a hash map. -/
structure ReactorResult where
  totalBytes : Nat
  totalRequests : Nat
  totalConnections : Nat
  connections : List ConnectionRecord
  failedChunks : Nat
  retriedChunks : Nat
  deriving DecidableEq, Repr

/-- The state of a run. The fields down to `result` are the state of the program, and the last two
are history. -/
structure System where
  now : Nat
  shared : SharedState
  nextRequestId : Nat
  workers : List Worker
  events : Channel TraceEvent
  feedback : Channel Nat
  /-- A frontier value that the coordinator received and has not stored. -/
  coordinator : Option Nat
  runner : Runner
  result : Option ReactorResult
  delivered : List Delivery
  commits : List ChunkCommit

/-- The thread that acts, and what the environment answers. `tick` lets time pass. -/
inductive Label
  | tick (d : Nat)
  /-- The next action of worker `i`, where the environment has no say. -/
  | advance (i : Nat)
  /-- The pop section of worker `i`. Time passes by `ticks` between its clock readings. -/
  | pop (i : Nat) (ticks : List Nat)
  /-- Worker `i` calls `perform`, and curl will answer with `t`. -/
  | perform (i : Nat) (t : Transfer)
  /-- The tracker thread takes an event and processes it. -/
  | track
  /-- The coordinator takes a frontier value. -/
  | receive
  /-- The coordinator stores it. -/
  | store
  /-- All workers ended. The records of the connections come in the order `order`. -/
  | join (order : List ConnectionRecord)
  deriving DecidableEq, Repr

/-- The `connection_lifecycle` event that `run_parallel` sends for a connection at its end. -/
def ConnectionRecord.lifecycle (conn : ConnectionRecord) : ConnectionLifecycle where
  connectionId := conn.connectionId
  protocol := conn.protocol
  localEndpoint := conn.localEndpoint
  remoteEndpoint := conn.remoteEndpoint
  requestsCount := conn.requestsCount
  bytesTotal := conn.bytesTotal
  firstUseNs := conn.firstUseNs
  lastUseNs := conn.lastUseNs

namespace System

/-- The state when the threads are spawned. -/
def start (opening : RunStarted) (heap : ChunkHeap) (config : ReactorConfig)
    (chunks : List ChunkRequest) : System where
  now := 0
  shared :=
    { chunkQueue := heap.pushAll [] (chunks.map ChunkRequest.entry)
      completedChunks := ∅
      frontierByte := 0
      totalBytes := 0
      totalRequests := 0
      retriedChunks := 0
      failedChunks := 0
      connections := []
      timeExpired := false }
  nextRequestId := 1
  workers := List.replicate config.maxConcurrent (.new config.pageSize)
  -- The command sent `run_started` before it spawned the tracker thread.
  events := Channel.empty.send (.runStarted opening)
  feedback := .empty
  coordinator := none
  runner := .new config.pageSize
  result := none
  delivered := []
  commits := []

/-- Worker `i` becomes `w`, and nothing else changes. -/
def setWorker (s : System) (i : Nat) (w : Worker) : System :=
  { s with workers := s.workers.set i w }

/-- Worker `i` sends the event it built. -/
def sendOutbox (s : System) (i : Nat) (w : Worker) (event : TraceEvent) : System :=
  { s.setWorker i { w with outbox := none } with events := s.events.send event }

/-- The time check at the head of the loop. -/
def checkTime (s : System) (config : ReactorConfig) (i : Nat) (w : Worker) : System :=
  -- The lock is taken to set the flag, after the clock was read.
  if config.maxDuration > 0 ∧ s.now ≥ config.maxDuration then
    { s.setWorker i { w with phase := .exited } with
      shared := { s.shared with timeExpired := true } }
  else s.setWorker i { w with phase := .locking }

/-- The pop section. -/
def popChunk (s : System) (heap : ChunkHeap) (i : Nat) (w : Worker) (ticks : List Nat) : System :=
  -- The flag may be set by any worker since the time check.
  if s.shared.timeExpired then s.setWorker i { w with phase := .exited }
  else
    let (found, queue, now) :=
      popNext heap s.shared.completedChunks s.shared.chunkQueue ⟨s.now, ticks⟩
    let phase := match found with
      | some chunk => .popped chunk
      | none => .sleeping
    { s.setWorker i { w with phase := phase } with
      now := now
      shared := { s.shared with chunkQueue := queue } }

/-- The check after the sleep: leave, or go around. -/
def recheck (s : System) (i : Nat) (w : Worker) : System :=
  -- The queue may be empty while another worker holds a chunk that it will queue again.
  if s.shared.chunkQueue.isEmpty && !s.shared.timeExpired then
    s.setWorker i { w with phase := .exited }
  else s.setWorker i { w with phase := .loopHead }

/-- The worker takes the next request id for the chunk that it has popped. The counter is atomic,
so that no two requests get the same number. -/
def assignId (s : System) (i : Nat) (w : Worker) (chunk : PrioritizedChunk) : System :=
  { s.setWorker i { w with phase := .assigned ⟨s.nextRequestId, chunk⟩ } with
    nextRequestId := s.nextRequestId + 1 }

/-- The commit section. A retry is announced before the lock is released. -/
def commit (s : System) (heap : ChunkHeap) (config : ReactorConfig) (i : Nat) (w : Worker)
    (req : Request) (t : Transfer) (bytes : Nat) (isComplete : Bool) : System :=
  let fate := s.shared.commitFate config.pageSize req.chunk bytes isComplete s.now
  let resumed := match fate with
    | .retry entry => [TraceEvent.requestResumed (req.resumed entry s.now)]
    | _ => []
  { s.setWorker i { w with phase := .loopHead } with
    shared := s.shared.commit heap req.chunk t bytes s.now fate
    events := s.events.sendAll resumed
    commits := s.commits ++ [⟨req.chunk, ⟨req.requestId, t⟩, fate⟩] }

/-- Worker `i` runs its own code and becomes `w'`. A piece of the body may have arrived. -/
def work (s : System) (i : Nat) (w' : Worker) (delivery : Option Delivery) : System :=
  { s.setWorker i w' with delivered := s.delivered ++ delivery.toList }

/-- The next action of worker `i`, where the environment has no say. -/
def advance (s : System) (heap : ChunkHeap) (config : ReactorConfig) (i : Nat) (w : Worker) :
    Option System :=
  -- An event that was built is sent before anything else is done.
  match w.outbox with
  | some event => some (s.sendOutbox i w event)
  | none =>
    match w.phase with
    | .loopHead => some (s.checkTime config i w)
    | .sleeping => some (s.recheck i w)
    | .popped chunk => some (s.assignId i w chunk)
    | .committing req t bytes isComplete =>
      some (s.commit heap config i w req t bytes isComplete)
    | _ => (w.localStep s.now).map fun (w', delivery) => s.work i w' delivery

/-- The tracker thread takes the next event and is done with it: its output and the feedback have
what follows from the event. -/
def track (s : System) : Option System :=
  s.events.recv.map fun (event, events) =>
    let (runner, feedback) := s.runner.process event
    { s with
      events := events
      runner := runner
      feedback := s.feedback.sendAll feedback.toList }

/-- The coordinator takes the next frontier value. -/
def receive (s : System) : Option System :=
  match s.coordinator with
  | some _ => none
  | none => s.feedback.recv.map fun (frontierByte, feedback) =>
    { s with feedback := feedback, coordinator := some frontierByte }

/-- The coordinator stores the frontier value it took. -/
def store (s : System) : Option System :=
  s.coordinator.map fun frontierByte =>
    { s with
      shared := { s.shared with frontierByte := frontierByte }
      coordinator := none }

/-- The end of `run_parallel`. -/
def join (s : System) (order : List ConnectionRecord) : Option System :=
  -- The records are the values of a hash map, in whatever order it has.
  if s.result.isNone ∧ (∀ w ∈ s.workers, w.phase.stopped) ∧ order.Perm s.shared.connections then
    some { s with
      events := s.events.sendAll (order.map fun conn => .connectionLifecycle conn.lifecycle)
      result := some
        { totalBytes := s.shared.totalBytes
          totalRequests := s.shared.totalRequests
          totalConnections := s.shared.connections.length
          connections := order
          failedChunks := s.shared.failedChunks
          retriedChunks := s.shared.retriedChunks } }
  else none

/-- One step of the run. It is `none` where the thread of the label cannot do this now: a receive
waits for an event, and the join waits for all workers. -/
def step (heap : ChunkHeap) (config : ReactorConfig) (a : Label) (s : System) : Option System :=
  match a with
  | .tick d => some { s with now := s.now + d }
  | .advance i => s.workers[i]?.bind fun w => s.advance heap config i w
  | .pop i ticks => s.workers[i]?.bind fun w =>
    match w.outbox, w.phase with
    | none, .locking => some (s.popChunk heap i w ticks)
    | _, _ => none
  | .perform i t => s.workers[i]?.bind fun w =>
    match w.outbox, w.phase with
    | none, .ready req =>
      some (s.setWorker i { w with phase := .performing req t t.callbacks 0 })
    | _, _ => none
  | .track => s.track
  | .receive => s.receive
  | .store => s.store
  | .join order => s.join order

/-- The request that worker `i` is about to perform. -/
def readyRequest (s : System) (i : Nat) : Option Request :=
  match s.workers[i]? with
  | some ⟨_, .ready req, none⟩ => some req
  | _ => none

/-- The guard under which curl's answer to the request for a chunk satisfies `R`. -/
def Answers (R : PrioritizedChunk → Transfer → Prop) (s : System) : Label → Prop
  | .perform i t => ∀ req ∈ s.readyRequest i, R req.chunk t
  | _ => True

/-- The guard can be evaluated on a state and a label, so that a concrete run can be checked
against it. -/
instance (R : PrioritizedChunk → Transfer → Prop) [∀ c t, Decidable (R c t)] :
    DecidableRel (Answers R) := fun s a =>
  match a with
  | .perform i t =>
    inferInstanceAs (Decidable (∀ req ∈ s.readyRequest i, R req.chunk t))
  | .tick _ | .advance _ | .pop _ _ | .track | .receive | .store | .join _ => instDecidableTrue

end System

/-- The benchmark run as a transition system. -/
def benchmark (opening : RunStarted) (heap : ChunkHeap) (config : ReactorConfig)
    (chunks : List ChunkRequest) : TransitionSystem System Label where
  init := .start opening heap config chunks
  step := System.step heap config

end FrontierSim
