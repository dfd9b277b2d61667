import FrontierSim.Lib.WorkQueue
import FrontierSim.Transport.Chunk
import FrontierSim.Transport.WorkerHandler
import Mathlib.Data.Finset.Insert

/-!
# `FrontierSim.Transport.Reactor`: the state behind the mutex

`SharedState` and the two critical sections of a worker of `run_parallel`
(`transport/src/reactor.rs`): `popNext` takes the next ready chunk, and `commit` books a
finished transfer and decides what becomes of its chunk. `commitFate` is the decision,
`applyFate` its effect.

The counters are `Nat`. The hash map of connections is a list in insertion order.
-/

set_option autoImplicit false

namespace FrontierSim

open Lib

/-- Maximum retry attempts per chunk. -/
def MAX_ATTEMPTS : Nat := 10

/-- Base backoff delay for retries. -/
def RETRY_BACKOFF_BASE_MS : Nat := 2000

/-- The configuration of a run. The duration is in nanoseconds, and 0 is no limit. -/
structure ReactorConfig where
  urgentWorkers : Nat
  prefetchWorkers : Nat
  pageSize : Nat
  maxDuration : Nat
  deriving DecidableEq, Repr

/-- The number of worker threads. The two kinds do the same work. -/
def ReactorConfig.maxConcurrent (config : ReactorConfig) : Nat :=
  config.urgentWorkers + config.prefetchWorkers

/-- What is known about one connection of curl. -/
structure ConnectionRecord where
  connectionId : Int
  protocol : String
  localEndpoint : String
  remoteEndpoint : String
  firstUseNs : Nat
  lastUseNs : Nat
  requestsCount : Nat
  bytesTotal : Nat
  deriving DecidableEq, Repr

/-- The state behind the mutex. The queue is the list of the elements of a heap. -/
structure SharedState where
  chunkQueue : List PrioritizedChunk
  completedChunks : Finset Nat
  frontierByte : Nat
  totalBytes : Nat
  totalRequests : Nat
  retriedChunks : Nat
  failedChunks : Nat
  connections : List ConnectionRecord
  timeExpired : Bool

/-! ### Taking a chunk -/

/-- The clock during a critical section: the time, and how much time passes before each
further reading. -/
structure Clock where
  now : Nat
  ticks : List Nat

/-- A reading of the clock. -/
def Clock.read (clock : Clock) : Nat × Clock :=
  match clock.ticks with
  | [] => (clock.now, clock)
  | d :: rest => (clock.now + d, ⟨clock.now + d, rest⟩)

/-- Where the `while let Some(c) = chunk_queue.pop()` loop stands. -/
structure Scan where
  found : Option PrioritizedChunk
  queue : List PrioritizedChunk
  deferred : List PrioritizedChunk
  clock : Clock

/-- The pop loop. Every pass removes an entry, so `fuel` is the length of the queue. -/
def popScan (heap : ChunkHeap) (completed : Finset Nat) :
    (fuel : Nat) → List PrioritizedChunk → List PrioritizedChunk → Clock → Scan
  | 0, queue, deferred, clock => ⟨none, queue, deferred, clock⟩
  | fuel + 1, queue, deferred, clock =>
    match heap.pop queue with
    | none => ⟨none, queue, deferred, clock⟩
    | some (c, rest) =>
      -- `continue` drops the entry: it is not deferred.
      if c.chunkId ∈ completed then
        popScan heap completed fuel rest deferred clock
      else
        match c.retryAfter with
        | some retryAt =>
          let (now, clock) := clock.read
          if now < retryAt then
            -- The backoff is not over. The entry goes back after the scan.
            popScan heap completed fuel rest (deferred ++ [c]) clock
          else
            ⟨some c, rest, deferred, clock⟩
        | none => ⟨some c, rest, deferred, clock⟩

/-- The whole critical section: the chunk found, the queue after the deferred entries are
pushed back, and the time at the end. -/
def popNext (heap : ChunkHeap) (completed : Finset Nat) (queue : List PrioritizedChunk)
    (clock : Clock) : Option PrioritizedChunk × List PrioritizedChunk × Nat :=
  let scan := popScan heap completed queue.length queue [] clock
  (scan.found, heap.pushAll scan.queue scan.deferred, scan.clock.now)

/-! ### Committing a transfer -/

/-- The range starts at the frontier, before it, or at most one page after it. -/
def isFrontierBlocker (frontierByte pageSize rangeStart : Nat) : Bool :=
  rangeStart ≤ frontierByte + pageSize

/-- The wait before a retry. It doubles with every attempt, up to a factor of 16, and starts lower
for a blocker. -/
def backoffMs (frontierBlocker : Bool) (attempt : Nat) : Nat :=
  (if frontierBlocker then 500 else RETRY_BACKOFF_BASE_MS) * 2 ^ min (attempt - 1) 4

/-- The queue entry for the rest of a chunk after `bytes` of its range arrived in attempt
number `attempt`. -/
def retryEntry (frontierByte pageSize : Nat) (chunk : PrioritizedChunk) (attempt bytes now : Nat) :
    PrioritizedChunk :=
  let frontierBlocker := isFrontierBlocker frontierByte pageSize chunk.rangeStart
  { chunkId := chunk.chunkId
    rangeStart := chunk.rangeStart + bytes
    rangeEnd := chunk.rangeEnd
    lane := if frontierBlocker then .urgent else chunk.lane
    attempt := attempt
    retryAfter := some (now + backoffMs frontierBlocker attempt * 1000000) }

/-- The attempt number of the request for a queue entry. -/
def PrioritizedChunk.nextAttempt (chunk : PrioritizedChunk) : Nat := chunk.attempt + 1

namespace SharedState

/-- `connections.entry(conn_id).or_insert_with(..)` and the three updates of the record. -/
def touchConnection (connections : List ConnectionRecord) (t : Transfer) (bytes tsNs : Nat) :
    List ConnectionRecord :=
  -- `or_insert_with` runs only for a connection that is not in the map.
  let present := connections.any fun conn => conn.connectionId = t.connId
  let connections := if present then connections else connections ++
    [{ connectionId := t.connId
       protocol := t.protocolStr
       localEndpoint := t.localEp
       remoteEndpoint := t.remoteEp
       firstUseNs := tsNs
       lastUseNs := tsNs
       requestsCount := 0
       bytesTotal := 0 }]
  connections.map fun conn =>
    if conn.connectionId = t.connId then
      { conn with
        lastUseNs := tsNs
        requestsCount := conn.requestsCount + 1
        bytesTotal := conn.bytesTotal + bytes }
    else conn

/-- What becomes of the chunk: complete, queued again for its suffix, or given up. -/
def commitFate (st : SharedState) (pageSize : Nat) (chunk : PrioritizedChunk) (bytes : Nat)
    (isComplete : Bool) (now : Nat) : Fate PrioritizedChunk :=
  -- `isComplete` was decided before the lock, the flag is read under it.
  if isComplete then .done
  else if !st.timeExpired && chunk.nextAttempt < MAX_ATTEMPTS then
    .retry (retryEntry st.frontierByte pageSize chunk chunk.nextAttempt bytes now)
  else .givenUp

/-- What the end of a transfer does to the queue, the completed set and the counters. -/
def applyFate (st : SharedState) (heap : ChunkHeap) (chunkId : Nat) :
    Fate PrioritizedChunk → SharedState
  | .done => { st with completedChunks := insert chunkId st.completedChunks }
  | .retry entry =>
    { st with
      retriedChunks := st.retriedChunks + 1
      chunkQueue := heap.push st.chunkQueue entry }
  | .givenUp => { st with failedChunks := st.failedChunks + 1 }

/-- The updates under the lock at the end of a transfer: the totals, the connection, and the fate
of the chunk. -/
def commit (st : SharedState) (heap : ChunkHeap) (chunk : PrioritizedChunk) (t : Transfer)
    (bytes now : Nat) (fate : Fate PrioritizedChunk) : SharedState :=
  let st := { st with
    totalBytes := st.totalBytes + bytes
    totalRequests := st.totalRequests + 1
    connections := touchConnection st.connections t bytes now }
  st.applyFate heap chunk.chunkId fate

end SharedState

end FrontierSim
