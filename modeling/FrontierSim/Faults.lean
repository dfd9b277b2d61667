import FrontierSim.Benchmark

/-!
# `FrontierSim.Faults`: the arithmetic of a run, checked

The run of `FrontierSim.Benchmark` computes with `Nat`. Here are the same computations with
checked operations, which are `none` where the code would leave `u64` or divide by zero:
`WorkerHandler::reinit` and `write`, the length of a range, the retry decision
(`transport/src/reactor.rs`), the tracker (`frontier/src/tracker.rs`) and the page of an
advance (`frontier/src/runner.rs`). `System.faults` says whether the next action of a thread
runs into one of them.
-/

set_option autoImplicit false

namespace FrontierSim

open Lib

namespace WorkerHandler

/-- The page event for the bytes of the current page. -/
def checkedPageCompleted (h : WorkerHandler) (timestampNs : Nat) : Option PageCompleted := do
  let pageStart ← U64.checkedMul h.currentPageIndex h.pageSize
  let pageEnd ← U64.checkedAdd pageStart h.currentPageBytes
  return {
    requestId := h.requestId
    chunkId := h.chunkId
    pageIndex := h.currentPageIndex
    pageStartByte := pageStart
    pageEndByte := pageEnd
    pageBytes := h.currentPageBytes
    cumulativeBytes := h.bytesReceived
    timestampNs := timestampNs }

/-- `current_page_bytes += n; bytes_received += n`. -/
def checkedConsume (h : WorkerHandler) (n : Nat) : Option WorkerHandler := do
  let pageBytes ← U64.checkedAdd h.currentPageBytes n
  let received ← U64.checkedAdd h.bytesReceived n
  return { h with currentPageBytes := pageBytes, bytesReceived := received }

/-- One pass of the loop in `write`. -/
def checkedWritePass (h : WorkerHandler) (remaining timestampNs : Nat) :
    Option (WorkerHandler × Nat × Option PageCompleted) := do
  let pageRemaining ← U64.checkedSub h.pageSize h.currentPageBytes
  let toConsume := min remaining pageRemaining
  let h ← h.checkedConsume toConsume
  let remaining ← U64.checkedSub remaining toConsume
  if h.currentPageBytes ≥ h.pageSize then
    let page ← h.checkedPageCompleted timestampNs
    let nextIndex ← U64.checkedAdd h.currentPageIndex 1
    return ({ h with currentPageIndex := nextIndex, currentPageBytes := 0 }, remaining, some page)
  else
    return (h, remaining, none)

end WorkerHandler

namespace FrontierTracker

/-- `advance_frontier` where each addition may overflow and panic. Without an overflow it is
`advanceFrontier`. -/
def checkedAdvanceFrontier (tr : FrontierTracker) (tMs : Nat) : Option FrontierTracker := do
  let previous := tr.contiguousFrontierBytes
  let pageIndex := skipCompleted (tr.pages.drop tr.lastFrontierPageIndex) tr.lastFrontierPageIndex
  let newFrontierBytes ← U64.checkedMul pageIndex tr.pageSize
  let delta ← U64.checkedSub newFrontierBytes previous
  return { tr with
    lastFrontierPageIndex := pageIndex
    contiguousFrontierBytes := newFrontierBytes
    events := if delta > 0 then
        tr.events ++ [⟨tMs, newFrontierBytes, delta⟩]
      else tr.events }

/-- `on_page_completed` on top of `checkedAdvanceFrontier`. -/
def checkedOnPageCompleted (tr : FrontierTracker) (pageIndex tMs : Nat) :
    Option FrontierTracker := do
  let len ← U64.checkedAdd pageIndex 1
  let pages := resizePages tr.pages len
  { tr with pages := pages.set pageIndex true }.checkedAdvanceFrontier tMs

end FrontierTracker

/-- The tracker thread on a page event: the new tracker, and the page of the advance. -/
def Runner.checkedProcessPage (r : Runner) (e : PageCompleted) :
    Option (FrontierTracker × Option Nat) := do
  let prevFrontier := r.tracker.contiguousFrontierBytes
  let tracker ← r.tracker.checkedOnPageCompleted e.pageIndex (msOfNs e.timestampNs)
  let newFrontier := tracker.contiguousFrontierBytes
  if newFrontier > prevFrontier then
    let page ← U64.checkedDiv newFrontier r.tracker.pageSize
    return (tracker, some page)
  else
    return (tracker, none)

/-- What becomes of the chunk. Only a retry computes with the range. -/
def SharedState.checkedCommitFate (st : SharedState) (pageSize : Nat) (chunk : PrioritizedChunk)
    (bytes : Nat) (isComplete : Bool) (now : Nat) : Option (Fate PrioritizedChunk) :=
  if isComplete then some .done
  else if !st.timeExpired && chunk.nextAttempt < MAX_ATTEMPTS then do
    let suffixStart ← U64.checkedAdd chunk.rangeStart bytes
    let nearFrontier ← U64.checkedAdd st.frontierByte pageSize
    let frontierBlocker : Bool := chunk.rangeStart ≤ nearFrontier
    return .retry
      { chunkId := chunk.chunkId
        rangeStart := suffixStart
        rangeEnd := chunk.rangeEnd
        lane := if frontierBlocker then .urgent else chunk.lane
        attempt := chunk.nextAttempt
        retryAfter := some (now + backoffMs frontierBlocker chunk.nextAttempt * 1000000) }
  else some .givenUp

/-- The next action of the worker leaves `u64` or divides by zero. -/
def Worker.faults (w : Worker) (shared : SharedState) (pageSize now : Nat) : Bool :=
  match w.outbox, w.phase with
  | none, .assigned req =>
    (w.handler.reinit req.requestId req.chunk.chunkId req.chunk.rangeStart).isNone
  | none, .performing req _ left remaining =>
    if remaining > 0 then (w.handler.checkedWritePass remaining now).isNone
    else left.isEmpty && (req.chunk.expected.isNone ||
      (decide (w.handler.currentPageBytes > 0) && (w.handler.checkedPageCompleted now).isNone))
  | none, .committing req _ bytes isComplete =>
    (shared.checkedCommitFate pageSize req.chunk bytes isComplete now).isNone
  | _, _ => false

/-- The action leaves `u64` or divides by zero. -/
def System.faults (s : System) (config : ReactorConfig) : Label → Bool
  | .advance i => s.workers[i]?.any fun w => w.faults s.shared config.pageSize s.now
  | .track =>
    match s.events.recv with
    | some (.pageCompleted e, _) => (s.runner.checkedProcessPage e).isNone
    | _ => false
  | _ => false

end FrontierSim
