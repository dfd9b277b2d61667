import FrontierSim.Frontier.Tracker
import FrontierSim.Telemetry.Events

/-!
# `FrontierSim.Frontier.Runner`: the tracker thread

The event loop of `run_frontier_tracker` (`frontier/src/runner.rs`). `Runner.process` is
its body for one event. `output` is what went to `frontier_tx`, and the second component
of the result is the value that goes to `feedback_tx`.
-/

set_option autoImplicit false

namespace FrontierSim

/-- Milliseconds of a timestamp in nanoseconds. -/
def msOfNs (timestampNs : Nat) : Nat := timestampNs / 1000000

/-- The loop of `run_frontier_tracker`: its tracker, and the events that it has written so far. -/
structure Runner where
  tracker : FrontierTracker
  output : List TraceEvent
  deriving DecidableEq, Repr

namespace Runner

/-- The loop before the first event. -/
def new (pageSize : Nat) : Runner where
  tracker := .withPageSize pageSize
  output := []

/-- A page event: the tracker moves, and an advance is announced before the event is
forwarded. -/
def processPage (r : Runner) (e : PageCompleted) : Runner × Option Nat :=
  let prevFrontier := r.tracker.contiguousFrontierBytes
  let tracker := r.tracker.onPageCompleted e.pageIndex (msOfNs e.timestampNs)
  let newFrontier := tracker.contiguousFrontierBytes
  if newFrontier > prevFrontier then
    -- The page that closed the gap gives the advance its time.
    let advanced : FrontierAdvanced :=
      { frontierByte := newFrontier
        frontierPage := newFrontier / r.tracker.pageSize
        contiguousBytes := newFrontier
        timestampNs := e.timestampNs }
    (⟨tracker, r.output ++ [.frontierAdvanced advanced, .pageCompleted e]⟩, some newFrontier)
  else
    (⟨tracker, r.output ++ [.pageCompleted e]⟩, none)

/-- The body of the loop. Every event is written, a page event also moves the tracker, and when
that moves the frontier the advance is written first and goes to the coordinator. -/
def process (r : Runner) (event : TraceEvent) : Runner × Option Nat :=
  match event with
  | .pageCompleted e => r.processPage e
  | _ => ({ r with output := r.output ++ [event] }, none)

end Runner

end FrontierSim
