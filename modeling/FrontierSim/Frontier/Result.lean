import FrontierSim.Frontier.Budget
import FrontierSim.Frontier.Runner

/-!
# `FrontierSim.Frontier.Result`: what a run is worth

The end of `run_frontier_tracker` (`frontier/src/runner.rs`), after its event loop: the
metrics of the tracker (`frontier/src/tracker.rs`), the search on the timeline with its tail
drain, and the capability envelope (`frontier/src/envelope.rs`). Rational numbers stand in
for `f64`.

`runFrontierTracker` is the whole function. It takes the events that the channel delivers
until it closes, and the two readings of the clock at the end.
-/

set_option autoImplicit false

namespace FrontierSim

/-! ### Metrics -/

/-- A pause of the frontier counts as a stall when it is longer than this. -/
def STALL_THRESHOLD_MS : Nat := 2000

/-- What the tracker says about the progress of the frontier. -/
structure FrontierMetrics where
  totalFrontierEvents : Nat
  finalFrontierBytes : Nat
  frontierAdvanceRateMbps : Option ℚ
  frontierStallCount : Nat
  maxFrontierStallMs : Nat
  deriving DecidableEq

namespace FrontierMetrics

/-- The loop over consecutive events, with `stall_count` and `max_stall_ms`. -/
def countStalls : List FrontierEvent → (stallCount maxStallMs : Nat) → Nat × Nat
  | previous :: event :: rest, stallCount, maxStallMs =>
    let gapMs := event.tMs - previous.tMs
    let maxStallMs := if gapMs > maxStallMs then gapMs else maxStallMs
    let stallCount := if gapMs > STALL_THRESHOLD_MS then stallCount + 1 else stallCount
    countStalls (event :: rest) stallCount maxStallMs
  | _, stallCount, maxStallMs => (stallCount, maxStallMs)

end FrontierMetrics

/-- `compute_metrics`: the rate over the whole run, and the stalls between neighbouring events. The
time after the last event is left to `runResult`. -/
def FrontierTracker.computeMetrics (tr : FrontierTracker) (elapsedMs : Nat) : FrontierMetrics :=
  let finalBytes := tr.contiguousFrontierBytes
  let (stallCount, maxStallMs) := FrontierMetrics.countStalls tr.events 0 0
  { totalFrontierEvents := tr.events.length
    finalFrontierBytes := finalBytes
    frontierAdvanceRateMbps :=
      if elapsedMs > 0 then some (finalBytes * 8 / elapsedMs / 1000) else none
    frontierStallCount := stallCount
    maxFrontierStallMs := maxStallMs }

/-! ### The envelope -/

/-- What a player may ask of the connection, together with the conditions under which this was
measured. -/
structure CapabilityEnvelope where
  maxSafeUrgentWorkers : Nat
  maxSafePrefetchWorkers : Nat
  maxSafeUrgentChunkBytes : Nat
  maxSafePrefetchChunkBytes : Nat
  sustainedThroughputMbps : ℚ
  p10ThroughputMbps : Option ℚ
  seekTtfbP50Ms : Option Nat
  stabilityPenalty : ℚ
  supportsRangeRequests : Bool
  measuredAtMs : Nat
  deriving DecidableEq

/-- The parameters of the run that go into the envelope as they are. -/
structure FrontierRunConfig where
  pageSize : Nat
  urgentChunkSizeBytes : Nat
  prefetchChunkSizeBytes : Nat
  urgentWorkers : Nat
  prefetchWorkers : Nat
  rangeSupport : Bool
  deriving DecidableEq, Repr

/-- What `run_frontier_tracker` returns at the end of a run. -/
structure FrontierRunResult where
  envelope : CapabilityEnvelope
  frontierEventsCount : Nat
  finalFrontierBytes : Nat
  frontierAdvanceRateMbps : Option ℚ
  frontierStallCount : Nat
  maxFrontierStallMs : Nat
  maxSustainableBitrateMbps : ℚ
  safeBudgetMbps : ℚ
  runDurationMs : Nat
  tailDrainMs : Nat
  deriving DecidableEq

/-- 0 is perfectly stable, 1 is very unstable. -/
def computeStabilityPenalty (stallCount maxStallMs : Nat) : ℚ :=
  let countPenalty : ℚ := min (stallCount * (1 / 10)) (1 / 2)
  let durationPenalty : ℚ :=
    if maxStallMs > 5000 then 1 / 2 else if maxStallMs > 2000 then 3 / 10 else 0
  min (countPenalty + durationPenalty) 1

/-! ### The end of a run -/

namespace FrontierTracker

/-- The timeline for the simulation. A long time without progress at the end is made visible
by an event without bytes. -/
def simEvents (tr : FrontierTracker) (wallElapsedMs : Nat) : List FrontierEvent :=
  match tr.events.getLast? with
  | some last =>
    if wallElapsedMs > last.tMs + 100 then
      tr.events ++ [⟨wallElapsedMs, last.contiguousFrontierBytes, 0⟩]
    else tr.events
  | none => tr.events

/-- The time from the last advance to the end of the run. -/
def tailDrainMs (tr : FrontierTracker) (wallElapsedMs : Nat) : Nat :=
  match tr.events.getLast? with
  | some last => wallElapsedMs - last.tMs
  | none => wallElapsedMs

/-- The result of a run that ends after `wallElapsedMs`. -/
def runResult (tr : FrontierTracker) (config : FrontierRunConfig)
    (wallElapsedMs measuredAtMs : Nat) : FrontierRunResult :=
  let metrics := tr.computeMetrics (max wallElapsedMs 1)
  let simResult := SafeBudgetEstimator.new.findMaxSustainableBitrate (tr.simEvents wallElapsedMs)
  let tailDrainMs := tr.tailDrainMs wallElapsedMs
  let effectiveMaxStall := max metrics.maxFrontierStallMs tailDrainMs
  let effectiveStallCount :=
    if tailDrainMs > 2000 then metrics.frontierStallCount + 1 else metrics.frontierStallCount
  { envelope :=
      { maxSafeUrgentWorkers := config.urgentWorkers
        maxSafePrefetchWorkers := config.prefetchWorkers
        maxSafeUrgentChunkBytes := config.urgentChunkSizeBytes
        maxSafePrefetchChunkBytes := config.prefetchChunkSizeBytes
        sustainedThroughputMbps := metrics.frontierAdvanceRateMbps.getD 0
        p10ThroughputMbps := none
        seekTtfbP50Ms := none
        stabilityPenalty := computeStabilityPenalty effectiveStallCount effectiveMaxStall
        supportsRangeRequests := config.rangeSupport
        measuredAtMs := measuredAtMs }
    frontierEventsCount := metrics.totalFrontierEvents
    finalFrontierBytes := metrics.finalFrontierBytes
    frontierAdvanceRateMbps := metrics.frontierAdvanceRateMbps
    frontierStallCount := effectiveStallCount
    maxFrontierStallMs := effectiveMaxStall
    maxSustainableBitrateMbps := simResult.maxSustainableBitrateMbps
    safeBudgetMbps := simResult.safeBudgetMbps
    runDurationMs := wallElapsedMs
    tailDrainMs := tailDrainMs }

end FrontierTracker

/-- The event loop over all events. -/
def Runner.processAll (r : Runner) (events : List TraceEvent) : Runner :=
  events.foldl (fun r event => (r.process event).1) r

/-- What the function sends to `frontier_tx`, and what it returns. -/
def runFrontierTracker (config : FrontierRunConfig) (events : List TraceEvent)
    (wallElapsedMs measuredAtMs : Nat) : List TraceEvent × FrontierRunResult :=
  let r := (Runner.new config.pageSize).processAll events
  (r.output, r.tracker.runResult config wallElapsedMs measuredAtMs)

end FrontierSim
