import FrontierSim.Frontier.Tracker
import FrontierSim.Lib.U64
import Mathlib.Data.List.Sort
import Mathlib.Data.Rat.Floor

/-!
# `FrontierSim.Frontier.Budget`: the shadow player and the bitrate search

`SafeBudgetEstimator` (`frontier/src/budget.rs`) with rational numbers in place of `f64`.

The search loop halves an interval until it is no wider than the tolerance. It recurs on a
bound `fuel` for the number of halvings. `SEARCH_FUEL` is more than the default constants
need, and `FrontierSim.Proofs.Search` proves that the loop ends on its own before that.
-/

set_option autoImplicit false

namespace FrontierSim

open Lib

/-- The player starts with three seconds in its buffer. -/
def DEFAULT_STARTUP_BUFFER_MS : Nat := 3000
/-- The player buffers at most fifty seconds. -/
def DEFAULT_MAX_BUFFER_MS : Nat := 50000
/-- The safe budget is this part of the sustained bitrate. -/
def DEFAULT_SAFETY_FACTOR : ℚ := 85 / 100
/-- The search stops when its interval is no longer than this. -/
def DEFAULT_SEARCH_TOLERANCE_MBPS : ℚ := 1 / 10
/-- The lower end of the search. No playback is tried at this bitrate. -/
def DEFAULT_MIN_BITRATE_MBPS : ℚ := 1
/-- The upper end of the search. -/
def DEFAULT_MAX_BITRATE_MBPS : ℚ := 2000

/-- What one playback of the shadow player came to. -/
structure SimulationRun where
  survived : Bool
  rebufferCount : Nat
  minBufferMs : Nat
  deriving DecidableEq, Repr

/-- The outcome of the search: the bitrate found, the budget below it, and the playback at that
budget. -/
structure SimulationResult where
  maxSustainableBitrateMbps : ℚ
  safeBudgetMbps : ℚ
  searchIterations : Nat
  startupBufferMs : Nat
  maxBufferMs : Nat
  simulatedRebufferCount : Nat
  deriving DecidableEq

/-- The settings of the shadow player and of the search. -/
structure SafeBudgetEstimator where
  startupBufferMs : Nat
  maxBufferMs : Nat
  safetyFactor : ℚ
  searchToleranceMbps : ℚ
  minBitrateMbps : ℚ
  maxBitrateMbps : ℚ

/-- The variables of the loop in `simulate`. -/
structure Playback where
  bufferBytes : ℚ
  started : Bool
  lastTMs : Nat
  rebufferCount : Nat
  minBufferMs : Nat

namespace Playback

/-- The variables before the loop. -/
def initial (firstTMs : Nat) : Playback where
  bufferBytes := 0
  started := false
  lastTMs := firstTMs
  rebufferCount := 0
  minBufferMs := U64.maxValue

/-- The drain since the last event. A buffer that runs dry stops playback. -/
def drain (p : Playback) (bytesPerMs : ℚ) (deltaTMs : Nat) : Playback :=
  if p.started = true ∧ deltaTMs > 0 then
    -- Playback that ran dry waits for the startup threshold again.
    let bufferBytes := p.bufferBytes - bytesPerMs * deltaTMs
    if bufferBytes < 0 then
      { p with
        bufferBytes := 0
        started := false
        rebufferCount := p.rebufferCount + 1 }
    else { p with bufferBytes := bufferBytes }
  else p

/-- The bytes of an event, up to the cap. -/
def fill (p : Playback) (maxBufferBytes : ℚ) (deltaBytes : Nat) : Playback :=
  { p with bufferBytes := min (p.bufferBytes + deltaBytes) maxBufferBytes }

/-- Playback starts at the startup threshold. -/
def tryStart (p : Playback) (startupBufferBytes : ℚ) : Playback :=
  if p.started = false ∧ p.bufferBytes ≥ startupBufferBytes then { p with started := true }
  else p

/-- The lowest buffer while playing, in whole milliseconds. -/
def recordMin (p : Playback) (bytesPerMs : ℚ) : Playback :=
  if p.started then
    { p with minBufferMs := min p.minBufferMs ⌊p.bufferBytes / bytesPerMs⌋.toNat }
  else p

/-- The body of the loop. -/
def step (startupBufferBytes maxBufferBytes bytesPerMs : ℚ) (p : Playback)
    (event : FrontierEvent) : Playback :=
  let p := p.drain bytesPerMs (event.tMs - p.lastTMs)
  let p := p.fill maxBufferBytes event.deltaContiguousBytes
  let p := p.tryStart startupBufferBytes
  let p := p.recordMin bytesPerMs
  { p with lastTMs := event.tMs }

end Playback

namespace SafeBudgetEstimator

/-- `SafeBudgetEstimator::new`. The command uses no other estimator. -/
def new : SafeBudgetEstimator where
  startupBufferMs := DEFAULT_STARTUP_BUFFER_MS
  maxBufferMs := DEFAULT_MAX_BUFFER_MS
  safetyFactor := DEFAULT_SAFETY_FACTOR
  searchToleranceMbps := DEFAULT_SEARCH_TOLERANCE_MBPS
  minBitrateMbps := DEFAULT_MIN_BITRATE_MBPS
  maxBitrateMbps := DEFAULT_MAX_BITRATE_MBPS

/-- A bitrate in Mbps as bytes for each millisecond of playback. -/
def bytesPerMs (bitrateMbps : ℚ) : ℚ := bitrateMbps * 1000000 / 8 / 1000

/-- The loop of `simulate` from the first event on. -/
def playback (est : SafeBudgetEstimator) (bitrateMbps : ℚ) (firstTMs : Nat)
    (events : List FrontierEvent) : Playback :=
  let rate := bytesPerMs bitrateMbps
  events.foldl (Playback.step (est.startupBufferMs * rate) (est.maxBufferMs * rate) rate)
    (.initial firstTMs)

/-- `simulate`: the shadow player plays the events at one bitrate. Without events it does not
survive. -/
def simulate (est : SafeBudgetEstimator) (events : List FrontierEvent)
    (candidateBitrateMbps : ℚ) : SimulationRun :=
  match events with
  | [] => ⟨false, 0, 0⟩
  | first :: _ =>
    -- A player that never drains survives without playing.
    if candidateBitrateMbps ≤ 0 then ⟨true, 0, U64.maxValue⟩
    else
      let p := est.playback candidateBitrateMbps first.tMs events
      -- A player that waits at the end has not survived.
      { survived := p.started && p.rebufferCount == 0
        rebufferCount := p.rebufferCount
        minBufferMs := if p.started then p.minBufferMs else 0 }

/-- A bound for the halvings of the search. -/
def SEARCH_FUEL : Nat := 64

/-- The search loop, with its iterations counted. -/
def searchLoop (tolerance : ℚ) (survives : ℚ → Bool) :
    (fuel : Nat) → (lo hi : ℚ) → (iterations : Nat) → ℚ × Nat
  | 0, lo, _, iterations => (lo, iterations)
  | fuel + 1, lo, hi, iterations =>
    if hi - lo > tolerance then
      -- `lo` has survived or is the lower end, which is never tried itself.
      let mid := (lo + hi) / 2
      if survives mid then searchLoop tolerance survives fuel mid hi (iterations + 1)
      else searchLoop tolerance survives fuel lo mid (iterations + 1)
    else (lo, iterations)

/-- `sort_by_key(|e| e.t_ms)`, a stable sort. -/
def sortEvents (events : List FrontierEvent) : List FrontierEvent :=
  events.insertionSort fun a b => a.tMs ≤ b.tMs

/-- `find_max_sustainable_bitrate`: a bisection for a bitrate that the player survives, and the
safe budget below it. -/
def findMaxSustainableBitrate (est : SafeBudgetEstimator) (events : List FrontierEvent) :
    SimulationResult :=
  if events.length < 2 then
    { maxSustainableBitrateMbps := 0
      safeBudgetMbps := 0
      searchIterations := 0
      startupBufferMs := est.startupBufferMs
      maxBufferMs := est.maxBufferMs
      simulatedRebufferCount := 0 }
  else
    -- The times of the tracker's events may run back.
    let sorted := sortEvents events
    let (maxSustainable, iterations) :=
      searchLoop est.searchToleranceMbps (fun mid => (est.simulate sorted mid).survived)
        SEARCH_FUEL est.minBitrateMbps est.maxBitrateMbps 0
    let safeBudget := maxSustainable * est.safetyFactor
    { maxSustainableBitrateMbps := maxSustainable
      safeBudgetMbps := safeBudget
      searchIterations := iterations
      startupBufferMs := est.startupBufferMs
      maxBufferMs := est.maxBufferMs
      simulatedRebufferCount := (est.simulate sorted safeBudget).rebufferCount }

end SafeBudgetEstimator

end FrontierSim
