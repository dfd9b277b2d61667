import FrontierSim.Transport.Reactor

/-!
# `FrontierSim.Transport.Download`: the page aggregation of the two handlers

`DownloadHandler` is the handler of a single-range download (`transport/src/download.rs`). It
aggregates pages in a loop of its own, beside that of `WorkerHandler`
(`transport/src/reactor.rs`). `writeLoop` is the `while remaining > 0` loop of both `write`
callbacks over one pass of its body, and `deliver` is curl calling `write` for each piece of a
body.

The `headers` field of the source is left out: the aggregation does not read it.
-/

set_option autoImplicit false

namespace FrontierSim

open Lib

/-! ### The loop -/

/-- The handler after some passes, the page events they sent, and the clock. -/
abbrev Written (H : Type) := H × List PageCompleted × Clock

/-- One pass of a loop: the handler, the bytes that remain, and the page event when the pass
completes the page. `none` is a subtraction that leaves `u64`. -/
abbrev Pass (H : Type) :=
  H → (remaining timestampNs : Nat) → Option (H × Nat × Option PageCompleted)

/-- The loop over `remaining` bytes. `none` is a pass that fails, or a loop that goes on after
`fuel` passes. -/
def writeLoop {H : Type} (pass : Pass H) :
    (fuel remaining : Nat) → H → Clock → Option (Written H)
  | _, 0, h, clock => some (h, [], clock)
  | 0, _ + 1, _, _ => none
  | fuel + 1, remaining + 1, h, clock => do
    let (now, next) := clock.read
    let (h, remaining, page) ← pass h (remaining + 1) now
    -- The clock is read for a page event only.
    let (h, pages, clock) ← writeLoop pass fuel remaining h (if page.isSome then next else clock)
    return (h, page.toList ++ pages, clock)

/-- A `write` callback with `len` bytes. A loop that takes no byte in some pass would not
end. -/
def writeWith {H : Type} (pass : Pass H) (h : H) (len : Nat) (clock : Clock) :
    Option (Written H) :=
  writeLoop pass len len h clock

/-- curl calls `write` once for each piece of the body. -/
def deliver {H : Type} (write : H → Nat → Clock → Option (Written H)) :
    (cuts : List Nat) → H → Clock → Option (Written H)
  | [], h, clock => some (h, [], clock)
  | len :: rest, h, clock => do
    let (h, pages, clock) ← write h len clock
    let (h, more, clock) ← deliver write rest h clock
    return (h, pages ++ more, clock)

/-! ### The handler of a worker -/

namespace WorkerHandler

/-- `writePass` with its subtraction checked. -/
def checkedPass : Pass WorkerHandler := fun h remaining timestampNs => do
  let _ ← U64.checkedSub h.pageSize h.currentPageBytes
  return h.writePass remaining timestampNs

/-- `write` of the worker's handler, with its arithmetic checked. -/
def write : WorkerHandler → Nat → Clock → Option (Written WorkerHandler) := writeWith checkedPass

end WorkerHandler

/-! ### The handler of a download -/

/-- The sinks that can be chosen. They all throw the bytes away. -/
inductive Sink
  | discard
  | sparseFile
  | rollingRing
  deriving DecidableEq, Repr

/-- The handler of a single download. Its fields are those of the worker's handler, with the start
of the range and the sink. -/
structure DownloadHandler where
  requestId : Nat
  chunkId : Nat
  rangeStart : Nat
  bytesReceived : Nat
  pageSize : Nat
  currentPageBytes : Nat
  currentPageIndex : Nat
  responseCode : Option Nat
  sink : Sink
  deriving DecidableEq, Repr

namespace DownloadHandler

/-- `none` is the division by zero of a zero page size. -/
def new (requestId chunkId rangeStart pageSize : Nat) (sink : Sink) : Option DownloadHandler := do
  let pageIndex ← U64.checkedDiv rangeStart pageSize
  return {
    requestId := requestId
    chunkId := chunkId
    rangeStart := rangeStart
    bytesReceived := 0
    pageSize := pageSize
    currentPageBytes := 0
    currentPageIndex := pageIndex
    responseCode := none
    sink := sink }

/-- The event that `emit_page_completed` sends. -/
def emitPageCompleted (h : DownloadHandler) (timestampNs : Nat) : PageCompleted :=
  let pageStart := h.currentPageIndex * h.pageSize
  let pageEnd := pageStart + h.currentPageBytes
  { requestId := h.requestId
    chunkId := h.chunkId
    pageIndex := h.currentPageIndex
    pageStartByte := pageStart
    pageEndByte := pageEnd
    pageBytes := h.currentPageBytes
    cumulativeBytes := h.bytesReceived
    timestampNs := timestampNs }

/-- One pass of the loop in `write`. No sink does anything with the bytes. -/
def writePass : Pass DownloadHandler := fun h remaining timestampNs => do
  let pageRemaining ← U64.checkedSub h.pageSize h.currentPageBytes
  let toConsume := min remaining pageRemaining
  let h := { h with
    currentPageBytes := h.currentPageBytes + toConsume
    bytesReceived := h.bytesReceived + toConsume }
  if h.currentPageBytes ≥ h.pageSize then
    let page := h.emitPageCompleted timestampNs
    return ({ h with currentPageIndex := h.currentPageIndex + 1, currentPageBytes := 0 },
      remaining - toConsume, some page)
  else
    return (h, remaining - toConsume, none)

/-- `write` of the download's handler. -/
def write : DownloadHandler → Nat → Clock → Option (Written DownloadHandler) :=
  writeWith writePass

end DownloadHandler

end FrontierSim
