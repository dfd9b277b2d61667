import FrontierSim.Benchmark

/-!
# `FrontierSim.Telemetry.Jsonl`: the trace file

The thread of `spawn_jsonl_writer` (`telemetry/src/jsonl.rs`) takes the events that the tracker
thread sends to `frontier_tx`, and writes each one as a line of JSON. It writes to a `BufWriter`,
so what was written reaches the file later. On an I/O error it ends, and what it was writing is
left where it broke off. The senders ignore that.

`tracedBenchmark` is the benchmark with this thread. `serde_json::to_writer` is a parameter.
-/

set_option autoImplicit false

namespace FrontierSim

open Lib

/-- Where the thread is, or what it returned. -/
inductive WriterStatus
  | running
  /-- `Err`, the I/O error. -/
  | failed
  /-- `Ok`, with the number of events. -/
  | wrote (count : Nat)
  deriving DecidableEq, Repr

/-- The writer thread: all the text that it wrote into its buffer, how much of it has reached the
file, and how many events it counts. -/
structure JsonlWriter where
  /-- Everything that went to the `BufWriter`. -/
  buffered : List Char
  /-- How much of it is in the file. -/
  flushed : Nat
  count : Nat
  status : WriterStatus
  deriving DecidableEq, Repr

namespace JsonlWriter

/-- The writer before its first event, with an empty file. -/
def new : JsonlWriter := ⟨[], 0, 0, .running⟩

/-- The content of the file. -/
def file (w : JsonlWriter) : List Char := w.buffered.take w.flushed

/-- The body of the loop. -/
def writeEvent (w : JsonlWriter) (json : List Char) : JsonlWriter :=
  { w with buffered := w.buffered ++ (json ++ ['\n']), count := w.count + 1 }

/-- An error after the first `kept` characters of `json`. -/
def fail (w : JsonlWriter) (json : List Char) (kept : Nat) : JsonlWriter :=
  { w with buffered := w.buffered ++ json.take kept, status := .failed }

/-- The channel is closed. -/
def finish (w : JsonlWriter) : JsonlWriter :=
  { w with flushed := w.buffered.length, status := .wrote w.count }

end JsonlWriter

/-- The benchmark and the writer thread, which has taken `taken` events. -/
structure TracedSystem where
  system : System
  taken : Nat
  writer : JsonlWriter

/-- A step of the benchmark, or what happens to the writer. -/
inductive TracedLabel
  | system (a : Label)
  /-- The writer takes an event and writes it. -/
  | write
  /-- The first `n` characters are in the file. -/
  | flush (n : Nat)
  /-- An error, while the next event is written or at the last flush. -/
  | fail (kept : Nat)
  /-- The writer finds the channel closed. -/
  | finish
  deriving DecidableEq, Repr

/-- `run_parallel` has returned and the tracker thread has taken every event, so that it ends and
drops `frontier_tx`. -/
def System.Closed (s : System) : Prop := s.result.isSome = true ∧ s.events.recv = none

/-- It can be checked whether the trace is closed. -/
instance (s : System) : Decidable s.Closed := inferInstanceAs (Decidable (_ ∧ _))

namespace TracedSystem

/-- The event that the writer takes next. -/
def next (ts : TracedSystem) : Option TraceEvent := ts.system.runner.output[ts.taken]?

/-- One step of the benchmark or of the writer. The writer takes its events from the output of the
tracker thread, and returns when that is closed and everything was taken. -/
def step (heap : ChunkHeap) (config : ReactorConfig) (toWriter : TraceEvent → List Char)
    (a : TracedLabel) (ts : TracedSystem) : Option TracedSystem :=
  match a with
  | .system a => (System.step heap config a ts.system).map fun s => { ts with system := s }
  | .write =>
    if ts.writer.status = .running then
      ts.next.map fun event =>
        { ts with taken := ts.taken + 1, writer := ts.writer.writeEvent (toWriter event) }
    else none
  | .flush n =>
    if ts.writer.flushed ≤ n ∧ n ≤ ts.writer.buffered.length then
      some { ts with writer := { ts.writer with flushed := n } }
    else none
  | .fail kept =>
    if ts.writer.status = .running then
      some { ts with writer := ts.writer.fail (ts.next.elim [] toWriter) kept }
    else none
  | .finish =>
    if ts.writer.status = .running ∧ ts.system.Closed ∧ ts.next = none then
      some { ts with writer := ts.writer.finish }
    else none

end TracedSystem

/-- The benchmark with its writer, as a transition system. -/
def tracedBenchmark (opening : RunStarted) (heap : ChunkHeap) (config : ReactorConfig)
    (chunks : List ChunkRequest) (toWriter : TraceEvent → List Char) :
    TransitionSystem TracedSystem TracedLabel where
  init := ⟨.start opening heap config chunks, 0, .new⟩
  step := TracedSystem.step heap config toWriter

end FrontierSim
