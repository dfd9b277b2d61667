import FrontierSim.Lib.Scripts
import FrontierSim.Lib.Text
import FrontierSim.Telemetry.RunStore
import FrontierSim.Transport.Reactor

/-!
# `FrontierSim.Cli.Store`: how a benchmark is stored

The end of the `Benchmark` command (`cli/src/main.rs`) stores the run: the run itself, its
completion and the connections. Each call may fail, and the command goes on with the next one
(`let _ = ...`). Several commands may work on one database at the same time, and SQLite may
refuse a call because another process holds the lock.

`benchmarks` is the system of these processes. A process whose `init_db` fails is one whose calls
all fail.
-/

set_option autoImplicit false

namespace FrontierSim

open Lib

/-- What a benchmark hands to the database. -/
structure BenchmarkRecord where
  /-- The time that the run id is made of. -/
  startMs : Nat
  assetKey : String
  startedAtMs : Int
  configJson : String
  envelopeJson : String
  summaryJson : String
  /-- The connections of the reactor's result, or none when it failed. -/
  connections : List ConnectionRecord
  deriving DecidableEq

/-- A call into the database. -/
inductive StoreCall
  | insertRun (runId assetKey provider : String) (startedAt : Int) (configJson : String)
  | finishRun (runId : String) (finishedAt : Int) (envelopeJson summaryJson : String)
  | insertConnection (runId : String) (conn : ConnectionRecord)
  deriving DecidableEq

/-- Nanoseconds as milliseconds with their fraction. The source divides floating-point numbers. -/
def msOfNsExact (ns : Nat) : ℚ := ns / 1000000

namespace Db

/-- A call of the store, with the arguments that the command computes for it. -/
def execute (foreignKeys : Bool) (db : Db) : StoreCall → Except SqlError Db
  | .insertRun runId assetKey provider startedAt configJson =>
    db.insertRun runId assetKey provider startedAt configJson
  | .finishRun runId finishedAt envelopeJson summaryJson =>
    db.finishRun runId finishedAt envelopeJson summaryJson
  | .insertConnection runId conn =>
    db.insertConnection foreignKeys runId conn.connectionId conn.protocol conn.localEndpoint
      conn.remoteEndpoint (msOfNsExact conn.firstUseNs) (msOfNsExact conn.lastUseNs)
      conn.requestsCount conn.bytesTotal

/-- A call whose error is ignored. -/
def attempt (foreignKeys : Bool) (db : Db) (call : StoreCall) : Db :=
  match db.execute foreignKeys call with
  | .ok db => db
  | .error _ => db

end Db

namespace BenchmarkRecord

/-- The id of a run is made from the millisecond in which the command started. -/
def runId (b : BenchmarkRecord) : String := "run_" ++ String.ofList (Text.decimal b.startMs)

/-- The calls of the command, in order. The provider stays empty, and the run counts as
finished when it is stored. -/
def calls (b : BenchmarkRecord) : List StoreCall :=
  .insertRun b.runId b.assetKey "" b.startedAtMs b.configJson ::
    .finishRun b.runId b.startedAtMs b.envelopeJson b.summaryJson ::
      b.connections.map (.insertConnection b.runId)

end BenchmarkRecord

/-- Benchmarks that end at about the same time and store their runs in one database. -/
def benchmarks (foreignKeys : Bool) (db : Db) (records : List BenchmarkRecord) :
    TransitionSystem (Shared Db StoreCall) (Nat × Bool) :=
  shared (Db.attempt foreignKeys) db (records.map BenchmarkRecord.calls)

end FrontierSim
