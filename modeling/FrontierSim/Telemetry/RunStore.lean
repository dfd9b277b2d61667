import FrontierSim.Lib.U64
import Mathlib.Algebra.Order.Field.Rat

/-!
# `FrontierSim.Telemetry.RunStore`: the database of the runs

The tables and the statements of `telemetry/src/sqlite.rs`. A table is the list of its rows in
the order in which they were inserted. An `INSERT` fails on a primary key that is there already,
an `UPDATE` changes the rows that match, and a statement that fails changes nothing. Whether
SQLite enforces `REFERENCES` is a setting of its build, which `foreignKeys` stands for.

The numbers that `AUTOINCREMENT` gives out are left out: nothing reads them. The same is true of
the frontier snapshots, and of the statements that no command uses. A `REAL` column is a rational
number.
-/

set_option autoImplicit false

namespace FrontierSim

/-- The failures of SQLite that the statements and the queries can run into. -/
inductive SqlError
  | primaryKey
  | foreignKey
  | integerOverflow
  | outOfRange
  deriving DecidableEq, Repr

/-! ### Tables -/

/-- A row of `runs`. The last columns are empty until the run is finished. -/
structure RunRow where
  runId : String
  assetKey : String
  provider : String
  startedAt : Int
  finishedAt : Option Int
  configJson : String
  envelopeJson : Option String
  summaryJson : Option String
  deriving DecidableEq, Repr

/-- A row of `requests`. No benchmark inserts one. -/
structure RequestRow where
  runId : String
  requestId : Int
  chunkId : Int
  lane : String
  attempt : Nat
  requestedRange : String
  connectionId : Int
  newConnection : Bool
  queueMs : ℚ
  dnsMs : ℚ
  connectMs : ℚ
  tlsMs : ℚ
  ttfbMs : ℚ
  totalMs : ℚ
  totalBytes : Int
  httpVersion : String
  errorClass : Option String
  deriving DecidableEq

/-- A row of `connections`. The run that it belongs to is named by a foreign key. -/
structure ConnectionRow where
  runId : String
  connectionId : Int
  protocol : String
  localEndpoint : String
  remoteEndpoint : String
  firstUseMs : ℚ
  lastUseMs : ℚ
  requestCount : Nat
  totalBytes : Int
  deriving DecidableEq

/-- The three tables, with their rows in the order of their insertion. -/
structure Db where
  runs : List RunRow
  requests : List RequestRow
  connections : List ConnectionRow
  deriving DecidableEq

/-- The tables that `init_db` creates. -/
def Db.empty : Db := ⟨[], [], []⟩

/-- `n as i64`. -/
def asI64 (n : Nat) : Int := (n : Int).bmod (2 ^ 64)

/-! ### Statements -/

namespace Db

/-- The run has a row. -/
def hasRun (db : Db) (runId : String) : Bool := db.runs.any fun row => row.runId == runId

/-- `insert_run`: a new run without an end. The id is the primary key. -/
def insertRun (db : Db) (runId assetKey provider : String) (startedAt : Int)
    (configJson : String) : Except SqlError Db :=
  if db.hasRun runId then .error .primaryKey
  else .ok { db with
    runs := db.runs ++ [⟨runId, assetKey, provider, startedAt, none, configJson, none, none⟩] }

/-- `finish_run`: the end of a run, in every row with its id. -/
def finishRun (db : Db) (runId : String) (finishedAt : Int) (envelopeJson summaryJson : String) :
    Except SqlError Db :=
  -- A run that is not there is not an error.
  .ok { db with
    runs := db.runs.map fun row =>
      if row.runId = runId then
        { row with
          finishedAt := some finishedAt
          envelopeJson := some envelopeJson
          summaryJson := some summaryJson }
      else row }

/-- `insert_connection`. Whether the run must exist depends on the setting of the connection to
SQLite. -/
def insertConnection (foreignKeys : Bool) (db : Db) (runId : String) (connectionId : Int)
    (protocol localEndpoint remoteEndpoint : String) (firstUseMs lastUseMs : ℚ)
    (requestCount totalBytes : Nat) : Except SqlError Db :=
  if foreignKeys && !db.hasRun runId then .error .foreignKey
  else .ok { db with
    connections := db.connections ++ [⟨runId, connectionId, protocol, localEndpoint,
      remoteEndpoint, firstUseMs, lastUseMs, requestCount, asI64 totalBytes⟩] }

end Db

/-! ### Queries -/

/-- A run as the queries return it. -/
structure RunRecord where
  runId : String
  assetKey : String
  provider : String
  startedAt : Int
  finishedAt : Option Int
  envelopeJson : Option String
  summaryJson : Option String
  deriving DecidableEq, Repr

/-- The columns that the queries read. -/
def RunRow.record (row : RunRow) : RunRecord where
  runId := row.runId
  assetKey := row.assetKey
  provider := row.provider
  startedAt := row.startedAt
  finishedAt := row.finishedAt
  envelopeJson := row.envelopeJson
  summaryJson := row.summaryJson

/-- `ORDER BY started_at DESC`. The order of equal times is left to SQLite. -/
structure RunOrder where
  sort : List RunRow → List RunRow
  perm : ∀ rows, (sort rows).Perm rows
  sorted : ∀ rows, (sort rows).Pairwise fun a b => b.startedAt ≤ a.startedAt

namespace Db

/-- `list_runs`: all runs, the latest first. -/
def listRuns (order : RunOrder) (db : Db) : List RunRecord := (order.sort db.runs).map RunRow.record

/-- `get_run`: the run with this id, if there is one. -/
def getRun (db : Db) (runId : String) : Option RunRecord :=
  (db.runs.find? fun row => row.runId == runId).map RunRow.record

/-- `AVG`, or 0 without rows. -/
def avg (values : List ℚ) : ℚ := if values = [] then 0 else values.sum / values.length

/-- `SUM` of integers. It fails where the sum leaves the range on the way. -/
def sumInt (values : List Int) : Except SqlError Int :=
  values.foldlM (fun acc v =>
    if -2 ^ 63 ≤ acc + v ∧ acc + v < 2 ^ 63 then .ok (acc + v) else .error .integerOverflow) 0

/-- The number of requests, the mean times and the sum of the bytes. -/
def getRequestStats (db : Db) (runId : String) : Except SqlError (Nat × ℚ × ℚ × ℚ) := do
  let rows := db.requests.filter fun row => row.runId == runId
  let total ← sumInt (rows.map RequestRow.totalBytes)
  -- The count is read as an `i32`.
  if rows.length < 2 ^ 31 then
    return (rows.length, avg (rows.map RequestRow.ttfbMs), avg (rows.map RequestRow.totalMs), total)
  else .error .outOfRange

end Db

end FrontierSim
