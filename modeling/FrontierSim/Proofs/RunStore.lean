import FrontierSim.Cli.Store
import Mathlib.Data.List.Sublists

/-!
# `FrontierSim.Proofs.RunStore`: runs that are stored at the same time

What the database holds for one run id is its *slice*: the row of the run and the rows of its
connections. A call changes the slice of its own id only (`slice_attempt`). So a benchmark whose
id nobody else has owns its slice, and what the others do to the database does not matter.

`benchmarks_stored` is about any number of benchmarks that store their runs in any interleaving,
with calls that fail at any point. A run is missing, pending or finished, and never made of two
runs. Its connections are in their order, and with foreign keys there are none without the run.
-/

set_option autoImplicit false

namespace FrontierSim

open Lib

/-! ### Slices -/

/-- What the database holds for a run id. -/
abbrev Slice := Option RunRow × List ConnectionRow

namespace Db

/-- The row of the run with this id. -/
def row? (db : Db) (id : String) : Option RunRow := db.runs.find? fun row => row.runId == id

/-- The rows of the connections of this run, in the order of their insertion. -/
def connectionsOf (db : Db) (id : String) : List ConnectionRow :=
  db.connections.filter fun row => row.runId = id

/-- What the database holds for the id. A call of another run leaves it alone. -/
def slice (db : Db) (id : String) : Slice := (db.row? id, db.connectionsOf id)

end Db

/-- The row that the insert puts into the table. -/
def pendingRow (runId assetKey provider : String) (startedAt : Int) (configJson : String) :
    RunRow where
  runId := runId
  assetKey := assetKey
  provider := provider
  startedAt := startedAt
  finishedAt := none
  configJson := configJson
  envelopeJson := none
  summaryJson := none

/-- The row after the end of the run was stored. -/
def RunRow.finish (row : RunRow) (finishedAt : Int) (envelopeJson summaryJson : String) : RunRow :=
  { row with
    finishedAt := some finishedAt
    envelopeJson := some envelopeJson
    summaryJson := some summaryJson }

/-- The row that a benchmark stores for a connection. -/
def ConnectionRecord.row (conn : ConnectionRecord) (runId : String) : ConnectionRow where
  runId := runId
  connectionId := conn.connectionId
  protocol := conn.protocol
  localEndpoint := conn.localEndpoint
  remoteEndpoint := conn.remoteEndpoint
  firstUseMs := msOfNsExact conn.firstUseNs
  lastUseMs := msOfNsExact conn.lastUseNs
  requestCount := conn.requestsCount
  totalBytes := asI64 conn.bytesTotal

/-- The id that a call is about. -/
def StoreCall.id : StoreCall → String
  | .insertRun runId .. | .finishRun runId .. | .insertConnection runId _ => runId

/-- What a call does to the slice of its id. -/
def StoreCall.onSlice (foreignKeys : Bool) (slice : Slice) : StoreCall → Slice
  | .insertRun runId assetKey provider startedAt configJson =>
    (slice.1.or (some (pendingRow runId assetKey provider startedAt configJson)), slice.2)
  | .finishRun _ finishedAt envelopeJson summaryJson =>
    (slice.1.map fun row => row.finish finishedAt envelopeJson summaryJson, slice.2)
  | .insertConnection runId conn =>
    (slice.1, if foreignKeys && !slice.1.isSome then slice.2 else slice.2 ++ [conn.row runId])

variable {foreignKeys : Bool} {db : Db} {id : String} {call : StoreCall}

/-- A run has a row when one is found for it. -/
theorem hasRun_eq (db : Db) (id : String) : db.hasRun id = (db.row? id).isSome := by
  rw [Db.hasRun, Db.row?, List.isSome_find?]

/-- The row that is found for an id has this id. -/
theorem runId_of_row {row : RunRow} (h : db.row? id = some row) : row.runId = id := by
  simpa using List.find?_some h

/-- An update that keeps the ids. -/
theorem find?_map_runId {f : RunRow → RunRow} (hf : ∀ row, (f row).runId = row.runId)
    (runs : List RunRow) (id : String) :
    (runs.map f).find? (fun row => row.runId == id)
      = (runs.find? fun row => row.runId == id).map f := by
  rw [List.find?_map]
  congr 2
  funext row
  simp [hf]

/-- Inserting a run adds a pending row, or fails on an id that is there already and changes
nothing. -/
theorem attempt_insertRun (foreignKeys : Bool) (db : Db) (runId assetKey provider : String)
    (startedAt : Int) (configJson : String) :
    db.attempt foreignKeys (.insertRun runId assetKey provider startedAt configJson)
      = if (db.row? runId).isSome then db
        else { db with
          runs := db.runs ++ [pendingRow runId assetKey provider startedAt configJson] } := by
  rw [← hasRun_eq, Db.attempt, Db.execute, Db.insertRun]
  cases db.hasRun runId <;> rfl

/-- Inserting a connection adds its row. With foreign keys it fails for a run that is not there. -/
theorem attempt_insertConnection (foreignKeys : Bool) (db : Db) (runId : String)
    (conn : ConnectionRecord) :
    db.attempt foreignKeys (.insertConnection runId conn)
      = if foreignKeys && !(db.row? runId).isSome then db
        else { db with connections := db.connections ++ [conn.row runId] } := by
  rw [← hasRun_eq, Db.attempt, Db.execute, Db.insertConnection]
  cases foreignKeys && !db.hasRun runId <;> rfl

/-- What a call does to its own slice. -/
theorem slice_attempt_own (foreignKeys : Bool) (db : Db) (call : StoreCall) :
    (db.attempt foreignKeys call).slice call.id
      = call.onSlice foreignKeys (db.slice call.id) := by
  cases call with
  | insertRun runId assetKey provider startedAt configJson =>
    rw [attempt_insertRun]
    show _ = ((db.row? runId).or _, db.connectionsOf runId)
    cases hrow : db.row? runId with
    | some row => exact Prod.ext hrow rfl
    | none =>
      have hnone : db.runs.find? (fun row => row.runId == runId) = none := hrow
      refine Prod.ext ?_ rfl
      show (db.runs ++ [pendingRow runId assetKey provider startedAt configJson]).find?
        (fun row => row.runId == runId) = _
      simp [List.find?_append, hnone, pendingRow]
  | finishRun runId finishedAt envelopeJson summaryJson =>
    have hrow := find?_map_runId (f := fun row => if row.runId = runId then
      row.finish finishedAt envelopeJson summaryJson else row)
      (fun row => by split <;> rfl) db.runs runId
    refine Prod.ext (hrow.trans ?_) rfl
    show (db.row? runId).map _ = (db.row? runId).map _
    refine Option.map_congr fun row hfound => ?_
    rw [if_pos (runId_of_row hfound)]
  | insertConnection runId conn =>
    rw [attempt_insertConnection]
    show _ = (db.row? runId, if foreignKeys && !(db.row? runId).isSome then _ else _)
    by_cases hreject : (foreignKeys && !(db.row? runId).isSome) = true
    · rw [if_pos hreject, if_pos hreject]
      rfl
    · rw [if_neg hreject, if_neg hreject]
      simp [Db.slice, Db.row?, Db.connectionsOf, ConnectionRecord.row, StoreCall.id]

/-- A call leaves the other slices alone. -/
theorem slice_attempt_other (foreignKeys : Bool) (db : Db) (hid : call.id ≠ id) :
    (db.attempt foreignKeys call).slice id = db.slice id := by
  cases call with
  | insertRun runId assetKey provider startedAt configJson =>
    rw [attempt_insertRun]
    split
    · rfl
    · have hrun : runId ≠ id := hid
      simp [Db.slice, Db.row?, Db.connectionsOf, List.find?_append, pendingRow, hrun]
  | finishRun runId finishedAt envelopeJson summaryJson =>
    have hrow := find?_map_runId (f := fun row => if row.runId = runId then
      row.finish finishedAt envelopeJson summaryJson else row)
      (fun row => by split <;> rfl) db.runs id
    refine Prod.ext (hrow.trans ?_) rfl
    show (db.row? id).map _ = db.row? id
    refine (Option.map_congr fun row hfound => ?_).trans Option.map_id'
    rw [if_neg]
    rw [runId_of_row hfound]
    exact Ne.symm hid
  | insertConnection runId conn =>
    rw [attempt_insertConnection]
    split
    · rfl
    · have hrun : runId ≠ id := hid
      simp [Db.slice, Db.row?, Db.connectionsOf, ConnectionRecord.row, hrun]

/-! ### Scripts -/

/-- The calls of one benchmark are about its own id. -/
theorem id_of_mem_calls {b : BenchmarkRecord} (h : call ∈ b.calls) : call.id = b.runId := by
  rcases List.mem_cons.mp h with rfl | h
  · rfl
  rcases List.mem_cons.mp h with rfl | h
  · rfl
  obtain ⟨conn, -, rfl⟩ := List.mem_map.mp h
  rfl

/-- Two benchmarks with the same run id started in the same millisecond. -/
theorem runId_injective {b b' : BenchmarkRecord} (h : b.runId = b'.runId) :
    b.startMs = b'.startMs := by
  have hlist := congrArg String.toList h
  simp only [BenchmarkRecord.runId, String.toList_append, String.toList_ofList] at hlist
  exact Text.decimal_injective (List.append_cancel_left hlist)

/-- The row of a benchmark that was inserted and not completed. -/
def BenchmarkRecord.pending (b : BenchmarkRecord) : RunRow :=
  pendingRow b.runId b.assetKey "" b.startedAtMs b.configJson

/-- The row of the run when all calls got through. -/
def BenchmarkRecord.finished (b : BenchmarkRecord) : RunRow :=
  b.pending.finish b.startedAtMs b.envelopeJson b.summaryJson

/-- The rows of all connections of the benchmark. -/
def BenchmarkRecord.connectionRows (b : BenchmarkRecord) : List ConnectionRow :=
  b.connections.map fun conn => conn.row b.runId

/-- What may be stored of a benchmark. -/
structure StoredRun (foreignKeys : Bool) (b : BenchmarkRecord) (slice : Slice) : Prop where
  run : slice.1 = none ∨ slice.1 = some b.pending ∨ slice.1 = some b.finished
  connections : slice.2.Sublist b.connectionRows
  attached : foreignKeys = true → slice.2 ≠ [] → slice.1 ≠ none

/-- The connections of a run, one call after the other. -/
theorem foldl_connections (foreignKeys : Bool) (runId : String) (conns : List ConnectionRecord)
    (slice : Slice) :
    (conns.map (StoreCall.insertConnection runId)).foldl (StoreCall.onSlice foreignKeys) slice
      = (slice.1, if foreignKeys && !slice.1.isSome then slice.2
          else slice.2 ++ conns.map fun conn => conn.row runId) := by
  induction conns generalizing slice with
  | nil => cases foreignKeys && !slice.1.isSome <;> simp
  | cons conn rest ih =>
    have hconn : StoreCall.onSlice foreignKeys slice (.insertConnection runId conn) = (slice.1,
        if foreignKeys && !slice.1.isSome then slice.2 else slice.2 ++ [conn.row runId]) := rfl
    rw [List.map_cons, List.foldl_cons, ih, hconn]
    cases foreignKeys && !slice.1.isSome <;> simp

/-- Connections that reach the database after the run. -/
theorem storedRun_connections {b : BenchmarkRecord} {ops : List StoreCall} {row : Option RunRow}
    (hops : ops.Sublist (b.connections.map (.insertConnection b.runId)))
    (hrow : row = none ∨ row = some b.pending ∨ row = some b.finished) :
    StoredRun foreignKeys b (ops.foldl (StoreCall.onSlice foreignKeys) (row, [])) := by
  obtain ⟨conns, hconns, rfl⟩ := List.sublist_map_iff.mp hops
  rw [foldl_connections]
  cases hreject : foreignKeys && !row.isSome with
  | true => exact ⟨hrow, List.nil_sublist _, fun _ hne => absurd rfl hne⟩
  | false =>
    refine ⟨hrow, hconns.map _, fun hkeys _ hnone => ?_⟩
    have hnone : row = none := hnone
    rw [hkeys, hnone] at hreject
    cases hreject

/-- Any part of the calls, in their order. -/
theorem storedRun_of_sublist {b : BenchmarkRecord} {ops : List StoreCall}
    (hops : ops.Sublist b.calls) :
    StoredRun foreignKeys b (ops.foldl (StoreCall.onSlice foreignKeys) (none, [])) := by
  rcases List.sublist_cons_iff.mp hops with hrest | ⟨rest, rfl, hrest⟩
  · rcases List.sublist_cons_iff.mp hrest with hconns | ⟨conns, rfl, hconns⟩
    · exact storedRun_connections hconns (Or.inl rfl)
    · -- The completion finds no run.
      show StoredRun foreignKeys b (conns.foldl (StoreCall.onSlice foreignKeys) (none, []))
      exact storedRun_connections hconns (Or.inl rfl)
  · rcases List.sublist_cons_iff.mp hrest with hconns | ⟨conns, rfl, hconns⟩
    · show StoredRun foreignKeys b
        (rest.foldl (StoreCall.onSlice foreignKeys) (some b.pending, []))
      exact storedRun_connections hconns (Or.inr (Or.inl rfl))
    · show StoredRun foreignKeys b
        (conns.foldl (StoreCall.onSlice foreignKeys) (some b.finished, []))
      exact storedRun_connections hconns (Or.inr (Or.inr rfl))

/-- All calls. -/
theorem foldl_calls (foreignKeys : Bool) (b : BenchmarkRecord) :
    b.calls.foldl (StoreCall.onSlice foreignKeys) (none, [])
      = (some b.finished, b.connectionRows) := by
  refine (foldl_connections foreignKeys b.runId b.connections (some b.finished, [])).trans ?_
  simp [BenchmarkRecord.connectionRows]

/-! ### The table of the runs -/

/-- A call keeps the run ids distinct. -/
theorem nodup_attempt (foreignKeys : Bool) (db : Db) (call : StoreCall)
    (h : (db.runs.map RunRow.runId).Nodup) :
    ((db.attempt foreignKeys call).runs.map RunRow.runId).Nodup := by
  cases call with
  | insertRun runId assetKey provider startedAt configJson =>
    rw [attempt_insertRun]
    split
    · exact h
    · rename_i hnone
      show ((db.runs ++ [_]).map RunRow.runId).Nodup
      rw [List.map_append, List.map_singleton]
      refine h.append (List.nodup_singleton _) (List.disjoint_singleton.mpr fun hmem => ?_)
      obtain ⟨row, hrow, hid⟩ := List.mem_map.mp hmem
      have hsome : (db.row? runId).isSome = true := by
        rw [← hasRun_eq, Db.hasRun, List.any_eq_true]
        exact ⟨row, hrow, beq_iff_eq.mpr hid⟩
      exact hnone hsome
  | finishRun runId finishedAt envelopeJson summaryJson =>
    have hids : (db.attempt foreignKeys (.finishRun runId finishedAt envelopeJson
        summaryJson)).runs.map RunRow.runId = db.runs.map RunRow.runId := by
      show (db.runs.map _).map _ = _
      rw [List.map_map]
      refine List.map_congr_left fun row _ => ?_
      simp only [Function.comp]
      split <;> rfl
    rwa [hids]
  | insertConnection runId conn =>
    rw [attempt_insertConnection]
    split <;> exact h

/-- A call leaves the requests alone. -/
theorem requests_attempt (foreignKeys : Bool) (db : Db) (call : StoreCall) :
    (db.attempt foreignKeys call).requests = db.requests := by
  cases call with
  | insertRun =>
    rw [attempt_insertRun]
    split <;> rfl
  | finishRun => rfl
  | insertConnection =>
    rw [attempt_insertConnection]
    split <;> rfl

/-- The statistics of a run without requests. -/
theorem getRequestStats_of_none (hnone : ∀ row ∈ db.requests, row.runId ≠ id) :
    db.getRequestStats id = .ok (0, 0, 0, 0) := by
  have hrows : db.requests.filter (fun row => row.runId == id) = [] := by
    rw [List.filter_eq_nil_iff]
    intro row hrow
    simpa using hnone row hrow
  simp only [Db.getRequestStats, hrows]
  rfl

/-- The query for a run sees its slice only. -/
theorem getRun_eq (db : Db) (id : String) : db.getRun id = (db.slice id).1.map RunRow.record := rfl

/-- The list of the runs, when no id occurs twice: each run once, the latest first. -/
structure Listed (db : Db) (runs : List RunRecord) : Prop where
  ordered : runs.Pairwise fun a b => b.startedAt ≤ a.startedAt
  distinct : (runs.map RunRecord.runId).Nodup
  shown : ∀ r, r ∈ runs ↔ db.getRun r.runId = some r

/-- Where no id occurs twice, the list shows each run once, as the query for it does. -/
theorem listed_listRuns (h : (db.runs.map RunRow.runId).Nodup) (order : RunOrder) :
    Listed db (db.listRuns order) := by
  have hperm := order.perm db.runs
  have hids : (db.listRuns order).map RunRecord.runId = (order.sort db.runs).map RunRow.runId := by
    rw [Db.listRuns, List.map_map]
    rfl
  constructor
  case ordered => exact List.pairwise_map.mpr (order.sorted db.runs)
  case distinct =>
    rw [hids]
    exact (hperm.map RunRow.runId).nodup_iff.mpr h
  case shown =>
    intro r
    constructor
    · intro hr
      obtain ⟨row, hrow, rfl⟩ := List.mem_map.mp hr
      have hmem := hperm.mem_iff.mp hrow
      -- The first row with the id is the only one.
      show (db.row? row.runId).map RunRow.record = _
      cases hfound : db.row? row.runId with
      | none =>
        rw [Db.row?, List.find?_eq_none] at hfound
        exact absurd BEq.rfl (hfound row hmem)
      | some row' =>
        have heq : row' = row := List.inj_on_of_nodup_map h (List.mem_of_find?_eq_some hfound) hmem
          (runId_of_row hfound)
        rw [heq]
        rfl
    · intro hr
      obtain ⟨row, hrow, heq⟩ := Option.map_eq_some_iff.mp hr
      exact List.mem_map.mpr ⟨row, hperm.mem_iff.mpr (List.mem_of_find?_eq_some hrow), heq⟩

/-! ### The processes -/

/-- What the database holds while the benchmarks `records` store their runs. Before, it was
`db`. -/
structure KeepsRuns (foreignKeys : Bool) (db : Db) (records : List BenchmarkRecord)
    (s : Shared Db StoreCall) : Prop where
  stored : ∀ b ∈ records, StoredRun foreignKeys b (s.store.slice b.runId)
  /-- When no call of the benchmark is lost, its run is there with all connections. -/
  complete : ∀ (i : Nat) b, records[i]? = some b → s.logOf i = b.calls →
    s.store.getRun b.runId = some b.finished.record ∧
      s.store.connectionsOf b.runId = b.connectionRows
  others : ∀ id, (∀ b ∈ records, b.runId ≠ id) → s.store.slice id = db.slice id
  requests : s.store.requests = db.requests
  /-- Nobody stores requests, so none are counted for the runs. -/
  stats : ∀ b ∈ records, (∀ row ∈ db.requests, row.runId ≠ b.runId) →
    s.store.getRequestStats b.runId = .ok (0, 0, 0, 0)
  listed : ∀ order, Listed s.store (s.store.listRuns order)

section Processes
variable {records : List BenchmarkRecord} {s : Shared Db StoreCall}
  {ok : Shared Db StoreCall → Nat × Bool → Prop}

/-- The slice of an id, after a call of anyone. -/
def StoreCall.step (foreignKeys : Bool) (id : String) (slice : Slice) (call : StoreCall) : Slice :=
  if call.id = id then call.onSlice foreignKeys slice else slice

/-- A call changes the slice of its own run, and depends on this slice only. -/
theorem slice_step (foreignKeys : Bool) (id : String) (db : Db) (call : StoreCall) :
    (db.attempt foreignKeys call).slice id = call.step foreignKeys id (db.slice id) := by
  unfold StoreCall.step
  by_cases hid : call.id = id
  · subst hid
    rw [if_pos rfl, slice_attempt_own]
  · rw [if_neg hid, slice_attempt_other foreignKeys db hid]

/-- A call in the log is about the id of its process. -/
theorem exists_record_of_mem_log
    (h : (benchmarks foreignKeys db records).Reachable ok s) {i : Nat} (hmem : (i, call) ∈ s.log) :
    ∃ b, records[i]? = some b ∧ call.id = b.runId := by
  obtain ⟨script, hi, hcall⟩ := Shared.mem_script_of_mem_log h hmem
  rw [List.getElem?_map] at hi
  obtain ⟨b, hb, rfl⟩ := Option.map_eq_some_iff.mp hi
  exact ⟨b, hb, id_of_mem_calls hcall⟩

/-- A benchmark owns the slice of its id: only its own calls count. -/
theorem slice_of_process (hstart : (records.map BenchmarkRecord.startMs).Nodup)
    (h : (benchmarks foreignKeys db records).Reachable ok s) {i : Nat} {b : BenchmarkRecord}
    (hi : records[i]? = some b) :
    s.store.slice b.runId
      = (s.logOf i).foldl (StoreCall.onSlice foreignKeys) (db.slice b.runId) := by
  rw [Shared.view_eq (fun db : Db => db.slice b.runId) (StoreCall.step foreignKeys b.runId)
    (slice_step foreignKeys b.runId) h]
  · refine List.foldl_ext _ _ _ fun slice call hcall => ?_
    obtain ⟨e, he, rfl⟩ := List.mem_map.mp hcall
    obtain ⟨he, hei⟩ := List.mem_filter.mp he
    obtain ⟨b', hb', hid⟩ := exists_record_of_mem_log h he
    have hown : e.1 = i := by simpa using hei
    rw [hown, hi] at hb'
    obtain rfl := Option.some.inj hb'
    exact if_pos hid
  · -- The calls of the others have other ids.
    intro e he hne slice
    obtain ⟨b', hb', hid⟩ := exists_record_of_mem_log h he
    refine if_neg fun heq => hne ?_
    have hsame : (records.map BenchmarkRecord.startMs)[e.1]?
        = (records.map BenchmarkRecord.startMs)[i]? := by
      rw [List.getElem?_map, List.getElem?_map, hb', hi, Option.map_some, Option.map_some,
        runId_injective (hid.symm.trans heq)]
    have hlt := (List.getElem?_eq_some_iff.mp hb').1
    exact (List.getElem?_inj (by rwa [List.length_map]) hstart).mp hsame

/-- Benchmarks that start in different milliseconds and store their runs in any interleaving,
with calls that are lost at any point. A run is missing, pending or finished, with the data of its
own benchmark only. Its connections are a part of the benchmark's, in their order. What was in
the database before stays. -/
theorem benchmarks_stored (hids : (db.runs.map RunRow.runId).Nodup)
    (hstart : (records.map BenchmarkRecord.startMs).Nodup)
    (hfresh : ∀ b ∈ records, db.slice b.runId = (none, []))
    (h : (benchmarks foreignKeys db records).Reachable TransitionSystem.any s) :
    KeepsRuns foreignKeys db records s := by
  have hrequests : s.store.requests = db.requests :=
    Shared.store_invariant (P := fun st => st.requests = db.requests) h rfl
      fun st call hst => (requests_attempt foreignKeys st call).trans hst
  constructor
  case stored =>
    intro b hb
    obtain ⟨i, hi⟩ := List.mem_iff_getElem?.mp hb
    have hscript : (records.map BenchmarkRecord.calls)[i]? = some b.calls := by
      rw [List.getElem?_map, hi, Option.map_some]
    obtain ⟨done, left, -, hcalls, hsub⟩ := Shared.logOf_sublist h hscript
    rw [slice_of_process hstart h hi, hfresh b hb]
    exact storedRun_of_sublist (hsub.trans (hcalls ▸ List.sublist_append_left done left))
  case complete =>
    intro i b hi hlog
    have hslice : s.store.slice b.runId = (some b.finished, b.connectionRows) := by
      rw [slice_of_process hstart h hi, hfresh b (List.mem_of_getElem? hi), hlog, foldl_calls]
    refine ⟨?_, congrArg Prod.snd hslice⟩
    rw [getRun_eq, hslice]
    rfl
  case others =>
    intro id hother
    refine Shared.view_same (fun db : Db => db.slice id) (StoreCall.step foreignKeys id)
      (slice_step foreignKeys id) h fun e he slice => ?_
    obtain ⟨b, hb, hid⟩ := exists_record_of_mem_log h he
    exact if_neg fun heq => hother b (List.mem_of_getElem? hb) (hid.symm.trans heq)
  case requests => exact hrequests
  case stats =>
    intro b _ hnone
    exact getRequestStats_of_none (hrequests ▸ hnone)
  case listed =>
    exact listed_listRuns (Shared.store_invariant (P := fun st => (st.runs.map RunRow.runId).Nodup)
      h hids fun st call hst => nodup_attempt foreignKeys st call hst)

end Processes

/-- Two benchmarks on an empty database. The first one loses its completion. -/
def twoRecords : List BenchmarkRecord :=
  [⟨1000, "https://host/a", 2000, "{}", "{}", "{}", [⟨0, "https/2", "l", "r", 5, 9, 1, 100⟩]⟩,
    ⟨1001, "https://host/b", 2001, "{}", "{}", "{}", []⟩]

/-- Two benchmarks, of which one loses the call that would finish its run. -/
theorem benchmarks_stored_lost_completion :
    ∃ s, (benchmarks true .empty twoRecords).Reachable TransitionSystem.any s ∧
      s.log.length = 4 ∧ KeepsRuns true .empty twoRecords s := by
  obtain ⟨s, hs, hlog⟩ := TransitionSystem.exists_reachable_of_run
    (benchmarks true .empty twoRecords) TransitionSystem.any
    [(0, true), (1, true), (0, false), (1, true), (0, true)] (P := fun s => s.log.length = 4)
    (by decide)
  exact ⟨s, hs, hlog, benchmarks_stored (by decide) (by decide) (fun _ _ => rfl) hs⟩

end FrontierSim
