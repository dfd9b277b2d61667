import FrontierSim.Proofs.Reports
import Mathlib.Algebra.BigOperators.Group.List.Basic

/-!
# `FrontierSim.Proofs.Summary`: the summary, the connection registry and the trace

`Tallied` reads every counter of the shared state off the commits. The connection registry
has one record per connection, so a commit adds to one record (`sum_touchConnection`), and
the records add up to the totals. A chunk is completed by one commit at most, so the
completed set has as many elements as there are such commits (`card_completed`).

`summary_agrees` puts this together with the reports in the trace. A thread stops in one of
two ways: it leaves its loop, or it panics. With chunks whose ranges have a `u64` length, only a
page size of zero makes it panic (`pageSize_of_panicked`), before it reports anything.
-/

set_option autoImplicit false

namespace FrontierSim

open Lib

variable {heap : ChunkHeap} {config : ReactorConfig} {chunks : List ChunkRequest}
  {opening : RunStarted} {ok : System → Label → Prop} {s s' : System} {a : Label}

/-! ### The connection registry -/

/-- A sum over a list in which the elements with a property each gained `d`. -/
theorem sum_map_gain {α : Type} (p : α → Prop) [DecidablePred p] {g : α → Nat} {upd : α → α}
    {d : Nat} (hgain : ∀ x, g (upd x) = g x + d) (l : List α) :
    ((l.map fun x => if p x then upd x else x).map g).sum
      = (l.map g).sum + l.countP (fun x => p x) * d := by
  induction l with
  | nil => simp
  | cons x rest ih =>
    simp only [List.map_cons, List.sum_cons, ih]
    by_cases hx : p x
    · rw [if_pos hx, hgain, List.countP_cons_of_pos (by simpa using hx), Nat.succ_mul]
      omega
    · rw [if_neg hx, List.countP_cons_of_neg (by simpa using hx)]
      omega

/-- The registry has one record of each connection. -/
def DistinctIds (connections : List ConnectionRecord) : Prop :=
  (connections.map ConnectionRecord.connectionId).Nodup

/-- A connection of the registry has one record. -/
theorem countP_connection {connections : List ConnectionRecord} (h : DistinctIds connections)
    {k : Int} (hmem : ∃ conn ∈ connections, conn.connectionId = k) :
    connections.countP (fun conn => conn.connectionId = k) = 1 := by
  have hcount : (connections.map ConnectionRecord.connectionId).count k = 1 :=
    List.count_eq_one_of_mem h (List.mem_map.mpr hmem)
  rw [List.count, List.countP_map] at hcount
  rw [← hcount]
  exact List.countP_congr fun conn _ => by simp [Function.comp]

/-- The record after one more request over the connection. -/
def ConnectionRecord.used (conn : ConnectionRecord) (bytes tsNs : Nat) : ConnectionRecord :=
  { conn with
    lastUseNs := tsNs
    requestsCount := conn.requestsCount + 1
    bytesTotal := conn.bytesTotal + bytes }

/-- The registry in which the commit finds its record: the old one, with a new record at the
end when the connection was not there. -/
theorem touched_record (connections : List ConnectionRecord) (t : Transfer) (bytes tsNs : Nat) :
    ∃ registry : List ConnectionRecord,
      (registry = connections ∨ (∀ conn ∈ connections, conn.connectionId ≠ t.connId) ∧
        ∃ conn, conn.connectionId = t.connId ∧ conn.requestsCount = 0 ∧ conn.bytesTotal = 0 ∧
          registry = connections ++ [conn]) ∧
      (∃ conn ∈ registry, conn.connectionId = t.connId) ∧
      SharedState.touchConnection connections t bytes tsNs
        = registry.map fun conn =>
            if conn.connectionId = t.connId then conn.used bytes tsNs else conn := by
  unfold SharedState.touchConnection
  by_cases hpresent : (connections.any fun conn => decide (conn.connectionId = t.connId)) = true
  · refine ⟨connections, Or.inl rfl, ?_, by simp only [if_pos hpresent]; rfl⟩
    simpa using List.any_eq_true.mp hpresent
  · refine ⟨_, Or.inr ⟨?_, ⟨t.connId, t.protocolStr, t.localEp, t.remoteEp, tsNs, tsNs, 0, 0⟩,
      rfl, rfl, rfl, rfl⟩, ⟨_, List.mem_append_right _ List.mem_cons_self, rfl⟩,
      by simp only [if_neg hpresent]; rfl⟩
    simpa using hpresent

/-- A commit counts for one record. -/
theorem sum_touchConnection {connections : List ConnectionRecord} (h : DistinctIds connections)
    (t : Transfer) (bytes tsNs : Nat) :
    DistinctIds (SharedState.touchConnection connections t bytes tsNs) ∧
    ((SharedState.touchConnection connections t bytes tsNs).map
      ConnectionRecord.requestsCount).sum
      = (connections.map ConnectionRecord.requestsCount).sum + 1 ∧
    ((SharedState.touchConnection connections t bytes tsNs).map ConnectionRecord.bytesTotal).sum
      = (connections.map ConnectionRecord.bytesTotal).sum + bytes := by
  obtain ⟨registry, hregistry, hmem, heq⟩ := touched_record connections t bytes tsNs
  -- A new record has a new id, and counts nothing yet.
  obtain ⟨hdistinct, hrequests, hbytes⟩ : DistinctIds registry ∧
      (registry.map ConnectionRecord.requestsCount).sum
        = (connections.map ConnectionRecord.requestsCount).sum ∧
      (registry.map ConnectionRecord.bytesTotal).sum
        = (connections.map ConnectionRecord.bytesTotal).sum := by
    rcases hregistry with rfl | ⟨hnew, conn, hid, hrequests, hbytes, rfl⟩
    · exact ⟨h, rfl, rfl⟩
    · refine ⟨?_, by simp [hrequests], by simp [hbytes]⟩
      rw [DistinctIds, List.map_append, List.map_singleton, hid]
      refine h.append (List.nodup_singleton _) ?_
      rw [List.disjoint_singleton]
      intro hold
      obtain ⟨conn', hconn', heq⟩ := List.mem_map.mp hold
      exact hnew conn' hconn' heq
  have hone := countP_connection hdistinct hmem
  rw [heq]
  refine ⟨?_, ?_, ?_⟩
  · -- The records keep their ids.
    rw [DistinctIds, List.map_map, ← List.map_congr_left (l := registry)]
    · exact hdistinct
    · intro conn _
      simp only [Function.comp]
      split <;> rfl
  · rw [sum_map_gain _ (fun _ => rfl), hone, hrequests, Nat.one_mul]
  · rw [sum_map_gain _ (fun _ => rfl), hone, hbytes, Nat.one_mul]

/-! ### The counters -/

/-- The counters of the shared state, read off the commits. -/
structure Tallied (s : System) : Prop where
  totalRequests : s.shared.totalRequests = s.commits.length
  totalBytes : s.shared.totalBytes = (s.commits.map fun c => c.note.transfer.bodyBytes).sum
  retriedChunks : s.shared.retriedChunks = s.commits.countP fun c => !c.fate.isFinal
  distinct : DistinctIds s.shared.connections
  requestsCount : (s.shared.connections.map ConnectionRecord.requestsCount).sum
    = s.shared.totalRequests
  bytesTotal : (s.shared.connections.map ConnectionRecord.bytesTotal).sum = s.shared.totalBytes

/-- The fate of the chunk has no say in the totals and in the registry. -/
theorem applyFate_totals (st : SharedState) (heap : ChunkHeap) (id : Nat)
    (fate : Fate PrioritizedChunk) :
    (st.applyFate heap id fate).totalRequests = st.totalRequests ∧
    (st.applyFate heap id fate).totalBytes = st.totalBytes ∧
    (st.applyFate heap id fate).connections = st.connections ∧
    (st.applyFate heap id fate).retriedChunks
      = st.retriedChunks + if fate.isFinal then 0 else 1 := by
  cases fate <;> exact ⟨rfl, rfl, rfl, rfl⟩

/-- One step keeps the counters. Only the commit section touches them, and it counts one request,
its bytes and its connection. -/
theorem tallied_step (hworkers : ∀ w ∈ s.workers, w.Consistent config.pageSize)
    (hT : Tallied s) (hmoves : Moves heap config s a s') : Tallied s' := by
  rcases ledger_cases hmoves with ⟨i, w, req, t, bytes, isComplete, hw, -, hph, rfl⟩ |
    ⟨hcommits, queue, frontierByte, timeExpired, hshared⟩
  · obtain ⟨-, hphase⟩ := hworkers w (List.mem_of_getElem? hw)
    rw [hph] at hphase
    -- The byte count of the request is the length of the body.
    have hbody : bytes = t.bodyBytes := hphase.2.bytes
    obtain ⟨hdistinct, hcount, htotal⟩ :=
      sum_touchConnection hT.distinct t bytes s.now
    simp only [System.commit, SharedState.commit]
    generalize s.shared.commitFate config.pageSize req.chunk bytes isComplete s.now = fate
    obtain ⟨hrequests, hbytes, hconnections, hretried⟩ := applyFate_totals
      { s.shared with
        totalBytes := s.shared.totalBytes + bytes
        totalRequests := s.shared.totalRequests + 1
        connections := SharedState.touchConnection s.shared.connections t bytes s.now }
      heap req.chunk.chunkId fate
    constructor
    · rw [hrequests, hT.totalRequests, List.length_append, List.length_singleton]
    · rw [hbytes, hT.totalBytes, List.map_append, List.sum_append, List.map_singleton,
        List.sum_singleton, hbody]
    · rw [hretried, hT.retriedChunks, List.countP_append, List.countP_singleton]
      cases fate <;> rfl
    · rw [hconnections]
      exact hdistinct
    · rw [hconnections, hrequests, hcount, hT.requestsCount]
    · rw [hconnections, hbytes, htotal, hT.bytesTotal]
  · constructor
    · rw [hshared, hcommits]
      exact hT.totalRequests
    · rw [hshared, hcommits]
      exact hT.totalBytes
    · rw [hshared, hcommits]
      exact hT.retriedChunks
    · rw [hshared]
      exact hT.distinct
    · rw [hshared]
      exact hT.requestsCount
    · rw [hshared]
      exact hT.bytesTotal

/-- The counters are right in every reachable state. -/
theorem tallied_reachable (h : (benchmark opening heap config chunks).Reachable ok s) : Tallied s :=
  reachable_invariant_of (J := fun s => ∀ w ∈ s.workers, w.Consistent config.pageSize) h
    (fun _ h w hw => (consistent_reachable h w hw).1)
    ⟨rfl, rfl, rfl, List.nodup_nil, rfl, rfl⟩
    fun _ _ _ hJ _ hT _ hmoves => tallied_step hJ hT hmoves

/-! ### The outcomes -/

/-- The commits that completed a chunk. -/
theorem count_done (s : System) (id : Nat) :
    ((s.commits.filter fun c => c.fate.isDone).map fun c => c.item.chunkId).count id
      = (s.workQueue.commitsAt PrioritizedChunk.chunkId id).countP fun c => c.fate.isDone := by
  rw [List.count, List.countP_map, List.countP_filter, WorkQueue.commitsAt, List.countP_filter]
  refine List.countP_congr fun c _ => ?_
  simp [Function.comp, and_comm]

/-- A chunk is completed by one commit at most. -/
theorem count_done_le_one
    (hT : WorkQueue.Tracked PrioritizedChunk.chunkId (entries chunks) s.workQueue) (id : Nat) :
    ((s.commits.filter fun c => c.fate.isDone).map fun c => c.item.chunkId).count id ≤ 1 := by
  by_cases hmem : id ∈ (s.commits.filter fun c => c.fate.isDone).map fun c => c.item.chunkId
  · -- The chunk of a commit was planned, and its commits have one final one at most.
    obtain ⟨c, hc, rfl⟩ := List.mem_map.mp hmem
    obtain ⟨x, hx, hkey⟩ := hT.logged c (List.mem_of_mem_filter hc)
    have hplaces := hT.places hx
    rw [countP_isFinal, hkey] at hplaces
    rw [count_done]
    omega
  · rw [List.count_eq_zero_of_not_mem hmem]
    exact Nat.zero_le 1

/-- The completed set has an element for each commit that completed a chunk. -/
theorem card_completed (hB : Booked s)
    (hT : WorkQueue.Tracked PrioritizedChunk.chunkId (entries chunks) s.workQueue) :
    s.shared.completedChunks.card = s.commits.countP fun c => c.fate.isDone := by
  have hset : s.shared.completedChunks
      = ((s.commits.filter fun c => c.fate.isDone).map fun c => c.item.chunkId).toFinset := by
    ext id
    rw [hB.completed, List.mem_toFinset, List.mem_map]
    constructor
    · rintro ⟨c, hc, hdone, hid⟩
      exact ⟨c, List.mem_filter.mpr ⟨hc, hdone⟩, hid⟩
    · rintro ⟨c, hc, hid⟩
      obtain ⟨hc, hdone⟩ := List.mem_filter.mp hc
      exact ⟨c, hc, hdone, hid⟩
  rw [hset, List.toFinset_card_of_nodup (List.nodup_iff_count_le_one.mpr (count_done_le_one hT)),
    List.length_map, List.countP_eq_length_filter]

/-- The counters of the outcomes, and the registry, add up to the totals. -/
structure Summarized (st : SharedState) : Prop where
  outcomes : st.totalRequests = st.completedChunks.card + st.retriedChunks + st.failedChunks
  requests : st.totalRequests = (st.connections.map ConnectionRecord.requestsCount).sum
  bytes : st.totalBytes = (st.connections.map ConnectionRecord.bytesTotal).sum

/-- Each commit has one outcome, and each outcome its counter. -/
theorem summarized_of_tallied (hA : Tallied s) (hB : Booked s)
    (hT : WorkQueue.Tracked PrioritizedChunk.chunkId (entries chunks) s.workQueue) :
    Summarized s.shared where
  outcomes := by
    have hsplit := List.length_eq_countP_add_countP (fun c : ChunkCommit => c.fate.isFinal)
      (l := s.commits)
    have hfinal : s.commits.countP (fun c => c.fate.isFinal)
        = s.commits.countP (fun c => c.fate.isDone)
          + s.commits.countP (fun c => c.fate.isGivenUp) := countP_isFinal s.commits
    have hretried : s.commits.countP (fun c => decide (¬ c.fate.isFinal = true))
        = s.shared.retriedChunks := by
      rw [hA.retriedChunks]
      exact List.countP_congr fun c _ => by simp
    rw [hA.totalRequests, card_completed hB hT, hB.failed]
    omega
  requests := hA.requestsCount.symm
  bytes := hA.bytesTotal.symm

/-! ### The end of the workers -/

/-- The requests that the trace reports as finished. -/
def System.finished (s : System) : List RequestFinished :=
  s.events.sent.filterMap TraceEvent.finished?

/-- The descriptions of connections in the trace, in order. -/
def System.prereqs (s : System) : List RequestPrereq :=
  s.events.sent.filterMap TraceEvent.prereq?

/-- The trace holds one report of each kind for each request, and agrees with the counters. -/
structure Reported (s : System) : Prop where
  started : (s.started.map fun e => e.requestId).Perm (List.range' 1 s.shared.totalRequests)
  finished : (s.finished.map fun e => e.requestId).Perm (List.range' 1 s.shared.totalRequests)
  prereqs : (s.prereqs.map fun e => e.requestId).Perm (List.range' 1 s.shared.totalRequests)
  resumed : s.shared.retriedChunks = s.resumed.length
  bytes : s.shared.totalBytes = (s.finished.map fun e => e.totalBytes).sum

/-- The reports of this kind are the ends of the requests, with id and byte count. -/
theorem reports_finished (s : System) :
    s.reports TraceEvent.finishedBytes = s.finished.map fun e => (e.requestId, e.totalBytes) := by
  rw [System.finished, List.map_filterMap]
  rfl

/-- A thread panics in `reinit`, or in the computation of `expected`. -/
theorem fault_of_panicked (h : (benchmark opening heap config chunks).Reachable ok s) :
    ∀ w ∈ s.workers, ∀ req, w.phase = .panicked req →
      w.handler.pageSize = 0 ∨ req.chunk.expected = none := by
  refine workers_invariant
    (P := fun w => ∀ req, w.phase = .panicked req →
      w.handler.pageSize = 0 ∨ req.chunk.expected = none) h ?_ ?_
  · intro req hph
    cases hph
  · intro w w' hw hmoves req hph
    cases hmoves with
    | send => exact hw req hph
    | idle _ _ hloop => rcases hloop with rfl | rfl | rfl | rfl <;> cases hph
    | pop | assignId | perform | commit => cases hph
    | work _ hlocal =>
      cases hlocal with
      | panicBegin _ hzero => exact Or.inl hzero
      | panicReturn _ hexp =>
        cases hph
        exact Or.inr hexp
      | _ => cases hph

/-- The range of the chunk has a `u64` length. -/
def ChunkRequest.WellFormed (c : ChunkRequest) : Prop :=
  c.rangeStart ≤ c.rangeEnd ∧ c.rangeEnd - c.rangeStart + 1 < 2 ^ 64

/-- What is left of a well-formed range is one. -/
theorem expected_of_resumes {c : ChunkRequest} {y : PrioritizedChunk} {cs : List ChunkCommit}
    (hc : c.WellFormed) (h : Resumes c.entry y cs) : y.expected ≠ none := by
  obtain ⟨hle, hlt⟩ := hc
  have hstart : y.rangeStart = c.rangeStart + received cs := h.rangeStart
  have hend : y.rangeEnd = c.rangeEnd := h.rangeEnd
  have hyle : y.rangeStart ≤ y.rangeEnd := h.start_le hle
  rw [PrioritizedChunk.expected_eq_some.mpr ⟨hyle, by omega, rfl⟩]
  simp

/-- With `u64` ranges, only a zero page size makes a worker panic. -/
theorem pageSize_of_panicked (hids : (chunks.map ChunkRequest.chunkId).Nodup)
    (h : (benchmark opening heap config chunks).Reachable ok s)
    (hchunks : ∀ c ∈ chunks, c.WellFormed)
    {w : Worker} (hw : w ∈ s.workers) {req : Request} (hph : w.phase = .panicked req) :
    config.pageSize = 0 := by
  rcases fault_of_panicked h w hw req hph with hzero | hexp
  · rw [← (consistent_reachable h w hw).1.1, hzero]
  · obtain ⟨i, hi⟩ := List.mem_iff_getElem?.mp hw
    have hheld : w.held = some req.chunk := held_of_phase hph
    obtain ⟨c, hc, hresumes⟩ := resumes_of_held hids h hi hheld
    exact absurd hexp (expected_of_resumes (hchunks c hc) hresumes)

/-- Every thread has ended: it left its loop, or its page size was zero. -/
def Ended (pageSize : Nat) (s : System) : Prop :=
  ∀ w ∈ s.workers, w.phase = .exited ∨ pageSize = 0 ∧ ∃ req, w.phase = .panicked req

/-- For chunks with a range, a thread that has ended has left its loop, or it was stopped by a page
size of zero. -/
theorem ended_of_stopped (hids : (chunks.map ChunkRequest.chunkId).Nodup)
    (h : (benchmark opening heap config chunks).Reachable ok s)
    (hchunks : ∀ c ∈ chunks, c.WellFormed)
    (hstopped : ∀ w ∈ s.workers, w.phase.stopped = true) : Ended config.pageSize s := by
  intro w hw
  have hstop := hstopped w hw
  cases hph : w.phase with
  | exited => exact Or.inl rfl
  | panicked req => exact Or.inr ⟨pageSize_of_panicked hids h hchunks hw hph, req, rfl⟩
  | _ =>
    rw [hph] at hstop
    cases hstop

/-- The commits have the ids from 1 on. A zero page size lets no request get that far. -/
theorem ids_of_ended (h : (benchmark opening heap config chunks).Reachable ok s)
    (hended : Ended config.pageSize s) :
    (s.commits.map fun c => c.note.requestId).Perm (List.range' 1 s.commits.length) := by
  rcases Nat.eq_zero_or_pos config.pageSize with hzero | hpos
  · have hnil : s.commits = [] := by
      rw [List.eq_nil_iff_forall_not_mem]
      intro c hc
      have hpos := (decided_reachable h c hc).pageSize_pos
      omega
    rw [hnil]
    exact .refl _
  · refine issued_perm h fun w hw => ?_
    rcases hended w hw with hph | ⟨hzero, -⟩
    · rw [hph]
      rfl
    · omega

/-- When every thread has ended, no report is under way, and the trace has all of them. -/
theorem reported_of_ended (hids : (chunks.map ChunkRequest.chunkId).Nodup)
    (h : (benchmark opening heap config chunks).Reachable ok s) (hended : Ended config.pageSize s) :
    Reported s := by
  have hA := tallied_reachable h
  have hissued := ids_of_ended h hended
  rw [← hA.totalRequests] at hissued
  have hfinished := reports_perm (once_finished config.pageSize) h fun w hw => by
    rcases hended w hw with hph | ⟨-, req, hph⟩ <;> simp [Worker.sentFinished, hph]
  rw [reports_finished] at hfinished
  constructor
  · have hperm := reports_perm (once_started config.pageSize) h fun w hw => by
      have hsize := (consistent_reachable h w hw).1.1
      rcases hended w hw with hph | ⟨hzero, req, hph⟩
      · simp [Worker.announced, hph]
      · simp [Worker.announced, hph, hsize, hzero]
    rw [System.started, List.map_filterMap]
    exact hperm.trans hissued
  · have hperm := hfinished.map Prod.fst
    rw [List.map_map, System.reported, List.map_map] at hperm
    exact hperm.trans hissued
  · have hperm := reports_perm (once_prereq config.pageSize) h fun w hw => by
      rcases hended w hw with hph | ⟨-, req, hph⟩ <;> simp [Worker.sentPrereq, hph]
    rw [System.prereqs, List.map_filterMap]
    exact hperm.trans hissued
  · have hlength := (traced_reachable hids h).resumed.length_eq
    rw [hA.retriedChunks, ← hlength, List.countP_eq_length_filter]
  · have hperm := hfinished.map Prod.snd
    rw [List.map_map, System.reported, List.map_map] at hperm
    rw [hA.totalBytes]
    exact hperm.sum_eq.symm

/-! ### The result -/

/-- The result says what the shared state says. -/
structure Sums (r : ReactorResult) (st : SharedState) : Prop where
  totalBytes : r.totalBytes = st.totalBytes
  totalRequests : r.totalRequests = st.totalRequests
  totalConnections : r.totalConnections = st.connections.length
  connections : r.connections.Perm st.connections
  failedChunks : r.failedChunks = st.failedChunks
  retriedChunks : r.retriedChunks = st.retriedChunks

/-- A worker in its loop control has not ended. -/
theorem busy_of_idle {phase : Phase} (h : phase.idle = true) : phase.stopped = false := by
  cases phase <;> first | rfl | cases h

/-- A worker with an event to send has not ended. -/
theorem busy_of_pending {phase : Phase} {e : TraceEvent} (h : Pending phase e) :
    phase.stopped = false := by
  cases h <;> rfl

/-- A worker that acts has not ended. -/
theorem busy_of_local {w w' : Worker} {now : Nat} {delivery : Option Delivery}
    (h : LocalMoves w now w' delivery) : w.phase.stopped = false := by
  cases h <;> simp only [*, Phase.stopped]

/-- The result is taken when all workers have stopped, and nothing changes after that. -/
theorem sums_step (hfits : ∀ w ∈ s.workers, w.Fits)
    (hR : ∀ r ∈ s.result, (∀ w ∈ s.workers, w.phase.stopped = true) ∧ Sums r s.shared)
    (hmoves : Moves heap config s a s') :
    ∀ r ∈ s'.result, (∀ w ∈ s'.workers, w.phase.stopped = true) ∧ Sums r s'.shared := by
  intro r hr
  -- A worker that acts has not stopped, so there was no result.
  have hbusy : ∀ {w : Worker}, w ∈ s.workers → s'.result = s.result →
      w.phase.stopped = false → (∀ w ∈ s'.workers, w.phase.stopped = true) ∧ Sums r s'.shared := by
    intro w hw hresult hnot
    have hstopped := (hR r (hresult ▸ hr)).1 w hw
    exact absurd (hnot.symm.trans hstopped) (by decide)
  cases effect_of_moves hmoves with
  | tick | track | receive => exact hR r hr
  | store =>
    obtain ⟨hstopped, hsums⟩ := hR r hr
    exact ⟨hstopped, hsums.1, hsums.2, hsums.3, hsums.4, hsums.5, hsums.6⟩
  | join hnone hstopped hperm =>
    cases hr
    exact ⟨hstopped, rfl, rfl, rfl, hperm, rfl, rfl⟩
  | loop _ _ _ _ hw _ hidle => exact hbusy (List.mem_of_getElem? hw) rfl (busy_of_idle hidle)
  | send hw hout =>
    have hmem := List.mem_of_getElem? hw
    exact hbusy hmem rfl (busy_of_pending (hfits _ hmem _ hout))
  | assignId hw _ hph | commit hw _ hph | perform _ hw _ hph =>
    exact hbusy (List.mem_of_getElem? hw) rfl (by rw [hph]; rfl)
  | work hw _ hlocal => exact hbusy (List.mem_of_getElem? hw) rfl (busy_of_local hlocal)

/-- The result keeps to the shared state. It is made when all workers have ended, and after that no
worker changes the state. -/
theorem sums_reachable (h : (benchmark opening heap config chunks).Reachable ok s) :
    ∀ r ∈ s.result, Sums r s.shared := by
  have hinvariant : ∀ r ∈ s.result,
      (∀ w ∈ s.workers, w.phase.stopped = true) ∧ Sums r s.shared := by
    refine reachable_invariant_of (J := fun s => ∀ w ∈ s.workers, w.Fits)
      (P := fun s => ∀ r ∈ s.result,
        (∀ w ∈ s.workers, w.phase.stopped = true) ∧ Sums r s.shared) h
      (fun _ h w hw => (consistent_reachable h w hw).2) ?_
      fun _ _ _ hJ _ hR _ hmoves => sums_step hJ hR hmoves
    intro r hr
    cases hr
  exact fun r hr => (hinvariant r hr).2

/-- In every reachable state each request is counted as one outcome, and the registry adds up
to the totals. When the workers have stopped, the trace reports each of the requests
`1..total_requests` once as started, finished and described, and agrees with the counters. The
result takes over the counters. A chunk whose range has no `u64` length stops its worker between
two reports, so the trace part asks for chunks that have one, or for workers that all left their
loops. -/
theorem summary_agrees (hids : (chunks.map ChunkRequest.chunkId).Nodup)
    (h : (benchmark opening heap config chunks).Reachable TransitionSystem.any s) :
    Summarized s.shared ∧
    ((∀ c ∈ chunks, c.WellFormed) → (∀ w ∈ s.workers, w.phase.stopped = true) → Reported s) ∧
    ((∀ w ∈ s.workers, w.phase = .exited) → Reported s) ∧
    ∀ r ∈ s.result, Sums r s.shared := by
  refine ⟨?_, fun hchunks hstopped => ?_, fun hexited => ?_, sums_reachable h⟩
  · exact summarized_of_tallied (tallied_reachable h) (booked_reachable h)
      (tracked_reachable hids h)
  · exact reported_of_ended hids h (ended_of_stopped hids h hchunks hstopped)
  · exact reported_of_ended hids h fun w hw => Or.inl (hexited w hw)

/-- One worker fetches one page. Its first transfer ends after three of four bytes, and the
second one gets the last byte. -/
theorem summary_agrees_one_retry :
    ∃ s, (benchmark .plain .ofList (.unlimited 1 4) [⟨0, 0, 3, .urgent⟩]).Reachable
        TransitionSystem.any s ∧
      (s.shared.totalRequests = 2 ∧ s.shared.retriedChunks = 1) ∧
      Summarized s.shared ∧ Reported s ∧ ∃ r, s.result = some r ∧ Sums r s.shared := by
  obtain ⟨s, hs, hstopped, hresult, hcounts⟩ := TransitionSystem.exists_reachable_of_run
    (benchmark .plain .ofList (.unlimited 1 4) [⟨0, 0, 3, .urgent⟩]) TransitionSystem.any
    ([.advance 0, .pop 0 []] ++ Label.advances 0 3 ++
      [.perform 0 (.ofCallbacks [.write 3])] ++ Label.advances 0 10 ++
      [.tick 500000000, .pop 0 []] ++ Label.advances 0 3 ++
      [.perform 0 (.ofCallbacks [.write 1])] ++ Label.advances 0 10 ++ [.pop 0 []] ++
      Label.advances 0 1 ++ [.join [⟨0, "https/1.1", "", "", 0, 500000000, 2, 4⟩]])
    (P := fun s => (∀ w ∈ s.workers, w.phase.stopped = true) ∧ s.result.isSome = true ∧
      s.shared.totalRequests = 2 ∧ s.shared.retriedChunks = 1) (by decide)
  obtain ⟨r, hr⟩ := Option.isSome_iff_exists.mp hresult
  obtain ⟨hsummarized, hreported, -, hsums⟩ := summary_agrees (by decide) hs
  have hchunks : ∀ c ∈ [⟨0, 0, 3, .urgent⟩], ChunkRequest.WellFormed c := by
    simp [ChunkRequest.WellFormed]
  exact ⟨s, hs, hcounts, hsummarized, hreported hchunks hstopped, r, hr, hsums r hr⟩

end FrontierSim
