import FrontierSim.Lib.Grouping
import FrontierSim.Proofs.Completeness
import FrontierSim.Proofs.Settling

/-!
# `FrontierSim.Proofs.EndToEnd`: a file that is served arrives

A server may break off nine of the ten attempts for a chunk wherever it likes. When it answers
the last one in full (`ServedInTime`), every fair run without a deadline comes to its end with
the whole file, and every byte of it was transferred once (`served_file_arrives`).

The frontier reaches every full page of the file. It reaches the end of a last page that is cut
off when nothing was retried. After a retry it may not (`frontier_complete_iff`).
-/

set_option autoImplicit false

namespace FrontierSim

open Lib

/-- An answer is no longer than the request, and the one to the last attempt has its length. -/
def ServedInTime (chunk : PrioritizedChunk) (t : Transfer) : Prop :=
  AtMostRequested chunk t ∧
    (MAX_ATTEMPTS ≤ chunk.nextAttempt → t.bodyBytes = chunk.rangeEnd - chunk.rangeStart + 1)

/-- It can be checked whether an answer serves its request. -/
instance (chunk : PrioritizedChunk) (t : Transfer) : Decidable (ServedInTime chunk t) :=
  inferInstanceAs (Decidable (_ ∧ _))

/-- The file offsets that a chunk asks for. -/
def ChunkRequest.bytes (c : ChunkRequest) : List Nat :=
  List.range' c.rangeStart (c.rangeEnd - c.rangeStart + 1)

/-- The file offsets that arrived, in order of arrival. -/
def System.arrived (s : System) : List Nat :=
  s.delivered.flatMap fun d => List.range' d.offset d.len

variable {heap : ChunkHeap} {config : ReactorConfig} {chunks : List ChunkRequest}
  {opening : RunStarted} {ok : System → Label → Prop} {s : System} {c : ChunkRequest}

/-! ### The plan -/

section Plan
variable {downloadSize urgentChunkSize prefetchChunkSize : Nat}

/-- The chunks from `offset` on lie one behind the other, inside the file. -/
theorem planFrom_bytes (hurgent : 0 < urgentChunkSize) (hprefetch : 0 < prefetchChunkSize)
    {urgentBoundary room offset chunkId : Nat}
    (hplan : planFrom downloadSize urgentChunkSize prefetchChunkSize urgentBoundary room offset
      chunkId = some chunks) :
    ∃ n, chunks.flatMap ChunkRequest.bytes = List.range' offset n ∧
      (n = 0 ∨ offset + n ≤ downloadSize) := by
  induction room generalizing offset chunkId chunks with
  | zero =>
    cases hplan
    exact ⟨0, rfl, Or.inl rfl⟩
  | succ room ih =>
    by_cases hlt : offset < downloadSize
    · obtain ⟨c, rest, rfl, -, hstart, hend, hrest⟩ := planFrom_succ hlt hplan
      obtain ⟨hpos, -⟩ := chunkShape_spec hurgent (one_dvd _) hprefetch (one_dvd _)
        urgentBoundary offset
      obtain ⟨n, hbytes, hn⟩ := ih hrest
      -- The chunk ends inside the file, and the others start behind it.
      have hc : offset ≤ c.rangeEnd := by omega
      have hlast : c.rangeEnd < downloadSize := by omega
      refine ⟨c.rangeEnd - offset + 1 + n, ?_, by omega⟩
      rw [List.flatMap_cons, hbytes, ChunkRequest.bytes, hstart,
        show c.rangeEnd + 1 = offset + (c.rangeEnd - offset + 1) by omega,
        List.range'_append_1]
    · simp only [planFrom, if_neg hlt, Option.some.injEq] at hplan
      cases hplan
      exact ⟨0, rfl, Or.inl rfl⟩

/-- A plan that covers the file has each of its bytes once, in order. -/
theorem plan_bytes (hurgent : 0 < urgentChunkSize) (hprefetch : 0 < prefetchChunkSize)
    (hplan : buildBenchmarkChunks downloadSize urgentChunkSize prefetchChunkSize = some chunks)
    (hcovers : ∀ x < downloadSize, ∃ c ∈ chunks, c.rangeStart ≤ x ∧ x ≤ c.rangeEnd) :
    chunks.flatMap ChunkRequest.bytes = List.range downloadSize := by
  obtain ⟨n, hbytes, hn⟩ := planFrom_bytes hurgent hprefetch hplan
  have hlast : downloadSize ≤ n := by
    by_contra hlt
    -- The first byte behind the chunks would be in one of them.
    obtain ⟨c, hc, hstart, hend⟩ := hcovers n (by omega)
    have hmem : n ∈ chunks.flatMap ChunkRequest.bytes :=
      List.mem_flatMap.mpr ⟨c, hc, List.mem_range'_1.mpr (by omega)⟩
    rw [hbytes, List.mem_range'_1] at hmem
    omega
  rw [hbytes, List.range_eq_range', show n = downloadSize by omega]

end Plan

/-! ### What arrived -/

/-- The transfers for a completed chunk brought its range, byte by byte. -/
theorem bytes_of_completed (hids : (chunks.map ChunkRequest.chunkId).Nodup)
    (h : (benchmark opening heap config chunks).Reachable (System.Answers AtMostRequested) s)
    (hc : c ∈ chunks) (hdone : c.chunkId ∈ s.shared.completedChunks) :
    ((s.commitsAt c.chunkId).flatMap fun d => s.bytesOf d.note.requestId) = c.bytes := by
  obtain ⟨cur, hlin⟩ := lineage_reachable hids h hc
  obtain ⟨pre, last, hf⟩ := finished_of_completed hids h hc hdone
  have hpieces := pieces_of_lineage hlin (decided_commitsAt h c.chunkId)
    (fun d => s.bytesOf d.note.requestId)
    fun d hd => ((ledger_reachable h).commits d (List.mem_of_mem_filter hd)).bytes
  have hstart := hf.start
  have hstartLe := hf.start_le
  have hstop := hf.stop
  rw [hpieces]
  show List.range' c.rangeStart (received (s.commitsAt c.chunkId)) = _
  rw [hf.commits, received_append, ChunkRequest.bytes]
  congr 1
  omega

/-- What arrived belongs to a transfer that was committed, once nobody holds a request. -/
theorem committed_of_arrived (h : (benchmark opening heap config chunks).Reachable ok s)
    (hidle : ∀ w ∈ s.workers, w.phase.request = none) {d : Delivery} (hd : d ∈ s.delivered)
    (hne : List.range' d.offset d.len ≠ []) :
    d.requestId ∈ s.commits.map fun c => c.note.requestId := by
  by_contra hother
  obtain ⟨hnone, -⟩ := (ledger_reachable h).unowned d.requestId
    (fun c hc heq => hother (List.mem_map.mpr ⟨c, hc, heq⟩)) fun i req hreq => by
      obtain ⟨w, hw, hreq⟩ := exists_of_requestAt hreq
      rw [hidle w (List.mem_of_getElem? hw)] at hreq
      cases hreq
  rw [System.bytesOf, List.flatMap_eq_nil_iff] at hnone
  exact hne (hnone d (List.mem_filter.mpr ⟨hd, decide_eq_true rfl⟩))

/-- The bytes that arrived, transfer by transfer. -/
theorem arrived_perm_commits (h : (benchmark opening heap config chunks).Reachable ok s)
    (hidle : ∀ w ∈ s.workers, w.phase.request = none) :
    s.arrived.Perm (s.commits.flatMap fun d => s.bytesOf d.note.requestId) := by
  have hrequests : (s.commits.map fun d => d.note.requestId).Nodup := (numbered_reachable h).nodup
  rw [← List.flatMap_map (fun d : ChunkCommit => d.note.requestId) s.bytesOf]
  refine (flatMap_group_perm _ hrequests fun d hd hne => ?_).symm
  exact committed_of_arrived h hidle hd hne

/-- `total_bytes` is the number of bytes that the committed transfers brought. -/
theorem totalBytes_eq (h : (benchmark opening heap config chunks).Reachable ok s) :
    s.shared.totalBytes = (s.commits.flatMap fun d => s.bytesOf d.note.requestId).length := by
  rw [List.length_flatMap, (tallied_reachable h).totalBytes]
  congr 1
  refine List.map_congr_left fun d hd => ?_
  rw [((ledger_reachable h).commits d hd).bytes, List.length_range']

/-- When no worker has a request in hand, every byte that arrived was counted at a commit. -/
theorem totalBytes_eq_arrived (h : (benchmark opening heap config chunks).Reachable ok s)
    (hidle : ∀ w ∈ s.workers, w.phase.request = none) :
    s.shared.totalBytes = s.arrived.length := by
  rw [totalBytes_eq h, (arrived_perm_commits h hidle).length_eq]

/-- The commits, chunk by chunk. -/
theorem commits_perm (hids : (chunks.map ChunkRequest.chunkId).Nodup)
    (h : (benchmark opening heap config chunks).Reachable ok s) :
    (chunks.flatMap fun c => s.commitsAt c.chunkId).Perm s.commits := by
  rw [← List.flatMap_map ChunkRequest.chunkId s.commitsAt]
  refine flatMap_filter_perm hids fun d hd => ?_
  obtain ⟨c, hc, hmem⟩ := planned_of_commit hids h hd
  have hid : d.item.chunkId = c.chunkId := of_decide_eq_true (List.mem_filter.mp hmem).2
  exact List.mem_map.mpr ⟨c, hc, hid.symm⟩

/-- The bytes that arrived, chunk by chunk. -/
theorem arrived_perm_chunks (hids : (chunks.map ChunkRequest.chunkId).Nodup)
    (h : (benchmark opening heap config chunks).Reachable ok s)
    (hidle : ∀ w ∈ s.workers, w.phase.request = none) :
    s.arrived.Perm (chunks.flatMap fun c => (s.commitsAt c.chunkId).flatMap
      fun d => s.bytesOf d.note.requestId) := by
  rw [← List.flatMap_assoc]
  exact (arrived_perm_commits h hidle).trans ((commits_perm hids h).symm.flatMap_right _)

/-- When all chunks are complete and nobody holds a request, the bytes that arrived are those of
the plan. -/
theorem arrived_perm (hids : (chunks.map ChunkRequest.chunkId).Nodup)
    (h : (benchmark opening heap config chunks).Reachable (System.Answers AtMostRequested) s)
    (hidle : ∀ w ∈ s.workers, w.phase.request = none)
    (hdone : ∀ c ∈ chunks, c.chunkId ∈ s.shared.completedChunks) :
    s.arrived.Perm (chunks.flatMap ChunkRequest.bytes) := by
  refine (arrived_perm_chunks hids h hidle).trans (.of_eq ?_)
  exact List.flatMap_congr fun c hc => bytes_of_completed hids h hc (hdone c hc)

/-! ### What the tracker sees -/

/-- Workers that have stopped hold no request. -/
theorem idle_of_stopped (hids : (chunks.map ChunkRequest.chunkId).Nodup)
    (hpos : 0 < config.pageSize) (hchunks : ∀ c ∈ chunks, c.WellFormed)
    (h : (benchmark opening heap config chunks).Reachable ok s) (hstopped : s.Stopped) :
    ∀ w ∈ s.workers, w.phase.request = none := by
  intro w hw
  rcases ended_of_stopped hids h hchunks hstopped w hw with hexited | hzero
  · rw [hexited]
    rfl
  · omega

/-- Without a message on its way, the tracker has every page report. -/
theorem fed_of_quiescent (h : (benchmark opening heap config chunks).Reachable ok s)
    (hq : s.Quiescent) : ∀ e, s.Emitted (.pageCompleted e) → e ∈ s.trackedPages := by
  refine fed_of_drained ?_ fun w hw => ?_
  · have hall := (recv_eq_none_iff _).mp hq.tracked
    rw [Channel.future, List.drop_eq_nil_iff] at hall
    rw [System.trackedPages, System.pages, Channel.past, List.take_of_length_le hall]
  · -- A worker with an event to send has not stopped.
    by_contra hout
    obtain ⟨e, he⟩ := Option.ne_none_iff_exists'.mp hout
    have hbusy := busy_of_pending ((consistent_reachable h w hw).2 e he)
    rw [hq.stopped w hw] at hbusy
    cases hbusy

section Frontier
variable {downloadSize : Nat} (hpos : 0 < config.pageSize)
  (hids : (chunks.map ChunkRequest.chunkId).Nodup)
  (h : (benchmark opening heap config chunks).Reachable (System.Answers AtMostRequested) s)
  (hdone : ∀ c ∈ chunks, c.chunkId ∈ s.shared.completedChunks)
  (hfed : ∀ e, s.Emitted (.pageCompleted e) → e ∈ s.trackedPages)
  (haligned : ∀ c ∈ chunks, PageAligned config.pageSize downloadSize c)
include hpos hids h hdone hfed haligned

/-- The frontier is not behind the last full page. -/
theorem full_le_frontier
    (hcovers : ∀ x < downloadSize, ∃ c ∈ chunks, c.rangeStart ≤ x ∧ x ≤ c.rangeEnd) :
    downloadSize / config.pageSize * config.pageSize
      ≤ s.runner.tracker.contiguousFrontierBytes := by
  obtain ⟨-, htracks⟩ := tracks_reachable h
  rw [htracks.frontier]
  refine Nat.mul_le_mul_right _ ?_
  by_contra hlt
  exact htracks.firstGap.gap
    (full_page_reported hpos hids h hdone hfed haligned hcovers (Nat.lt_of_not_le hlt))

/-- The frontier is not past the last page. -/
theorem frontier_le_end :
    s.runner.tracker.contiguousFrontierBytes
      ≤ pagesFor config.pageSize downloadSize * config.pageSize := by
  obtain ⟨-, htracks⟩ := tracks_reachable h
  rw [htracks.frontier]
  refine Nat.mul_le_mul_right _ ?_
  by_contra hlt
  exact end_not_reported hpos hids h hdone hfed haligned
    (htracks.firstGap.below _ (Nat.lt_of_not_le hlt))

/-- A chunk that was never queued again has no earlier transfers. -/
theorem frontier_of_unretried
    (hcovers : ∀ x < downloadSize, ∃ c ∈ chunks, c.rangeStart ≤ x ∧ x ≤ c.rangeEnd)
    (hretried : s.shared.retriedChunks = 0) :
    s.runner.tracker.contiguousFrontierBytes
      = pagesFor config.pageSize downloadSize * config.pageSize := by
  have hearlier : ∀ c ∈ chunks, s.earlierBytes c = 0 := by
    intro c hc
    obtain ⟨pre, last, hf⟩ := finished_of_completed hids h hc (hdone c hc)
    rw [System.earlierBytes, hf.commits, List.dropLast_concat]
    have hfinal := (tallied_reachable h).retriedChunks
    rw [hretried, eq_comm, List.countP_eq_zero] at hfinal
    rcases List.eq_nil_or_concat pre with rfl | ⟨before, d, rfl⟩
    · rfl
    · -- A transfer before the last one would have queued the chunk again.
      have hlineage := hf.lineage
      rw [List.concat_eq_append] at hlineage
      have hfate : d.fate = .retry last.item := hlineage.fate_last
      have hmem : d ∈ s.commitsAt c.chunkId := by
        rw [hf.commits]
        simp
      refine absurd ?_ (hfinal d (List.mem_of_mem_filter hmem))
      rw [hfate]
      rfl
  refine le_antisymm (frontier_le_end hpos hids h hdone hfed haligned) ?_
  obtain ⟨-, htracks⟩ := tracks_reachable h
  rw [htracks.frontier]
  refine Nat.mul_le_mul_right _ ?_
  by_contra hlt
  -- The page at the gap is a full one, or the last one.
  have hgap := htracks.firstGap.gap
  have hfull := full_page_reported hpos hids h hdone hfed haligned hcovers
    (p := s.runner.tracker.lastFrontierPageIndex)
  have htail := (tail_reported_iff hpos hids h hdone hfed haligned).mpr
  rw [Nat.not_le, pagesFor_eq (Nat.div_add_mod' downloadSize config.pageSize).symm
    (Nat.mod_lt _ hpos)] at hlt
  split at hlt
  · rename_i hmod
    rcases Nat.lt_succ_iff_lt_or_eq.mp hlt with hlow | heq
    · exact hgap (hfull hlow)
    · have hsize : 0 < downloadSize := Nat.pos_of_ne_zero fun hzero => by simp [hzero] at hmod
      obtain ⟨c, hc, -, hend⟩ := hcovers (downloadSize - 1) (by omega)
      refine hgap (heq ▸ htail ⟨c, hc, ?_, ?_⟩)
      · have := (haligned c hc).end_lt
        omega
      · rw [hearlier c hc, Nat.zero_mod]
        exact hmod
  · exact hgap (hfull hlt)

end Frontier

/-! ### The end of the run -/

/-- An answer that never falls short at the last attempt leaves no chunk to give up. -/
theorem completed_of_served (hunlimited : config.maxDuration = 0)
    (h : (benchmark opening heap config chunks).Reachable (System.Answers ServedInTime) s)
    (hsettled : ∀ c ∈ chunks, Settled s c) :
    ∀ c ∈ chunks, c.chunkId ∈ s.shared.completedChunks := by
  intro c hc
  cases hsettled c hc with
  | completed hdone => exact hdone
  | givenUp _ hgone =>
    obtain ⟨d, hd, -⟩ := List.mem_map.mp hgone
    obtain ⟨hmem, hfate⟩ := List.mem_filter.mp hd
    have hlast := attempts_of_givenUp hunlimited h d hmem hfate
    have hfull := ((answered_reachable h).commits d hmem).2 hlast
    have hdecided := decided_reachable h d hmem
    have hstart := hdecided.start_le
    have hdone : d.fate.isDone = true := hdecided.done.mpr (by omega)
    cases hd : d.fate <;> simp_all

/-- The completed set counts planned chunks. -/
theorem card_completed_eq (hids : (chunks.map ChunkRequest.chunkId).Nodup)
    (h : (benchmark opening heap config chunks).Reachable ok s) :
    s.shared.completedChunks.card =
      (chunks.filter fun c => c.chunkId ∈ s.shared.completedChunks).length := by
  have hset : s.shared.completedChunks =
      ((chunks.filter fun c => c.chunkId ∈ s.shared.completedChunks).map
        ChunkRequest.chunkId).toFinset := by
    ext id
    rw [List.mem_toFinset, List.mem_map]
    constructor
    · intro hid
      obtain ⟨d, hd, -, rfl⟩ := ((booked_reachable h).completed id).mp hid
      obtain ⟨c, hc, hmem⟩ := planned_of_commit hids h hd
      have heq : d.item.chunkId = c.chunkId := of_decide_eq_true (List.mem_filter.mp hmem).2
      exact ⟨c, List.mem_filter.mpr ⟨hc, decide_eq_true (heq ▸ hid)⟩, heq.symm⟩
    · rintro ⟨c, hc, rfl⟩
      exact of_decide_eq_true (List.mem_filter.mp hc).2
  rw [hset, List.toFinset_card_of_nodup (hids.sublist (List.filter_sublist.map _)),
    List.length_map, ← hset]

/-- `total_requests` counts the chunks and the retries. -/
theorem totalRequests_of_settled (hids : (chunks.map ChunkRequest.chunkId).Nodup)
    (h : (benchmark opening heap config chunks).Reachable ok s)
    (hsettled : ∀ c ∈ chunks, Settled s c) :
    s.shared.totalRequests = chunks.length + s.shared.retriedChunks := by
  have houtcomes := (summarized_of_tallied (tallied_reachable h) (booked_reachable h)
    (tracked_reachable hids h)).outcomes
  rw [card_completed_eq hids h, failed_of_settled hids h hsettled] at houtcomes
  have hsplit := List.length_eq_length_filter_add
    (l := chunks) (fun c => decide (c.chunkId ∈ s.shared.completedChunks))
  simp only [← decide_not] at hsplit
  omega

/-- The whole file has arrived, and `result` says so. -/
structure FileArrived (pageSize downloadSize : Nat) (chunks : List ChunkRequest) (s : System)
    (result : ReactorResult) : Prop where
  reported : s.result = some result
  /-- Each byte of the file arrived once, and no other bytes did. -/
  bytes : s.arrived.Perm (List.range downloadSize)
  totalBytes : result.totalBytes = downloadSize
  failedChunks : result.failedChunks = 0
  totalRequests : result.totalRequests = chunks.length + result.retriedChunks
  full : downloadSize / pageSize * pageSize ≤ s.runner.tracker.contiguousFrontierBytes
  bounded : s.runner.tracker.contiguousFrontierBytes ≤ pagesFor pageSize downloadSize * pageSize
  unretried : result.retriedChunks = 0 →
    s.runner.tracker.contiguousFrontierBytes = pagesFor pageSize downloadSize * pageSize

/-- A file that is served arrives. Curl may break off any attempt for a chunk but the tenth.
Then every fair run without a deadline over a plan that covers the file ends with all of it. -/
theorem served_file_arrives {downloadSize urgentChunkSize prefetchChunkSize : Nat}
    (hsize : downloadSize < 2 ^ 64) (hworkers : 0 < config.maxConcurrent)
    (hpos : 0 < config.pageSize) (hunlimited : config.maxDuration = 0)
    (hurgent : 0 < urgentChunkSize) (hurgentDvd : config.pageSize ∣ urgentChunkSize)
    (hprefetch : 0 < prefetchChunkSize) (hprefetchDvd : config.pageSize ∣ prefetchChunkSize)
    (hplan : buildBenchmarkChunks downloadSize urgentChunkSize prefetchChunkSize = some chunks)
    (hcovers : ∀ x < downloadSize, ∃ c ∈ chunks, c.rangeStart ≤ x ∧ x ≤ c.rangeEnd)
    (r : (benchmark opening heap config chunks).Run (System.Answers ServedInTime))
    (hstart : (benchmark opening heap config chunks).Reachable (System.Answers ServedInTime)
      (r.state 0))
    (hfair : FairRun r) :
    ∃ n, ∀ m, n ≤ m → (r.state m).Quiescent ∧
      ∃ result, FileArrived config.pageSize downloadSize chunks (r.state m) result := by
  obtain ⟨haligned, hids⟩ :=
    buildBenchmarkChunks_spec hurgent hurgentDvd hprefetch hprefetchDvd hplan
  have hformed : ∀ c ∈ chunks, c.WellFormed := fun c hc => by
    have hend := (haligned c hc).end_lt
    exact ⟨(haligned c hc).start_le, by omega⟩
  obtain ⟨n, hn⟩ := eventually_quiescent hstart hfair
  refine ⟨n, fun m hm => ?_⟩
  have hq := quiescent_run hstart hm hn
  have hserved := r.reachable hstart m
  have h : (benchmark opening heap config chunks).Reachable (System.Answers AtMostRequested)
      (r.state m) := hserved.mono fun s a _ hok => by
    cases a with
    | perform i t => exact fun req hreq => (hok req hreq).1
    | _ => trivial
  have hsettled := settled_of_stopped hids hworkers hpos hunlimited hformed h hq.stopped
  have hdone := completed_of_served hunlimited hserved hsettled
  have hfed := fed_of_quiescent h hq
  have hidle := idle_of_stopped hids hpos hformed h hq.stopped
  have hbytes := arrived_perm hids h hidle hdone
  rw [plan_bytes hurgent hprefetch hplan hcovers] at hbytes
  have hfailed : (r.state m).shared.failedChunks = 0 := by
    rw [failed_of_settled hids h hsettled, List.length_eq_zero_iff, List.filter_eq_nil_iff]
    exact fun c hc hopen => of_decide_eq_true hopen (hdone c hc)
  obtain ⟨result, hresult⟩ := Option.isSome_iff_exists.mp hq.joined
  have hsums := sums_reachable h result hresult
  refine ⟨hq, result, hresult, hbytes, ?_, hsums.failedChunks.trans hfailed, ?_,
    full_le_frontier hpos hids h hdone hfed haligned hcovers,
    frontier_le_end hpos hids h hdone hfed haligned, fun hretried => ?_⟩
  · rw [hsums.totalBytes, totalBytes_eq_arrived h hidle, hbytes.length_eq, List.length_range]
  · rw [hsums.totalRequests, hsums.retriedChunks, totalRequests_of_settled hids h hsettled]
  · rw [hsums.retriedChunks] at hretried
    exact frontier_of_unretried hpos hids h hdone hfed haligned hcovers hretried

/-- The file is one chunk of four bytes. The first transfer breaks off after one of them. -/
theorem served_file_arrives_one_retry :
    ∃ r : (benchmark .plain .ofList (.unlimited 1 4) [⟨0, 0, 3, .urgent⟩]).Run
        (System.Answers ServedInTime), FairRun r ∧ ∃ n, ∀ m, n ≤ m → (r.state m).Quiescent ∧
      ∃ result, FileArrived 4 4 [⟨0, 0, 3, .urgent⟩] (r.state m) result := by
  obtain ⟨r, hstart, hfair⟩ := exists_fairRun (System.Answers ServedInTime) .plain .ofList
    (.unlimited 1 4) [⟨0, 0, 3, .urgent⟩] (fun _ _ => trivial) oneRetry (by decide)
  have hplan : buildBenchmarkChunks 4 4 4 = some [⟨0, 0, 3, .urgent⟩] := by decide
  exact ⟨r, hfair, served_file_arrives (by decide) (by decide) (by decide) rfl (by decide)
    (by decide) (by decide) (by decide) hplan (by decide) r (hstart ▸ .refl) hfair⟩

end FrontierSim
