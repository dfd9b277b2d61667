import FrontierSim.Proofs.EndToEnd

/-!
# `FrontierSim.Proofs.Sequential`: the parallel run agrees with the plain loop

`fetchAlone` is what the reactor is for, without threads, queue and clock: one chunk after the
other, a loop that asks for what is left of the range, ten times at most. Suppose that the number
of bytes curl delivers depends on the chunk and the attempt only (`AnswersBy`). Then every fair
run without a deadline makes the attempts of the plain loop, chunk by chunk, whatever the number
of workers (one at least) and however they interleave (`parallel_agrees`). So does everything that
is counted from them: the totals, the bytes that arrived, the pages and the frontier.
-/

set_option autoImplicit false

namespace FrontierSim

open Lib

/-! ### The plain loop -/

/-- The attempts for a range, each as its first byte and the number of bytes that arrived, and
whether they reached the end of the range. -/
structure PlainFetch where
  attempts : List (Nat × Nat)
  complete : Bool
  deriving DecidableEq, Repr

/-- The loop from attempt `attempt` on, with `left` attempts left. -/
def fetchFrom (answer : Nat → Nat) (rangeEnd : Nat) : (left attempt start : Nat) → PlainFetch
  | 0, _, _ => ⟨[], false⟩
  | left + 1, attempt, start =>
    if rangeEnd + 1 ≤ start + answer attempt then ⟨[(start, answer attempt)], true⟩
    else
      let rest := fetchFrom answer rangeEnd left (attempt + 1) (start + answer attempt)
      ⟨(start, answer attempt) :: rest.attempts, rest.complete⟩

/-- The loop for a chunk, where `answer id i` bytes arrive at attempt `i` for chunk `id`. -/
def fetchAlone (answer : Nat → Nat → Nat) (c : ChunkRequest) : PlainFetch :=
  fetchFrom (answer c.chunkId) c.rangeEnd MAX_ATTEMPTS 0 c.rangeStart

/-- The file offsets that arrive. -/
def PlainFetch.bytes (f : PlainFetch) : List Nat := f.attempts.flatMap fun a => List.range' a.1 a.2

/-- The pages that are reported. -/
def PlainFetch.pages (f : PlainFetch) (pageSize : Nat) : List Nat :=
  f.attempts.flatMap fun a => List.range' (a.1 / pageSize) (pagesFor pageSize a.2)

/-- Curl's answer has the length that `answer` tells. -/
def AnswersBy (answer : Nat → Nat → Nat) (chunk : PrioritizedChunk) (t : Transfer) : Prop :=
  t.bodyBytes = answer chunk.chunkId chunk.attempt

/-- It can be checked whether an answer has the length that `answer` tells. -/
instance (answer : Nat → Nat → Nat) (chunk : PrioritizedChunk) (t : Transfer) :
    Decidable (AnswersBy answer chunk t) := inferInstanceAs (Decidable (_ = _))

/-- A transfer as the plain loop lists it. -/
def ChunkCommit.attemptMade (d : ChunkCommit) : Nat × Nat :=
  (d.item.rangeStart, d.note.transfer.bodyBytes)

variable {heap : ChunkHeap} {config : ReactorConfig} {chunks : List ChunkRequest}
  {opening : RunStarted} {ok : System → Label → Prop} {s : System} {c : ChunkRequest}
  {answer : Nat → Nat → Nat}

/-! ### The transfers of one chunk -/

/-- A closed lineage is a run of the plain loop. -/
theorem fetch_of_lineage {pageSize : Nat} {x : PrioritizedChunk} {cs : List ChunkCommit}
    (h : WorkQueue.Lineage x cs none) (hdecided : ∀ d ∈ cs, Decided pageSize d)
    (hanswers : ∀ d ∈ cs, AnswersBy answer d.item d.note.transfer)
    (hgivenUp : ∀ d ∈ cs, d.fate.isGivenUp = true → MAX_ATTEMPTS ≤ d.item.nextAttempt)
    (hattempt : x.attempt < MAX_ATTEMPTS) :
    (fetchFrom (answer x.chunkId) x.rangeEnd (MAX_ATTEMPTS - x.attempt) x.attempt x.rangeStart
        = ⟨cs.map ChunkCommit.attemptMade, cs.any fun d => d.fate.isDone⟩) := by
  induction cs generalizing x with
  | nil => cases h.eq_of_nil
  | cons d rest ih =>
    obtain ⟨rfl, hrest⟩ := h.of_cons
    have hd := hdecided d List.mem_cons_self
    have hlength : d.note.transfer.bodyBytes = answer d.item.chunkId d.item.attempt :=
      hanswers d List.mem_cons_self
    obtain ⟨left, hleft⟩ : ∃ left, MAX_ATTEMPTS - d.item.attempt = left + 1 :=
      ⟨_, (Nat.succ_pred_eq_of_pos (by omega)).symm⟩
    have hfetch : fetchFrom (answer d.item.chunkId) d.item.rangeEnd (left + 1) d.item.attempt
        d.item.rangeStart = if d.item.rangeEnd + 1 ≤ d.item.rangeStart + d.note.transfer.bodyBytes
      then ⟨[d.attemptMade], true⟩
      else
        let others := fetchFrom (answer d.item.chunkId) d.item.rangeEnd left
          (d.item.attempt + 1) (d.item.rangeStart + d.note.transfer.bodyBytes)
        ⟨d.attemptMade :: others.attempts, others.complete⟩ := by
      rw [hlength, fetchFrom, ChunkCommit.attemptMade, hlength]
    rw [hleft, hfetch]
    rcases hrest with ⟨z, hfate, hlin⟩ | ⟨hfinal, rfl, -⟩
    · -- The chunk was queued again, and the loop goes on where it starts.
      have hopen : ¬ d.item.rangeEnd + 1 ≤ d.item.rangeStart + d.note.transfer.bodyBytes := by
        rw [← hd.done, hfate]
        exact Bool.false_ne_true
      obtain ⟨hid, hstart, hend, hnext, hlt⟩ := hd.retry z hfate
      have hnumber : z.attempt = d.item.attempt + 1 := hnext
      have hothers := ih hlin (fun e he => hdecided e (List.mem_cons_of_mem d he))
        (fun e he => hanswers e (List.mem_cons_of_mem d he))
        (fun e he => hgivenUp e (List.mem_cons_of_mem d he)) (hnext ▸ hlt)
      rw [hid, hstart, hend, hnumber,
        show MAX_ATTEMPTS - (d.item.attempt + 1) = left by omega] at hothers
      rw [if_neg hopen, hothers, List.map_cons, List.any_cons, hfate]
      rfl
    · cases hfate : d.fate with
      | retry => simp [hfate, Fate.isFinal] at hfinal
      | done =>
        rw [if_pos (hd.done.mp (by rw [hfate]; rfl))]
        simp [hfate, Fate.isDone]
      | givenUp =>
        -- No attempt is left.
        have hopen : ¬ d.item.rangeEnd + 1 ≤ d.item.rangeStart + d.note.transfer.bodyBytes := by
          rw [← hd.done, hfate]
          exact Bool.false_ne_true
        have hlast := hgivenUp d List.mem_cons_self (by rw [hfate]; rfl)
        rw [PrioritizedChunk.nextAttempt] at hlast
        obtain rfl : left = 0 := by omega
        rw [if_neg hopen]
        simp [hfate, fetchFrom, Fate.isDone]

/-- The lineage of a chunk that is settled is closed. -/
theorem closed_of_settled (hids : (chunks.map ChunkRequest.chunkId).Nodup)
    (h : (benchmark opening heap config chunks).Reachable ok s) (hc : c ∈ chunks)
    (hsettled : Settled s c) : WorkQueue.Lineage c.entry (s.commitsAt c.chunkId) none := by
  obtain ⟨cur, hlin⟩ := lineage_reachable hids h hc
  have hfinal : ∃ d ∈ s.commitsAt c.chunkId, d.fate.isFinal = true := by
    cases hsettled with
    | completed hdone =>
      obtain ⟨d, hd, hisDone, hid⟩ := ((booked_reachable h).completed _).mp hdone
      exact ⟨d, List.mem_filter.mpr ⟨hd, decide_eq_true hid⟩, Fate.isFinal_of_isDone hisDone⟩
    | givenUp _ hgone =>
      obtain ⟨d, hd, hid⟩ := List.mem_map.mp hgone
      obtain ⟨hmem, hfate⟩ := List.mem_filter.mp hd
      refine ⟨d, List.mem_filter.mpr ⟨hmem, decide_eq_true hid⟩, ?_⟩
      rw [Fate.isFinal_eq, hfate, Bool.or_true]
  obtain ⟨d, hd, hisFinal⟩ := hfinal
  exact hlin.eq_none_of_final hd hisFinal ▸ hlin

/-- A settled chunk went through the plain loop. -/
theorem fetchAlone_of_settled (hids : (chunks.map ChunkRequest.chunkId).Nodup)
    (hunlimited : config.maxDuration = 0)
    (h : (benchmark opening heap config chunks).Reachable (System.Answers (AnswersBy answer)) s)
    (hc : c ∈ chunks) (hsettled : Settled s c) :
    fetchAlone answer c = ⟨(s.commitsAt c.chunkId).map ChunkCommit.attemptMade,
      (s.commitsAt c.chunkId).any fun d => d.fate.isDone⟩ :=
  fetch_of_lineage (x := c.entry) (closed_of_settled hids h hc hsettled)
    (decided_commitsAt h c.chunkId)
    (fun d hd => (answered_reachable h).commits d (List.mem_of_mem_filter hd))
    (fun d hd => attempts_of_givenUp hunlimited h d (List.mem_of_mem_filter hd))
    (show 0 < MAX_ATTEMPTS by decide)

/-! ### The whole run -/

/-- The pages that were reported are those of the committed transfers, once nobody holds a
request. -/
theorem mem_pageSet_of_idle (h : (benchmark opening heap config chunks).Reachable ok s)
    (hidle : ∀ w ∈ s.workers, w.phase.request = none)
    (hfed : ∀ e, s.Emitted (.pageCompleted e) → e ∈ s.trackedPages) (p : Nat) :
    p ∈ pageSet s.trackedPages ↔ ∃ d ∈ s.commits, p ∈ reportedBy config.pageSize d := by
  have hL := ledger_reachable h
  have hrecorded : ∀ d ∈ s.commits, s.pagesOf d.note.requestId = reportedBy config.pageSize d :=
    fun d hd => (hL.commits d hd).pages_sent
  constructor
  · rintro ⟨e, he, hpage⟩
    have hreported : p ∈ s.pagesOf e.requestId :=
      mem_pagesOf.mpr ⟨e, mem_pages.mp (mem_pages_of_tracked he), rfl, hpage⟩
    rcases owner_of_page hL hreported with ⟨d, hd, hid⟩ | ⟨i, req, hreq, -⟩
    · exact ⟨d, hd, by rwa [← hrecorded d hd, hid]⟩
    · obtain ⟨w, hw, hreq⟩ := exists_of_requestAt hreq
      rw [hidle w (List.mem_of_getElem? hw)] at hreq
      cases hreq
  · rintro ⟨d, hd, hp⟩
    rw [← hrecorded d hd] at hp
    obtain ⟨e, hsent, -, hpage⟩ := mem_pagesOf.mp hp
    exact ⟨e, hfed e (Or.inl hsent), hpage⟩

/-- The end of a run, as the plain loop has it. -/
structure Agrees (answer : Nat → Nat → Nat) (pageSize : Nat) (chunks : List ChunkRequest)
    (s : System) (result : ReactorResult) : Prop where
  reported : s.result = some result
  attempts : ∀ c ∈ chunks,
    (s.commitsAt c.chunkId).map ChunkCommit.attemptMade = (fetchAlone answer c).attempts
  completed : ∀ c ∈ chunks,
    c.chunkId ∈ s.shared.completedChunks ↔ (fetchAlone answer c).complete = true
  totalRequests :
    result.totalRequests = (chunks.map fun c => (fetchAlone answer c).attempts.length).sum
  retriedChunks : result.totalRequests = chunks.length + result.retriedChunks
  failedChunks :
    result.failedChunks = (chunks.filter fun c => (fetchAlone answer c).complete = false).length
  bytes : s.arrived.Perm (chunks.flatMap fun c => (fetchAlone answer c).bytes)
  totalBytes : result.totalBytes = (chunks.flatMap fun c => (fetchAlone answer c).bytes).length
  /-- The pages reported for a chunk, in the order of its attempts. -/
  pagesAt : ∀ c ∈ chunks, ((s.commitsAt c.chunkId).flatMap fun d => s.pagesOf d.note.requestId)
    = (fetchAlone answer c).pages pageSize
  /-- The pages that the tracker thread has taken. -/
  pages : pageSet s.trackedPages = {p | ∃ c ∈ chunks, p ∈ (fetchAlone answer c).pages pageSize}
  frontier : ∃ k, s.runner.tracker.contiguousFrontierBytes = k * pageSize ∧
    FirstGap {p | ∃ c ∈ chunks, p ∈ (fetchAlone answer c).pages pageSize} k

/-- At the end of a run every chunk is settled, and a settled chunk went through the plain loop.
The rest is counted from its attempts. -/
theorem agrees_of_quiescent (hids : (chunks.map ChunkRequest.chunkId).Nodup)
    (hworkers : 0 < config.maxConcurrent) (hpos : 0 < config.pageSize)
    (hunlimited : config.maxDuration = 0) (hchunks : ∀ c ∈ chunks, c.WellFormed)
    (h : (benchmark opening heap config chunks).Reachable (System.Answers (AnswersBy answer)) s)
    (hq : s.Quiescent) : ∃ result, Agrees answer config.pageSize chunks s result := by
  have hsettled := settled_of_stopped hids hworkers hpos hunlimited hchunks h hq.stopped
  have hidle := idle_of_stopped hids hpos hchunks h hq.stopped
  have hfetch := fun c hc => fetchAlone_of_settled hids hunlimited h hc (hsettled c hc)
  have hcompleted : ∀ c ∈ chunks,
      c.chunkId ∈ s.shared.completedChunks ↔ (fetchAlone answer c).complete = true := by
    intro c hc
    rw [hfetch c hc, (booked_reachable h).completed, List.any_eq_true]
    simp only [System.commitsAt, List.mem_filter, decide_eq_true_eq]
    constructor
    · rintro ⟨d, hd, hdone, hid⟩
      exact ⟨d, ⟨hd, hid⟩, hdone⟩
    · rintro ⟨d, ⟨hd, hid⟩, hdone⟩
      exact ⟨d, hd, hdone, hid⟩
  have hbytes : s.arrived.Perm (chunks.flatMap fun c => (fetchAlone answer c).bytes) := by
    refine (arrived_perm_chunks hids h hidle).trans (.of_eq ?_)
    refine List.flatMap_congr fun c hc => ?_
    rw [hfetch c hc, PlainFetch.bytes, List.flatMap_map]
    exact List.flatMap_congr fun d hd =>
      ((ledger_reachable h).commits d (List.mem_of_mem_filter hd)).bytes
  have hlength : s.commits.length =
      (chunks.map fun c => (fetchAlone answer c).attempts.length).sum := by
    rw [← (commits_perm hids h).length_eq, List.length_flatMap]
    congr 1
    refine List.map_congr_left fun c hc => ?_
    rw [hfetch c hc, List.length_map]
  have hfailed := failed_of_settled hids h hsettled
  obtain ⟨result, hresult⟩ := Option.isSome_iff_exists.mp hq.joined
  have hsums := sums_reachable h result hresult
  obtain ⟨-, htracks⟩ := tracks_reachable h
  have hset : pageSet s.trackedPages =
      {p | ∃ c ∈ chunks, p ∈ (fetchAlone answer c).pages config.pageSize} := by
    ext p
    rw [mem_pageSet_of_idle h hidle (fed_of_quiescent h hq)]
    show (∃ d ∈ s.commits, p ∈ reportedBy config.pageSize d) ↔
      ∃ c ∈ chunks, p ∈ (fetchAlone answer c).pages config.pageSize
    constructor
    · rintro ⟨d, hd, hp⟩
      obtain ⟨c, hc, hmem⟩ := planned_of_commit hids h hd
      refine ⟨c, hc, ?_⟩
      rw [hfetch c hc]
      exact List.mem_flatMap.mpr ⟨_, List.mem_map_of_mem hmem, hp⟩
    · rintro ⟨c, hc, hp⟩
      rw [hfetch c hc] at hp
      obtain ⟨a, ha, hp⟩ := List.mem_flatMap.mp hp
      obtain ⟨d, hd, rfl⟩ := List.mem_map.mp ha
      exact ⟨d, List.mem_of_mem_filter hd, hp⟩
  refine ⟨result, ?_⟩
  constructor
  case reported => exact hresult
  case attempts => exact fun c hc => by rw [hfetch c hc]
  case completed => exact hcompleted
  case totalRequests => rw [hsums.totalRequests, (tallied_reachable h).totalRequests, hlength]
  case retriedChunks =>
    rw [hsums.totalRequests, hsums.retriedChunks, totalRequests_of_settled hids h hsettled]
  case failedChunks =>
    rw [hsums.failedChunks, hfailed]
    congr 1
    refine List.filter_congr fun c hc => ?_
    rw [decide_eq_decide, hcompleted c hc, Bool.not_eq_true]
  case bytes => exact hbytes
  case totalBytes => rw [hsums.totalBytes, totalBytes_eq_arrived h hidle, hbytes.length_eq]
  case pagesAt =>
    intro c hc
    rw [hfetch c hc, PlainFetch.pages, List.flatMap_map]
    exact List.flatMap_congr fun d hd =>
      ((ledger_reachable h).commits d (List.mem_of_mem_filter hd)).pages_sent
  case pages => exact hset
  case frontier => exact ⟨_, htracks.frontier, hset ▸ htracks.firstGap⟩

/-- When the number of bytes that arrive depends on the chunk and the attempt only, every fair
run without a deadline agrees with the plain loop over the chunks, for any number of workers from
one on. -/
theorem parallel_agrees (hids : (chunks.map ChunkRequest.chunkId).Nodup)
    (hworkers : 0 < config.maxConcurrent) (hpos : 0 < config.pageSize)
    (hunlimited : config.maxDuration = 0) (hchunks : ∀ c ∈ chunks, c.WellFormed)
    (r : (benchmark opening heap config chunks).Run (System.Answers (AnswersBy answer)))
    (hstart : (benchmark opening heap config chunks).Reachable (System.Answers (AnswersBy answer))
      (r.state 0)) (hfair : FairRun r) :
    ∃ n, ∀ m, n ≤ m → (r.state m).Quiescent ∧
      ∃ result, Agrees answer config.pageSize chunks (r.state m) result := by
  obtain ⟨n, hn⟩ := eventually_quiescent hstart hfair
  refine ⟨n, fun m hm => ?_⟩
  have hq := quiescent_run hstart hm hn
  exact ⟨hq, agrees_of_quiescent hids hworkers hpos hunlimited hchunks (r.reachable hstart m) hq⟩

/-- One byte arrives at the first attempt, and three at the second. -/
theorem parallel_agrees_one_retry :
    ∃ r : (benchmark .plain .ofList (.unlimited 1 4) [⟨0, 0, 3, .urgent⟩]).Run
        (System.Answers (AnswersBy fun _ i => 2 * i + 1)), FairRun r ∧
      (fetchAlone (fun _ i => 2 * i + 1) ⟨0, 0, 3, .urgent⟩).attempts = [(0, 1), (1, 3)] ∧
      ∃ n, ∀ m, n ≤ m → (r.state m).Quiescent ∧
        ∃ result, Agrees (fun _ i => 2 * i + 1) 4 [⟨0, 0, 3, .urgent⟩] (r.state m) result := by
  obtain ⟨r, hstart, hfair⟩ := exists_fairRun (System.Answers (AnswersBy fun _ i => 2 * i + 1))
    .plain .ofList (.unlimited 1 4) [⟨0, 0, 3, .urgent⟩] (fun _ _ => trivial) oneRetry (by decide)
  exact ⟨r, hfair, by decide, parallel_agrees (by decide) (by decide) (by decide) rfl
    (by simp [ChunkRequest.WellFormed]) r (hstart ▸ .refl) hfair⟩

end FrontierSim
