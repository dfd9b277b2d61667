import FrontierSim.Proofs.Fetches
import FrontierSim.Proofs.Plan

/-!
# `FrontierSim.Proofs.Completeness`: whether every page is reported

A resumed request counts its pages from the page that contains its first byte, as if it
started at the page boundary. So after a break inside a page, the page boundaries of the
worker lag behind those of the file. In the middle of a file this is made up for by the
partial page that is reported at the end of each transfer. At the end of a file that ends
inside a page it may not be: the last page is reported exactly when the last transfer
starts less deep in its page than the file ends (`frontier_complete_iff`).

`unreported_tail` is a run in which it does not.
-/

set_option autoImplicit false

namespace FrontierSim

open Lib

/-- The pages that a committed transfer reported. -/
def reportedBy (pageSize : Nat) (d : ChunkCommit) : List Nat :=
  List.range' (d.item.rangeStart / pageSize) (pagesFor pageSize d.note.transfer.bodyBytes)

/-- A committed transfer reported the pages from that of its start on, as many as its body fills. -/
theorem mem_reportedBy {pageSize p : Nat} {d : ChunkCommit} :
    p ∈ reportedBy pageSize d ↔ d.item.rangeStart / pageSize ≤ p ∧
      p < d.item.rangeStart / pageSize + pagesFor pageSize d.note.transfer.bodyBytes :=
  List.mem_range'_1

/-- The body bytes of all transfers for the chunk but the last one. -/
def System.earlierBytes (s : System) (c : ChunkRequest) : Nat :=
  received (s.commitsAt c.chunkId).dropLast

variable {heap : ChunkHeap} {config : ReactorConfig} {chunks : List ChunkRequest} {s : System}
  {opening : RunStarted} {pageSize downloadSize : Nat} {c : ChunkRequest}

/-! ### The transfers of one chunk -/

/-- The transfers of a lineage report every page before the one in which they end. -/
theorem reported_of_lineage (hpos : 0 < pageSize) {x y : PrioritizedChunk}
    {cs : List ChunkCommit} (h : WorkQueue.Lineage x cs (some y))
    (hdecided : ∀ d ∈ cs, Decided pageSize d) {p : Nat} (hlow : x.rangeStart / pageSize ≤ p)
    (hhigh : p < y.rangeStart / pageSize) : ∃ d ∈ cs, p ∈ reportedBy pageSize d := by
  generalize hcur : some y = cur at h
  induction h generalizing y with
  | nil =>
    cases hcur
    omega
  | @retry cs z y note _ ih =>
    cases hcur
    have hlast := hdecided ⟨z, note, .retry y⟩ (List.mem_append_right _ List.mem_cons_self)
    have hstart : y.rangeStart = z.rangeStart + note.transfer.bodyBytes :=
      (hlast.retry y rfl).2.1
    -- The page lies before the last transfer, or the last transfer gets past it.
    rcases Nat.lt_or_ge p (z.rangeStart / pageSize) with hlt | hge
    · obtain ⟨d, hd, hp⟩ := ih (fun d hd => hdecided d (List.mem_append_left _ hd)) hlt rfl
      exact ⟨d, List.mem_append_left _ hd, hp⟩
    · refine ⟨_, List.mem_append_right _ List.mem_cons_self, mem_reportedBy.mpr ⟨hge, ?_⟩⟩
      have := div_le_div_add_pagesFor hpos z.rangeStart note.transfer.bodyBytes
      rw [← hstart] at this
      exact Nat.lt_of_lt_of_le hhigh this
  | close => cases hcur

/-- The end of a completed chunk: the transfers before the last one, and the last one,
which reaches the end of the range exactly. -/
structure Finished (pageSize : Nat) (s : System) (c : ChunkRequest) (pre : List ChunkCommit)
    (last : ChunkCommit) : Prop where
  commits : s.commitsAt c.chunkId = pre ++ [last]
  lineage : WorkQueue.Lineage c.entry pre (some last.item)
  start : last.item.rangeStart = c.rangeStart + received pre
  start_le : last.item.rangeStart ≤ c.rangeEnd
  stop : last.item.rangeStart + last.note.transfer.bodyBytes = c.rangeEnd + 1

/-- A completed chunk has a last transfer, which reached the end of the range. With no answer
longer than its request it ends there exactly. -/
theorem finished_of_completed (hids : (chunks.map ChunkRequest.chunkId).Nodup)
    (h : (benchmark opening heap config chunks).Reachable (System.Answers AtMostRequested) s)
    (hc : c ∈ chunks) (hdone : c.chunkId ∈ s.shared.completedChunks) :
    ∃ pre last, Finished config.pageSize s c pre last := by
  obtain ⟨pre, d, hpre, hlin, hresumes, hd, hisDone⟩ := last_of_completed hids h hc hdone
  have hend : d.item.rangeEnd = c.rangeEnd := hresumes.rangeEnd
  have hlong := (decided_reachable h d hd).done.mp hisDone
  have hle := (decided_reachable h d hd).start_le
  have hatMost : d.note.transfer.bodyBytes ≤ d.item.rangeEnd - d.item.rangeStart + 1 :=
    (answered_reachable h).commits d hd
  exact ⟨pre, d, hpre, hlin, hresumes.rangeStart, by omega, by omega⟩

/-- A transfer ends before the next one starts. -/
theorem end_le_of_lineage {x y : PrioritizedChunk} {cs : List ChunkCommit}
    (h : WorkQueue.Lineage x cs (some y)) (hdecided : ∀ d ∈ cs, Decided pageSize d) :
    ∀ d ∈ cs, d.item.rangeStart + d.note.transfer.bodyBytes ≤ y.rangeStart := by
  generalize hcur : some y = cur at h
  induction h generalizing y with
  | nil => exact fun d hd => absurd hd List.not_mem_nil
  | @retry cs z y note _ ih =>
    cases hcur
    have hlast := hdecided ⟨z, note, .retry y⟩ (List.mem_append_right _ List.mem_cons_self)
    have hstart : y.rangeStart = z.rangeStart + note.transfer.bodyBytes :=
      (hlast.retry y rfl).2.1
    intro d hd
    rcases List.mem_append.mp hd with hd | hd
    · have := ih (fun d hd => hdecided d (List.mem_append_left _ hd)) rfl d hd
      omega
    · rw [List.mem_singleton.mp hd]
      exact hstart.ge
  | close => cases hcur

/-- A transfer reports no page past the end of its range. -/
theorem lt_pagesFor_of_reportedBy (hpos : 0 < pageSize) {d : ChunkCommit}
    (hle : d.item.rangeStart ≤ d.item.rangeEnd) (hatMost : AtMostRequested d.item d.note.transfer)
    {p : Nat} (hp : p ∈ reportedBy pageSize d) : p < pagesFor pageSize (d.item.rangeEnd + 1) := by
  have hlt := (mem_reportedBy.mp hp).2
  have hends := div_add_pagesFor_le hpos d.item.rangeStart d.note.transfer.bodyBytes
  unfold AtMostRequested at hatMost
  have hmono := pagesFor_mono hpos
    (show d.item.rangeStart + d.note.transfer.bodyBytes ≤ d.item.rangeEnd + 1 by omega)
  omega

/-- A completed chunk reports every page that ends inside it. -/
theorem Finished.reported {pre : List ChunkCommit} {last : ChunkCommit}
    (hf : Finished pageSize s c pre last) (hpos : 0 < pageSize)
    (hdecided : ∀ d ∈ s.commitsAt c.chunkId, Decided pageSize d) {p : Nat}
    (hlow : c.rangeStart / pageSize ≤ p) (hhigh : p < (c.rangeEnd + 1) / pageSize) :
    ∃ d ∈ s.commitsAt c.chunkId, p ∈ reportedBy pageSize d := by
  rw [hf.commits] at hdecided ⊢
  rcases Nat.lt_or_ge p (last.item.rangeStart / pageSize) with hlt | hge
  · obtain ⟨d, hd, hp⟩ := reported_of_lineage hpos hf.lineage
      (fun d hd => hdecided d (List.mem_append_left _ hd)) hlow hlt
    exact ⟨d, List.mem_append_left _ hd, hp⟩
  · refine ⟨last, List.mem_append_right _ List.mem_cons_self, mem_reportedBy.mpr ⟨hge, ?_⟩⟩
    have := div_le_div_add_pagesFor hpos last.item.rangeStart last.note.transfer.bodyBytes
    rw [hf.stop] at this
    exact Nat.lt_of_lt_of_le hhigh this

/-- Whether the chunk at the end of the file reports the last page. -/
theorem Finished.tail_iff {pre : List ChunkCommit} {last : ChunkCommit}
    (hf : Finished pageSize s c pre last) (hpos : 0 < pageSize)
    (hdecided : ∀ d ∈ s.commitsAt c.chunkId, Decided pageSize d)
    (hstart : pageSize ∣ c.rangeStart) (hend : c.rangeEnd + 1 = downloadSize) :
    (∃ d ∈ s.commitsAt c.chunkId, downloadSize / pageSize ∈ reportedBy pageSize d) ↔
      s.earlierBytes c % pageSize < downloadSize % pageSize := by
  have hearlier : s.earlierBytes c % pageSize = last.item.rangeStart % pageSize := by
    obtain ⟨k, hk⟩ := hstart
    rw [System.earlierBytes, hf.commits, List.dropLast_concat, hf.start, hk, Nat.mul_add_mod]
  have hstop := hf.stop
  rw [hend] at hstop
  have hbody : last.note.transfer.bodyBytes = downloadSize - last.item.rangeStart := by omega
  have hle : last.item.rangeStart ≤ downloadSize := by omega
  rw [hearlier, ← lastPage_reported_iff hpos hle, ← hbody]
  rw [hf.commits] at hdecided ⊢
  constructor
  · rintro ⟨d, hd, hp⟩
    rcases List.mem_append.mp hd with hd | hd
    · -- The last page was reported before. Then the last transfer starts inside it.
      have hpage := Nat.lt_of_lt_of_le (mem_reportedBy.mp hp).2
        (div_add_pagesFor_le hpos d.item.rangeStart d.note.transfer.bodyBytes)
      rw [lt_pagesFor_iff hpos] at hpage
      have hends := end_le_of_lineage hf.lineage
        (fun d hd => hdecided d (List.mem_append_left _ hd)) d hd
      have hinside : downloadSize / pageSize ≤ last.item.rangeStart / pageSize :=
        (Nat.le_div_iff_mul_le hpos).mpr (by omega)
      have hstartLe := hf.start_le
      have := pagesFor_pos hpos (n := last.note.transfer.bodyBytes) (by omega)
      omega
    · rw [List.mem_singleton.mp hd] at hp
      exact (mem_reportedBy.mp hp).2
  · intro hlt
    exact ⟨last, List.mem_append_right _ List.mem_cons_self,
      mem_reportedBy.mpr ⟨Nat.div_le_div_right hle, hlt⟩⟩

/-! ### All chunks -/

/-- With all chunks completed and every report processed, the tracker was told exactly of
the pages of the committed transfers. -/
theorem mem_pageSet_iff (hids : (chunks.map ChunkRequest.chunkId).Nodup)
    (h : (benchmark opening heap config chunks).Reachable (System.Answers AtMostRequested) s)
    (hdone : ∀ c ∈ chunks, c.chunkId ∈ s.shared.completedChunks)
    (hfed : ∀ e, s.Emitted (.pageCompleted e) → e ∈ s.trackedPages) (p : Nat) :
    p ∈ pageSet s.trackedPages ↔
      ∃ c ∈ chunks, ∃ d ∈ s.commitsAt c.chunkId, p ∈ reportedBy config.pageSize d := by
  have hL := ledger_reachable h
  have hrecorded : ∀ d ∈ s.commits, s.pagesOf d.note.requestId = reportedBy config.pageSize d :=
    fun d hd => (hL.commits d hd).pages_sent
  constructor
  · rintro ⟨e, he, hpage⟩
    have hreported : p ∈ s.pagesOf e.requestId :=
      mem_pagesOf.mpr ⟨e, mem_pages.mp (mem_pages_of_tracked he), rfl, hpage⟩
    rcases owner_of_page hL hreported with ⟨d, hd, hid⟩ | ⟨i, req, hreq, hid⟩
    · obtain ⟨c, hc, hmem⟩ := planned_of_commit hids h hd
      refine ⟨c, hc, d, hmem, ?_⟩
      rwa [← hrecorded d hd, hid]
    · -- Nobody holds a chunk any more.
      obtain ⟨w, hw, hreq⟩ := exists_of_requestAt hreq
      have hheld : w.held = some req.chunk := held_of_request hreq
      obtain ⟨c, hc, hkey⟩ := planned_of_held hids h hw hheld
      have hidle := (idle_of_completed (booked_reachable h) (tracked_reachable hids h)
        (hdone c hc)).2
      rw [System.heldAt, List.countP_eq_zero] at hidle
      refine absurd ?_ (hidle w (List.mem_of_getElem? hw))
      rw [hheld]
      exact decide_eq_true hkey
  · rintro ⟨c, hc, d, hd, hp⟩
    rw [← hrecorded d (List.mem_of_mem_filter hd)] at hp
    obtain ⟨e, hsent, -, hpage⟩ := mem_pagesOf.mp hp
    exact ⟨e, hfed e (Or.inl hsent), hpage⟩

section
variable (hpos : 0 < config.pageSize) (hids : (chunks.map ChunkRequest.chunkId).Nodup)
  (h : (benchmark opening heap config chunks).Reachable (System.Answers AtMostRequested) s)
  (hdone : ∀ c ∈ chunks, c.chunkId ∈ s.shared.completedChunks)
  (hfed : ∀ e, s.Emitted (.pageCompleted e) → e ∈ s.trackedPages)
include hpos hids h hdone hfed

/-- No page past the end of its chunk is reported. -/
theorem lt_pagesFor_of_reported {p : Nat} (hp : p ∈ pageSet s.trackedPages) :
    ∃ c ∈ chunks, p < pagesFor config.pageSize (c.rangeEnd + 1) ∧
      ∃ d ∈ s.commitsAt c.chunkId, p ∈ reportedBy config.pageSize d := by
  obtain ⟨c, hc, d, hd, hreported⟩ := (mem_pageSet_iff hids h hdone hfed p).mp hp
  refine ⟨c, hc, ?_, d, hd, hreported⟩
  obtain ⟨i, hresumes⟩ := resumes_of_commit hids h hc hd
  rw [show c.rangeEnd = d.item.rangeEnd from hresumes.rangeEnd.symm]
  exact lt_pagesFor_of_reportedBy hpos (decided_commitsAt h _ d hd).start_le
    ((answered_reachable h).commits d (List.mem_of_mem_filter hd)) hreported

variable (haligned : ∀ c ∈ chunks, PageAligned config.pageSize downloadSize c)
include haligned

/-- The page after the last one is not reported. -/
theorem end_not_reported : pagesFor config.pageSize downloadSize ∉ pageSet s.trackedPages := by
  intro hp
  obtain ⟨c, hc, hlt, -⟩ := lt_pagesFor_of_reported hpos hids h hdone hfed hp
  have hle : c.rangeEnd + 1 ≤ downloadSize := (haligned c hc).end_lt
  have := pagesFor_mono hpos hle
  omega

/-- Every full page of the file is reported. -/
theorem full_page_reported
    (hcovers : ∀ x < downloadSize, ∃ c ∈ chunks, c.rangeStart ≤ x ∧ x ≤ c.rangeEnd) {p : Nat}
    (hp : p < downloadSize / config.pageSize) : p ∈ pageSet s.trackedPages := by
  -- The chunk with the first byte of the page contains the whole page.
  have hend := (Nat.le_div_iff_mul_le hpos).mp (Nat.succ_le_of_lt hp)
  rw [Nat.succ_mul] at hend
  obtain ⟨c, hc, hstart, hstop⟩ := hcovers (p * config.pageSize) (by omega)
  obtain ⟨pre, last, hf⟩ := finished_of_completed hids h hc (hdone c hc)
  have hlow : c.rangeStart / config.pageSize ≤ p := by
    have := Nat.div_le_div_right (c := config.pageSize) hstart
    rwa [Nat.mul_div_cancel p hpos] at this
  have hhigh : p < (c.rangeEnd + 1) / config.pageSize := by
    rcases (haligned c hc).stop with ⟨k, hk⟩ | hlast
    · rw [hk, Nat.mul_div_cancel_left k hpos]
      refine Nat.lt_of_mul_lt_mul_right (a := config.pageSize) ?_
      rw [Nat.mul_comm k]
      omega
    · rwa [hlast]
  obtain ⟨d, hd, hreported⟩ := hf.reported hpos (decided_commitsAt h _) hlow hhigh
  exact (mem_pageSet_iff hids h hdone hfed p).mpr ⟨c, hc, d, hd, hreported⟩

/-- The last page, when the file ends inside it. -/
theorem tail_reported_iff :
    downloadSize / config.pageSize ∈ pageSet s.trackedPages ↔
      ∃ c ∈ chunks, c.rangeEnd + 1 = downloadSize ∧
        s.earlierBytes c % config.pageSize < downloadSize % config.pageSize := by
  constructor
  · intro hp
    obtain ⟨c, hc, hlt, hreported⟩ :=
      lt_pagesFor_of_reported hpos hids h hdone hfed hp
    have hend : c.rangeEnd + 1 = downloadSize := by
      refine (haligned c hc).stop.resolve_left ?_
      -- A chunk that ends at a page boundary ends before the last page.
      rintro ⟨k, hk⟩
      rw [hk, Nat.mul_comm, pagesFor_mul hpos] at hlt
      have hle := (haligned c hc).end_lt
      have hkle : k ≤ downloadSize / config.pageSize :=
        (Nat.le_div_iff_mul_le hpos).mpr (by rw [Nat.mul_comm]; omega)
      omega
    obtain ⟨pre, last, hf⟩ := finished_of_completed hids h hc (hdone c hc)
    exact ⟨c, hc, hend, (hf.tail_iff hpos (decided_commitsAt h _) (haligned c hc).start_dvd
      hend).mp hreported⟩
  · rintro ⟨c, hc, hend, hlt⟩
    obtain ⟨pre, last, hf⟩ := finished_of_completed hids h hc (hdone c hc)
    obtain ⟨d, hd, hreported⟩ := (hf.tail_iff hpos (decided_commitsAt h _)
      (haligned c hc).start_dvd hend).mpr hlt
    exact (mem_pageSet_iff hids h hdone hfed _).mpr ⟨c, hc, d, hd, hreported⟩

end

/-- When all chunks are completed and every report was processed, the frontier is the end
of the last page, if and only if the file ends at a page boundary or the last transfer of
the chunk at its end starts less deep in its page than the file ends. The chunk starts at
a page boundary, so that is a condition on the bytes of the transfers before. -/
theorem frontier_complete_iff {urgentChunkSize prefetchChunkSize : Nat}
    (hpos : 0 < config.pageSize)
    (hurgent : 0 < urgentChunkSize) (hurgentDvd : config.pageSize ∣ urgentChunkSize)
    (hprefetch : 0 < prefetchChunkSize) (hprefetchDvd : config.pageSize ∣ prefetchChunkSize)
    (hplan : buildBenchmarkChunks downloadSize urgentChunkSize prefetchChunkSize = some chunks)
    (hcovers : ∀ x < downloadSize, ∃ c ∈ chunks, c.rangeStart ≤ x ∧ x ≤ c.rangeEnd)
    (h : (benchmark opening heap config chunks).Reachable (System.Answers AtMostRequested) s)
    (hdone : ∀ c ∈ chunks, c.chunkId ∈ s.shared.completedChunks)
    (hfed : ∀ e, s.Emitted (.pageCompleted e) → e ∈ s.trackedPages) :
    s.runner.tracker.contiguousFrontierBytes
        = pagesFor config.pageSize downloadSize * config.pageSize ↔
      config.pageSize ∣ downloadSize ∨
        ∃ c ∈ chunks, c.rangeEnd + 1 = downloadSize ∧
          s.earlierBytes c % config.pageSize < downloadSize % config.pageSize := by
  obtain ⟨haligned, hids⟩ :=
    buildBenchmarkChunks_spec hurgent hurgentDvd hprefetch hprefetchDvd hplan
  obtain ⟨-, htracks⟩ := tracks_reachable h
  have hfull : ∀ p < downloadSize / config.pageSize, p ∈ pageSet s.trackedPages :=
    fun p hp => full_page_reported hpos hids h hdone hfed haligned hcovers hp
  have hend := end_not_reported hpos hids h hdone hfed haligned
  -- The frontier is the end of the file when every page of the file was reported.
  have hall : s.runner.tracker.contiguousFrontierBytes
        = pagesFor config.pageSize downloadSize * config.pageSize ↔
      ∀ p < pagesFor config.pageSize downloadSize, p ∈ pageSet s.trackedPages := by
    rw [htracks.frontier, Nat.mul_left_inj (Nat.pos_iff_ne_zero.mp hpos)]
    constructor
    · intro heq
      exact heq ▸ htracks.firstGap.below
    · intro hbelow
      exact htracks.firstGap.unique ⟨hbelow, hend⟩
  rw [hall]
  by_cases hdvd : config.pageSize ∣ downloadSize
  · refine iff_of_true (fun p hp => hfull p ?_) (Or.inl hdvd)
    obtain ⟨k, rfl⟩ := hdvd
    rw [Nat.mul_comm, pagesFor_mul hpos] at hp
    rwa [Nat.mul_div_cancel_left k hpos]
  · -- One page is left after the full ones.
    rw [← tail_reported_iff hpos hids h hdone hfed haligned]
    have hcount : pagesFor config.pageSize downloadSize = downloadSize / config.pageSize + 1 := by
      have hmod := Nat.pos_of_ne_zero fun hzero => hdvd (Nat.dvd_of_mod_eq_zero hzero)
      rw [pagesFor_eq (Nat.div_add_mod' downloadSize config.pageSize).symm
        (Nat.mod_lt _ hpos), if_pos hmod]
    rw [hcount, or_iff_right hdvd]
    constructor
    · exact fun hbelow => hbelow _ (Nat.lt_succ_self _)
    · intro hlast p hp
      rcases Nat.lt_succ_iff_lt_or_eq.mp hp with hlt | rfl
      · exact hfull p hlt
      · exact hlast

/-! ### A file of five bytes with pages of four -/

/-- When the trace is processed and the outboxes are empty, every report was processed. -/
theorem fed_of_drained (hsent : s.trackedPages = s.pages)
    (hout : ∀ w ∈ s.workers, w.outbox = none) :
    ∀ e, s.Emitted (.pageCompleted e) → e ∈ s.trackedPages := by
  rintro e (he | ⟨w, hw, he⟩)
  · rw [hsent]
    exact mem_pages.mpr he
  · rw [hout w hw] at he
    cases he

/-- The one chunk of the file, fetched in two transfers of `n` and `m` bytes. -/
def twoTransfers (n m : Nat) : List Label :=
  [.advance 0, .pop 0 []] ++ Label.advances 0 3 ++ [.perform 0 (.ofCallbacks [.write n])] ++
    Label.advances 0 10 ++ [.tick 500000000, .pop 0 []] ++ Label.advances 0 3 ++
    [.perform 0 (.ofCallbacks [.write m])] ++ Label.advances 0 9 ++ List.replicate 10 .track

/-- The first transfer ends at the page boundary. -/
theorem frontier_complete_iff_four_one :
    ∃ s, (benchmark .plain .ofList (.unlimited 1 4) [⟨0, 0, 4, .urgent⟩]).Reachable
        (System.Answers AtMostRequested) s ∧
      s.runner.tracker.contiguousFrontierBytes = 8 := by
  obtain ⟨s, hs, hdone, hsent, hout, hearlier⟩ := TransitionSystem.exists_reachable_of_run
    (benchmark .plain .ofList (.unlimited 1 4) [⟨0, 0, 4, .urgent⟩])
    (System.Answers AtMostRequested)
    (twoTransfers 4 1)
    (P := fun s => 0 ∈ s.shared.completedChunks ∧ s.trackedPages = s.pages ∧
      (∀ w ∈ s.workers, w.outbox = none) ∧ s.earlierBytes ⟨0, 0, 4, .urgent⟩ % 4 < 5 % 4)
    (by decide)
  refine ⟨s, hs, ?_⟩
  have hplan : buildBenchmarkChunks 5 8 8 = some [⟨0, 0, 4, .urgent⟩] := by decide
  refine (frontier_complete_iff (by decide) (by decide) (by decide) (by decide) (by decide) hplan
    (by decide) hs ?_ (fed_of_drained hsent hout)).mpr
    (Or.inr ⟨_, List.mem_singleton_self _, rfl, hearlier⟩)
  intro c hc
  rwa [List.mem_singleton.mp hc]

/-- The first transfer breaks off after three bytes. The second starts in the first page
and ends in the last one, but it reports only the first. -/
theorem unreported_tail :
    buildBenchmarkChunks 5 8 8 = some [⟨0, 0, 4, .urgent⟩] ∧
    ∃ s, (benchmark .plain .ofList (.unlimited 1 4) [⟨0, 0, 4, .urgent⟩]).Reachable
        (System.Answers AtMostRequested) s ∧
      0 ∈ s.shared.completedChunks ∧
      (∀ e, s.Emitted (.pageCompleted e) → e ∈ s.trackedPages) ∧
      s.runner.tracker.contiguousFrontierBytes ≠ pagesFor 4 5 * 4 := by
  refine ⟨by decide, ?_⟩
  obtain ⟨s, hs, hdone, hsent, hout, hfrontier⟩ := TransitionSystem.exists_reachable_of_run
    (benchmark .plain .ofList (.unlimited 1 4) [⟨0, 0, 4, .urgent⟩])
    (System.Answers AtMostRequested)
    (twoTransfers 3 2)
    (P := fun s => 0 ∈ s.shared.completedChunks ∧ s.trackedPages = s.pages ∧
      (∀ w ∈ s.workers, w.outbox = none) ∧
      s.runner.tracker.contiguousFrontierBytes ≠ pagesFor 4 5 * 4)
    (by decide)
  exact ⟨s, hs, hdone, fed_of_drained hsent hout, hfrontier⟩

end FrontierSim
