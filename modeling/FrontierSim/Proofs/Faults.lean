import FrontierSim.Cli.Config
import FrontierSim.Proofs.Overflow
import FrontierSim.Proofs.Partition
import FrontierSim.Proofs.Selection

/-!
# `FrontierSim.Proofs.Faults`: which inputs run without an arithmetic fault

Nothing checks the numbers of the configuration, so a benchmark can fault in four places: the
sum of the workers, the plan, a plan that stands still, and the division by the page size in
the first request. `BenchmarkInput.InRange` excludes these four, and `faultless_iff` says that
there is no fifth: a benchmark is free of faults exactly when its input is in range.

The runs are those whose answers are `Addressable`. For a server that keeps to the requested
range this is no restriction, unless the plan reaches the last two pages of `u64`
(`faultless_of_atMostRequested`).
-/

set_option autoImplicit false

namespace FrontierSim

open Lib

/-- The worker count and the plan are computed without a fault, and no action of a run faults
when curl's answers satisfy `R`. The planner pushes no empty range, so every pass moves on. -/
structure BenchmarkInput.Faultless (b : BenchmarkInput)
    (R : PrioritizedChunk → Transfer → Prop) : Prop where
  workers : b.maxConcurrent.isSome = true
  plan : ∃ chunks, b.plan = some chunks ∧ (∀ c ∈ chunks, c.rangeStart ≤ c.rangeEnd) ∧
    ∀ (opening : RunStarted) (heap : ChunkHeap) (s : System),
      (benchmark opening heap b.reactorConfig chunks).Reachable (System.Answers R) s →
        ∀ a, s.faults b.reactorConfig a = false

/-- What keeps an input from faulting. A file without bytes needs no chunk and no page. -/
structure BenchmarkInput.InRange (b : BenchmarkInput) : Prop where
  workers : b.urgentWorkers + 1 < 2 ^ 32
  page : 0 < b.pageSize ∨ b.downloadSize = 0
  progress : 0 < b.prefetchChunkSize ∨ b.downloadSize ≤ 2 * b.urgentChunkSize
  /-- A chunk that starts inside the file ends in `u64` before it is cut off. -/
  ends : ∀ i < MAX_CHUNKS, chunkStart b.urgentChunkSize b.prefetchChunkSize i < b.downloadSize →
    chunkStart b.urgentChunkSize b.prefetchChunkSize (i + 1) < 2 ^ 64

/-- The end of the plan: the end of the file, or of the last chunk under the cap. -/
def BenchmarkInput.planEnd (b : BenchmarkInput) : Nat :=
  min b.downloadSize (chunkStart b.urgentChunkSize b.prefetchChunkSize MAX_CHUNKS)

/-! ### The first request -/

section
variable {heap : ChunkHeap} {config : ReactorConfig} {chunks : List ChunkRequest} {s : System}
  {opening : RunStarted} {w : Worker} {i : Nat}

/-- Before the deadline the time check passes. -/
theorem step_checkTime (hw : s.workers[i]? = some w) (hout : w.outbox = none)
    (hph : w.phase = .loopHead) (htime : ¬ (config.maxDuration > 0 ∧ s.now ≥ config.maxDuration)) :
    System.step heap config (.advance i) s = some (s.setWorker i { w with phase := .locking }) := by
  simp [System.step, hw, System.advance, hout, hph, System.checkTime, htime]

/-- A worker before the pop section can take it at any time. -/
theorem step_pop (hw : s.workers[i]? = some w) (hout : w.outbox = none)
    (hph : w.phase = .locking) (ticks : List Nat) :
    System.step heap config (.pop i ticks) s = some (s.popChunk heap i w ticks) := by
  simp [System.step, hw, hout, hph]

/-- A worker with a chunk can take a request id. -/
theorem step_assignId {chunk : PrioritizedChunk} (hw : s.workers[i]? = some w)
    (hout : w.outbox = none) (hph : w.phase = .popped chunk) :
    System.step heap config (.advance i) s = some (s.assignId i w chunk) := by
  simp [System.step, hw, System.advance, hout, hph]

/-- The first pop section of a run finds a chunk. -/
theorem popNext_start (hchunks : chunks ≠ []) (clock : Clock) :
    ∃ y, (popNext heap ∅ (heap.pushAll [] (chunks.map ChunkRequest.entry)) clock).1 = some y := by
  obtain ⟨c, hc⟩ := List.exists_mem_of_ne_nil chunks hchunks
  have hmem : c.entry ∈ heap.pushAll [] (chunks.map ChunkRequest.entry) :=
    (heap.pushAll_nil_perm _).mem_iff.mpr (List.mem_map_of_mem hc)
  have hready : c.entry.ReadyAt clock.now := by
    intro retryAt hretry
    cases hretry
  obtain ⟨y, hy, -⟩ := (selects_popNext heap ∅ _ clock).best c.entry hmem (by simp) hready
  exact ⟨y, hy⟩

/-- A worker that finds a chunk gets a request id for it. -/
theorem assigned_of_locking {R : PrioritizedChunk → Transfer → Prop}
    (hs : (benchmark opening heap config chunks).Reachable (System.Answers R) s)
    (hw : s.workers[i]? = some w) (hout : w.outbox = none) (hph : w.phase = .locking)
    (htime : s.shared.timeExpired = false) {y : PrioritizedChunk}
    (hfound : (popNext heap s.shared.completedChunks s.shared.chunkQueue ⟨s.now, []⟩).1 = some y) :
    ∃ s' w' req, (benchmark opening heap config chunks).Reachable (System.Answers R) s' ∧
      s'.workers[i]? = some w' ∧ w'.outbox = none ∧ w'.phase = .assigned req := by
  have hworkers : (s.popChunk heap i w []).workers =
      s.workers.set i { w with phase := .popped y } := by
    simp [System.popChunk, htime, hfound, System.setWorker]
  have hpopped : (s.popChunk heap i w []).workers[i]? = some { w with phase := .popped y } := by
    rw [hworkers]
    exact getElem?_set_self hw
  have hpop : System.step heap config (.pop i []) s = some (s.popChunk heap i w []) :=
    step_pop hw hout hph []
  have hreach : (benchmark opening heap config chunks).Reachable (System.Answers R)
      (s.popChunk heap i w []) :=
    hs.tail (a := .pop i []) trivial hpop
  exact ⟨_, { w with phase := .assigned ⟨_, y⟩ }, _,
    hreach.tail (a := .advance i) trivial (step_assignId hpopped hout rfl),
    getElem?_set_self hpopped, hout, rfl⟩

/-- A worker gets as far as its first request, whatever curl would answer. -/
theorem assigned_reachable (hchunks : chunks ≠ []) (hworkers : 0 < config.maxConcurrent)
    (R : PrioritizedChunk → Transfer → Prop) :
    ∃ s w req, (benchmark opening heap config chunks).Reachable (System.Answers R) s ∧
      s.workers[0]? = some w ∧ w.outbox = none ∧ w.phase = .assigned req := by
  have hw : (System.start opening heap config chunks).workers[0]?
      = some (.new config.pageSize) := by
    simp [System.start, hworkers]
  -- The time check passes, because no time has passed.
  have htime : ¬ (config.maxDuration > 0 ∧
      (System.start opening heap config chunks).now ≥ config.maxDuration) := by
    simp only [System.start]
    omega
  have hfound : ∃ y, (popNext heap ∅ (heap.pushAll [] (chunks.map ChunkRequest.entry))
      ⟨0, []⟩).1 = some y := popNext_start hchunks _
  obtain ⟨y, hfound⟩ := hfound
  have hreach : (benchmark opening heap config chunks).Reachable (System.Answers R)
      ((System.start opening heap config chunks).setWorker 0
        { Worker.new config.pageSize with phase := .locking }) :=
    .tail (a := .advance 0) .refl trivial (step_checkTime hw rfl rfl htime)
  exact assigned_of_locking hreach (getElem?_set_self hw) rfl rfl rfl hfound

end

/-! ### The four conditions -/

section
variable {b : BenchmarkInput} {R : PrioritizedChunk → Transfer → Prop}

/-- The number of workers fits into 32 bits exactly when the urgent workers leave room for one
more. -/
theorem maxConcurrent_isSome : b.maxConcurrent.isSome = true ↔ b.urgentWorkers + 1 < 2 ^ 32 := by
  unfold BenchmarkInput.maxConcurrent U32.checkedAdd
  split <;> simp_all [FIXED_PREFETCH_WORKERS]

/-- The urgent part of the plan ends within 64 bits, so that the saturating product is exact. -/
theorem urgentBoundary_le (b : BenchmarkInput) : b.urgentChunkSize * 2 ≤ U64.maxValue := by
  have hlt := b.urgentChunkSize_lt
  have hmax : U64.maxValue = 2 ^ 64 - 1 := rfl
  omega

/-- The plan of a file with bytes is not empty. -/
theorem plan_ne_nil {chunks : List ChunkRequest} (hplan : b.plan = some chunks)
    (hplannable : Plannable b.downloadSize b.urgentChunkSize b.prefetchChunkSize)
    (hsize : b.downloadSize ≠ 0) : chunks ≠ [] := by
  obtain ⟨n, -, hrun, hinside, hstop⟩ :=
    buildBenchmarkChunks_eq (urgentBoundary_le b) b.downloadSize_lt hplannable
  obtain rfl : _ = chunks := Option.some.inj (hrun.symm.trans hplan)
  exact fun hnil => hsize ((planned_eq_nil_iff hinside hstop).mp hnil)

/-- With pages of no bytes the first request divides by zero. -/
theorem page_of_faultless (h : b.Faultless R) : 0 < b.pageSize ∨ b.downloadSize = 0 := by
  obtain ⟨chunks, hplan, hnonempty, hruns⟩ := h.plan
  by_contra hnot
  obtain ⟨hzero, hsize⟩ := not_or.mp hnot
  have hchunks := plan_ne_nil hplan
    (plannable_of_plan (urgentBoundary_le b) hplan hnonempty) hsize
  have hworkers : 0 < b.reactorConfig.maxConcurrent := by
    simp [BenchmarkInput.reactorConfig, ReactorConfig.maxConcurrent, FIXED_PREFETCH_WORKERS]
  have hfirst : ∃ s w req,
      (benchmark .plain .ofList b.reactorConfig chunks).Reachable (System.Answers R) s ∧
        s.workers[0]? = some w ∧ w.outbox = none ∧ w.phase = .assigned req :=
    assigned_reachable hchunks hworkers R
  obtain ⟨s, w, req, hs, hw, hout, hph⟩ := hfirst
  have hpage : w.handler.pageSize = 0 := by
    rw [(consistent_reachable hs w (List.mem_of_getElem? hw)).1.1]
    exact Nat.eq_zero_of_not_pos hzero
  have hfaults := hruns .plain .ofList s hs (.advance 0)
  simp [System.faults, hw, Worker.faults, hout, hph, WorkerHandler.reinit, U64.checkedDiv,
    hpage] at hfaults

/-- The planned chunks have different ids. -/
theorem nodup_planned (downloadSize urgentChunkSize prefetchChunkSize n : Nat) :
    (((List.range n).map (plannedChunk downloadSize urgentChunkSize prefetchChunkSize)).map
      ChunkRequest.chunkId).Nodup := by
  have hids : ChunkRequest.chunkId ∘ plannedChunk downloadSize urgentChunkSize prefetchChunkSize =
      id := rfl
  rw [List.map_map, hids, List.map_id]
  exact List.nodup_range

/-- A planned range has bytes, and its length is a `u64`. -/
theorem wellFormed_planned {downloadSize urgentChunkSize prefetchChunkSize i : Nat}
    (hsize : downloadSize < 2 ^ 64)
    (hinside : chunkStart urgentChunkSize prefetchChunkSize i < downloadSize)
    (hgrow : chunkStart urgentChunkSize prefetchChunkSize i <
      chunkStart urgentChunkSize prefetchChunkSize (i + 1)) :
    (plannedChunk downloadSize urgentChunkSize prefetchChunkSize i).WellFormed := by
  constructor <;> simp only [plannedChunk] <;> omega

/-- Where the settings are in range, the chunks that the plan needs exist. -/
theorem plannable_of_inRange (h : b.InRange) :
    Plannable b.downloadSize b.urgentChunkSize b.prefetchChunkSize :=
  plannable_iff.mpr ⟨h.progress, h.ends⟩

/-- The plan for an input in range. -/
theorem plan_of_inRange (h : b.InRange) :
    ∃ chunks, b.plan = some chunks ∧ (chunks.map ChunkRequest.chunkId).Nodup ∧
      (∀ c ∈ chunks, c.WellFormed ∧ c.rangeEnd + 1 ≤ b.planEnd) ∧
      (chunks ≠ [] → 0 < b.pageSize) := by
  have hplannable := plannable_of_inRange h
  obtain ⟨n, hn, hplan, hinside, hstop⟩ :=
    buildBenchmarkChunks_eq (urgentBoundary_le b) b.downloadSize_lt hplannable
  refine ⟨_, hplan, nodup_planned _ _ _ _, ?_, ?_⟩
  · intro c hc
    obtain ⟨i, hi, rfl⟩ := List.mem_map.mp hc
    have hi := List.mem_range.mp hi
    have hgrow := (hplannable i (Nat.lt_of_lt_of_le hi hn) (hinside i hi)).1
    refine ⟨wellFormed_planned b.downloadSize_lt (hinside i hi) hgrow, ?_⟩
    have hcap : chunkStart b.urgentChunkSize b.prefetchChunkSize (i + 1) ≤
        chunkStart b.urgentChunkSize b.prefetchChunkSize MAX_CHUNKS :=
      chunkStart_mono (Nat.lt_of_lt_of_le hi hn)
    have hsize := hinside i hi
    simp only [plannedChunk, BenchmarkInput.planEnd]
    omega
  · -- A plan with chunks is for a file with bytes.
    intro hne
    exact h.page.resolve_right fun hzero => hne ((planned_eq_nil_iff hinside hstop).mpr hzero)

/-- Settings in range keep every run from faulting: the plan exists, the page size divides, and the
offsets of all pages fit into 64 bits. -/
theorem faultless_of_inRange (h : b.InRange) : b.Faultless (Addressable b.pageSize) := by
  obtain ⟨chunks, hplan, hids, hchunks, hpage⟩ := plan_of_inRange h
  refine ⟨maxConcurrent_isSome.mpr h.workers, chunks, hplan, fun c hc => (hchunks c hc).1.1, ?_⟩
  intro opening heap s hs a
  exact faults_eq_false hids (fun c hc => (hchunks c hc).1) hpage
    (Nat.lt_of_lt_of_le b.pageSize_lt (by decide)) hs a

/-- With a server that sends no more than it is asked for, the answers need no bound, unless
the plan reaches the last two pages of `u64`. -/
theorem faultless_of_atMostRequested (h : b.InRange)
    (hend : b.planEnd + 2 * b.pageSize ≤ 2 ^ 64) : b.Faultless AtMostRequested := by
  obtain ⟨chunks, hplan, hids, hchunks, hpage⟩ := plan_of_inRange h
  refine ⟨maxConcurrent_isSome.mpr h.workers, chunks, hplan, fun c hc => (hchunks c hc).1.1, ?_⟩
  intro opening heap s hs a
  have hends : ∀ c ∈ chunks, c.rangeEnd + 1 + 2 * b.pageSize ≤ 2 ^ 64 := by
    intro c hc
    have hle := (hchunks c hc).2
    omega
  exact faults_eq_false hids (fun c hc => (hchunks c hc).1) hpage
    (Nat.lt_of_lt_of_le b.pageSize_lt (by decide))
    (reachable_addressable hids (fun c hc => (hchunks c hc).1) hpage hends hs) a

/-- An input that is not in range faults: the number of workers or an offset of the plan overflows,
a chunk of size zero has no range, or the first request divides by a page size of zero. -/
theorem inRange_of_faultless (h : b.Faultless R) : b.InRange := by
  obtain ⟨chunks, hplan, hnonempty, -⟩ := h.plan
  obtain ⟨hprogress, hends⟩ :=
    plannable_iff.mp (plannable_of_plan (urgentBoundary_le b) hplan hnonempty)
  exact ⟨maxConcurrent_isSome.mp h.workers, page_of_faultless h, hprogress, hends⟩

end

/-- A benchmark whose answers stay in bounds runs without arithmetic faults exactly when its
input is in range. -/
theorem faultless_iff (b : BenchmarkInput) : b.Faultless (Addressable b.pageSize) ↔ b.InRange :=
  ⟨inRange_of_faultless, faultless_of_inRange⟩

/-- The defaults with pages of 0 KiB, for a file of one byte. -/
def BenchmarkInput.zeroPages : BenchmarkInput where
  defaults := { DefaultsConfig.default with pageSizeKb := 0 }
  args := .default
  contentLength := some 1

/-- A run of it faults, even if the server sends no more than it is asked for. -/
theorem not_faultless_zeroPages : ¬ BenchmarkInput.zeroPages.Faultless AtMostRequested := by
  intro h
  have hrange := (inRange_of_faultless h).page
  revert hrange
  decide

end FrontierSim
