import FrontierSim.Proofs.Steps

/-!
# `FrontierSim.Proofs.Handler`: a worker and its request

Two invariants of a single worker, for every run.

`Worker.Fits` says which event can wait in the outbox at which point of the loop.

`Worker.Consistent` relates the handler to the request. During `perform`, the position in
the file that the page counters stand for has moved by as many bytes as were received,
starting from the page that contains `range_start` (`Handling.position`). After `perform`,
the byte count is the length of the body, and the chunk is complete exactly when the body
is at least as long as the requested range.
-/

set_option autoImplicit false

namespace FrontierSim

open Lib

/-! ### The outbox -/

/-- An event that can wait to be sent in a phase. -/
inductive Pending : Phase → TraceEvent → Prop
  | started (req : Request) (timestampNs : Nat) :
      Pending (.ready req) (.requestStarted (req.started timestampNs))
  | page {req : Request} {t : Transfer} {left : List Callback} {remaining : Nat}
      {e : PageCompleted} (hid : e.requestId = req.requestId) :
      Pending (.performing req t left remaining) (.pageCompleted e)
  | partialPage {req : Request} {t : Transfer} {bytes : Nat} {isComplete : Bool}
      {e : PageCompleted} (hid : e.requestId = req.requestId) :
      Pending (.finishing req t bytes isComplete) (.pageCompleted e)
  | finished {req : Request} {t : Transfer} {bytes : Nat} {isComplete : Bool}
      (timestampNs : Nat) :
      Pending (.reporting req t bytes isComplete)
        (.requestFinished (req.finished t bytes t.finalStatus timestampNs))
  | prereq {req : Request} {t : Transfer} {bytes : Nat} {isComplete : Bool}
      (timestampNs : Nat) :
      Pending (.committing req t bytes isComplete)
        (.requestPrereq (req.prereq t timestampNs))

/-- An announcement waits before `perform` only, and it is that of the request. -/
theorem Pending.started_eq {phase : Phase} {e : RequestStarted}
    (h : Pending phase (.requestStarted e)) :
    ∃ (req : Request) (timestampNs : Nat), phase = .ready req ∧ e = req.started timestampNs := by
  cases h
  exact ⟨_, _, rfl, rfl⟩

/-! ### The handler -/

/-- The handler works on the request. The pages that it counts start at the page of
`range_start`, and they have taken up all bytes received. -/
structure Handling (pageSize : Nat) (req : Request) (h : WorkerHandler) : Prop where
  requestId : h.requestId = req.requestId
  chunkId : h.chunkId = req.chunk.chunkId
  page : h.currentPageBytes < pageSize
  position : h.currentPageIndex * pageSize + h.currentPageBytes
    = req.chunk.rangeStart / pageSize * pageSize + h.bytesReceived

/-- What the reactor derives from the byte count of a finished request. -/
structure Counted (req : Request) (t : Transfer) (bytes : Nat) (isComplete : Bool) : Prop where
  bytes : bytes = t.bodyBytes
  start_le : req.chunk.rangeStart ≤ req.chunk.rangeEnd
  isComplete : isComplete = true ↔ req.chunk.rangeEnd + 1 ≤ req.chunk.rangeStart + t.bodyBytes

namespace Worker

/-- The event that waits to be sent is one that the phase can have. -/
def Fits (w : Worker) : Prop := ∀ e ∈ w.outbox, Pending w.phase e

/-- The handler and the byte count agree with the request of the phase. -/
def Consistent (pageSize : Nat) (w : Worker) : Prop :=
  w.handler.pageSize = pageSize ∧
  match w.phase with
  | .ready req =>
    Handling pageSize req w.handler ∧ w.handler.bytesReceived = 0 ∧
      w.handler.responseCode = none
  | .performing req t left remaining =>
    Handling pageSize req w.handler ∧
      w.handler.bytesReceived + remaining + (left.map Callback.bytes).sum = t.bodyBytes ∧
      left.foldl Callback.code w.handler.responseCode = t.finalStatus
  | .finishing req t bytes isComplete =>
    Handling pageSize req w.handler ∧ w.handler.bytesReceived = t.bodyBytes ∧
      w.handler.responseCode = t.finalStatus ∧ Counted req t bytes isComplete
  | .reporting req t bytes isComplete | .committing req t bytes isComplete =>
    0 < pageSize ∧ Counted req t bytes isComplete
  | _ => True

end Worker

/-! ### One pass of `write` -/

/-- A pass that leaves the page open takes everything. -/
theorem writePass_open {h : WorkerHandler} {remaining : Nat} (now : Nat)
    (hlt : h.currentPageBytes + remaining < h.pageSize) :
    h.writePass remaining now = (h.consume remaining, 0, none) := by
  have hmin : min remaining (h.pageSize - h.currentPageBytes) = remaining := by omega
  have hopen : ¬ (h.consume remaining).currentPageBytes ≥ (h.consume remaining).pageSize := by
    simp only [WorkerHandler.consume]
    omega
  simp only [WorkerHandler.writePass, hmin, if_neg hopen, Nat.sub_self]

/-- A pass that completes the page takes the rest of the page and reports it. -/
theorem writePass_full {h : WorkerHandler} {remaining : Nat} (now : Nat)
    (hpage : h.currentPageBytes < h.pageSize)
    (hle : h.pageSize ≤ h.currentPageBytes + remaining) :
    h.writePass remaining now
      = ((h.consume (h.pageSize - h.currentPageBytes)).nextPage,
          remaining - (h.pageSize - h.currentPageBytes),
          some ((h.consume (h.pageSize - h.currentPageBytes)).pageCompleted now)) := by
  have hmin : min remaining (h.pageSize - h.currentPageBytes)
      = h.pageSize - h.currentPageBytes := by omega
  have hfull : (h.consume (h.pageSize - h.currentPageBytes)).currentPageBytes
      ≥ (h.consume (h.pageSize - h.currentPageBytes)).pageSize := by
    simp only [WorkerHandler.consume]
    omega
  simp only [WorkerHandler.writePass, hmin, if_pos hfull]

variable {pageSize : Nat} {req : Request} {h : WorkerHandler}

/-- Bytes that do not fill the page move the position within it. -/
theorem Handling.consume (hh : Handling pageSize req h) {n : Nat}
    (hlt : h.currentPageBytes + n < pageSize) : Handling pageSize req (h.consume n) where
  requestId := hh.requestId
  chunkId := hh.chunkId
  page := hlt
  position := by
    have := hh.position
    simp only [WorkerHandler.consume]
    omega

/-- Consuming the rest of the page and turning it. -/
theorem Handling.nextPage (hh : Handling pageSize req h) :
    Handling pageSize req (h.consume (pageSize - h.currentPageBytes)).nextPage where
  requestId := hh.requestId
  chunkId := hh.chunkId
  page := Nat.lt_of_le_of_lt (Nat.zero_le _) hh.page
  position := by
    have hpage := hh.page
    have hpos := hh.position
    simp only [WorkerHandler.consume, WorkerHandler.nextPage, Nat.succ_mul]
    omega

/-! ### The invariants of a worker -/

/-- The state of a worker's own loop in `write`: what a pass keeps. -/
theorem consistent_write {w : Worker} {now : Nat} {t : Transfer} {left : List Callback}
    {remaining : Nat} (hw : w.Consistent pageSize)
    (hph : w.phase = .performing req t left remaining) :
    (w.writeStep now req t left remaining).Consistent pageSize ∧
      (w.writeStep now req t left remaining).Fits := by
  obtain ⟨hsize, hphase⟩ := hw
  rw [hph] at hphase
  obtain ⟨hh, hbytes, hcode⟩ := hphase
  have hpage : w.handler.currentPageBytes < w.handler.pageSize := hsize ▸ hh.page
  -- The callback ends inside the page, or it fills the page and goes on in the next one.
  rcases Nat.lt_or_ge (w.handler.currentPageBytes + remaining) w.handler.pageSize with hlt | hge
  · simp only [Worker.writeStep, writePass_open now hlt]
    refine ⟨⟨hsize, hh.consume (hsize ▸ hlt), ?_, hcode⟩, ?_⟩
    · simpa only [WorkerHandler.consume, Nat.add_zero] using hbytes
    · intro e he
      cases he
  · simp only [Worker.writeStep, writePass_full now hpage hge]
    refine ⟨⟨hsize, ?_, ?_, hcode⟩, ?_⟩
    · rw [hsize]
      exact hh.nextPage
    · simp only [WorkerHandler.consume, WorkerHandler.nextPage]
      omega
    · intro e he
      cases he
      exact .page hh.requestId

/-- A new worker has no request and no event. -/
theorem consistent_new (pageSize : Nat) :
    (Worker.new pageSize).Consistent pageSize ∧ (Worker.new pageSize).Fits :=
  ⟨⟨rfl, trivial⟩, nofun⟩

/-- The worker's own code keeps the handler in line with the request, and builds only the event of
its phase. -/
theorem consistent_local {w w' : Worker} {now : Nat} {delivery : Option Delivery}
    (hw : w.Consistent pageSize) (hout : w.outbox = none)
    (hlocal : LocalMoves w now w' delivery) : w'.Consistent pageSize ∧ w'.Fits := by
  -- The outbox is empty before, and most actions leave it so.
  have hnone : ∀ {v : Worker}, v.outbox = w.outbox → v.Fits := by
    intro v hv e he
    rw [hv, hout] at he
    cases he
  obtain ⟨hsize, hphase⟩ := id hw
  cases hlocal with
  | panicBegin => exact ⟨⟨hsize, trivial⟩, hnone rfl⟩
  | panicReturn => exact ⟨⟨hsize, trivial⟩, hnone rfl⟩
  | @begin req hph hpos =>
    -- `reinit` starts at the page of `range_start`, with nothing received.
    refine ⟨⟨hsize, ⟨rfl, rfl, hsize ▸ hpos, ?_⟩, rfl, rfl⟩, ?_⟩
    · simp only [hsize]
    · intro e he
      cases he
      exact .started _ _
  | write hph hpos => exact consistent_write hw hph
  | header hph =>
    rw [hph] at hphase
    obtain ⟨hh, hbytes, hcode⟩ := hphase
    refine ⟨⟨hsize, ⟨hh.requestId, hh.chunkId, hh.page, hh.position⟩, ?_, hcode⟩, hnone rfl⟩
    simpa [Callback.bytes, WorkerHandler.header] using hbytes
  | body hph =>
    rw [hph] at hphase
    obtain ⟨hh, hbytes, hcode⟩ := hphase
    refine ⟨⟨hsize, hh, ?_, hcode⟩, hnone rfl⟩
    simpa [Callback.bytes, Nat.add_assoc] using hbytes
  | @«return» req t expected hph hexp =>
    rw [hph] at hphase
    obtain ⟨hh, hbytes, hcode⟩ := hphase
    have hbytes : w.handler.bytesReceived = t.bodyBytes := by simpa using hbytes
    obtain ⟨hle, -, rfl⟩ := PrioritizedChunk.expected_eq_some.mp hexp
    refine ⟨⟨hsize, hh, hbytes, hcode, hbytes, hle, ?_⟩, ?_⟩
    · -- `bytes_received >= expected`, and `expected` is the length of the range.
      rw [decide_eq_true_iff, ← hbytes]
      omega
    · intro e he
      dsimp only at he
      split at he
      · cases he
        exact .partialPage hh.requestId
      · cases he
  | finish hph =>
    rw [hph] at hphase
    obtain ⟨hh, -, hcode, hcounted⟩ := hphase
    refine ⟨⟨hsize, Nat.zero_lt_of_lt hh.page, hcounted⟩, ?_⟩
    intro e he
    cases he
    rw [hcode]
    exact .finished _
  | report hph =>
    rw [hph] at hphase
    refine ⟨⟨hsize, hphase⟩, ?_⟩
    intro e he
    cases he
    exact .prereq _

/-- Whatever happens to a worker in a step keeps it consistent, be it by its own code or by a
critical section. -/
theorem consistent_moves {w w' : Worker} (hw : w.Consistent pageSize ∧ w.Fits)
    (hmoves : WorkerMoves w w') : w'.Consistent pageSize ∧ w'.Fits := by
  obtain ⟨hcons, -⟩ := hw
  obtain ⟨hsize, hphase⟩ := id hcons
  have hnone : ∀ {v : Worker}, v.outbox = none → v.Fits := by
    intro v hv e he
    rw [hv] at he
    cases he
  cases hmoves with
  | send => exact ⟨hcons, hnone rfl⟩
  | idle hout _ hloop =>
    refine ⟨⟨hsize, ?_⟩, hnone hout⟩
    rcases hloop with rfl | rfl | rfl | rfl <;> trivial
  | pop hout | assignId _ hout | commit hout => exact ⟨⟨hsize, trivial⟩, hnone hout⟩
  | perform t hout hph =>
    rw [hph] at hphase
    obtain ⟨hh, hzero, hcode⟩ := hphase
    -- All callbacks are still to come.
    refine ⟨⟨hsize, hh, ?_, ?_⟩, hnone hout⟩
    · rw [hzero, Nat.zero_add, Transfer.bodyBytes]
    · rw [hcode, Transfer.finalStatus]
  | work hout hlocal => exact consistent_local hcons hout hlocal

variable {heap : ChunkHeap} {config : ReactorConfig} {chunks : List ChunkRequest}
  {opening : RunStarted} {ok : System → Label → Prop} {s : System}

/-- Both invariants, for every worker of every reachable state. -/
theorem consistent_reachable (h : (benchmark opening heap config chunks).Reachable ok s) :
    ∀ w ∈ s.workers, w.Consistent config.pageSize ∧ w.Fits :=
  workers_invariant h (consistent_new _) fun _ _ hw hmoves => consistent_moves hw hmoves

end FrontierSim
