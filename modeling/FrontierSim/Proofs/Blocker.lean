import FrontierSim.Cli.Plan
import FrontierSim.Proofs.Conservation
import FrontierSim.Proofs.Feedback

/-!
# `FrontierSim.Proofs.Blocker`: the lane of a queued retry

The lane of a retry is decided once, by the commit section that queues it
(`lane_of_requeues`). `origin_reachable` finds that section in the past of a run for every
retry in the queue. So what a queued retry is worth depends on the frontier value that the
reactor had then: a retry that blocks the frontier is urgent when the value has advanced by no
more than a page since (`blocker_urgent`), and it can be left in the prefetch lane otherwise
(`stranded_blocker`).
-/

set_option autoImplicit false

namespace FrontierSim

open Lib

/-- The commit section of a worker in the state `s` queues `entry` for the rest of the chunk
of `req`. -/
def Requeues (heap : ChunkHeap) (config : ReactorConfig) (s : System) (req : Request)
    (entry : PrioritizedChunk) (s' : System) : Prop :=
  ∃ (i : Nat) (w : Worker) (t : Transfer) (bytes : Nat) (isComplete : Bool),
    s.workers[i]? = some w ∧ w.outbox = none ∧ w.phase = .committing req t bytes isComplete ∧
    s.shared.commitFate config.pageSize req.chunk bytes isComplete s.now = .retry entry ∧
    s' = s.commit heap config i w req t bytes isComplete

variable {heap : ChunkHeap} {config : ReactorConfig} {chunks : List ChunkRequest}
  {opening : RunStarted} {ok : System → Label → Prop} {s s' : System} {a : Label}
  {entry : PrioritizedChunk}

/-- A retry is urgent when its chunk was, or when the chunk starts at most a page beyond the
frontier that the reactor knows of. -/
theorem lane_of_requeues {req : Request} (h : Requeues heap config s req entry s') :
    entry.lane = .urgent ↔
      req.chunk.lane = .urgent ∨
        req.chunk.rangeStart ≤ s.shared.frontierByte + config.pageSize := by
  obtain ⟨i, w, t, bytes, isComplete, -, -, -, hfate, -⟩ := h
  rw [(retry_of_commitFate hfate).1]
  show (if isFrontierBlocker s.shared.frontierByte config.pageSize req.chunk.rangeStart then
    Lane.urgent else req.chunk.lane) = .urgent ↔ _
  unfold isFrontierBlocker
  split
  · rename_i hnear
    exact iff_of_true rfl (Or.inr (of_decide_eq_true hnear))
  · rename_i hfar
    rw [decide_eq_true_iff] at hfar
    exact (or_iff_left hfar).symm

/-- A retry is about the rest of its chunk. -/
theorem range_of_requeues {req : Request} (h : Requeues heap config s req entry s') :
    entry.chunkId = req.chunk.chunkId ∧ req.chunk.rangeStart ≤ entry.rangeStart ∧
      entry.rangeEnd = req.chunk.rangeEnd := by
  obtain ⟨i, w, t, bytes, isComplete, -, -, -, hfate, -⟩ := h
  rw [(retry_of_commitFate hfate).1]
  exact ⟨rfl, Nat.le_add_right _ _, rfl⟩

/-- What is in the queue after a step was there before, or the step queued it. -/
theorem queue_of_moves (h : Moves heap config s a s') (hmem : entry ∈ s'.shared.chunkQueue) :
    entry ∈ s.shared.chunkQueue ∨ ∃ req, Requeues heap config s req entry s' := by
  cases h with
  | checkTime =>
    unfold System.checkTime at hmem
    split at hmem <;> exact Or.inl hmem
  | recheck =>
    unfold System.recheck at hmem
    split at hmem <;> exact Or.inl hmem
  | pop ticks =>
    left
    unfold System.popChunk at hmem
    split at hmem
    · exact hmem
    · -- The pop section only takes entries out.
      obtain ⟨dropped, -, hperm⟩ :=
        (selects_popNext heap s.shared.completedChunks s.shared.chunkQueue ⟨s.now, ticks⟩).split
      rw [← hperm.mem_iff, List.mem_append, List.mem_append]
      exact Or.inr (Or.inl hmem)
  | @commit i w req t bytes isComplete hw hout hph =>
    simp only [System.commit, SharedState.commit] at hmem
    cases hfate : s.shared.commitFate config.pageSize req.chunk bytes isComplete s.now with
    | done =>
      rw [hfate] at hmem
      exact Or.inl hmem
    | givenUp =>
      rw [hfate] at hmem
      exact Or.inl hmem
    | retry queued =>
      rw [hfate] at hmem
      rcases List.mem_cons.mp ((heap.push_perm s.shared.chunkQueue queued).mem_iff.mp hmem) with
        rfl | hmem
      · exact Or.inr ⟨req, i, w, t, bytes, isComplete, hw, hout, hph, hfate, rfl⟩
      · exact Or.inl hmem
  | _ => exact Or.inl hmem

/-- Every retry in the queue was queued by a commit section earlier in the run. -/
theorem origin_reachable (h : (benchmark opening heap config chunks).Reachable ok s)
    (hmem : entry ∈ s.shared.chunkQueue) (hretry : entry.retryAfter ≠ none) :
    ∃ (s₀ s₁ : System) (req : Request), (benchmark opening heap config chunks).Reachable ok s₀ ∧
      Requeues heap config s₀ req entry s₁ ∧
      (benchmark opening heap config chunks).Path ok s₁ s := by
  revert hmem
  refine h.invariant_of (J := (benchmark opening heap config chunks).Reachable ok)
    (P := fun s => entry ∈ s.shared.chunkQueue → ∃ (s₀ s₁ : System) (req : Request),
      (benchmark opening heap config chunks).Reachable ok s₀ ∧
      Requeues heap config s₀ req entry s₁ ∧
      (benchmark opening heap config chunks).Path ok s₁ s) (fun _ h => h) ?_ ?_
  · -- The planned chunks carry no backoff.
    intro hmem
    obtain ⟨chunk, -, rfl⟩ := List.mem_map.mp ((heap.pushAll_nil_perm _).mem_iff.mp hmem)
    exact absurd rfl hretry
  · intro s a s' hs _ ih hok hstep hmem
    rcases queue_of_moves (moves_of_step hstep) hmem with hmem | ⟨req, hreq⟩
    · obtain ⟨s₀, s₁, req, hs₀, hreq, hpath⟩ := ih hmem
      exact ⟨s₀, s₁, req, hs₀, hreq, hpath.tail hok hstep⟩
    · exact ⟨s, s', req, hs, hreq, .refl⟩

/-- A retry is urgent when its chunk was, or when the chunk started at most a page beyond the
frontier that the reactor knew when it queued the retry. So a blocker is urgent when the
frontier moved by at most a page since. An urgent retry that is ready goes before every
prefetch entry. -/
theorem blocker_urgent (h : (benchmark opening heap config chunks).Reachable TransitionSystem.any s)
    (hmem : entry ∈ s.shared.chunkQueue) (hretry : entry.retryAfter ≠ none) :
    (∃ (s₀ s₁ : System) (req : Request),
      (benchmark opening heap config chunks).Reachable TransitionSystem.any s₀ ∧
      Requeues heap config s₀ req entry s₁ ∧
      (benchmark opening heap config chunks).Path TransitionSystem.any s₁ s ∧
      (entry.lane = .urgent ↔ req.chunk.lane = .urgent ∨
        req.chunk.rangeStart ≤ s₀.shared.frontierByte + config.pageSize) ∧
      (entry.rangeStart ≤ s.shared.frontierByte →
        s.shared.frontierByte ≤ s₀.shared.frontierByte + config.pageSize →
        entry.lane = .urgent)) ∧
    (entry.lane = .urgent → entry.ReadyAt s.now → entry.chunkId ∉ s.shared.completedChunks →
      ∀ ticks c, (popNext heap s.shared.completedChunks s.shared.chunkQueue ⟨s.now, ticks⟩).1
        = some c → c.lane = .urgent ∧ c.rangeStart ≤ entry.rangeStart) := by
  constructor
  · obtain ⟨s₀, s₁, req, hs₀, hreq, hpath⟩ := origin_reachable h hmem hretry
    refine ⟨s₀, s₁, req, hs₀, hreq, hpath, lane_of_requeues hreq, fun hstart hmoved => ?_⟩
    -- The retry starts no earlier than its chunk, and the frontier has not gone far.
    have hchunk := (range_of_requeues hreq).2.1
    exact (lane_of_requeues hreq).mpr (Or.inr (by omega))
  · intro hurgent hready hfresh ticks c hc
    obtain ⟨c', hc', hle⟩ := (selects_popNext heap s.shared.completedChunks s.shared.chunkQueue
      ⟨s.now, ticks⟩).best entry hmem hfresh hready
    rw [Option.mem_unique hc' hc, PrioritizedChunk.le_iff, hurgent] at hle
    rcases hle with ⟨hprefetch, -⟩ | ⟨hlane, hstart⟩
    · cases hprefetch
    · exact ⟨hlane.symm, hstart⟩

/-- Worker `i` performs its request, curl makes the callbacks, and the worker does `actions`
actions. -/
def performBy (i : Nat) (callbacks : List Callback) (actions : Nat) : List Label :=
  Label.advances i 3 ++ [.perform i (.ofCallbacks callbacks)] ++ Label.advances i actions

/-- A prefetch chunk that starts a page beyond the frontier fails, and its retry is urgent. -/
theorem blocker_urgent_next_page :
    ∃ s, (benchmark .plain .ofList (.unlimited 1 4) [⟨0, 4, 7, .prefetch⟩]).Reachable
        TransitionSystem.any s ∧
      (∃ (s₀ s₁ : System) (req : Request), Requeues .ofList (.unlimited 1 4) s₀ req
        ⟨0, 4, 7, .urgent, 1, some 500000000⟩ s₁) ∧
      ∀ ticks c, (popNext .ofList s.shared.completedChunks s.shared.chunkQueue ⟨s.now, ticks⟩).1
        = some c → c.lane = .urgent ∧ c.rangeStart ≤ 4 := by
  obtain ⟨s, hs, hmem, hnow, hfresh⟩ := TransitionSystem.exists_reachable_of_run
    (benchmark .plain .ofList (.unlimited 1 4) [⟨0, 4, 7, .prefetch⟩]) TransitionSystem.any
    ([.advance 0, .pop 0 []] ++ performBy 0 [] 6 ++ [.tick 500000000])
    (P := fun s => ⟨0, 4, 7, .urgent, 1, some 500000000⟩ ∈ s.shared.chunkQueue ∧
      s.now = 500000000 ∧ 0 ∉ s.shared.completedChunks) (by decide)
  obtain ⟨⟨s₀, s₁, req, -, hreq, -⟩, hserved⟩ := blocker_urgent hs hmem (by decide)
  refine ⟨s, hs, ⟨s₀, s₁, req, hreq⟩, hserved rfl (fun retryAt hretry => ?_) hfresh⟩
  cases hretry
  exact hnow.ge

/-- Three chunks of a file of 12 bytes. -/
def strandedChunks : List ChunkRequest :=
  [⟨0, 0, 3, .urgent⟩, ⟨1, 4, 7, .urgent⟩, ⟨2, 8, 11, .prefetch⟩]

/-- The prefetch chunk fails while the frontier is at 0. Then the two chunks before it arrive,
and its retry blocks the frontier from the prefetch lane. -/
theorem stranded_blocker :
    buildBenchmarkChunks 12 4 8 = some strandedChunks ∧
    ∃ s, (benchmark .plain .ofList (.unlimited 3 4) strandedChunks).Reachable
        TransitionSystem.any s ∧
      (s.events.future = [] ∧ (∀ w ∈ s.workers, w.outbox = none) ∧ s.FeedbackDrained) ∧
      s.shared.frontierByte = s.runner.tracker.contiguousFrontierBytes ∧
      ∃ c ∈ s.shared.chunkQueue, c.retryAfter ≠ none ∧ c.rangeStart ≤ s.shared.frontierByte ∧
        s.shared.frontierByte ≤ c.rangeEnd ∧ c.lane = .prefetch := by
  refine ⟨by decide, ?_⟩
  exact TransitionSystem.exists_reachable_of_run
    (benchmark .plain .ofList (.unlimited 3 4) strandedChunks) TransitionSystem.any
    ([.advance 0, .pop 0 [], .advance 1, .pop 1 [], .advance 2, .pop 2 []] ++
      performBy 2 [] 6 ++ performBy 0 [.write 4] 3 ++ performBy 1 [.write 4] 3 ++
      List.replicate 9 .track ++ [.receive, .store, .receive, .store])
    (by decide)

end FrontierSim
