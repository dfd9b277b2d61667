import FrontierSim.Proofs.Conservation
import FrontierSim.Proofs.Handler

/-!
# `FrontierSim.Proofs.Shutdown`: how a run ends

A worker leaves its loop when the time expired, or when it finds the queue empty after a
pop that found nothing. Another worker can still queue a retry after that. `Attended` is
the invariant that makes this harmless: as long as an entry waits and the time has not
expired, some worker is still in its loop, since the worker that queued the entry is.

`Frozen s s'` is what the expiry in `s` fixes for every later state `s'`.
-/

set_option autoImplicit false

namespace FrontierSim

open Lib

variable {heap : ChunkHeap} {config : ReactorConfig} {chunks : List ChunkRequest}
  {opening : RunStarted} {ok : System → Label → Prop} {s s' : System} {a : Label}

/-! ### Without expiry -/

/-- Queued entries have a worker that will come back for them. -/
def Attended (s : System) : Prop :=
  s.shared.timeExpired = false → s.shared.chunkQueue ≠ [] → ∃ w ∈ s.workers, w.phase ≠ .exited

/-- A worker with an event to send has not left. -/
theorem not_exited_of_pending {phase : Phase} {e : TraceEvent} (h : Pending phase e) :
    phase ≠ .exited := by
  cases h <;> simp

/-- A worker does not leave by its own code, but at one of the three checks. -/
theorem not_exited_of_local {w w' : Worker} {now : Nat} {delivery : Option Delivery}
    (h : LocalMoves w now w' delivery) : w'.phase ≠ .exited := by
  cases h <;> simp [Worker.writeStep]

/-- One step keeps the queue attended. A worker leaves at the time check or in the pop section with
the flag set, and after the sleep only where it saw an empty queue under the lock. Whoever queues
an entry is at the head of its loop then. -/
theorem attended_step (hfits : ∀ w ∈ s.workers, w.Fits) (hA : Attended s)
    (hmoves : Moves heap config s a s') : Attended s' := by
  cases hmoves with
  | tick | track | receive | store | join => exact hA
  | @send i w event hw hout =>
    intro _ _
    refine ⟨_, mem_set_self hw, ?_⟩
    exact not_exited_of_pending (hfits w (List.mem_of_getElem? hw) event hout)
  | checkTime hw =>
    unfold System.checkTime
    split
    · -- The worker leaves, and so the time has expired.
      intro hexpired
      cases hexpired
    · exact fun _ _ => ⟨_, mem_set_self hw, by simp⟩
  | recheck hw =>
    unfold System.recheck
    split
    · -- The worker leaves because it saw an empty queue.
      rename_i hempty
      intro _ hne
      simp only [Bool.and_eq_true, List.isEmpty_iff] at hempty
      exact absurd hempty.1 hne
    · exact fun _ _ => ⟨_, mem_set_self hw, by simp⟩
  | pop ticks hw =>
    unfold System.popChunk
    split
    · -- The worker leaves because it saw the flag.
      rename_i hexp
      intro hexpired
      exact absurd (hexp.symm.trans hexpired) (by decide)
    · refine fun _ _ => ⟨_, mem_set_self hw, ?_⟩
      split <;> simp
  | assignId hw => exact fun _ _ => ⟨_, mem_set_self hw, by simp⟩
  | commit hw =>
    -- A worker that queues a retry goes around its loop once more.
    exact fun _ _ => ⟨_, mem_set_self hw, by simp⟩
  | perform t hw => exact fun _ _ => ⟨_, mem_set_self hw, by simp⟩
  | work hw hout hlocal =>
    exact fun _ _ => ⟨_, mem_set_self hw, not_exited_of_local (localStep_cases hlocal)⟩

/-- In every reachable state before expiry, a queue that is not empty has a worker that will come
back to it. -/
theorem attended_reachable (hworkers : 0 < config.maxConcurrent)
    (h : (benchmark opening heap config chunks).Reachable ok s) : Attended s := by
  refine reachable_invariant_of (J := fun s => ∀ w ∈ s.workers, w.Fits) h
    (fun _ h w hw => (consistent_reachable h w hw).2) ?_ ?_
  · intro _ _
    refine ⟨.new config.pageSize, ?_, by simp [Worker.new]⟩
    exact List.mem_replicate.mpr ⟨Nat.pos_iff_ne_zero.mp hworkers, rfl⟩
  · intro s a s' hfits _ hA _ hmoves
    exact attended_step hfits hA hmoves

/-- When nothing is queued and nothing is held, every chunk has its outcome. -/
theorem settled_of_covered (hB : Booked s)
    (hC : WorkQueue.Covered PrioritizedChunk.chunkId (entries chunks) s.workQueue)
    (hqueue : s.shared.chunkQueue = []) (hheld : ∀ w ∈ s.workers, w.held = none) :
    ∀ c ∈ chunks, c.chunkId ∈ s.shared.completedChunks ∨ c.chunkId ∈ s.givenUp := by
  intro c hc
  rcases hC c.entry (List.mem_map_of_mem hc) with hlive | ⟨commit, hcommit, hfinal, hkey⟩
  · refine absurd ?_ hlive
    have hnone : heldChunks s.workers = 0 := by
      rw [heldChunks, List.filterMap_eq_nil_iff.mpr hheld]
      rfl
    simp [WorkQueue.liveAt, System.workQueue, hqueue, hnone]
  · rw [Fate.isFinal_eq, Bool.or_eq_true] at hfinal
    rcases hfinal with hdone | hgivenUp
    · exact Or.inl ((hB.completed _).mpr ⟨commit, hcommit, hdone, hkey⟩)
    · right
      rw [System.givenUp, List.mem_map]
      exact ⟨commit, List.mem_filter.mpr ⟨hcommit, hgivenUp⟩, hkey⟩

/-! ### After expiry -/

/-- The time has expired in `s`, and `s'` comes after. The queue is as it was, and what is
held, or has been requested since, was held by a worker in `s`. -/
structure Frozen (s s' : System) : Prop where
  timeExpired : s'.shared.timeExpired = true
  chunkQueue : s'.shared.chunkQueue = s.shared.chunkQueue
  held : ∀ w' ∈ s'.workers, ∀ c ∈ w'.held, ∃ w ∈ s.workers, w.held = some c
  started : ∃ sent, s'.events.sent = s.events.sent ++ sent ∧
    ∀ e ∈ sent.filterMap TraceEvent.started?, ∃ w ∈ s.workers, ∃ c, w.held = some c ∧
      ∃ requestId timestampNs, e = Request.started ⟨requestId, c⟩ timestampNs

/-- Nothing has happened yet since `s`. -/
theorem frozen_refl (hexpired : s.shared.timeExpired = true) : Frozen s s where
  timeExpired := hexpired
  chunkQueue := rfl
  held w hw c hc := ⟨w, hw, hc⟩
  started := ⟨[], (List.append_nil _).symm, by simp⟩

/-- After expiry a step leaves the flag and the queue alone. -/
theorem queue_of_expired (hexpired : s.shared.timeExpired = true)
    (hmoves : Moves heap config s a s') :
    s'.shared.timeExpired = true ∧ s'.shared.chunkQueue = s.shared.chunkQueue := by
  cases hmoves with
  | tick | send | assignId | work | perform | track | receive | store | join =>
    exact ⟨hexpired, rfl⟩
  | checkTime =>
    unfold System.checkTime
    split <;> exact ⟨by first | rfl | exact hexpired, rfl⟩
  | recheck =>
    unfold System.recheck
    split <;> exact ⟨hexpired, rfl⟩
  | pop =>
    unfold System.popChunk
    rw [if_pos hexpired]
    exact ⟨hexpired, rfl⟩
  | @commit i w req t bytes isComplete =>
    -- A transfer that is not complete gives its chunk up.
    simp only [System.commit, SharedState.commit, SharedState.commitFate, hexpired,
      Bool.not_true, Bool.false_and, Bool.false_eq_true, if_false]
    split <;> exact ⟨rfl, rfl⟩

/-- When a worker keeps its chunk or drops it, nobody holds a chunk that was not held before. -/
theorem held_setWorker {ws : List Worker} {i : Nat} {w w' : Worker} (hw : ws[i]? = some w)
    (hheld : w'.held = w.held ∨ w'.held = none) :
    ∀ v ∈ ws.set i w', ∀ c ∈ v.held, ∃ u ∈ ws, u.held = some c := by
  refine forall_setWorker (fun v hv c hc => ⟨v, hv, hc⟩) ?_
  intro c hc
  rcases hheld with heq | heq
  · exact ⟨w, List.mem_of_getElem? hw, heq ▸ hc⟩
  · rw [heq] at hc
    cases hc

/-- After expiry no worker takes a chunk. -/
theorem held_of_expired (hexpired : s.shared.timeExpired = true)
    (hmoves : Moves heap config s a s') :
    ∀ w' ∈ s'.workers, ∀ c ∈ w'.held, ∃ w ∈ s.workers, w.held = some c := by
  cases hmoves with
  | tick | track | receive | store | join => exact fun w hw c hc => ⟨w, hw, hc⟩
  | send hw => exact held_setWorker hw (Or.inl rfl)
  | checkTime hw =>
    unfold System.checkTime
    split <;> exact held_setWorker hw (Or.inr rfl)
  | recheck hw =>
    unfold System.recheck
    split <;> exact held_setWorker hw (Or.inr rfl)
  | pop ticks hw =>
    -- The pop section looks at the flag first.
    unfold System.popChunk
    rw [if_pos hexpired]
    exact held_setWorker hw (Or.inr rfl)
  | assignId hw hout hph => exact held_setWorker hw (Or.inl (held_of_phase hph).symm)
  | commit hw => exact held_setWorker hw (Or.inr rfl)
  | perform t hw hout hph => exact held_setWorker hw (Or.inl (held_of_phase hph).symm)
  | work hw hout hlocal => exact held_setWorker hw (Or.inl (held_of_localStep hlocal))

/-- One step keeps the queue frozen. The pop section finds the flag set and takes nothing, and a
commit under the flag completes its chunk or gives it up. -/
theorem frozen_step {s₀ : System} (hfits : ∀ w ∈ s.workers, w.Fits) (hF : Frozen s₀ s)
    (hmoves : Moves heap config s a s') : Frozen s₀ s' := by
  obtain ⟨hexpired, hqueue⟩ := queue_of_expired hF.timeExpired hmoves
  refine ⟨hexpired, hqueue.trans hF.chunkQueue, ?_, ?_⟩
  · intro w' hw' c hc
    obtain ⟨w, hw, hheld⟩ := held_of_expired hF.timeExpired hmoves w' hw' c hc
    exact hF.held w hw c hheld
  · obtain ⟨sent, hsent, hstarted⟩ := hF.started
    rcases trace_cases hmoves with ⟨new, hnew, -, hfrom⟩ | ⟨event, hrecv, -⟩
    · refine ⟨sent ++ new, by rw [hnew, Channel.sent_sendAll, hsent, List.append_assoc], ?_⟩
      intro e he
      rw [List.filterMap_append, List.mem_append] at he
      rcases he with he | he
      · exact hstarted e he
      · -- A request that starts now waited in the outbox of a worker with its chunk.
        obtain ⟨event, hevent, hsome⟩ := List.mem_filterMap.mp he
        rcases hfrom event hevent with ⟨i, w, hw, hout⟩ | ⟨r, rfl⟩ | ⟨r, rfl⟩
        · have hmem := List.mem_of_getElem? hw
          rw [TraceEvent.started?_eq_some.mp hsome] at hout
          obtain ⟨req, ts, hph, rfl⟩ := (hfits w hmem _ hout).started_eq
          obtain ⟨w₀, hw₀, hheld⟩ := hF.held w hmem req.chunk (held_of_phase hph)
          exact ⟨w₀, hw₀, req.chunk, hheld, req.requestId, ts, rfl⟩
        · cases hsome
        · cases hsome
    · exact ⟨sent, (Channel.past_recv hrecv).2.trans hsent, hstarted⟩

/-- From the first state with the flag on, the queue is frozen along every path. -/
theorem frozen_of_path (h : (benchmark opening heap config chunks).Reachable ok s)
    (hexpired : s.shared.timeExpired = true)
    (hpath : (benchmark opening heap config chunks).Path ok s s') : Frozen s s' := by
  induction hpath with
  | refl => exact frozen_refl hexpired
  | tail hpath _ hstep ih =>
    refine frozen_step ?_ ih (moves_of_step hstep)
    exact fun w hw => (consistent_reachable (h.trans hpath) w hw).2

/-! ### The end of a run -/

/-- When all workers have left their loops and the time never expired, nothing is queued
and every chunk was completed or given up. Once the time has expired, the queue stays as
it is, and only chunks that are already held are still requested. -/
theorem shutdown (hworkers : 0 < config.maxConcurrent)
    (h : (benchmark opening heap config chunks).Reachable TransitionSystem.any s) :
    ((∀ w ∈ s.workers, w.phase = .exited) → s.shared.timeExpired = false →
      s.shared.chunkQueue = [] ∧ s.shared.failedChunks = s.givenUp.length ∧
        ∀ c ∈ chunks, c.chunkId ∈ s.shared.completedChunks ∨ c.chunkId ∈ s.givenUp) ∧
    (s.shared.timeExpired = true →
      ∀ s', (benchmark opening heap config chunks).Path TransitionSystem.any s s' →
        Frozen s s') := by
  refine ⟨?_, fun hexpired s' hpath => frozen_of_path h hexpired hpath⟩
  intro hexited hexpired
  have hqueue : s.shared.chunkQueue = [] := by
    by_contra hne
    obtain ⟨w, hw, hstays⟩ := attended_reachable hworkers h hexpired hne
    exact hstays (hexited w hw)
  have hheld : ∀ w ∈ s.workers, w.held = none := fun w hw => held_of_phase (hexited w hw)
  have hB := booked_reachable h
  refine ⟨hqueue, ?_, settled_of_covered hB (covered_reachable h) hqueue hheld⟩
  rw [hB.failed, System.givenUp, List.length_map, List.countP_eq_length_filter]

/-- One worker and one chunk. A complete transfer ends the run, and an early deadline
freezes it. -/
theorem shutdown_one_worker :
    (∃ s, (benchmark .plain .ofList (.unlimited 1 4) [⟨0, 0, 3, .urgent⟩]).Reachable
        TransitionSystem.any s ∧
      (∀ w ∈ s.workers, w.phase = .exited) ∧ s.shared.chunkQueue = [] ∧
      (0 ∈ s.shared.completedChunks ∨ 0 ∈ s.givenUp)) ∧
    ∃ s, (benchmark .plain .ofList ⟨1, 0, 4, 1000⟩ [⟨0, 0, 3, .urgent⟩]).Reachable
        TransitionSystem.any s ∧
      ∀ s', (benchmark .plain .ofList ⟨1, 0, 4, 1000⟩ [⟨0, 0, 3, .urgent⟩]).Path
        TransitionSystem.any s s' → Frozen s s' := by
  constructor
  · obtain ⟨s, hs, hexited, hexpired⟩ := TransitionSystem.exists_reachable_of_run
      (benchmark .plain .ofList (.unlimited 1 4) [⟨0, 0, 3, .urgent⟩]) TransitionSystem.any
      ([.advance 0, .pop 0 []] ++ Label.advances 0 3 ++
        [.perform 0 (.ofCallbacks [.write 4])] ++ Label.advances 0 10 ++ [.pop 0 []] ++
        Label.advances 0 1)
      (P := fun s => (∀ w ∈ s.workers, w.phase = .exited) ∧ s.shared.timeExpired = false)
      (by decide)
    obtain ⟨hqueue, -, hsettled⟩ := (shutdown (by decide) hs).1 hexited hexpired
    exact ⟨s, hs, hexited, hqueue, hsettled ⟨0, 0, 3, .urgent⟩ (by decide)⟩
  · obtain ⟨s, hs, hexpired⟩ := TransitionSystem.exists_reachable_of_run
      (benchmark .plain .ofList ⟨1, 0, 4, 1000⟩ [⟨0, 0, 3, .urgent⟩]) TransitionSystem.any
      [.tick 1000, .advance 0] (P := fun s => s.shared.timeExpired = true) (by decide)
    exact ⟨s, hs, (shutdown (by decide) hs).2 hexpired⟩

end FrontierSim
