import FrontierSim.Proofs.Pacing

/-!
# `FrontierSim.Proofs.Deadline`: how far a run overruns its deadline

The time is checked at the head of a worker's loop only. Between the check and the
announcement of the request the worker waits for two locks, so a request can begin after
`max_duration`. But then the worker comes back to the check, and leaves. So there are at most
as many late requests as workers (`late_starts_le`), however the threads interleave.

`Worker.underway` marks the workers that can still make a late announcement.
-/

set_option autoImplicit false

namespace FrontierSim

open Lib

/-- The request begins at the deadline or after it. -/
def RequestStarted.late (deadline : Nat) (e : RequestStarted) : Bool :=
  decide (deadline ≤ e.timestampNs)

/-- The worker passed the time check and has not announced a request since, or has a late
announcement to send. -/
def Worker.underway (deadline : Nat) (w : Worker) : Nat :=
  match w.phase, w.outbox with
  | .locking, _ | .popped _, _ | .assigned _, _ => 1
  | .ready _, some (.requestStarted e) => if e.late deadline then 1 else 0
  | _, _ => 0

namespace System

/-- The requests that began at the deadline or after it. -/
def lateStarts (s : System) (deadline : Nat) : Nat := s.started.countP fun e => e.late deadline

/-- The late requests, and those that can become late. -/
def overrun (s : System) (deadline : Nat) : Nat :=
  s.lateStarts deadline + (s.workers.map (Worker.underway deadline)).sum

end System

variable {heap : ChunkHeap} {config : ReactorConfig} {chunks : List ChunkRequest}
  {opening : RunStarted} {ok : System → Label → Prop} {s s' : System} {a : Label} {deadline : Nat}
  {w w' : Worker} {i : Nat}

/-- A worker has at most one request underway. -/
theorem underway_le (deadline : Nat) (w : Worker) : w.underway deadline ≤ 1 := by
  unfold Worker.underway
  split <;> first | (split <;> omega) | omega

/-- All workers together have at most one each. -/
theorem sum_underway_le (deadline : Nat) (ws : List Worker) :
    (ws.map (Worker.underway deadline)).sum ≤ ws.length := by
  induction ws with
  | nil => exact le_rfl
  | cons w rest ih =>
    have hle := underway_le deadline w
    simp only [List.map_cons, List.sum_cons, List.length_cons]
    omega

/-- Before the deadline nothing is late. -/
theorem lateStarts_eq_zero (hP : Paced s) (hearly : s.now < deadline) :
    s.lateStarts deadline = 0 := by
  rw [System.lateStarts, List.countP_eq_zero]
  intro e he hlate
  have hpast := hP.past e (announces_of_mem he)
  rw [RequestStarted.late, decide_eq_true_iff] at hlate
  omega

/-- A step of worker `i` that announces nothing. -/
theorem overrun_le_of_set (hw : s.workers[i]? = some w) (hset : s'.workers = s.workers.set i w')
    (hstarted : s'.started = s.started) (hle : w'.underway deadline ≤ w.underway deadline) :
    s'.overrun deadline ≤ s.overrun deadline := by
  have hsum := sum_map_set (Worker.underway deadline) hw w'
  unfold System.overrun System.lateStarts
  rw [hset, hstarted]
  omega

/-- A commit announces no attempt, although it may announce a retry. -/
theorem started_commit {req : Request} {t : Transfer} {bytes : Nat} {isComplete : Bool} :
    (s.commit heap config i w req t bytes isComplete).started = s.started := by
  refine (announcements_append _ rfl).1.trans ?_
  cases s.shared.commitFate config.pageSize req.chunk bytes isComplete s.now <;>
    exact List.append_nil _

/-- Sending a late announcement makes it a late request. -/
theorem overrun_sendOutbox {event : TraceEvent} (hfits : w.Fits) (hw : s.workers[i]? = some w)
    (hout : w.outbox = some event) :
    (s.sendOutbox i w event).overrun deadline ≤ s.overrun deadline := by
  have hworker : ([event].filterMap TraceEvent.started?).countP (fun e => e.late deadline)
      + ({ w with outbox := none } : Worker).underway deadline ≤ w.underway deadline := by
    have hpending := hfits event hout
    obtain ⟨handler, phase, outbox⟩ := w
    subst hout
    cases hpending <;> simp [Worker.underway, TraceEvent.started?, List.countP_cons]
  have hsum := sum_map_set (Worker.underway deadline) hw { w with outbox := none }
  have hstarted : (s.sendOutbox i w event).started
      = s.started ++ [event].filterMap TraceEvent.started? :=
    (announcements_append [event] rfl).1
  unfold System.overrun System.lateStarts
  rw [hstarted, List.countP_append]
  simp only [System.sendOutbox, System.setWorker]
  omega

/-- The worker's own code gets no request underway. -/
theorem underway_of_local {now : Nat} {delivery : Option Delivery}
    (h : LocalMoves w now w' delivery) : w'.underway deadline ≤ w.underway deadline := by
  cases h with
  | begin hph =>
    -- The request begins now, late or not.
    rw [show w.underway deadline = 1 by simp [Worker.underway, hph]]
    exact underway_le deadline _
  | panicBegin | write | header | body | panicReturn | «return» | finish | report =>
    simp [Worker.underway, Worker.writeStep]

/-- Only a time check before the deadline lets a further worker through. -/
theorem overrun_step (hfits : ∀ w ∈ s.workers, w.Fits) (hdeadline : 0 < config.maxDuration)
    (hmoves : Moves heap config s a s') :
    s'.overrun config.maxDuration ≤ s.overrun config.maxDuration ∨
      s'.now < config.maxDuration := by
  cases hmoves with
  | tick | receive | store => exact Or.inl le_rfl
  | track hrecv =>
    left
    unfold System.overrun System.lateStarts System.started
    rw [(Channel.past_recv hrecv).2]
  | @join order =>
    left
    have hquiet : Quiet (order.map fun conn => .connectionLifecycle conn.lifecycle) := by
      constructor <;>
      · rw [List.filterMap_eq_nil_iff]
        intro e he
        obtain ⟨conn, -, rfl⟩ := List.mem_map.mp he
        rfl
    unfold System.overrun System.lateStarts
    rw [(announcements_quiet hquiet rfl).1]
  | send hw hout =>
    exact Or.inl (overrun_sendOutbox (hfits _ (List.mem_of_getElem? hw)) hw hout)
  | checkTime hw hout hph =>
    unfold System.checkTime
    split
    · exact Or.inl (overrun_le_of_set hw rfl rfl (Nat.zero_le _))
    · rename_i htime
      right
      show s.now < config.maxDuration
      omega
  | recheck hw =>
    left
    unfold System.recheck
    split <;> exact overrun_le_of_set hw rfl rfl (Nat.zero_le _)
  | @pop i w ticks hw hout hph =>
    left
    unfold System.popChunk
    split
    · exact overrun_le_of_set hw rfl rfl (Nat.zero_le _)
    · refine overrun_le_of_set hw rfl rfl ?_
      have hone : w.underway config.maxDuration = 1 := by simp [Worker.underway, hph]
      exact hone ▸ underway_le _ _
  | assignId hw hout hph =>
    refine Or.inl (overrun_le_of_set hw rfl rfl ?_)
    simp [Worker.underway, hph]
  | perform t hw => exact Or.inl (overrun_le_of_set hw rfl rfl (Nat.zero_le _))
  | work hw hout hlocal =>
    exact Or.inl (overrun_le_of_set hw rfl rfl (underway_of_local (localStep_cases hlocal)))
  | commit hw => exact Or.inl (overrun_le_of_set hw rfl started_commit (Nat.zero_le _))

/-- In every reachable state, the late requests and those that can become late are at most the
workers. A request that was underway in time moves from the second count to the first when it is
announced late, and after the deadline no worker passes the time check. -/
theorem overrun_reachable (hdeadline : 0 < config.maxDuration)
    (h : (benchmark opening heap config chunks).Reachable ok s) :
    s.overrun config.maxDuration ≤ s.workers.length := by
  have hearly : ∀ {s : System}, Paced s → s.now < config.maxDuration →
      s.overrun config.maxDuration ≤ s.workers.length := by
    intro s hP hlt
    rw [System.overrun, lateStarts_eq_zero hP hlt, Nat.zero_add]
    exact sum_underway_le _ _
  refine reachable_invariant_of (J := fun s => Paced s ∧ (∀ w ∈ s.workers, w.Fits) ∧
      s.workers.length = config.maxConcurrent)
    (P := fun s => s.overrun config.maxDuration ≤ s.workers.length) h
    (fun s h => ⟨paced_reachable h, fun w hw => (consistent_reachable h w hw).2,
      length_workers h⟩) (hearly paced_start hdeadline) ?_
  intro s a s' hJ hJ' hP _ hmoves
  rcases overrun_step hJ.2.1 hdeadline hmoves with hle | hlt
  · rw [hJ'.2.2, ← hJ.2.2]
    exact hle.trans hP
  · exact hearly hJ'.1 hlt

/-- At most one request for each worker begins at the deadline or after it, in every
interleaving. -/
theorem late_starts_le (hdeadline : 0 < config.maxDuration)
    (h : (benchmark opening heap config chunks).Reachable TransitionSystem.any s) :
    (s.started.filter fun e => config.maxDuration ≤ e.timestampNs).length
      ≤ config.maxConcurrent := by
  have hoverrun := overrun_reachable hdeadline h
  rw [length_workers h] at hoverrun
  refine le_trans ?_ hoverrun
  rw [← List.countP_eq_length_filter]
  exact Nat.le_add_right _ _

/-- Two workers pass the check in time, and both requests are late. -/
theorem late_starts_le_two_workers :
    ∃ s, (benchmark .plain .ofList ⟨2, 0, 4, 1000⟩ threeChunks).Reachable TransitionSystem.any s ∧
      (s.started.filter fun e => 1000 ≤ e.timestampNs).length = 2 ∧
      (s.started.filter fun e => 1000 ≤ e.timestampNs).length ≤ 2 := by
  obtain ⟨s, hs, htwo⟩ := TransitionSystem.exists_reachable_of_run
    (benchmark .plain .ofList ⟨2, 0, 4, 1000⟩ threeChunks) TransitionSystem.any
    ([.advance 0, .advance 1, .tick 1000, .pop 0 [], .pop 1 []] ++ Label.advances 0 3 ++
      Label.advances 1 3)
    (P := fun s => (s.started.filter fun e => 1000 ≤ e.timestampNs).length = 2) (by decide)
  exact ⟨s, hs, htwo, late_starts_le (by decide) hs⟩

end FrontierSim
