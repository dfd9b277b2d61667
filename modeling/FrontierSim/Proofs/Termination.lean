import FrontierSim.Lib.FairRun
import FrontierSim.Proofs.Clock
import FrontierSim.Proofs.Summary
import Mathlib.Algebra.Order.BigOperators.Group.List
import Mathlib.Algebra.Order.Ring.Nat
import Mathlib.Data.Prod.Lex

/-!
# `FrontierSim.Proofs.Termination`: a fair run ends

Nothing in `run_parallel` waits for another worker: a worker that finds no chunk sleeps and
looks again. So the question is whether the looking ends. It does, whatever curl answers:
`fair_run_finishes` says that a run in which every thread acts again and again, and in which
time does not stand still, comes to the end of `run_parallel`, and the tracker thread and the
coordinator empty their channels after it.

The rank of a state has three parts, compared from the left.

* `System.cost` pays for the attempts that are left, for the phases up to the commit, and for
  the workers that have not ended. A worker that holds a chunk lowers it from phase to phase.
* `System.load` pays for what is left of the transfers: callbacks, bytes, events to send.
* `System.waiting` is about workers without a chunk. While a backoff lasts, it is the time
  until the backoffs are over. After that it is the number of steps to the next pop section.

No step raises the rank, and when no backoff lasts every action of a worker lowers it.
-/

set_option autoImplicit false

namespace FrontierSim

open Lib

/-! ### The end of a run -/

/-- The worker that acts. -/
def Label.worker? : Label → Option Nat
  | .advance i | .pop i _ | .perform i _ => some i
  | .tick _ | .track | .receive | .store | .join _ => none

namespace System

/-- Every worker thread has ended. -/
def Stopped (s : System) : Prop := ∀ w ∈ s.workers, w.phase.stopped = true

/-- `run_parallel` has returned, and the tracker thread and the coordinator have taken
everything that was sent to them. -/
structure Quiescent (s : System) : Prop where
  stopped : s.Stopped
  joined : s.result.isSome = true
  tracked : s.events.recv = none
  received : s.feedback.recv = none
  stored : s.coordinator = none

end System

/-- It can be checked whether a run is over. -/
instance (s : System) : Decidable s.Quiescent :=
  decidable_of_iff ((∀ w ∈ s.workers, w.phase.stopped = true) ∧ s.result.isSome = true ∧
      s.events.recv = none ∧ s.feedback.recv = none ∧ s.coordinator = none)
    ⟨fun h => ⟨h.1, h.2.1, h.2.2.1, h.2.2.2.1, h.2.2.2.2⟩,
      fun h => ⟨h.stopped, h.joined, h.tracked, h.received, h.stored⟩⟩

/-- Every thread acts again and again, unless it has nothing to do, and time passes. -/
structure FairRun {M : TransitionSystem System Label} {ok : System → Label → Prop}
    (r : M.Run ok) : Prop where
  workers : ∀ i, r.Fair (fun a => a.worker? = some i)
    fun s => ∀ w ∈ s.workers[i]?, w.phase.stopped = true
  time : ∀ t, ∃ n, t ≤ (r.state n).now
  join : r.Fair (fun a => ∃ order, a = .join order) fun s => s.result.isSome = true ∨ ¬ s.Stopped
  tracker : r.Fair (fun a => a = .track) fun s => s.events.recv = none
  coordinator : r.Fair (fun a => a = .receive ∨ a = .store)
    fun s => s.coordinator = none ∧ s.feedback.recv = none

/-! ### The rank -/

/-- The phases from here to the commit. -/
def Phase.level : Phase → Nat
  | .popped _ => 7
  | .assigned _ => 6
  | .ready _ => 5
  | .performing .. => 4
  | .finishing .. => 3
  | .reporting .. => 2
  | .committing .. => 1
  | .loopHead | .locking | .sleeping | .exited | .panicked _ => 0

/-- What the attempts that are left of a chunk cost. -/
def PrioritizedChunk.cost (c : PrioritizedChunk) : Nat := 8 * (MAX_ATTEMPTS - c.attempt)

namespace Worker

/-- What the worker can still cost: one for not having ended, and the attempts and phases of the
chunk that it holds. -/
def cost (w : Worker) : Nat :=
  if w.phase.stopped then 0 else 1 + (w.held.elim 0 PrioritizedChunk.cost + w.phase.level)

/-- What is left of the transfer, and the event to send. -/
def load (w : Worker) : Nat :=
  (match w.phase with
    | .performing _ _ left remaining =>
      2 * (remaining + (left.map fun callback => callback.bytes + 1).sum)
    | _ => 0) + if w.outbox.isSome then 1 else 0

/-- The actions of a worker without a chunk until it takes one or leaves. With an empty queue
it leaves after the sleep, and otherwise in the pop section or before it. -/
def turn (nothingLeft : Bool) (w : Worker) : Nat :=
  match w.phase with
  | .loopHead => if nothingLeft then 3 else 2
  | .locking => if nothingLeft then 2 else 1
  | .sleeping => if nothingLeft then 1 else 3
  | _ => 0

end Worker

namespace System

/-- What is left to do: the attempts of all queued chunks, and what the workers can cost. An entry
in the queue has all phases before it. -/
def cost (s : System) : Nat :=
  (s.shared.chunkQueue.map fun c => c.cost + 8).sum + (s.workers.map Worker.cost).sum

/-- What is left of all transfers. -/
def load (s : System) : Nat := (s.workers.map Worker.load).sum

/-- The time until the backoffs in the queue are over, summed over the queue. -/
def delay (s : System) : Nat := (s.shared.chunkQueue.map fun c => c.retryAfter.getD 0 - s.now).sum

/-- A worker that finds nothing will leave. -/
def nothingLeft (s : System) : Bool := s.shared.chunkQueue.isEmpty && !s.shared.timeExpired

/-- The actions that workers without a chunk have left until they take one or leave. -/
def turns (s : System) : Nat := (s.workers.map (Worker.turn s.nothingLeft)).sum

/-- The wait for a chunk. While a backoff lasts it is counted in time, with room for all turns
after it. -/
def waiting (s : System) : Nat :=
  if s.delay = 0 then s.turns else 3 * s.workers.length + s.delay

/-- The rank, compared from the left. -/
def rank (s : System) : Nat ×ₗ Nat ×ₗ Nat := toLex (s.cost, toLex (s.load, s.waiting))

end System

variable {heap : ChunkHeap} {config : ReactorConfig} {chunks : List ChunkRequest}
  {opening : RunStarted} {ok : System → Label → Prop} {s s' : System} {a : Label} {w w' : Worker}
  {i : Nat}

/-- A lower cost outweighs everything else. -/
theorem rank_lt_of_cost (h : s'.cost < s.cost) : s'.rank < s.rank := by
  rw [System.rank, System.rank, Prod.Lex.toLex_lt_toLex]
  exact Or.inl h

/-- A lower load outweighs the wait. -/
theorem rank_lt_of_load (hcost : s'.cost = s.cost) (h : s'.load < s.load) : s'.rank < s.rank := by
  rw [System.rank, System.rank, Prod.Lex.toLex_lt_toLex, Prod.Lex.toLex_lt_toLex]
  exact Or.inr ⟨hcost, Or.inl h⟩

/-- With the same cost and load, a shorter wait is a lower rank. -/
theorem rank_lt_of_waiting (hcost : s'.cost = s.cost) (hload : s'.load = s.load)
    (h : s'.waiting < s.waiting) : s'.rank < s.rank := by
  rw [System.rank, System.rank, Prod.Lex.toLex_lt_toLex, Prod.Lex.toLex_lt_toLex]
  exact Or.inr ⟨hcost, Or.inr ⟨hload, h⟩⟩

/-- With the same cost and load, a wait that is no longer is no higher rank. -/
theorem rank_le_of_waiting (hcost : s'.cost = s.cost) (hload : s'.load = s.load)
    (h : s'.waiting ≤ s.waiting) : s'.rank ≤ s.rank := by
  rcases Nat.lt_or_eq_of_le h with hlt | heq
  · exact (rank_lt_of_waiting hcost hload hlt).le
  · rw [System.rank, System.rank, hcost, hload, heq]

/-! ### Sums over the workers -/

/-- A worker is at most three actions away from its next pop section or its exit. -/
theorem turn_le (nothingLeft : Bool) (w : Worker) : w.turn nothingLeft ≤ 3 := by
  unfold Worker.turn
  split <;> first | (split <;> omega) | omega

/-- All workers together are at most three actions each away from that. -/
theorem turns_le (s : System) : s.turns ≤ 3 * s.workers.length := by
  unfold System.turns
  generalize s.workers = ws
  induction ws with
  | nil => exact le_rfl
  | cons w rest ih =>
    have hturn := turn_le s.nothingLeft w
    simp only [List.map_cons, List.sum_cons, List.length_cons]
    omega

/-- The waiting does not get longer while the workers and the queue stay as they are. -/
theorem waiting_le (hworkers : s'.workers = s.workers)
    (hnothing : s'.nothingLeft = s.nothingLeft) (hdelay : s'.delay ≤ s.delay) :
    s'.waiting ≤ s.waiting := by
  have hturns : s'.turns = s.turns := by rw [System.turns, hworkers, hnothing, System.turns]
  have hle := turns_le s
  unfold System.waiting
  rw [hturns, hworkers]
  split <;> split <;> omega

/-- Time shortens the backoffs. -/
theorem delay_le (hqueue : s'.shared.chunkQueue.Perm s.shared.chunkQueue) (hnow : s.now ≤ s'.now) :
    s'.delay ≤ s.delay := by
  unfold System.delay
  rw [(hqueue.map _).sum_eq]
  exact List.sum_le_sum fun c _ => Nat.sub_le_sub_left hnow _

/-- Whether anything is left depends on the entries of the queue and on the flag. -/
theorem nothingLeft_of_perm (hqueue : s'.shared.chunkQueue.Perm s.shared.chunkQueue)
    (hexpired : s'.shared.timeExpired = s.shared.timeExpired) :
    s'.nothingLeft = s.nothingLeft := by
  unfold System.nothingLeft
  rw [hexpired, hqueue.isEmpty_eq]

/-- Without a backoff every entry is ready. -/
theorem ready_of_delay (hdelay : s.delay = 0) {c : PrioritizedChunk}
    (hc : c ∈ s.shared.chunkQueue) : c.ReadyAt s.now := by
  intro retryAt hretry
  have hzero := List.sum_eq_zero_iff_forall_eq_nat.mp hdelay _ (List.mem_map_of_mem hc)
  rw [Option.mem_def.mp hretry, Option.getD_some] at hzero
  omega

/-! ### The steps -/

/-- A step that does not lower the rank leaves the queue as it is, and no worker acts unless a
backoff lasts. -/
structure Keeps (s : System) (a : Label) (s' : System) : Prop where
  rank : s'.rank ≤ s.rank
  queue : s'.shared.chunkQueue.Perm s.shared.chunkQueue
  resting : s.delay = 0 → a.worker? = none ∧ s'.workers = s.workers

/-- When worker `i` changes and the queue does not, the cost changes by that of the worker. -/
theorem cost_set (hw : s.workers[i]? = some w) (hset : s'.workers = s.workers.set i w')
    (hqueue : s'.shared.chunkQueue.Perm s.shared.chunkQueue) :
    s'.cost + w.cost = s.cost + w'.cost := by
  have hsum := sum_map_set Worker.cost hw w'
  have heq := (hqueue.map fun c => c.cost + 8).sum_eq
  unfold System.cost
  rw [hset]
  omega

/-- When worker `i` changes, the load changes by that of the worker. -/
theorem load_set (hw : s.workers[i]? = some w) (hset : s'.workers = s.workers.set i w') :
    s'.load + w.load = s.load + w'.load := by
  unfold System.load
  rw [hset]
  exact sum_map_set Worker.load hw w'

/-- A worker that holds a chunk gets to a later phase. -/
theorem rank_lt_of_level {chunk : PrioritizedChunk} (hw : s.workers[i]? = some w)
    (hset : s'.workers = s.workers.set i w') (hqueue : s'.shared.chunkQueue = s.shared.chunkQueue)
    (hheld : w.held = some chunk) (hheld' : w'.held = some chunk)
    (hgoes : w.phase.stopped = false) (hlevel : w'.phase.level < w.phase.level) :
    s'.rank < s.rank := by
  refine rank_lt_of_cost ?_
  have hcost := cost_set hw hset (hqueue ▸ .refl _)
  have hlt : w'.cost < w.cost := by
    unfold Worker.cost
    rw [hheld, hheld', hgoes]
    simp only [Bool.false_eq_true, if_false, Option.elim_some]
    split <;> omega
  omega

/-- A worker that holds a chunk gets on in its phase. -/
theorem rank_lt_of_load_lt (hw : s.workers[i]? = some w)
    (hset : s'.workers = s.workers.set i w') (hqueue : s'.shared.chunkQueue = s.shared.chunkQueue)
    (hcost : w'.cost = w.cost) (hload : w'.load < w.load) : s'.rank < s.rank := by
  have hcosts := cost_set hw hset (hqueue ▸ .refl _)
  have hloads := load_set hw hset
  exact rank_lt_of_load (by omega) (by omega)

/-- A worker in its loop control costs one, for not having ended. -/
theorem cost_of_idle (hidle : w.phase.idle = true) : w.cost = 1 := by
  unfold Worker.cost Worker.held
  cases hph : w.phase with
  | loopHead | locking | sleeping => simp [Phase.stopped, Phase.held, Phase.level]
  | _ => simp [hph, Phase.idle] at hidle

/-- A worker thread ends. -/
theorem rank_lt_of_stopped (hw : s.workers[i]? = some w) (hgoes : w.phase.stopped = false)
    (hset : s'.workers = s.workers.set i w') (hstopped : w'.phase.stopped = true)
    (hqueue : s'.shared.chunkQueue = s.shared.chunkQueue) : s'.rank < s.rank := by
  refine rank_lt_of_cost ?_
  have hcost := cost_set hw hset (hqueue ▸ .refl _)
  have hlt : w'.cost < w.cost := by
    unfold Worker.cost
    rw [hgoes, hstopped]
    simp only [Bool.false_eq_true, if_false, if_true]
    omega
  omega

/-- A worker without a chunk goes on to the next point of its loop. -/
theorem rank_loop {phase : Phase} (hw : s.workers[i]? = some w) (hout : w.outbox = none)
    (hidle : w.phase.idle = true) (hidle' : phase.idle = true)
    (hset : s'.workers = s.workers.set i { w with phase := phase })
    (hqueue : s'.shared.chunkQueue.Perm s.shared.chunkQueue)
    (hexpired : s'.shared.timeExpired = s.shared.timeExpired) (hnow : s.now ≤ s'.now)
    (hturn : s.delay = 0 →
      ({ w with phase := phase } : Worker).turn s.nothingLeft < w.turn s.nothingLeft) :
    s'.rank < s.rank ∨ Keeps s a s' := by
  have hcost : s'.cost = s.cost := by
    have hsum := cost_set hw hset hqueue
    have hone := cost_of_idle hidle
    have hone' := cost_of_idle (w := { w with phase := phase }) hidle'
    omega
  have hload : s'.load = s.load := by
    have hsum := load_set hw hset
    have hzero : ∀ v : Worker, v.outbox = none → v.phase.idle = true → v.load = 0 := by
      intro v hv hvidle
      unfold Worker.load
      rw [hv]
      cases hph : v.phase with
      | loopHead | locking | sleeping => rfl
      | _ => simp [hph, Phase.idle] at hvidle
    have hbefore := hzero w hout hidle
    have hafter := hzero { w with phase := phase } hout hidle'
    omega
  have hnothing := nothingLeft_of_perm hqueue hexpired
  have hdelay := delay_le hqueue hnow
  have hturns := sum_map_set (Worker.turn s.nothingLeft) hw { w with phase := phase }
  by_cases hzero : s.delay = 0
  · refine Or.inl (rank_lt_of_waiting hcost hload ?_)
    have hlt := hturn hzero
    have hzero' : s'.delay = 0 := by omega
    unfold System.waiting System.turns
    rw [if_pos hzero, if_pos hzero', hnothing, hset]
    omega
  · refine Or.inr ⟨rank_le_of_waiting hcost hload ?_, hqueue, fun h => absurd h hzero⟩
    have hlen : s'.workers.length = s.workers.length := by rw [hset, List.length_set]
    have hle := turns_le s'
    unfold System.waiting
    rw [if_neg hzero, hlen]
    split <;> omega

/-- An action of another thread. -/
theorem rank_other (ha : a.worker? = none) (hworkers : s'.workers = s.workers)
    (hqueue : s'.shared.chunkQueue = s.shared.chunkQueue)
    (hexpired : s'.shared.timeExpired = s.shared.timeExpired) (hnow : s.now ≤ s'.now) :
    Keeps s a s' := by
  have hperm : s'.shared.chunkQueue.Perm s.shared.chunkQueue := hqueue ▸ .refl _
  refine ⟨rank_le_of_waiting ?_ ?_ ?_, hperm, fun _ => ⟨ha, hworkers⟩⟩
  · rw [System.cost, System.cost, hworkers, hqueue]
  · rw [System.load, System.load, hworkers]
  · exact waiting_le hworkers (nothingLeft_of_perm hperm hexpired) (delay_le hperm hnow)

/-- One pass of the loop in `write` takes some of what remains. -/
theorem load_writeStep {pageSize now : Nat} {req : Request} {t : Transfer} {left : List Callback}
    {remaining : Nat} (hcons : w.Consistent pageSize) (hout : w.outbox = none)
    (hph : w.phase = .performing req t left remaining) (hpos : 0 < remaining) :
    (w.writeStep now req t left remaining).load < w.load := by
  obtain ⟨hsize, hphase⟩ := hcons
  rw [hph] at hphase
  have hpage : w.handler.currentPageBytes < w.handler.pageSize := hsize ▸ hphase.1.page
  unfold Worker.load
  rw [hph, hout]
  rcases Nat.lt_or_ge (w.handler.currentPageBytes + remaining) w.handler.pageSize with hlt | hge
  · simp only [Worker.writeStep, writePass_open now hlt]
    simp
    omega
  · simp only [Worker.writeStep, writePass_full now hpage hge]
    simp
    omega

/-- The worker's own code. -/
theorem rank_local {pageSize now : Nat} {delivery : Option Delivery}
    (hcons : w.Consistent pageSize) (hw : s.workers[i]? = some w) (hout : w.outbox = none)
    (hlocal : LocalMoves w now w' delivery) (hset : s'.workers = s.workers.set i w')
    (hqueue : s'.shared.chunkQueue = s.shared.chunkQueue) : s'.rank < s.rank := by
  -- The worker keeps its chunk, and comes to a later phase of the request.
  have hnext : ∀ {phase : Phase} {chunk : PrioritizedChunk}, w.phase = phase →
      phase.held = some chunk → w'.held = some chunk → phase.stopped = false →
      w'.phase.level < phase.level → s'.rank < s.rank := by
    rintro phase chunk rfl hheld hheld' hgoes hlevel
    exact rank_lt_of_level hw hset hqueue hheld hheld' hgoes hlevel
  -- Or it stays in `perform`, and has less to do there.
  have hstay : w'.cost = w.cost → w'.load < w.load → s'.rank < s.rank :=
    rank_lt_of_load_lt hw hset hqueue
  cases hlocal with
  | panicBegin hph =>
    exact rank_lt_of_stopped hw (by rw [hph]; rfl) hset rfl hqueue
  | panicReturn hph =>
    exact rank_lt_of_stopped hw (by rw [hph]; rfl) hset rfl hqueue
  | begin hph => exact hnext hph rfl rfl rfl (by simp [Phase.level])
  | «return» hph => exact hnext hph rfl rfl rfl (by simp [Phase.level])
  | finish hph => exact hnext hph rfl rfl rfl (by simp [Phase.level])
  | report hph => exact hnext hph rfl rfl rfl (by simp [Phase.level])
  | write hph hpos =>
    refine hstay ?_ (load_writeStep hcons hout hph hpos)
    simp [Worker.cost, Worker.writeStep, Worker.held, hph, Phase.held, Phase.level,
      Phase.stopped]
  | header hph =>
    refine hstay ?_ ?_
    · simp [Worker.cost, Worker.held, hph, Phase.held, Phase.level, Phase.stopped]
    · simp [Worker.load, hph, Callback.bytes]
  | body hph =>
    refine hstay ?_ ?_
    · simp [Worker.cost, Worker.held, hph, Phase.held, Phase.level, Phase.stopped]
    · simp [Worker.load, hph, Callback.bytes]

/-- A worker in its loop takes a chunk out of the queue. -/
theorem rank_lt_of_pop {chunk : PrioritizedChunk} {queue : List PrioritizedChunk}
    (hw : s.workers[i]? = some w) (hidle : w.phase.idle = true)
    (hset : s'.workers = s.workers.set i { w with phase := .popped chunk })
    (hqueue : s'.shared.chunkQueue = queue) {dropped : List PrioritizedChunk}
    (hperm : (chunk :: (queue ++ dropped)).Perm s.shared.chunkQueue) : s'.rank < s.rank := by
  refine rank_lt_of_cost ?_
  have hsum := sum_map_set Worker.cost hw { w with phase := .popped chunk }
  have hcosts := (hperm.map fun c => c.cost + 8).sum_eq
  have hone := cost_of_idle hidle
  have hpopped : ({ w with phase := .popped chunk } : Worker).cost = chunk.cost + 8 := by
    simp [Worker.cost, Worker.held, Phase.stopped, Phase.held, Phase.level]
    omega
  simp only [List.map_cons, List.sum_cons, List.map_append, List.sum_append] at hcosts
  unfold System.cost
  rw [hset, hqueue]
  omega

/-- The commit section. A retry has one attempt less to go. -/
theorem rank_commit {req : Request} {t : Transfer} {bytes : Nat} {isComplete : Bool}
    (hw : s.workers[i]? = some w) (hph : w.phase = .committing req t bytes isComplete) :
    (s.commit heap config i w req t bytes isComplete).rank < s.rank := by
  refine rank_lt_of_cost ?_
  have hsum := sum_map_set Worker.cost hw { w with phase := .loopHead }
  have hbefore : w.cost = req.chunk.cost + 2 := by
    simp [Worker.cost, Worker.held, hph, Phase.stopped, Phase.held, Phase.level]
    omega
  have hafter : ({ w with phase := .loopHead } : Worker).cost = 1 := rfl
  unfold System.cost
  simp only [System.commit, System.setWorker, SharedState.commit]
  cases hfate : s.shared.commitFate config.pageSize req.chunk bytes isComplete s.now with
  | done | givenUp =>
    simp only [SharedState.applyFate]
    omega
  | retry entry =>
    obtain ⟨rfl, -, -, hattempts⟩ := retry_of_commitFate hfate
    have hpush := ((heap.push_perm s.shared.chunkQueue (retryEntry s.shared.frontierByte
      config.pageSize req.chunk req.chunk.nextAttempt bytes s.now)).map
        fun c => c.cost + 8).sum_eq
    simp only [List.map_cons, List.sum_cons] at hpush
    simp only [SharedState.applyFate, hpush]
    simp only [PrioritizedChunk.cost, retryEntry, PrioritizedChunk.nextAttempt, MAX_ATTEMPTS] at *
    omega

/-- The pop section. When no backoff lasts it takes a chunk, or the queue is empty. -/
theorem rank_pop (ticks : List Nat) (hw : s.workers[i]? = some w) (hout : w.outbox = none)
    (hph : w.phase = .locking) :
    (s.popChunk heap i w ticks).rank < s.rank ∨ Keeps s a (s.popChunk heap i w ticks) := by
  have hidle : w.phase.idle = true := by rw [hph]; rfl
  have hnow := now_le_popChunk s heap i w ticks
  have hselects := selects_popNext heap s.shared.completedChunks s.shared.chunkQueue ⟨s.now, ticks⟩
  have hleft := popNext_none heap s.shared.completedChunks s.shared.chunkQueue ⟨s.now, ticks⟩
  unfold System.popChunk at hnow ⊢
  cases hexpired : s.shared.timeExpired with
  | true => exact Or.inl (rank_lt_of_stopped hw (busy_of_idle hidle) rfl rfl rfl)
  | false =>
    simp only [hexpired, Bool.false_eq_true, if_false] at hnow ⊢
    generalize popNext heap s.shared.completedChunks s.shared.chunkQueue ⟨s.now, ticks⟩ = popped
      at hnow hselects hleft ⊢
    obtain ⟨found, queue, now⟩ := popped
    obtain ⟨dropped, -, hperm⟩ := hselects.split
    cases found with
    | some chunk => exact Or.inl (rank_lt_of_pop hw hidle rfl rfl hperm)
    | none =>
      simp only [Option.toList_none, List.nil_append] at hperm
      cases dropped with
      | cons x rest =>
        -- A completed entry was dropped.
        refine Or.inl (rank_lt_of_cost ?_)
        have hsum := sum_map_set Worker.cost hw { w with phase := .sleeping }
        have hcosts := (hperm.map fun c => c.cost + 8).sum_eq
        have hbefore := cost_of_idle hidle
        have hafter : ({ w with phase := .sleeping } : Worker).cost = 1 := rfl
        simp only [List.map_append, List.sum_append, List.map_cons, List.sum_cons] at hcosts
        simp only [System.cost, System.setWorker]
        omega
      | nil =>
        rw [List.append_nil] at hperm
        refine rank_loop hw hout hidle rfl rfl hperm hexpired.symm hnow fun hzero => ?_
        -- Every entry was ready, and none that is not completed was left out.
        have hnil : s.shared.chunkQueue = [] := by
          refine List.eq_nil_iff_forall_not_mem.mpr fun c hc => ?_
          obtain ⟨d, hd, -⟩ :=
            hselects.best c hc (hleft rfl c (hperm.mem_iff.mpr hc)) (ready_of_delay hzero hc)
          cases hd
        simp [Worker.turn, hph, System.nothingLeft, hnil, hexpired]

/-- No step raises the rank, and without a backoff every action of a worker lowers it. -/
theorem rank_step (hworkers : ∀ w ∈ s.workers, w.Consistent config.pageSize ∧ w.Fits)
    (hmoves : Moves heap config s a s') : s'.rank < s.rank ∨ Keeps s a s' := by
  cases hmoves with
  | tick d => exact Or.inr (rank_other rfl rfl rfl rfl (Nat.le_add_right _ d))
  | track | receive | store | join => exact Or.inr (rank_other rfl rfl rfl rfl le_rfl)
  | @send i w event hw hout =>
    refine Or.inl (rank_lt_of_load_lt hw rfl rfl rfl ?_)
    simp [Worker.load, hout]
  | @checkTime i w hw hout hph =>
    have hidle : w.phase.idle = true := by rw [hph]; rfl
    unfold System.checkTime
    split
    · exact Or.inl (rank_lt_of_stopped hw (busy_of_idle hidle) rfl rfl rfl)
    · refine rank_loop hw hout hidle rfl rfl (.refl _) rfl le_rfl fun _ => ?_
      simp only [Worker.turn, hph]
      split <;> omega
  | @recheck i w hw hout hph =>
    have hidle : w.phase.idle = true := by rw [hph]; rfl
    unfold System.recheck
    split
    · exact Or.inl (rank_lt_of_stopped hw (busy_of_idle hidle) rfl rfl rfl)
    · rename_i hstays
      refine rank_loop hw hout hidle rfl rfl (.refl _) rfl le_rfl fun _ => ?_
      have hnothing : s.nothingLeft = false := Bool.eq_false_iff.mpr hstays
      simp [Worker.turn, hph, hnothing]
  | pop ticks hw hout hph => exact rank_pop ticks hw hout hph
  | assignId hw hout hph =>
    exact Or.inl (rank_lt_of_level hw rfl rfl (held_of_phase hph) rfl (by rw [hph]; rfl)
      (by rw [hph]; simp [Phase.level]))
  | perform t hw hout hph =>
    exact Or.inl (rank_lt_of_level hw rfl rfl (held_of_phase hph) rfl (by rw [hph]; rfl)
      (by rw [hph]; simp [Phase.level]))
  | commit hw hout hph => exact Or.inl (rank_commit hw hph)
  | work hw hout hlocal =>
    have hcons := (hworkers _ (List.mem_of_getElem? hw)).1
    exact Or.inl (rank_local hcons hw hout (localStep_cases hlocal) rfl rfl)

/-! ### When all workers have ended -/

/-- When all workers have ended, only the other threads act. -/
theorem worker?_of_stopped (hfits : ∀ w ∈ s.workers, w.Fits) (hstopped : s.Stopped)
    (hmoves : Moves heap config s a s') : a.worker? = none := by
  have hno : ∀ {i : Nat} {w : Worker}, s.workers[i]? = some w → w.phase.stopped = false →
      a.worker? = none := by
    intro i w hw hgoes
    have hends := hstopped w (List.mem_of_getElem? hw)
    rw [hgoes] at hends
    cases hends
  cases hmoves with
  | tick | track | receive | store | join => rfl
  | send hw hout => exact hno hw (busy_of_pending (hfits _ (List.mem_of_getElem? hw) _ hout))
  | checkTime hw _ hph | recheck hw _ hph | pop _ hw _ hph | assignId hw _ hph
  | perform _ hw _ hph | commit hw _ hph => exact hno hw (by rw [hph]; rfl)
  | work hw _ hlocal => exact hno hw (busy_of_local (localStep_cases hlocal))

/-- The other threads do not touch the workers. -/
theorem workers_of_other (ha : a.worker? = none) (hmoves : Moves heap config s a s') :
    s'.workers = s.workers := by
  cases hmoves with
  | tick | track | receive | store | join => rfl
  | _ => cases ha

/-- Threads that have ended stay so. -/
theorem stopped_step (hfits : ∀ w ∈ s.workers, w.Fits) (hstopped : s.Stopped)
    (hmoves : Moves heap config s a s') : s'.Stopped := by
  rw [System.Stopped, workers_of_other (worker?_of_stopped hfits hstopped hmoves) hmoves]
  exact hstopped

/-- The result of the run stays. -/
theorem joined_step (hjoined : s.result.isSome = true) (hmoves : Moves heap config s a s') :
    s'.result.isSome = true := by
  cases effect_of_moves hmoves with
  | join => rfl
  | _ => exact hjoined

/-- The messages that wait. An event may lead to a frontier value, and a value is received
and then stored. -/
def System.pending (s : System) : Nat :=
  3 * s.events.future.length + 2 * s.feedback.future.length + if s.coordinator.isSome then 1 else 0

/-- A receive finds nothing exactly when nothing is in flight. -/
theorem recv_eq_none_iff {α : Type} (ch : Channel α) : ch.recv = none ↔ ch.future = [] := by
  unfold Channel.recv Channel.future
  rw [Option.map_eq_none_iff, List.getElem?_eq_none_iff, List.drop_eq_nil_iff]

/-- Sending adds no more to what is in flight than is sent. -/
theorem length_future_sendAll {α : Type} (ch : Channel α) (xs : List α) :
    (ch.sendAll xs).future.length ≤ ch.future.length + xs.length := by
  simp only [Channel.future, Channel.sendAll, List.length_drop, List.length_append]
  omega

/-- After the end of `run_parallel` a thread takes a message, or time passes. -/
theorem pending_step (hfits : ∀ w ∈ s.workers, w.Fits) (hstopped : s.Stopped)
    (hjoined : s.result.isSome = true) (hmoves : Moves heap config s a s') :
    s'.pending < s.pending ∨ ∃ d, a = .tick d ∧ s' = { s with now := s.now + d } := by
  have ha := worker?_of_stopped hfits hstopped hmoves
  cases hmoves with
  | tick d => exact Or.inr ⟨d, rfl, rfl⟩
  | join hnone =>
    rw [hnone] at hjoined
    cases hjoined
  | @track event events hrecv =>
    have hfuture := congrArg List.length (Channel.future_recv hrecv)
    have hsent := length_future_sendAll s.feedback (s.runner.process event).2.toList
    have hone : (s.runner.process event).2.toList.length ≤ 1 := by
      cases (s.runner.process event).2 <;> simp
    rw [List.length_cons] at hfuture
    left
    simp only [System.pending]
    omega
  | receive hnone hrecv =>
    have hfuture := congrArg List.length (Channel.future_recv hrecv)
    rw [List.length_cons] at hfuture
    left
    simp only [System.pending, hnone, Option.isSome_none, Option.isSome_some, if_true]
    omega
  | store hsome =>
    left
    simp [System.pending, hsome]
  | _ => cases ha

/-- After the join there is a result. -/
theorem joined_of_join {order : List ConnectionRecord}
    (hmoves : Moves heap config s (.join order) s') : s'.result.isSome = true := by
  cases hmoves
  rfl

/-! ### Fair runs -/

section
variable {r : (benchmark opening heap config chunks).Run ok}

/-- In every state of the run, the events that wait to be sent are those of their phases. -/
theorem fits_run (hstart : (benchmark opening heap config chunks).Reachable ok (r.state 0))
    (n : Nat) :
    ∀ w ∈ (r.state n).workers, w.Fits :=
  fun w hw => (consistent_reachable (r.reachable hstart n) w hw).2

/-- In every step of the run the rank goes down, or the step is one that keeps it. -/
theorem rank_run (hstart : (benchmark opening heap config chunks).Reachable ok (r.state 0))
    (n : Nat) :
    (r.state (n + 1)).rank < (r.state n).rank ∨
      Keeps (r.state n) (r.label n) (r.state (n + 1)) :=
  rank_step (consistent_reachable (r.reachable hstart n)) (moves_of_step (r.step n))

/-- Time does not run backwards along the run. -/
theorem now_run {m n : Nat} (hle : m ≤ n) : (r.state m).now ≤ (r.state n).now :=
  r.invariant (P := fun s => (r.state m).now ≤ s.now) hle le_rfl
    fun k _ hk => hk.trans (now_mono (moves_of_step (r.step k)))

/-- When no backoff lasts, any worker that has not ended gets the run on. -/
theorem lower_of_worker (hstart : (benchmark opening heap config chunks).Reachable ok (r.state 0))
    (hfair : FairRun r) {n : Nat} (hdelay : (r.state n).delay = 0)
    (hw : (r.state n).workers[i]? = some w) (hgoes : w.phase.stopped = false) :
    ∃ m, n ≤ m ∧ (r.state m).rank < (r.state n).rank := by
  refine r.lower_of_fair System.rank (P := fun s => s.delay = 0 ∧ s.workers[i]? = some w)
    (hfair.workers i) ⟨hdelay, hw⟩ ?_ ?_ ?_
  · rintro k ⟨-, hwk⟩ hidle
    have hends := hidle w hwk
    rw [hgoes] at hends
    cases hends
  · rintro k - ⟨hzero, -⟩ hacts
    rcases rank_run hstart k with hlower | hkeeps
    · exact hlower
    · rw [(hkeeps.resting hzero).1] at hacts
      cases hacts
  · rintro k - ⟨hzero, hwk⟩ -
    rcases rank_run hstart k with hlower | hkeeps
    · exact Or.inl hlower
    · have hle := delay_le hkeeps.queue (now_run (r := r) (Nat.le_succ k))
      exact Or.inr ⟨hkeeps.rank, by omega, (hkeeps.resting hzero).2 ▸ hwk⟩

/-- The backoffs that last end, or the run gets on before that. -/
theorem delay_ends (hstart : (benchmark opening heap config chunks).Reachable ok (r.state 0))
    (hfair : FairRun r) (n : Nat) :
    ∃ m, n ≤ m ∧ ((r.state m).rank < (r.state n).rank ∨
      ((r.state m).rank ≤ (r.state n).rank ∧ (r.state m).delay = 0)) := by
  let latest := ((r.state n).shared.chunkQueue.map fun c => c.retryAfter.getD 0).sum
  obtain ⟨k, hk⟩ := hfair.time latest
  have hkept := r.lower_or_keep System.rank
    (P := fun s => s.shared.chunkQueue.Perm (r.state n).shared.chunkQueue)
    (Nat.le_max_left n k) (.refl _) fun m _ hperm => by
      rcases rank_run hstart m with hlower | hkeeps
      · exact Or.inl hlower
      · exact Or.inr ⟨hkeeps.rank, hkeeps.queue.trans hperm⟩
  rcases hkept with ⟨m, hm, hlower⟩ | ⟨hrank, hperm⟩
  · exact ⟨m, hm, Or.inl hlower⟩
  · refine ⟨_, Nat.le_max_left n k, Or.inr ⟨hrank, ?_⟩⟩
    -- Every backoff in the queue ends before `latest`.
    have hnow := hk.trans (now_run (r := r) (Nat.le_max_right n k))
    unfold System.delay
    rw [(hperm.map _).sum_eq, List.sum_eq_zero_iff_forall_eq_nat]
    intro d hd
    obtain ⟨c, hc, rfl⟩ := List.mem_map.mp hd
    have hle : c.retryAfter.getD 0 ≤ latest := List.le_sum_of_mem (List.mem_map_of_mem hc)
    omega

/-- All workers end. -/
theorem eventually_stopped
    (hstart : (benchmark opening heap config chunks).Reachable ok (r.state 0))
    (hfair : FairRun r) : ∃ n, (r.state n).Stopped := by
  have hlower : ∀ n, 0 ≤ n → ¬ (r.state n).Stopped → ∃ m, n ≤ m ∧
      ((r.state m).Stopped ∨ (r.state m).rank < (r.state n).rank) := by
    intro n _ _
    obtain ⟨m, hnm, hlower | ⟨hrank, hdelay⟩⟩ := delay_ends hstart hfair n
    · exact ⟨m, hnm, Or.inr hlower⟩
    · by_cases hstopped : (r.state m).Stopped
      · exact ⟨m, hnm, Or.inl hstopped⟩
      · obtain ⟨w, hw, hgoes⟩ : ∃ w ∈ (r.state m).workers, w.phase.stopped = false := by
          simpa [System.Stopped] using hstopped
        obtain ⟨i, hi⟩ := List.mem_iff_getElem?.mp hw
        obtain ⟨k, hmk, hlower⟩ := lower_of_worker hstart hfair hdelay hi hgoes
        exact ⟨k, hnm.trans hmk, Or.inr (hlower.trans_le hrank)⟩
  obtain ⟨n, -, hn⟩ := r.eventually_of_lower System.rank 0 hlower
  exact ⟨n, hn⟩

/-- Once all workers have ended, they stay so along the run. -/
theorem stopped_run (hstart : (benchmark opening heap config chunks).Reachable ok (r.state 0))
    {m n : Nat}
    (hle : m ≤ n) (hm : (r.state m).Stopped) : (r.state n).Stopped :=
  r.invariant hle hm fun k _ hk => stopped_step (fits_run hstart k) hk (moves_of_step (r.step k))

/-- Once there is a result, it stays along the run. -/
theorem joined_run {m n : Nat} (hle : m ≤ n) (hm : (r.state m).result.isSome = true) :
    (r.state n).result.isSome = true :=
  r.invariant (P := fun s => s.result.isSome = true) hle hm
    fun k _ hk => joined_step hk (moves_of_step (r.step k))

/-- `run_parallel` returns. -/
theorem eventually_joined (hstart : (benchmark opening heap config chunks).Reachable ok (r.state 0))
    (hfair : FairRun r) :
    ∃ n, (r.state n).Stopped ∧ (r.state n).result.isSome = true := by
  obtain ⟨n, hn⟩ := eventually_stopped hstart hfair
  obtain ⟨m, hnm, ⟨order, hjoin⟩ | hjoined | hgoes⟩ := hfair.join n
  · have hmoves := moves_of_step (r.step m)
    rw [hjoin] at hmoves
    exact ⟨m + 1, stopped_run hstart (Nat.le_succ_of_le hnm) hn, joined_of_join hmoves⟩
  · exact ⟨m, stopped_run hstart hnm hn, hjoined⟩
  · exact absurd (stopped_run hstart hnm hn) hgoes

/-- The tracker thread and the coordinator empty their channels. -/
theorem eventually_quiescent
    (hstart : (benchmark opening heap config chunks).Reachable ok (r.state 0))
    (hfair : FairRun r) : ∃ n, (r.state n).Quiescent := by
  obtain ⟨start, hstopped, hjoined⟩ := eventually_joined hstart hfair
  have hstep : ∀ k, start ≤ k → (r.state (k + 1)).pending < (r.state k).pending ∨
      ∃ d, r.label k = .tick d ∧ r.state (k + 1) = { r.state k with now := (r.state k).now + d } :=
    fun k hk => pending_step (fits_run hstart k) (stopped_run hstart hk hstopped)
      (joined_run hk hjoined) (moves_of_step (r.step k))
  -- A thread that has a message takes it, if no other thread gets the run on before.
  have hmessage : ∀ {acts : Label → Prop} {idle : System → Prop}, r.Fair acts idle →
      (∀ d, ¬ acts (.tick d)) → (∀ (s : System) d, idle { s with now := s.now + d } → idle s) →
      ∀ n, start ≤ n → ¬ idle (r.state n) →
        ∃ m, n ≤ m ∧ (r.state m).pending < (r.state n).pending := by
    intro acts idle hthread htick htime n hn hbusy
    refine r.lower_of_fair System.pending (P := fun s => ¬ idle s) hthread hbusy
      (fun _ hP => hP) ?_ ?_
    · intro k hk _ hacts
      rcases hstep k (hn.trans hk) with hlower | ⟨d, hlabel, -⟩
      · exact hlower
      · exact absurd (hlabel ▸ hacts) (htick d)
    · intro k hk hP _
      rcases hstep k (hn.trans hk) with hlower | ⟨d, -, hnext⟩
      · exact Or.inl hlower
      · rw [hnext]
        exact Or.inr ⟨le_rfl, fun hidle => hP (htime _ d hidle)⟩
  have hlower : ∀ n, start ≤ n → ¬ (r.state n).Quiescent → ∃ m, n ≤ m ∧
      ((r.state m).Quiescent ∨ (r.state m).pending < (r.state n).pending) := by
    intro n hn hwaiting
    by_cases hevents : (r.state n).events.recv = none
    · -- Only frontier values are left.
      have hfeedback : ¬ ((r.state n).coordinator = none ∧ (r.state n).feedback.recv = none) :=
        fun hnothing => hwaiting ⟨stopped_run hstart hn hstopped, joined_run hn hjoined, hevents,
          hnothing.2, hnothing.1⟩
      obtain ⟨m, hnm, hlt⟩ := hmessage hfair.coordinator (by simp) (fun _ _ h => h) n hn hfeedback
      exact ⟨m, hnm, Or.inr hlt⟩
    · obtain ⟨m, hnm, hlt⟩ := hmessage hfair.tracker (by simp) (fun _ _ h => h) n hn hevents
      exact ⟨m, hnm, Or.inr hlt⟩
  obtain ⟨n, -, hn⟩ := r.eventually_of_lower System.pending start hlower
  exact ⟨n, hn⟩

/-- Nothing but the clock moves after that. -/
theorem quiescent_run (hstart : (benchmark opening heap config chunks).Reachable ok (r.state 0))
    {m n : Nat}
    (hle : m ≤ n) (hm : (r.state m).Quiescent) : (r.state n).Quiescent := by
  refine r.invariant hle hm fun k _ hk => ?_
  have hzero : (r.state k).pending = 0 := by
    unfold System.pending
    rw [(recv_eq_none_iff _).mp hk.tracked, (recv_eq_none_iff _).mp hk.received, hk.stored]
    rfl
  rcases pending_step (fits_run hstart k) hk.stopped hk.joined (moves_of_step (r.step k)) with
    hlower | ⟨d, -, hnext⟩
  · rw [hzero] at hlower
    cases hlower
  · rw [hnext]
    exact ⟨hk.stopped, hk.joined, hk.tracked, hk.received, hk.stored⟩

end

/-- A worker that has not ended can act, whatever curl is about to answer. -/
theorem worker_can_act (heap : ChunkHeap) (config : ReactorConfig) (t : Transfer)
    (hw : s.workers[i]? = some w) (hgoes : w.phase.stopped = false) :
    ∃ a, (a = .advance i ∨ a = .pop i [] ∨ a = .perform i t) ∧
      (System.step heap config a s).isSome = true := by
  have hadvance : (s.advance heap config i w).isSome = true →
      (System.step heap config (.advance i) s).isSome = true := by
    intro h
    simpa only [System.step, hw, Option.bind_some] using h
  cases hout : w.outbox with
  | some event => exact ⟨.advance i, Or.inl rfl, hadvance (by simp [System.advance, hout])⟩
  | none =>
    cases hph : w.phase with
    | locking =>
      exact ⟨.pop i [], Or.inr (Or.inl rfl), by simp [System.step, hw, hout, hph]⟩
    | ready req =>
      exact ⟨.perform i t, Or.inr (Or.inr rfl), by simp [System.step, hw, hout, hph]⟩
    | performing req t' left remaining =>
      refine ⟨.advance i, Or.inl rfl, hadvance ?_⟩
      simp only [System.advance, hout, hph, Worker.localStep, Option.isSome_map]
      split
      · rfl
      · cases left with
        | nil => rfl
        | cons callback rest => cases callback <;> rfl
    | exited | panicked =>
      rw [hph] at hgoes
      cases hgoes
    | _ =>
      exact ⟨.advance i, Or.inl rfl,
        hadvance (by simp [System.advance, hout, hph, Worker.localStep])⟩

/-- No worker ever waits for another one, and every fair run ends: all workers stop,
`run_parallel` returns, and the channels are empty from then on. Nothing is assumed about
curl's answers. -/
theorem fair_run_finishes (r : (benchmark opening heap config chunks).Run TransitionSystem.any)
    (hstart : (benchmark opening heap config chunks).Reachable TransitionSystem.any (r.state 0))
    (hfair : FairRun r) :
    (∀ n i w, (r.state n).workers[i]? = some w → w.phase.stopped = false → ∀ t,
      ∃ a, (a = .advance i ∨ a = .pop i [] ∨ a = .perform i t) ∧
        (System.step heap config a (r.state n)).isSome = true) ∧
    ∃ n, ∀ m, n ≤ m → (r.state m).Quiescent := by
  refine ⟨fun n i w hw hgoes t => worker_can_act heap config t hw hgoes, ?_⟩
  obtain ⟨n, hn⟩ := eventually_quiescent hstart hfair
  exact ⟨n, fun m hm => quiescent_run hstart hm hn⟩

/-! ### Finite schedules are fair runs -/

/-- Time passes after the end of a run. -/
def ticking (opening : RunStarted) (heap : ChunkHeap) (config : ReactorConfig)
    (chunks : List ChunkRequest) (htick : ∀ s d, ok s (.tick d)) (s : System) :
    (benchmark opening heap config chunks).Run ok where
  state n := { s with now := s.now + n }
  label _ := .tick 1
  allowed _ := htick _ 1
  step n := by
    show some { s with now := s.now + n + 1 } = _
    rw [Nat.add_assoc]

variable (ok) in
/-- A schedule that comes to the end is a fair run, when time passes after it. -/
theorem exists_fairRun (opening : RunStarted) (heap : ChunkHeap) (config : ReactorConfig)
    (chunks : List ChunkRequest) [DecidableRel ok] (htick : ∀ s d, ok s (.tick d))
    (labels : List Label) (h : ∃ s ∈ (benchmark opening heap config chunks).run ok labels
      (.start opening heap config chunks), s.Quiescent) :
    ∃ r : (benchmark opening heap config chunks).Run ok,
      r.state 0 = .start opening heap config chunks ∧ FairRun r := by
  obtain ⟨s, hs, hq⟩ := h
  obtain ⟨r, hstart, hr⟩ :=
    TransitionSystem.exists_run (ticking opening heap config chunks htick s) labels hs
  have hafter : ∀ n, n ≤ labels.length + n := fun n => Nat.le_add_left n _
  have hstate : ∀ n, r.state (labels.length + n) = { s with now := s.now + n } :=
    fun n => (hr n).1
  refine ⟨r, hstart, ?_, ?_, ?_, ?_, ?_⟩
  · intro i n
    refine ⟨_, hafter n, Or.inr ?_⟩
    rw [hstate]
    exact fun w hw => hq.stopped w (List.mem_of_getElem? hw)
  · intro t
    refine ⟨labels.length + t, ?_⟩
    rw [hstate]
    exact Nat.le_add_left t _
  · intro n
    refine ⟨_, hafter n, Or.inr (Or.inl ?_)⟩
    rw [hstate]
    exact hq.joined
  · intro n
    refine ⟨_, hafter n, Or.inr ?_⟩
    rw [hstate]
    exact hq.tracked
  · intro n
    refine ⟨_, hafter n, Or.inr ?_⟩
    rw [hstate]
    exact ⟨hq.stored, hq.received⟩

/-- One worker and one chunk, which arrives in two pieces with a backoff between them. -/
def oneRetry : List Label :=
  [.advance 0, .pop 0 []] ++ Label.advances 0 3 ++ [.perform 0 (.ofCallbacks [.write 1])] ++
    Label.advances 0 9 ++ [.tick 500000000, .advance 0, .pop 0 []] ++ Label.advances 0 3 ++
    [.perform 0 (.ofCallbacks [.write 3])] ++ Label.advances 0 10 ++ [.pop 0 [], .advance 0] ++
    [.join [⟨0, "https/1.1", "", "", 0, 500000000, 2, 4⟩]] ++ List.replicate 11 .track ++
    [.receive, .store]

/-- A fair run with a retry. It ends after the second transfer. -/
theorem fair_run_finishes_one_retry :
    ∃ r : (benchmark .plain .ofList (.unlimited 1 4) [⟨0, 0, 3, .urgent⟩]).Run TransitionSystem.any,
      r.state 0 = .start .plain .ofList (.unlimited 1 4) [⟨0, 0, 3, .urgent⟩] ∧ FairRun r ∧
      ∃ n, ∀ m, n ≤ m → (r.state m).Quiescent := by
  obtain ⟨r, hstart, hfair⟩ := exists_fairRun TransitionSystem.any .plain .ofList (.unlimited 1 4)
    [⟨0, 0, 3, .urgent⟩] (fun _ _ => trivial) oneRetry (by decide)
  exact ⟨r, hstart, hfair, (fair_run_finishes r (hstart ▸ .refl) hfair).2⟩

end FrontierSim
