import FrontierSim.Proofs.Selection
import FrontierSim.Proofs.Steps

/-!
# `FrontierSim.Proofs.Clock`: the clock of a run

The clock never goes back: a tick moves it forward, and so do the readings in the pop
section. `time_expired` is set by a worker that read the clock past the deadline, so it is
a fact about the clock (`expired_reachable`).
-/

set_option autoImplicit false

namespace FrontierSim

open Lib

/-! ### The pop section -/

/-- The clock does not run backwards during the pop loop. -/
theorem popScan_now_le (heap : ChunkHeap) (completed : Finset Nat) (fuel : Nat)
    (queue deferred : List PrioritizedChunk) (clock : Clock) :
    clock.now ≤ (popScan heap completed fuel queue deferred clock).clock.now := by
  induction fuel generalizing queue deferred clock with
  | zero => exact le_rfl
  | succ fuel ih =>
    simp only [popScan]
    split
    · exact le_rfl
    · split
      · exact ih _ _ clock
      · split
        · split
          · exact clock.now_le_read.trans (ih _ _ _)
          · exact clock.now_le_read
        · exact le_rfl

/-- The clock does not run backwards during the critical section. -/
theorem popNext_now_le (heap : ChunkHeap) (completed : Finset Nat)
    (queue : List PrioritizedChunk) (clock : Clock) :
    clock.now ≤ (popNext heap completed queue clock).2.2 :=
  popScan_now_le heap completed queue.length queue [] clock

/-- A scan that finds nothing has emptied the queue, and set aside what is not completed. -/
theorem popScan_none {heap : ChunkHeap} {completed : Finset Nat} {fuel : Nat}
    {queue deferred : List PrioritizedChunk} {clock : Clock} (hfuel : queue.length ≤ fuel)
    (hdeferred : ∀ c ∈ deferred, c.chunkId ∉ completed)
    (hnone : (popScan heap completed fuel queue deferred clock).found = none) :
    (popScan heap completed fuel queue deferred clock).queue = [] ∧
      ∀ c ∈ (popScan heap completed fuel queue deferred clock).deferred,
        c.chunkId ∉ completed := by
  induction fuel generalizing queue deferred clock with
  | zero =>
    rw [List.eq_nil_of_length_eq_zero (Nat.le_zero.mp hfuel)]
    exact ⟨rfl, hdeferred⟩
  | succ fuel ih =>
    cases hpop : heap.pop queue with
    | none =>
      simp only [popScan, hpop]
      refine ⟨?_, hdeferred⟩
      by_contra hne
      simpa [hpop] using heap.pop_isSome queue hne
    | some top =>
      obtain ⟨c, rest⟩ := top
      have hrest : rest.length ≤ fuel := by
        have hlen := (heap.pop_perm queue c rest hpop).length_eq
        rw [List.length_cons] at hlen
        omega
      by_cases hdone : c.chunkId ∈ completed
      · simp only [popScan, hpop, if_pos hdone] at hnone ⊢
        exact ih hrest hdeferred hnone
      · simp only [popScan, hpop, if_neg hdone] at hnone ⊢
        split at hnone
        · split at hnone
          · rename_i hlt
            simp only [if_pos hlt]
            refine ih hrest ?_ hnone
            intro d hd
            rcases List.mem_append.mp hd with hd | hd
            · exact hdeferred d hd
            · exact List.mem_singleton.mp hd ▸ hdone
          · cases hnone
        · cases hnone

/-- A pop section that finds nothing leaves no completed entry. -/
theorem popNext_none (heap : ChunkHeap) (completed : Finset Nat) (queue : List PrioritizedChunk)
    (clock : Clock) (hnone : (popNext heap completed queue clock).1 = none) :
    ∀ c ∈ (popNext heap completed queue clock).2.1, c.chunkId ∉ completed := by
  obtain ⟨hqueue, hdeferred⟩ := popScan_none (le_refl queue.length) (by simp) hnone
  intro c hc
  refine hdeferred c ?_
  have hmem := (heap.pushAll_perm _ _).mem_iff.mp hc
  rwa [hqueue, List.nil_append] at hmem

/-! ### The clock -/

variable {heap : ChunkHeap} {config : ReactorConfig} {chunks : List ChunkRequest}
  {opening : RunStarted} {ok : System → Label → Prop} {s s' : System} {a : Label}

/-- The pop section of a worker takes its time. -/
theorem now_le_popChunk (s : System) (heap : ChunkHeap) (i : Nat) (w : Worker)
    (ticks : List Nat) : s.now ≤ (s.popChunk heap i w ticks).now := by
  unfold System.popChunk
  split
  · exact le_rfl
  · exact popNext_now_le heap _ _ ⟨s.now, ticks⟩

/-- Time does not run backwards in a step. -/
theorem now_mono (hmoves : Moves heap config s a s') : s.now ≤ s'.now := by
  cases hmoves with
  | tick d => exact Nat.le_add_right _ d
  | pop ticks => exact now_le_popChunk s heap _ _ ticks
  | checkTime =>
    unfold System.checkTime
    split <;> exact le_rfl
  | recheck =>
    unfold System.recheck
    split <;> exact le_rfl
  | _ => exact le_rfl

/-- The deadline has passed. -/
def System.Overdue (s : System) (config : ReactorConfig) : Prop :=
  config.maxDuration > 0 ∧ s.now ≥ config.maxDuration

/-- The flag is set by the time check alone. -/
theorem expired_cases (hmoves : Moves heap config s a s') :
    s'.shared.timeExpired = s.shared.timeExpired ∨ s'.Overdue config := by
  cases hmoves with
  | checkTime =>
    unfold System.checkTime
    split
    · rename_i htime
      exact Or.inr htime
    · exact Or.inl rfl
  | recheck =>
    unfold System.recheck
    split <;> exact Or.inl rfl
  | pop =>
    unfold System.popChunk
    split <;> exact Or.inl rfl
  | commit =>
    left
    simp only [System.commit, SharedState.commit, SharedState.applyFate]
    split <;> rfl
  | _ => exact Or.inl rfl

/-- Where the flag is set, the deadline has passed: it was set at such a time, and time goes on. -/
theorem expired_reachable (h : (benchmark opening heap config chunks).Reachable ok s)
    (hexpired : s.shared.timeExpired = true) : s.Overdue config := by
  refine reachable_invariant
    (P := fun s => s.shared.timeExpired = true → s.Overdue config) h ?_ ?_ hexpired
  · intro hstart
    cases hstart
  · intro s a s' hP _ hmoves hexpired
    rcases expired_cases hmoves with heq | hoverdue
    · obtain ⟨hpos, hle⟩ := hP (heq ▸ hexpired)
      exact ⟨hpos, hle.trans (now_mono hmoves)⟩
    · exact hoverdue

/-- No step changes the number of workers. -/
theorem length_workers (h : (benchmark opening heap config chunks).Reachable ok s) :
    s.workers.length = config.maxConcurrent := by
  refine reachable_invariant (P := fun s => s.workers.length = config.maxConcurrent) h ?_ ?_
  · exact List.length_replicate
  · intro s a s' hlen _ hmoves
    rcases workers_cases hmoves with heq | ⟨i, w, w', -, -, heq⟩
    · rw [heq, hlen]
    · rw [heq, List.length_set, hlen]

end FrontierSim
