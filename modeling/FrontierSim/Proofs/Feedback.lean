import FrontierSim.Lib.LaggedView
import FrontierSim.Proofs.Tracker

/-!
# `FrontierSim.Proofs.Feedback`: what the scheduler knows of the frontier

The reactor reads the frontier behind a queue: the tracker thread sends a value when the
frontier moves, the coordinator takes it and stores it as `frontier_byte`. `System.view` is
that path as a `LaggedView`. Every step of a run is a step of the view (`view_moves`), so what the
library says of a lagged view holds of `frontier_byte`.

`fedBenchmark` is a run where any event may reach the tracker thread at any time, beside those
that the workers send. So its results are about every stream of page events.
-/

set_option autoImplicit false

namespace FrontierSim

open Lib

/-! ### The tracker thread -/

/-- The tracker thread sends the frontier exactly when it moves. -/
theorem process_feedback {r : Runner} {pageSize : Nat} {S : Set Nat}
    (h : Tracks r.tracker pageSize S) (event : TraceEvent) :
    (∃ S', Tracks (r.process event).1.tracker pageSize S') ∧
    (((r.process event).2 = none ∧
        (r.process event).1.tracker.contiguousFrontierBytes = r.tracker.contiguousFrontierBytes) ∨
      (r.process event).2 = some (r.process event).1.tracker.contiguousFrontierBytes ∧
        r.tracker.contiguousFrontierBytes
          < (r.process event).1.tracker.contiguousFrontierBytes) := by
  cases event with
  | pageCompleted e =>
    have hle := h.le_onPageCompleted e.pageIndex (msOfNs e.timestampNs)
    simp only [Runner.process, Runner.processPage]
    split
    · rename_i hlt
      exact ⟨⟨_, h.onPageCompleted _ _⟩, Or.inr ⟨rfl, hlt⟩⟩
    · rename_i hge
      exact ⟨⟨_, h.onPageCompleted _ _⟩, Or.inl ⟨rfl, Nat.le_antisymm (Nat.le_of_not_lt hge) hle⟩⟩
  | _ => exact ⟨⟨S, h⟩, Or.inl ⟨rfl, rfl⟩⟩

namespace System

/-- The reactor's view of the frontier. -/
def view (s : System) : LaggedView Nat where
  seen := s.shared.frontierByte
  pending := s.coordinator.toList ++ s.feedback.future
  source := s.runner.tracker.contiguousFrontierBytes

/-- Every value that the tracker thread sent was taken and stored. -/
def FeedbackDrained (s : System) : Prop := s.feedback.future = [] ∧ s.coordinator = none

/-- It can be checked whether the feedback is drained. -/
instance (s : System) : Decidable s.FeedbackDrained := inferInstanceAs (Decidable (_ ∧ _))

end System

variable {heap : ChunkHeap} {config : ReactorConfig} {chunks : List ChunkRequest}
  {opening : RunStarted} {s s' : System} {a : Label}

/-- What holds of the feedback path in every state. -/
structure Watched (pageSize : Nat) (s : System) : Prop where
  bounded : s.feedback.Bounded
  tracks : ∃ S, Tracks s.runner.tracker pageSize S
  consistent : s.view.Consistent

/-- A commit section does not touch the frontier value. -/
theorem frontierByte_commit (st : SharedState) (heap : ChunkHeap) (chunk : PrioritizedChunk)
    (t : Transfer) (bytes now : Nat) (fate : Fate PrioritizedChunk) :
    (st.commit heap chunk t bytes now fate).frontierByte = st.frontierByte := by
  cases fate <;> rfl

/-- A step of the run is a step of the view. -/
theorem view_moves {pageSize : Nat} (hs : Watched pageSize s) (h : Moves heap config s a s') :
    Watched pageSize s' ∧ s.view.Step s'.view := by
  -- Only the tracker thread and the coordinator touch the feedback path.
  have hidle : ∀ {t : System}, t.shared.frontierByte = s.shared.frontierByte →
      t.coordinator = s.coordinator → t.feedback = s.feedback → t.runner = s.runner →
      Watched pageSize t ∧ s.view.Step t.view := by
    intro t hseen hcoordinator hfeedback hrunner
    have hview : t.view = s.view := by
      unfold System.view
      rw [hseen, hcoordinator, hfeedback, hrunner]
    refine ⟨⟨?_, ?_, ?_⟩, hview ▸ .idle _⟩
    · exact hfeedback ▸ hs.bounded
    · exact hrunner ▸ hs.tracks
    · exact hview ▸ hs.consistent
  have hstep : s.view.Step s'.view → s'.feedback.Bounded →
      (∃ S, Tracks s'.runner.tracker pageSize S) → Watched pageSize s' ∧ s.view.Step s'.view :=
    fun hview hbounded htracks => ⟨⟨hbounded, htracks, hs.consistent.step hview⟩, hview⟩
  cases effect_of_moves h with
  | commit => exact hidle (frontierByte_commit ..) rfl rfl rfl
  | @track event events hrecv =>
    obtain ⟨S, htracks⟩ := hs.tracks
    obtain ⟨htracks', ⟨hnone, hsame⟩ | ⟨hsome, hlt⟩⟩ := process_feedback htracks event
    · refine hstep ?_ (hs.bounded.sendAll _) htracks'
      unfold System.view
      rw [hs.bounded.future_sendAll, hnone, hsame, Option.toList_none, List.append_nil]
      exact .idle _
    · refine hstep ?_ (hs.bounded.sendAll _) htracks'
      unfold System.view
      rw [hs.bounded.future_sendAll, hsome, Option.toList_some, ← List.append_assoc]
      exact .publish hlt
  | @receive frontierByte feedback hnone hrecv =>
    refine hstep ?_ (hs.bounded.recv hrecv) hs.tracks
    -- Taking a value does not change the order in which values will be stored.
    unfold System.view
    rw [hnone, Channel.future_recv hrecv]
    exact .idle _
  | store hsome =>
    refine hstep ?_ hs.bounded hs.tracks
    unfold System.view
    rw [hsome]
    exact .deliver rfl
  | _ => exact hidle rfl rfl rfl rfl

/-! ### A run with events from elsewhere -/

/-- A step of the run, or an event that reaches the tracker thread from elsewhere. -/
inductive FedLabel
  | run (a : Label)
  | feed (event : TraceEvent)
  deriving DecidableEq, Repr

/-- A benchmark run whose tracker thread receives any events. -/
def fedBenchmark (opening : RunStarted) (heap : ChunkHeap) (config : ReactorConfig)
    (chunks : List ChunkRequest) : TransitionSystem System FedLabel where
  init := .start opening heap config chunks
  step
    | .run a, s => System.step heap config a s
    | .feed event, s => some { s with events := s.events.send event }

/-- One step of the benchmark is a step of the view: an advance is published, a value is delivered
to the reactor, or the view stays. -/
theorem view_step {b : FedLabel} (hs : Watched config.pageSize s)
    (h : (fedBenchmark opening heap config chunks).step b s = some s') :
    Watched config.pageSize s' ∧ s.view.Step s'.view := by
  cases b with
  | run a => exact view_moves hs (moves_of_step h)
  | feed event =>
    cases h
    exact ⟨⟨hs.bounded, hs.tracks, hs.consistent⟩, .idle _⟩

/-- The view is consistent in every reachable state. -/
theorem watched_reachable
    (h : (fedBenchmark opening heap config chunks).Reachable TransitionSystem.any s) :
    Watched config.pageSize s :=
  h.invariant
    ⟨Channel.bounded_empty, ⟨∅, tracks_withPageSize _⟩, LaggedView.consistent_of_nil rfl rfl⟩
    fun _ _ _ hs _ hstep => (view_step hs hstep).1

/-- Every value on its way to the reactor was the tracker's frontier at some time. -/
theorem values_reachable
    (h : (fedBenchmark opening heap config chunks).Reachable TransitionSystem.any s) :
    ∀ x ∈ s.view.seen :: s.view.pending, ∃ s₀,
      (fedBenchmark opening heap config chunks).Reachable TransitionSystem.any s₀ ∧
      (fedBenchmark opening heap config chunks).Path TransitionSystem.any s₀ s ∧
      s₀.runner.tracker.contiguousFrontierBytes = x := by
  refine h.invariant_of
    (J := (fedBenchmark opening heap config chunks).Reachable TransitionSystem.any)
    (P := fun s => ∀ x ∈ s.view.seen :: s.view.pending, ∃ s₀,
      (fedBenchmark opening heap config chunks).Reachable TransitionSystem.any s₀ ∧
      (fedBenchmark opening heap config chunks).Path TransitionSystem.any s₀ s ∧
      s₀.runner.tracker.contiguousFrontierBytes = x) (fun _ h => h) ?_ ?_
  · intro x hx
    exact ⟨_, .refl, .refl, (List.mem_singleton.mp hx).symm⟩
  · intro s b s' hs hs' ih hok hstep x hx
    rcases (view_step (watched_reachable hs) hstep).2.mem_values hx with hx | rfl
    · obtain ⟨s₀, hs₀, hpath, hvalue⟩ := ih x hx
      exact ⟨s₀, hs₀, hpath.tail hok hstep, hvalue⟩
    · exact ⟨s', hs', .refl, rfl⟩

/-- The frontier value of the reactor is a lower bound for the tracker's frontier, and a value
that the frontier had. It never decreases, and it is the frontier itself when all feedback has
arrived. With the channel empty, the only value that can be missing is the one in the
coordinator's hands. -/
theorem scheduler_view
    (h : (fedBenchmark opening heap config chunks).Reachable TransitionSystem.any s) :
    s.shared.frontierByte ≤ s.runner.tracker.contiguousFrontierBytes ∧
    (∃ s₀, (fedBenchmark opening heap config chunks).Reachable TransitionSystem.any s₀ ∧
      (fedBenchmark opening heap config chunks).Path TransitionSystem.any s₀ s ∧
      s₀.runner.tracker.contiguousFrontierBytes = s.shared.frontierByte) ∧
    (s.FeedbackDrained → s.shared.frontierByte = s.runner.tracker.contiguousFrontierBytes) ∧
    (s.feedback.future = [] → s.coordinator.getD s.shared.frontierByte
      = s.runner.tracker.contiguousFrontierBytes) ∧
    ∀ s', (fedBenchmark opening heap config chunks).Path TransitionSystem.any s s' →
      s.shared.frontierByte ≤ s'.shared.frontierByte := by
  have hs := watched_reachable h
  -- With an empty channel the chain ends at what the coordinator holds, or was stored last.
  have hempty : s.feedback.future = [] → s.coordinator.getD s.shared.frontierByte
      = s.runner.tracker.contiguousFrontierBytes := by
    intro hfuture
    have hlast : (s.shared.frontierByte :: (s.coordinator.toList ++ s.feedback.future)).getLast?
        = some s.runner.tracker.contiguousFrontierBytes := hs.consistent.getLast
    rw [hfuture, List.append_nil] at hlast
    cases hcoordinator : s.coordinator <;>
      · rw [hcoordinator] at hlast
        exact Option.some.inj hlast
  refine ⟨hs.consistent.seen_le, values_reachable h _ List.mem_cons_self, ?_, hempty, ?_⟩
  · rintro ⟨hfuture, hcoordinator⟩
    have hstored := hempty hfuture
    rwa [hcoordinator] at hstored
  · intro s' hpath
    refine (hpath.invariant (P := fun t => Watched config.pageSize t ∧
      s.shared.frontierByte ≤ t.shared.frontierByte) ⟨hs, le_rfl⟩ ?_).2
    rintro t b u ⟨ht, hle⟩ _ hstep
    obtain ⟨hu, hview⟩ := view_step ht hstep
    exact ⟨hu, hle.trans (ht.consistent.seen_mono hview)⟩

/-- A page report from elsewhere, and its way to the reactor. -/
theorem scheduler_view_one_page :
    ∃ s, (fedBenchmark .plain .ofList (.unlimited 1 4) []).Reachable TransitionSystem.any s ∧
      s.shared.frontierByte = s.runner.tracker.contiguousFrontierBytes ∧
      s.shared.frontierByte = 4 := by
  obtain ⟨s, hs, hdrained, hstored⟩ := TransitionSystem.exists_reachable_of_run
    (fedBenchmark .plain .ofList (.unlimited 1 4) []) TransitionSystem.any
    [.feed (.pageCompleted ⟨1, 0, 0, 0, 4, 4, 4, 0⟩), .run .track, .run .track, .run .receive,
      .run .store]
    (P := fun s => s.FeedbackDrained ∧ s.shared.frontierByte = 4) (by decide)
  exact ⟨s, hs, (scheduler_view hs).2.2.1 hdrained, hstored⟩

end FrontierSim
