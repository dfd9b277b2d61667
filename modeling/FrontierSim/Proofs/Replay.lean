import FrontierSim.Frontier.Result
import FrontierSim.Proofs.Feedback

/-!
# `FrontierSim.Proofs.Replay`: the trace can be replayed

`Announces` is the rule that the output of the tracker thread follows, read from the front with
a tracker that replays the page events: an advance is announced directly before the page event
that causes it, and nothing else is announced. Each event that the thread processes adds a
piece of such a trace (`announces_process`), and pieces compose (`Announces.append`).

What a reader of the trace can rely on follows from the rule alone: the announcements are the
timeline of the replay, they increase, and the last one is the final frontier.
-/

set_option autoImplicit false

namespace FrontierSim

open Lib

/-! ### The rule of a trace -/

/-- The page event, as it reaches the tracker. -/
def FrontierTracker.onPage (tr : FrontierTracker) (e : PageCompleted) : FrontierTracker :=
  tr.onPageCompleted e.pageIndex (msOfNs e.timestampNs)

/-- A page event adds one event to the timeline when the frontier moves, and none otherwise. -/
theorem events_onPage (tr : FrontierTracker) (e : PageCompleted) :
    (tr.onPage e).events = tr.events ++
      if tr.contiguousFrontierBytes < (tr.onPage e).contiguousFrontierBytes then
        [⟨msOfNs e.timestampNs, (tr.onPage e).contiguousFrontierBytes,
          (tr.onPage e).contiguousFrontierBytes - tr.contiguousFrontierBytes⟩]
      else [] :=
  events_onPageCompleted tr e.pageIndex (msOfNs e.timestampNs)

/-- A fresh tracker after the page events of a trace. -/
def replay (pageSize : Nat) (trace : List TraceEvent) : FrontierTracker :=
  (trace.filterMap TraceEvent.page?).foldl .onPage (.withPageSize pageSize)

/-- The announcements of a trace. -/
def advances (trace : List TraceEvent) : List FrontierAdvanced :=
  trace.filterMap TraceEvent.advanced?

/-- The announcement of the page event `e`, when the frontier moves to `frontier`. -/
def announcement (pageSize frontier : Nat) (e : PageCompleted) : FrontierAdvanced where
  frontierByte := frontier
  frontierPage := frontier / pageSize
  contiguousBytes := frontier
  timestampNs := e.timestampNs

/-- Replaying the trace takes the first tracker to the second, and every advance is announced
directly before the page event that causes it. -/
inductive Announces (pageSize : Nat) :
    FrontierTracker → List TraceEvent → FrontierTracker → Prop
  | nil (tr : FrontierTracker) : Announces pageSize tr [] tr
  | other {tr tr' : FrontierTracker} {event : TraceEvent} {trace : List TraceEvent}
      (hpage : event.page? = none) (hadvanced : event.advanced? = none)
      (h : Announces pageSize tr trace tr') : Announces pageSize tr (event :: trace) tr'
  | still {tr tr' : FrontierTracker} {e : PageCompleted} {trace : List TraceEvent}
      (hstill : (tr.onPage e).contiguousFrontierBytes = tr.contiguousFrontierBytes)
      (h : Announces pageSize (tr.onPage e) trace tr') :
      Announces pageSize tr (.pageCompleted e :: trace) tr'
  | advance {tr tr' : FrontierTracker} {e : PageCompleted} {trace : List TraceEvent}
      (hlt : tr.contiguousFrontierBytes < (tr.onPage e).contiguousFrontierBytes)
      (h : Announces pageSize (tr.onPage e) trace tr') :
      Announces pageSize tr (.frontierAdvanced
        (announcement pageSize (tr.onPage e).contiguousFrontierBytes e) ::
          .pageCompleted e :: trace) tr'

/-- An event of the timeline and the announcement of the same advance. -/
structure FrontierEvent.AnnouncedBy (event : FrontierEvent) (pageSize : Nat)
    (a : FrontierAdvanced) : Prop where
  byte : a.frontierByte = event.contiguousFrontierBytes
  contiguous : a.contiguousBytes = a.frontierByte
  page : a.frontierPage = a.frontierByte / pageSize
  time : event.tMs = msOfNs a.timestampNs

namespace Announces

variable {pageSize : Nat} {tr tr' tr'' : FrontierTracker} {trace trace' : List TraceEvent}

/-- Two traces in a row, where the second tracker goes on from the first. -/
theorem append (h : Announces pageSize tr trace tr') (h' : Announces pageSize tr' trace' tr'') :
    Announces pageSize tr (trace ++ trace') tr'' := by
  induction h with
  | nil => exact h'
  | other hpage hadvanced _ ih => exact .other hpage hadvanced (ih h')
  | still hstill _ ih => exact .still hstill (ih h')
  | advance hlt _ ih => exact .advance hlt (ih h')

/-- Only the page events move the tracker. -/
theorem replays (h : Announces pageSize tr trace tr') :
    tr' = (trace.filterMap TraceEvent.page?).foldl .onPage tr := by
  induction h with
  | nil => rfl
  | other hpage _ _ ih =>
    rw [List.filterMap_cons_none hpage]
    exact ih
  | still _ _ ih => exact ih
  | advance _ _ ih => exact ih

/-- The replay records one event for each announcement. -/
theorem timeline (h : Announces pageSize tr trace tr') :
    ∃ events, tr'.events = tr.events ++ events ∧
      List.Forall₂ (fun event a => event.AnnouncedBy pageSize a) events (advances trace) := by
  induction h with
  | nil => exact ⟨[], (List.append_nil _).symm, .nil⟩
  | other _ hadvanced _ ih =>
    rw [advances, List.filterMap_cons_none hadvanced]
    exact ih
  | @still tr tr' e trace hstill _ ih =>
    obtain ⟨events, hevents, hmatch⟩ := ih
    rw [events_onPage, if_neg (Nat.not_lt.mpr hstill.le), List.append_nil] at hevents
    exact ⟨events, hevents, hmatch⟩
  | @advance tr tr' e trace hlt _ ih =>
    obtain ⟨events, hevents, hmatch⟩ := ih
    rw [events_onPage, if_pos hlt, List.append_assoc] at hevents
    exact ⟨_, hevents, .cons ⟨rfl, rfl, rfl, rfl⟩ hmatch⟩

/-- The announcements increase from the first tracker's frontier on. -/
theorem increasing (h : Announces pageSize tr trace tr') :
    (∀ a ∈ advances trace, tr.contiguousFrontierBytes < a.frontierByte) ∧
      (advances trace).Pairwise fun a b => a.frontierByte < b.frontierByte := by
  induction h with
  | nil => exact ⟨fun a ha => absurd ha List.not_mem_nil, .nil⟩
  | other _ hadvanced _ ih =>
    rw [advances, List.filterMap_cons_none hadvanced]
    exact ih
  | still hstill _ ih =>
    rw [hstill] at ih
    exact ih
  | @advance tr tr' e trace hlt _ ih =>
    obtain ⟨hall, hpairwise⟩ := ih
    have hsplit : advances (.frontierAdvanced
        (announcement pageSize (tr.onPage e).contiguousFrontierBytes e) ::
          .pageCompleted e :: trace)
        = announcement pageSize (tr.onPage e).contiguousFrontierBytes e :: advances trace := rfl
    rw [hsplit]
    refine ⟨fun a ha => ?_, List.pairwise_cons.mpr ⟨hall, hpairwise⟩⟩
    rcases List.mem_cons.mp ha with rfl | ha
    · exact hlt
    · exact hlt.trans (hall a ha)

/-- The last announcement is where the frontier ends. -/
theorem final (h : Announces pageSize tr trace tr') :
    tr'.contiguousFrontierBytes = ((advances trace).getLast?.map
      FrontierAdvanced.frontierByte).getD tr.contiguousFrontierBytes := by
  induction h with
  | nil => rfl
  | other _ hadvanced _ ih =>
    rw [advances, List.filterMap_cons_none hadvanced]
    exact ih
  | still hstill _ ih =>
    rw [hstill] at ih
    exact ih
  | @advance tr tr' e trace hlt _ ih =>
    rw [ih]
    show _ = (((announcement pageSize (tr.onPage e).contiguousFrontierBytes e ::
      advances trace).getLast?).map FrontierAdvanced.frontierByte).getD _
    rw [List.getLast?_cons]
    cases (advances trace).getLast? <;> rfl

end Announces

/-! ### The tracker thread -/

variable {r : Runner} {pageSize : Nat} {S : Set Nat}

/-- What the thread sends for one event. -/
theorem announces_process (h : Tracks r.tracker pageSize S) {event : TraceEvent}
    (hinput : event.advanced? = none) :
    ∃ trace, (r.process event).1.output = r.output ++ trace ∧
      trace.filter (fun event => event.advanced?.isNone) = [event] ∧
      Announces pageSize r.tracker trace (r.process event).1.tracker := by
  cases event with
  | pageCompleted e =>
    have hle := h.le_onPageCompleted e.pageIndex (msOfNs e.timestampNs)
    simp only [Runner.process, Runner.processPage]
    split
    · rename_i hlt
      refine ⟨_, rfl, rfl, ?_⟩
      rw [h.pageSize_eq]
      exact .advance hlt (.nil _)
    · rename_i hge
      exact ⟨_, rfl, rfl, .still (Nat.le_antisymm (Nat.le_of_not_lt hge) hle) (.nil _)⟩
  | frontierAdvanced => cases hinput
  | _ => exact ⟨_, rfl, rfl, .other rfl rfl (.nil _)⟩

/-- The output of the loop announces every advance in its place, and without the announcements it
is the input. The induction is on the input, one event at a time. -/
theorem announces_processAll (events : List TraceEvent)
    (hinput : ∀ event ∈ events, event.advanced? = none) (h : Tracks r.tracker pageSize S) :
    ∃ trace, (r.processAll events).output = r.output ++ trace ∧
      trace.filter (fun event => event.advanced?.isNone) = events ∧
      Announces pageSize r.tracker trace (r.processAll events).tracker := by
  induction events generalizing r S with
  | nil => exact ⟨[], (List.append_nil _).symm, rfl, .nil _⟩
  | cons event rest ih =>
    obtain ⟨piece, hpiece, hevent, hannounces⟩ :=
      announces_process h (hinput event List.mem_cons_self)
    obtain ⟨⟨S', hS'⟩, -⟩ := process_feedback h event
    obtain ⟨trace, htrace, hrest, hannounces'⟩ :=
      ih (fun event hevent => hinput event (List.mem_cons_of_mem _ hevent)) hS'
    refine ⟨piece ++ trace, ?_, ?_, hannounces.append hannounces'⟩
    · rw [← List.append_assoc, ← hpiece]
      exact htrace
    · rw [List.filter_append, hevent, hrest]
      rfl

/-! ### The whole function -/

/-- A trace with the result that belongs to it, for the input `events`. -/
structure Replayable (pageSize : Nat) (events trace : List TraceEvent)
    (result : FrontierRunResult) : Prop where
  complete : trace.filter (fun event => event.advanced?.isNone) = events
  announces : Announces pageSize (.withPageSize pageSize) trace (replay pageSize trace)
  timeline : List.Forall₂ (fun event a => event.AnnouncedBy pageSize a)
    (replay pageSize trace).events (advances trace)
  increasing : (advances trace).Pairwise fun a b => a.frontierByte < b.frontierByte
  final : result.finalFrontierBytes
    = ((advances trace).getLast?.map FrontierAdvanced.frontierByte).getD 0
  count : result.frontierEventsCount = (advances trace).length

/-- The output holds every input event once and in order, and its announcements are what a
replay of its page events produces. -/
theorem trace_replayable (config : FrontierRunConfig) (events : List TraceEvent)
    (hinput : ∀ event ∈ events, event.advanced? = none) (wallElapsedMs measuredAtMs : Nat) :
    Replayable config.pageSize events
      (runFrontierTracker config events wallElapsedMs measuredAtMs).1
      (runFrontierTracker config events wallElapsedMs measuredAtMs).2 := by
  obtain ⟨trace, htrace, hcomplete, hannounces⟩ := announces_processAll
    (r := .new config.pageSize) events hinput (tracks_withPageSize config.pageSize)
  have houtput : (runFrontierTracker config events wallElapsedMs measuredAtMs).1 = trace :=
    htrace
  have hreplay : ((Runner.new config.pageSize).processAll events).tracker
      = replay config.pageSize trace := hannounces.replays
  rw [houtput]
  obtain ⟨timeline, htimeline, hmatch⟩ := hannounces.timeline
  have hevents : ((Runner.new config.pageSize).processAll events).tracker.events = timeline :=
    htimeline
  constructor
  · exact hcomplete
  · exact hreplay ▸ hannounces
  · rw [← hreplay, hevents]
    exact hmatch
  · exact hannounces.increasing.2
  · exact hannounces.final
  · show ((Runner.new config.pageSize).processAll events).tracker.events.length = _
    rw [hevents, hmatch.length_eq]

/-- Page 1 waits for page 0, and one advance of two pages is announced. -/
theorem trace_replayable_two_pages :
    ∃ trace result, Replayable 4
      [.pageCompleted ⟨1, 0, 1, 4, 8, 4, 4, 1000000⟩, .pageCompleted ⟨2, 1, 0, 0, 4, 4, 4, 3000000⟩]
      trace result ∧ advances trace = [⟨8, 2, 8, 3000000⟩] :=
  ⟨_, _, trace_replayable ⟨4, 4, 4, 1, 1, true⟩ _ (by decide) 3 0, by decide⟩

/-! ### The thread and the function -/

section
variable {heap : ChunkHeap} {config : ReactorConfig} {chunks : List ChunkRequest}
  {opening : RunStarted} {ok : System → Label → Prop} {s : System}

/-- The tracker thread has done what the loop of `run_frontier_tracker` does. -/
theorem runner_reachable (h : (benchmark opening heap config chunks).Reachable ok s) :
    s.runner = (Runner.new config.pageSize).processAll s.events.past := by
  refine reachable_invariant_of
    (J := fun s => s.events.Bounded)
    (P := fun s => s.runner = (Runner.new config.pageSize).processAll s.events.past) h
    (fun _ hs => (tracks_reachable hs).1) rfl ?_
  intro s a s' hbounded _ hrunner _ hmoves
  rcases trace_cases hmoves with ⟨new, hevents, hsame, -⟩ | ⟨event, hrecv, hnext⟩
  · rw [hsame, hevents, hbounded.past_sendAll, hrunner]
  · rw [hnext, hrunner, (Channel.past_recv hrecv).1, Runner.processAll, Runner.processAll,
      List.foldl_append]
    rfl

/-- What the function returns when the events so far are all. -/
theorem runFrontierTracker_past (h : (benchmark opening heap config chunks).Reachable ok s)
    {runConfig : FrontierRunConfig} (hpage : runConfig.pageSize = config.pageSize)
    (wallElapsedMs measuredAtMs : Nat) :
    runFrontierTracker runConfig s.events.past wallElapsedMs measuredAtMs
      = (s.runner.output, s.runner.tracker.runResult runConfig wallElapsedMs measuredAtMs) := by
  rw [runner_reachable h, ← hpage]
  rfl

end

end FrontierSim
