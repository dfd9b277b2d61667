import FrontierSim.Proofs.Tracker

/-!
# `FrontierSim.Proofs.Timeline`: the times of the frontier events

The tracker gives an advance the time of the report that closed the gap. A worker reads the
clock for a report and sends the report later, so two workers can send in the other order
than they read the clock. Then the tracker records times that run back
(`timeline_runs_back`). The metrics and the budget search allow for that: the one subtracts
times with saturation, the other sorts the events first.

`timeline_follows_pages` is about the runs in which the reports enter the channel in the
order of their times (`System.SendsInOrder`). There the recorded times never decrease, and
an advance is no earlier than the reports of the pages that it covers.
-/

set_option autoImplicit false

namespace FrontierSim

open Lib

/-- The time of a report, in whole milliseconds. -/
def PageCompleted.tMs (e : PageCompleted) : Nat := msOfNs e.timestampNs

/-- The guard under which a page report is sent only when no later one was sent before. -/
def System.SendsInOrder (s : System) : Label → Prop
  | .advance i => ∀ w ∈ s.workers[i]?, ∀ e ∈ w.outbox.bind TraceEvent.page?,
    ∀ sent ∈ s.pages, sent.tMs ≤ e.tMs
  | _ => True

/-- It can be checked whether a step sends in order. -/
instance : DecidableRel System.SendsInOrder := fun s a =>
  match a with
  | .advance i =>
    inferInstanceAs (Decidable (∀ w ∈ s.workers[i]?, ∀ e ∈ w.outbox.bind TraceEvent.page?,
      ∀ sent ∈ s.pages, sent.tMs ≤ e.tMs))
  | .tick _ | .pop _ _ | .perform _ _ | .track | .receive | .store | .join _ => instDecidableTrue

/-! ### The tracker and a list of reports -/

/-- When the advance was recorded, the tracker had processed the reports `past`: they report
every page below the frontier, and the advance is no earlier than any of them. -/
structure FrontierEvent.Follows (event : FrontierEvent) (pageSize : Nat)
    (past : List PageCompleted) : Prop where
  covered : ∀ p, p * pageSize < event.contiguousFrontierBytes → p ∈ pageSet past
  notBefore : ∀ e ∈ past, e.tMs ≤ event.tMs

/-- What holds of the recorded advances after the reports `es`. -/
structure Timeline (tr : FrontierTracker) (pageSize : Nat) (es : List PageCompleted) : Prop where
  stamped : ∀ event ∈ tr.events, ∃ e ∈ es, event.tMs = e.tMs
  sorted : tr.events.Pairwise fun a b => a.tMs ≤ b.tMs
  follows : ∀ event ∈ tr.events, ∃ past, past <+: es ∧ event.Follows pageSize past

variable {tr : FrontierTracker} {pageSize : Nat} {es : List PageCompleted} {e : PageCompleted}

/-- Before the first report no advance is recorded. -/
theorem timeline_withPageSize (pageSize : Nat) : Timeline (.withPageSize pageSize) pageSize [] where
  stamped _ hevent := absurd hevent List.not_mem_nil
  sorted := .nil
  follows _ hevent := absurd hevent List.not_mem_nil

/-- The advance that a report leads to, when the earlier reports have earlier times. -/
theorem Tracks.follows (h : Tracks tr pageSize (pageSet es)) (hlast : ∀ e' ∈ es, e'.tMs ≤ e.tMs)
    (delta : Nat) :
    (⟨e.tMs, (tr.onPageCompleted e.pageIndex e.tMs).contiguousFrontierBytes, delta⟩ :
      FrontierEvent).Follows pageSize (es ++ [e]) := by
  have hnext := h.onPageCompleted e.pageIndex e.tMs
  rw [← pageSet_append] at hnext
  constructor
  · intro p hp
    rw [hnext.frontier] at hp
    exact hnext.firstGap.below p (Nat.lt_of_mul_lt_mul_right hp)
  · intro e' he'
    rcases List.mem_append.mp he' with he' | he'
    · exact hlast e' he'
    · rw [List.mem_singleton.mp he']

/-- A report with the latest time so far keeps the timeline. -/
theorem Timeline.onPageCompleted (h : Timeline tr pageSize es)
    (htracks : Tracks tr pageSize (pageSet es)) (hlast : ∀ e' ∈ es, e'.tMs ≤ e.tMs) :
    Timeline (tr.onPageCompleted e.pageIndex e.tMs) pageSize (es ++ [e]) := by
  -- The old advances have the times of old reports, and `e` is the latest.
  have hbefore : ∀ event ∈ tr.events, event.tMs ≤ e.tMs := by
    intro event hevent
    obtain ⟨e', he', heq⟩ := h.stamped event hevent
    exact heq ▸ hlast e' he'
  have hnew : ∀ event ∈ (tr.onPageCompleted e.pageIndex e.tMs).events, event ∈ tr.events ∨
      ∃ delta, event = ⟨e.tMs,
        (tr.onPageCompleted e.pageIndex e.tMs).contiguousFrontierBytes, delta⟩ := by
    intro event hevent
    rw [events_onPageCompleted] at hevent
    rcases List.mem_append.mp hevent with hold | hevent
    · exact Or.inl hold
    · split at hevent
      · exact Or.inr ⟨_, List.mem_singleton.mp hevent⟩
      · exact absurd hevent List.not_mem_nil
  constructor
  · intro event hevent
    rcases hnew event hevent with hold | ⟨delta, rfl⟩
    · obtain ⟨e', he', heq⟩ := h.stamped event hold
      exact ⟨e', List.mem_append_left _ he', heq⟩
    · exact ⟨e, List.mem_append_right _ (List.mem_singleton_self e), rfl⟩
  · rw [events_onPageCompleted]
    refine List.pairwise_append.mpr ⟨h.sorted, ?_, ?_⟩
    · split
      · exact List.pairwise_singleton _ _
      · exact .nil
    · intro event hevent event' hevent'
      split at hevent'
      · rw [List.mem_singleton.mp hevent']
        exact hbefore event hevent
      · exact absurd hevent' List.not_mem_nil
  · intro event hevent
    rcases hnew event hevent with hold | ⟨delta, rfl⟩
    · obtain ⟨past, hpast, hfollows⟩ := h.follows event hold
      exact ⟨past, hpast.trans (List.prefix_append es [e]), hfollows⟩
    · -- The new advance was recorded after all of `es ++ [e]`.
      exact ⟨es ++ [e], List.prefix_rfl, htracks.follows hlast delta⟩

/-! ### The tracker thread -/

variable {heap : ChunkHeap} {config : ReactorConfig} {chunks : List ChunkRequest}
  {opening : RunStarted} {s s' : System} {a : Label}

/-- The pages that are sent come last. -/
theorem pages_sendAll {new : List TraceEvent} (hevents : s'.events = s.events.sendAll new) :
    s'.pages = s.pages ++ new.filterMap TraceEvent.page? := by
  rw [System.pages, hevents, Channel.sent_sendAll, List.filterMap_append, System.pages]

/-- A step sends no page report, or a worker sends the one in its outbox. -/
theorem pages_cases (h : Moves heap config s a s') :
    s'.pages = s.pages ∨
    ∃ (i : Nat) (w : Worker) (e : PageCompleted), a = .advance i ∧ s.workers[i]? = some w ∧
      w.outbox = some (.pageCompleted e) ∧ s'.pages = s.pages ++ [e] := by
  cases effect_of_moves h with
  | tick | loop | assignId | work | perform | receive | store => exact Or.inl rfl
  | @send i w event hw hout =>
    have hpages : (s.sendOutbox i w event).pages = s.pages ++ event.page?.toList := by
      rw [pages_sendAll (show _ = s.events.sendAll [event] from rfl)]
      cases hpage : event.page? <;> simp [hpage]
    cases event with
    | pageCompleted e => exact Or.inr ⟨i, w, e, rfl, hw, hout, hpages⟩
    | _ => exact Or.inl (hpages.trans (List.append_nil _))
  | track hrecv =>
    left
    rw [System.pages, (Channel.past_recv hrecv).2, System.pages]
  | commit =>
    left
    rw [pages_sendAll rfl]
    split <;> exact List.append_nil _
  | join =>
    left
    rw [pages_sendAll rfl, List.filterMap_eq_nil_iff.mpr ?_, List.append_nil]
    intro event hevent
    obtain ⟨conn, -, rfl⟩ := List.mem_map.mp hevent
    rfl

/-- Under the guard the reports stand in the channel in the order of their times. -/
theorem pages_sorted (h : (benchmark opening heap config chunks).Reachable System.SendsInOrder s) :
    s.pages.Pairwise fun e e' => e.tMs ≤ e'.tMs := by
  refine reachable_invariant (P := fun s => s.pages.Pairwise fun e e' => e.tMs ≤ e'.tMs) h .nil ?_
  intro s a s' hsorted hok hmoves
  rcases pages_cases hmoves with hsame | ⟨i, w, e, rfl, hw, hout, happend⟩
  · rwa [hsame]
  · rw [happend]
    -- By the guard no report that was sent before has a later time.
    refine List.pairwise_append.mpr ⟨hsorted, List.pairwise_singleton _ _, ?_⟩
    intro sent hsent e' he'
    rw [List.mem_singleton.mp he']
    exact hok w hw e (by rw [hout]; rfl) sent hsent

/-- Where page events are sent in the order of their times, the recorded advances follow the pages
in every reachable state. -/
theorem timeline_reachable
    (h : (benchmark opening heap config chunks).Reachable System.SendsInOrder s) :
    Timeline s.runner.tracker config.pageSize s.trackedPages := by
  refine reachable_invariant_of (P := fun s =>
    Timeline s.runner.tracker config.pageSize s.trackedPages)
    (J := fun s => (s.events.Bounded ∧
      Tracks s.runner.tracker config.pageSize (pageSet s.trackedPages)) ∧
      s.trackedPages.Pairwise fun e e' => e.tMs ≤ e'.tMs) h ?_ ?_ ?_
  · -- What was processed is a prefix of what was sent, so it is in order too.
    intro s hs
    refine ⟨tracks_reachable hs, (pages_sorted hs).sublist ?_⟩
    exact (List.take_sublist _ _).filterMap _
  · exact timeline_withPageSize config.pageSize
  · rintro s a s' ⟨⟨hbounded, htracks⟩, -⟩ ⟨-, hsorted⟩ htimeline _ hmoves
    obtain ⟨-, ⟨hsame, hrunner⟩ | ⟨e, -, -, happend, hrunner⟩⟩ :=
      trackedPages_cases hbounded hmoves
    · rwa [hsame, hrunner]
    · rw [happend] at hsorted ⊢
      rw [hrunner]
      refine htimeline.onPageCompleted htracks fun e' he' => ?_
      exact (List.pairwise_append.mp hsorted).2.2 e' he' e (List.mem_singleton_self e)

/-- Where the reports enter the channel in the order of their times, the recorded times
never decrease. Every advance was recorded after reports of all pages below its frontier,
and is no earlier than any report processed by then. -/
theorem timeline_follows_pages
    (h : (benchmark opening heap config chunks).Reachable System.SendsInOrder s) :
    (s.runner.tracker.events.Pairwise fun a b => a.tMs ≤ b.tMs) ∧
    ∀ event ∈ s.runner.tracker.events, ∃ past, past <+: s.pages ∧
      event.Follows config.pageSize past := by
  have htimeline := timeline_reachable h
  refine ⟨htimeline.sorted, fun event hevent => ?_⟩
  obtain ⟨past, hpast, hfollows⟩ := htimeline.follows event hevent
  exact ⟨past, hpast.trans ((List.take_prefix _ _).filterMap _), hfollows⟩

/-- Two workers report a page each, the second 10 ms after the first. -/
theorem timeline_follows_pages_two_workers :
    ∃ s, (benchmark .plain .ofList (.unlimited 2 4)
        [⟨0, 0, 3, .urgent⟩, ⟨1, 4, 7, .urgent⟩]).Reachable System.SendsInOrder s ∧
      s.runner.tracker.events = [⟨10, 4, 4⟩, ⟨20, 8, 4⟩] ∧
      s.runner.tracker.events.Pairwise fun a b => a.tMs ≤ b.tMs := by
  obtain ⟨s, hs, hevents⟩ := TransitionSystem.exists_reachable_of_run
    (benchmark .plain .ofList (.unlimited 2 4) [⟨0, 0, 3, .urgent⟩, ⟨1, 4, 7, .urgent⟩])
    System.SendsInOrder
    ([.advance 0, .pop 0 [], .advance 1, .pop 1 []] ++ Label.advances 0 3 ++ Label.advances 1 3 ++
      [.perform 0 (.ofCallbacks [.write 4]), .perform 1 (.ofCallbacks [.write 4]),
        .tick 10000000] ++ Label.advances 0 3 ++ [.tick 10000000] ++ Label.advances 1 3 ++
      List.replicate 5 .track)
    (P := fun s => s.runner.tracker.events = [⟨10, 4, 4⟩, ⟨20, 8, 4⟩]) (by decide)
  exact ⟨s, hs, hevents, (timeline_follows_pages hs).1⟩

/-- The worker with the first page reads the clock last and sends first. The recorded times
run back, and the second advance is earlier than the report of a page that it covers. -/
theorem timeline_runs_back :
    ∃ s, (benchmark .plain .ofList (.unlimited 2 4)
        [⟨0, 0, 3, .urgent⟩, ⟨1, 4, 7, .urgent⟩]).Reachable TransitionSystem.any s ∧
      (¬ s.runner.tracker.events.Pairwise fun a b => a.tMs ≤ b.tMs) ∧
      ∃ event ∈ s.runner.tracker.events, ∃ e ∈ s.pages,
        e.pageIndex * 4 < event.contiguousFrontierBytes ∧ event.tMs < e.tMs :=
  TransitionSystem.exists_reachable_of_run
    (benchmark .plain .ofList (.unlimited 2 4) [⟨0, 0, 3, .urgent⟩, ⟨1, 4, 7, .urgent⟩])
    TransitionSystem.any
    ([.advance 0, .pop 0 [], .advance 1, .pop 1 []] ++ Label.advances 0 3 ++ Label.advances 1 3 ++
      [.perform 0 (.ofCallbacks [.write 4]), .perform 1 (.ofCallbacks [.write 4]),
        .tick 10000000] ++ Label.advances 1 2 ++ [.tick 10000000] ++ Label.advances 0 3 ++
      [.advance 1] ++ List.replicate 5 .track)
    (by decide)

end FrontierSim
