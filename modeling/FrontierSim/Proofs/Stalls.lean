import FrontierSim.Lib.Gaps
import FrontierSim.Proofs.Replay
import FrontierSim.Proofs.Timeline
import Mathlib.Tactic.Linarith
import Mathlib.Tactic.NormNum

/-!
# `FrontierSim.Proofs.Stalls`: the stalls are the silences of the run

`compute_metrics` looks at neighbouring advances, and `run_frontier_tracker` puts the time after
the last one beside them. `stalls_are_silences` says what comes out, in terms of the trace that
the function writes: `max_frontier_stall_ms` is the length of the longest part of the run without
a `FrontierAdvanced` event, and the stability penalty is zero when no such part is longer than
two seconds. The time before the first advance does not count, unless there is no advance at all.
-/

set_option autoImplicit false

namespace FrontierSim

open Lib

/-- The times at which the frontier moved, and the end of the run. A run without an advance
starts at 0. -/
def withEnd (advancedMs : List Nat) (wallElapsedMs : Nat) : List Nat :=
  match advancedMs with
  | [] => [0, wallElapsedMs]
  | times => times ++ [wallElapsedMs]

/-- The times of the advances that a trace announces, and the end of the run. -/
def progressTimes (trace : List TraceEvent) (wallElapsedMs : Nat) : List Nat :=
  withEnd ((advances trace).map fun a => msOfNs a.timestampNs) wallElapsedMs

variable {tr : FrontierTracker} {wallElapsedMs : Nat} {times : List Nat}

/-! ### The loop -/

/-- The loop over neighbouring events counts the long gaps between their times and finds the
longest. -/
theorem countStalls_eq (events : List FrontierEvent) (stallCount maxStallMs : Nat) :
    FrontierMetrics.countStalls events stallCount maxStallMs =
      (stallCount + (gaps (events.map FrontierEvent.tMs)).countP fun g => STALL_THRESHOLD_MS < g,
        max maxStallMs (longestGap (events.map FrontierEvent.tMs))) := by
  induction events generalizing stallCount maxStallMs with
  | nil => simp [FrontierMetrics.countStalls, gaps, longestGap]
  | cons previous rest ih =>
    cases rest with
    | nil => simp [FrontierMetrics.countStalls, longestGap]
    | cons event rest =>
      rw [FrontierMetrics.countStalls, ih]
      simp only [List.map_cons, gaps_cons_cons, longestGap, List.foldr_cons, List.countP_cons,
        Prod.mk.injEq]
      constructor
      · by_cases hgap : STALL_THRESHOLD_MS < event.tMs - previous.tMs
        · simp only [hgap, if_true, decide_true]
          omega
        · simp only [hgap, if_false, decide_false, Bool.false_eq_true]
          omega
      · split <;> omega

/-- The stall metrics of a run read the times of its progress. -/
theorem stalls_eq (tr : FrontierTracker) (config : FrontierRunConfig)
    (wallElapsedMs measuredAtMs : Nat)
    (htimes : times = withEnd (tr.events.map FrontierEvent.tMs) wallElapsedMs) :
    (tr.runResult config wallElapsedMs measuredAtMs).frontierStallCount =
        (gaps times).countP (fun g => STALL_THRESHOLD_MS < g) ∧
      (tr.runResult config wallElapsedMs measuredAtMs).maxFrontierStallMs = longestGap times := by
  subst htimes
  simp only [FrontierTracker.runResult, FrontierTracker.computeMetrics, countStalls_eq]
  rcases List.eq_nil_or_concat tr.events with hnil | ⟨before, last, hconcat⟩
  · simp only [FrontierTracker.tailDrainMs, hnil]
    by_cases hlong : wallElapsedMs > 2000 <;>
      simp [withEnd, gaps, longestGap, STALL_THRESHOLD_MS, hlong]
  · -- The tail is one more gap.
    have htimes : withEnd (tr.events.map FrontierEvent.tMs) wallElapsedMs =
        before.map FrontierEvent.tMs ++ [last.tMs] ++ [wallElapsedMs] := by
      unfold withEnd
      rw [hconcat]
      cases before <;> simp
    have htail : tr.tailDrainMs wallElapsedMs = wallElapsedMs - last.tMs := by
      simp [FrontierTracker.tailDrainMs, hconcat]
    rw [htimes, htail, longestGap_append_pair, gaps_append_pair, List.countP_append, hconcat]
    simp only [List.concat_eq_append, List.map_append, List.map_singleton, Nat.zero_add,
      Nat.zero_max, and_true]
    by_cases hlong : wallElapsedMs - last.tMs > 2000 <;> simp [STALL_THRESHOLD_MS, hlong]

/-! ### The penalty -/

/-- The part of the penalty that the number of stalls gives. -/
theorem countPenalty_bounds (stallCount : Nat) :
    0 ≤ min ((stallCount : ℚ) * (1 / 10)) (1 / 2) ∧
      min ((stallCount : ℚ) * (1 / 10)) (1 / 2) ≤ 1 / 2 :=
  ⟨le_min (by positivity) (by norm_num), min_le_right _ _⟩

/-- The penalty lies between 0 and 1, as its documentation says. -/
theorem computeStabilityPenalty_bounds (stallCount maxStallMs : Nat) :
    0 ≤ computeStabilityPenalty stallCount maxStallMs ∧
      computeStabilityPenalty stallCount maxStallMs ≤ 1 := by
  obtain ⟨hcount, -⟩ := countPenalty_bounds stallCount
  refine ⟨le_min (add_nonneg hcount ?_) zero_le_one, min_le_right _ _⟩
  split_ifs <;> norm_num

/-- Only a long stall is a penalty, when a short one is not counted. -/
theorem computeStabilityPenalty_eq_zero {stallCount maxStallMs : Nat}
    (hstall : maxStallMs ≤ 2000 → stallCount = 0) :
    computeStabilityPenalty stallCount maxStallMs = 0 ↔ maxStallMs ≤ 2000 := by
  constructor
  · intro hzero
    by_contra hlong
    obtain ⟨hcount, -⟩ := countPenalty_bounds stallCount
    have hleast : (3 / 10 : ℚ) ≤ computeStabilityPenalty stallCount maxStallMs := by
      refine le_min ?_ (by norm_num)
      split_ifs
      · linarith
      · linarith
      · omega
    rw [hzero] at hleast
    norm_num at hleast
  · intro hshort
    rw [hstall hshort, computeStabilityPenalty, if_neg (by omega), if_neg (by omega)]
    norm_num

/-- The penalty is full after five stalls, one of which took more than five seconds. -/
theorem computeStabilityPenalty_eq_one (stallCount maxStallMs : Nat) :
    computeStabilityPenalty stallCount maxStallMs = 1 ↔ 5 ≤ stallCount ∧ 5000 < maxStallMs := by
  obtain ⟨-, hcount⟩ := countPenalty_bounds stallCount
  constructor
  · intro hone
    by_contra hbad
    -- A part of the penalty is missing.
    have hless : computeStabilityPenalty stallCount maxStallMs < 1 := by
      refine (min_le_left _ _).trans_lt ?_
      by_cases hlong : maxStallMs > 5000
      · have hfew : (stallCount : ℚ) ≤ 4 := by
          have : stallCount ≤ 4 := by omega
          exact_mod_cast this
        have hmin := min_le_left ((stallCount : ℚ) * (1 / 10)) (1 / 2)
        rw [if_pos hlong]
        linarith
      · rw [if_neg hlong]
        split_ifs <;> linarith
    exact absurd hone hless.ne
  · rintro ⟨hmany, hlong⟩
    have hle : (5 : ℚ) ≤ stallCount := by exact_mod_cast hmany
    have hfull : min ((stallCount : ℚ) * (1 / 10)) (1 / 2) = 1 / 2 :=
      min_eq_right (by linarith)
    rw [computeStabilityPenalty, if_pos hlong, hfull]
    norm_num

/-! ### The run -/

/-- The stall metrics and the penalty, in terms of the times of the progress. -/
structure ReportsSilences (times : List Nat) (result : FrontierRunResult) : Prop where
  longest : IsGreatest {g | ∃ x y, Silent times x y ∧ y - x = g} result.maxFrontierStallMs
  count : result.frontierStallCount = (gaps times).countP fun g => STALL_THRESHOLD_MS < g
  /-- The stalls fit into the run. -/
  share : ∀ a ∈ times.head?,
    result.frontierStallCount * (STALL_THRESHOLD_MS + 1) ≤ result.runDurationMs - a
  bounds : 0 ≤ result.envelope.stabilityPenalty ∧ result.envelope.stabilityPenalty ≤ 1
  stable : result.envelope.stabilityPenalty = 0 ↔
    ∀ x y, Silent times x y → y - x ≤ STALL_THRESHOLD_MS
  unstable : result.envelope.stabilityPenalty = 1 ↔
    5 ≤ result.frontierStallCount ∧ 5000 < result.maxFrontierStallMs

/-- The end of the run is the last time, and there is another one before it. -/
theorem exists_withEnd (advancedMs : List Nat) (wallElapsedMs : Nat) :
    ∃ before, before ≠ [] ∧ withEnd advancedMs wallElapsedMs = before ++ [wallElapsedMs] := by
  cases advancedMs with
  | nil => exact ⟨[0], by simp, rfl⟩
  | cons t rest => exact ⟨t :: rest, by simp, rfl⟩

/-- Where the advances are in order and before the end, so are all the times. -/
theorem withEnd_sorted {advancedMs : List Nat} (hsorted : advancedMs.Pairwise (· ≤ ·))
    (hend : ∀ t ∈ advancedMs, t ≤ wallElapsedMs) :
    (withEnd advancedMs wallElapsedMs).Pairwise (· ≤ ·) := by
  cases advancedMs with
  | nil => simp [withEnd]
  | cons first rest =>
    show (first :: rest ++ [wallElapsedMs]).Pairwise (· ≤ ·)
    rw [List.pairwise_append]
    refine ⟨hsorted, List.pairwise_singleton _ _, ?_⟩
    intro t ht u hu
    rw [List.mem_singleton.mp hu]
    exact hend t ht

/-- Where the recorded times are in order and before the end, the stalls are the silences. -/
theorem reportsSilences_runResult (tr : FrontierTracker) (config : FrontierRunConfig)
    (wallElapsedMs measuredAtMs : Nat)
    (htimes : times = withEnd (tr.events.map FrontierEvent.tMs) wallElapsedMs)
    (hsorted : times.Pairwise (· ≤ ·)) :
    ReportsSilences times (tr.runResult config wallElapsedMs measuredAtMs) := by
  obtain ⟨hcount, hlongest⟩ := stalls_eq tr config wallElapsedMs measuredAtMs htimes
  obtain ⟨before, hne, hbefore⟩ :=
    exists_withEnd (tr.events.map FrontierEvent.tMs) wallElapsedMs
  rw [← htimes] at hbefore
  have hgreatest := isGreatest_longestGap hsorted (by simp [hbefore])
  rw [← hlongest] at hgreatest
  have hpenalty : (tr.runResult config wallElapsedMs measuredAtMs).envelope.stabilityPenalty =
      computeStabilityPenalty (tr.runResult config wallElapsedMs measuredAtMs).frontierStallCount
        (tr.runResult config wallElapsedMs measuredAtMs).maxFrontierStallMs := rfl
  constructor
  case longest => exact hgreatest
  case count => exact hcount
  case share =>
    intro a ha
    rw [hbefore, List.head?_append_of_ne_nil _ hne] at ha
    rw [hbefore] at hsorted
    rw [hcount, hbefore]
    exact (countP_mul_le_sum STALL_THRESHOLD_MS _).trans (sum_gaps hsorted ha).le
  case bounds => exact hpenalty ▸ computeStabilityPenalty_bounds _ _
  case stable =>
    rw [hpenalty, computeStabilityPenalty_eq_zero]
    · constructor
      · intro hshort x y hsilent
        exact (hgreatest.2 ⟨x, y, hsilent, rfl⟩).trans hshort
      · intro hall
        obtain ⟨x, y, hsilent, hlength⟩ := hgreatest.1
        exact hlength ▸ hall x y hsilent
    · intro hshort
      rw [hcount, List.countP_eq_zero]
      intro g hg
      have hle := le_longestGap hg
      rw [← hlongest] at hle
      have hthreshold : STALL_THRESHOLD_MS = 2000 := rfl
      simp only [decide_eq_true_eq]
      omega
  case unstable =>
    rw [hpenalty]
    exact computeStabilityPenalty_eq_one _ _

/-! ### The whole function -/

/-- The page events in the order of their times keep the timeline in order. -/
theorem timeline_processAll (events : List TraceEvent) {r : Runner} {pageSize : Nat}
    {es : List PageCompleted} (h : Timeline r.tracker pageSize es)
    (htracks : Tracks r.tracker pageSize (pageSet es))
    (hordered : (es ++ events.filterMap TraceEvent.page?).Pairwise fun a b => a.tMs ≤ b.tMs) :
    Timeline (r.processAll events).tracker pageSize (es ++ events.filterMap TraceEvent.page?) := by
  induction events generalizing r es with
  | nil =>
    rw [List.filterMap_nil, List.append_nil]
    exact h
  | cons event rest ih =>
    show Timeline ((r.process event).1.processAll rest).tracker _ _
    cases event with
    | pageCompleted e =>
      have hmap : (TraceEvent.pageCompleted e :: rest).filterMap TraceEvent.page? =
          e :: rest.filterMap TraceEvent.page? := rfl
      rw [hmap, List.append_cons] at hordered ⊢
      have hlast : ∀ e' ∈ es, e'.tMs ≤ e.tMs := fun e' he' =>
        (List.pairwise_append.mp (List.pairwise_append.mp hordered).1).2.2 e' he' e
          List.mem_cons_self
      have htracker : (r.process (.pageCompleted e)).1.tracker =
          r.tracker.onPageCompleted e.pageIndex e.tMs := by
        simp only [Runner.process, Runner.processPage]
        split <;> rfl
      refine ih ?_ ?_ hordered
      · rw [htracker]
        exact h.onPageCompleted htracks hlast
      · rw [htracker, pageSet_append]
        exact htracks.onPageCompleted e.pageIndex e.tMs
    | _ => exact ih h htracks hordered

/-- The announcements of a timeline carry its times. -/
theorem map_time_of_announced {pageSize : Nat} {events : List FrontierEvent}
    {announced : List FrontierAdvanced}
    (h : List.Forall₂ (fun event a => event.AnnouncedBy pageSize a) events announced) :
    (announced.map fun a => msOfNs a.timestampNs) = events.map FrontierEvent.tMs := by
  induction h with
  | nil => rfl
  | cons hfirst _ ih => rw [List.map_cons, List.map_cons, ih, hfirst.time]

/-- Where the page events come in the order of their times and before the end of the run, the
stalls of the result are the silences of the trace. -/
theorem stalls_are_silences (config : FrontierRunConfig) (events : List TraceEvent)
    (wallElapsedMs measuredAtMs : Nat) (hinput : ∀ event ∈ events, event.advanced? = none)
    (hordered : (events.filterMap TraceEvent.page?).Pairwise fun a b => a.tMs ≤ b.tMs)
    (hend : ∀ e ∈ events.filterMap TraceEvent.page?, e.tMs ≤ wallElapsedMs) :
    ReportsSilences
      (progressTimes (runFrontierTracker config events wallElapsedMs measuredAtMs).1
        wallElapsedMs)
      (runFrontierTracker config events wallElapsedMs measuredAtMs).2 := by
  obtain ⟨trace, htrace, -, hannounces⟩ := announces_processAll (r := .new config.pageSize)
    events hinput (tracks_withPageSize config.pageSize)
  have houtput : (runFrontierTracker config events wallElapsedMs measuredAtMs).1 = trace :=
    htrace
  -- The trace announces the recorded advances.
  obtain ⟨advanced, hadvanced, hmatch⟩ := hannounces.timeline
  have hevents : ((Runner.new config.pageSize).processAll events).tracker.events = advanced :=
    hadvanced
  have hms := map_time_of_announced hmatch
  have hempty : pageSet [] = ∅ := by simp [pageSet]
  have htimeline := timeline_processAll events (r := .new config.pageSize)
    (timeline_withPageSize config.pageSize) (hempty ▸ tracks_withPageSize config.pageSize) hordered
  rw [houtput]
  refine reportsSilences_runResult ((Runner.new config.pageSize).processAll events).tracker
    config wallElapsedMs measuredAtMs ?_ ?_
  · rw [progressTimes, hms, hevents]
  · rw [progressTimes, hms, ← hevents]
    refine withEnd_sorted (List.pairwise_map.mpr htimeline.sorted) ?_
    intro t ht
    obtain ⟨event, hevent, rfl⟩ := List.mem_map.mp ht
    obtain ⟨e, he, heq⟩ := htimeline.stamped event hevent
    exact heq ▸ hend e he

/-- Pages of four bytes after one second and after four. -/
def twoAdvances : List TraceEvent :=
  [.pageCompleted ⟨1, 0, 0, 0, 4, 4, 4, 1000000000⟩,
    .pageCompleted ⟨2, 1, 1, 4, 8, 4, 4, 4000000000⟩]

/-- The run ends after ten seconds, and the longest silence is the one at its end. -/
theorem stalls_are_silences_two_advances :
    ∃ trace result, (trace, result) =
      runFrontierTracker ⟨4, 4, 4, 1, 1, true⟩ twoAdvances 10000 0 ∧
      progressTimes trace 10000 = [1000, 4000, 10000] ∧ result.maxFrontierStallMs = 6000 ∧
      ReportsSilences (progressTimes trace 10000) result :=
  ⟨_, _, rfl, rfl, rfl, stalls_are_silences ⟨4, 4, 4, 1, 1, true⟩ twoAdvances 10000 0 (by decide)
    (by decide) (by decide)⟩

end FrontierSim
