import FrontierSim.Frontier.Result
import FrontierSim.Proofs.Search

/-!
# `FrontierSim.Proofs.TailDrain`: a run that goes on without progress

The timeline of a run is fixed when the frontier stops. What the run is worth still depends
on its end: the time without progress drains the player's buffer, counts as a stall and
lowers the throughput. `later_end_no_better` says that a later end never makes a run look
better.

The bitrate is the hard part. A later tail turns survival into failure at some bitrates and
never the other way (`sustains_of_later_end`). The search compares two such sets of bitrates
step by step (`bisect_mono`), so it does not matter that they are not intervals.
-/

set_option autoImplicit false

namespace FrontierSim

open Lib

/-- The result `a` looks no better than `b`. -/
structure FrontierRunResult.NoBetter (a b : FrontierRunResult) : Prop where
  maxSustainable : a.maxSustainableBitrateMbps ≤ b.maxSustainableBitrateMbps
  safeBudget : a.safeBudgetMbps ≤ b.safeBudgetMbps
  throughput : a.envelope.sustainedThroughputMbps ≤ b.envelope.sustainedThroughputMbps
  stallCount : b.frontierStallCount ≤ a.frontierStallCount
  maxStall : b.maxFrontierStallMs ≤ a.maxFrontierStallMs
  penalty : b.envelope.stabilityPenalty ≤ a.envelope.stabilityPenalty

/-! ### The timeline with its tail -/

namespace SafeBudgetEstimator

/-- An event that is no earlier than any other is sorted to the end. -/
theorem sortEvents_append_last {events : List FrontierEvent} {t : FrontierEvent}
    (h : ∀ e ∈ events, e.tMs ≤ t.tMs) : sortEvents (events ++ [t]) = sortEvents events ++ [t] := by
  -- An insertion into a list with `t` at its end happens before `t`.
  have hinsert : ∀ (e : FrontierEvent) (es : List FrontierEvent), e.tMs ≤ t.tMs →
      (es ++ [t]).orderedInsert (fun a b => a.tMs ≤ b.tMs) e
        = es.orderedInsert (fun a b => a.tMs ≤ b.tMs) e ++ [t] := by
    intro e es he
    induction es with
    | nil => simp [he]
    | cons b rest ih =>
      by_cases hb : e.tMs ≤ b.tMs <;> simp [hb, ih]
  induction events with
  | nil => rfl
  | cons e rest ih =>
    have hrest := ih fun e' he' => h e' (List.mem_cons_of_mem e he')
    unfold sortEvents at hrest ⊢
    rw [List.cons_append, List.insertionSort_cons, hrest, List.insertionSort_cons]
    exact hinsert e _ (h e List.mem_cons_self)

variable {events : List FrontierEvent} {r : ℚ} {last last' : FrontierEvent}

/-- An event without bytes at the end leaves less that is sustained. -/
theorem sustains_of_append_idle (hr : 0 < r) (hlast : ∀ e ∈ events, e.tMs ≤ last.tMs)
    (hidle : last.deltaContiguousBytes = 0) (h : Sustains (events ++ [last]) r) :
    Sustains events r := by
  rw [Sustains, simulate_survived_iff hr (sortEvents_sorted _)] at h ⊢
  rw [sortEvents_append_last hlast, List.map_append] at h
  refine h.of_append_idle ?_ ?_
  · show (last.deltaContiguousBytes : ℚ) / bytesPerMs r = 0
    rw [hidle, Nat.cast_zero, zero_div]
  · exact Nat.cast_pos.mpr (by decide)

/-- The same event at an earlier time leaves at least as much. -/
theorem sustains_of_earlier (hr : 0 < r) (hlast : ∀ e ∈ events, e.tMs ≤ last.tMs)
    (htime : last.tMs ≤ last'.tMs)
    (hdelta : last.deltaContiguousBytes = last'.deltaContiguousBytes)
    (h : Sustains (events ++ [last']) r) : Sustains (events ++ [last]) r := by
  have hlast' : ∀ e ∈ events, e.tMs ≤ last'.tMs := fun e he => (hlast e he).trans htime
  rw [Sustains, simulate_survived_iff hr (sortEvents_sorted _)] at h ⊢
  rw [sortEvents_append_last hlast', List.map_append] at h
  rw [sortEvents_append_last hlast, List.map_append]
  refine h.earlier (Nat.cast_le.mpr htime) ?_
  show (last.deltaContiguousBytes : ℚ) / bytesPerMs r = last'.deltaContiguousBytes / bytesPerMs r
  rw [hdelta]

end SafeBudgetEstimator

open SafeBudgetEstimator

variable {tr : FrontierTracker} {w₁ w₂ : Nat}

/-- What is sustained up to the later end is sustained up to the earlier one. -/
theorem sustains_of_later_end (hle : w₁ ≤ w₂) (hend : ∀ e ∈ tr.events, e.tMs ≤ w₁) {r : ℚ}
    (hr : 0 < r) (h : Sustains (tr.simEvents w₂) r) : Sustains (tr.simEvents w₁) r := by
  have hend₂ : ∀ e ∈ tr.events, e.tMs ≤ w₂ := fun e he => (hend e he).trans hle
  unfold FrontierTracker.simEvents at *
  cases hlast : tr.events.getLast? with
  | none => simpa only [hlast] using h
  | some last =>
    simp only [hlast] at h ⊢
    by_cases hlong : w₁ > last.tMs + 100
    · rw [if_pos (Nat.lt_of_lt_of_le hlong hle)] at h
      rw [if_pos hlong]
      refine sustains_of_earlier hr hend ?_ ?_ h
      · exact hle
      · rfl
    · rw [if_neg hlong]
      split at h
      · -- The tail is appended for the later end only.
        exact sustains_of_append_idle hr hend₂ rfl h
      · exact h

/-- The tail event is added to the timeline, and nothing is taken away. -/
theorem length_simEvents (tr : FrontierTracker) (wallElapsedMs : Nat) :
    tr.events.length ≤ (tr.simEvents wallElapsedMs).length := by
  unfold FrontierTracker.simEvents
  split
  · split
    · simp
    · exact Nat.le_refl _
  · exact Nat.le_refl _

/-- A later end of the run does not find more: each bitrate that the longer timeline sustains is
sustained by the shorter one, and the search is monotone in that. -/
theorem found_of_later_end (hle : w₁ ≤ w₂) (hend : ∀ e ∈ tr.events, e.tMs ≤ w₁) :
    found (tr.simEvents w₂) ≤ found (tr.simEvents w₁) :=
  bisect_mono (fun k => sustains_of_later_end hle hend (gridRate_pos k)) 15 0

/-! ### Stalls -/

/-- A later end leaves more time without progress. -/
theorem tailDrainMs_mono (tr : FrontierTracker) (hle : w₁ ≤ w₂) :
    tr.tailDrainMs w₁ ≤ tr.tailDrainMs w₂ := by
  unfold FrontierTracker.tailDrainMs
  split
  · exact Nat.sub_le_sub_right hle _
  · exact hle

/-- More stalls or a longer one do not lower the penalty. -/
theorem computeStabilityPenalty_mono {count count' stall stall' : Nat} (hcount : count ≤ count')
    (hstall : stall ≤ stall') :
    computeStabilityPenalty count stall ≤ computeStabilityPenalty count' stall' := by
  have hduration : (if stall > 5000 then 1 / 2 else if stall > 2000 then 3 / 10 else 0 : ℚ)
      ≤ if stall' > 5000 then 1 / 2 else if stall' > 2000 then 3 / 10 else 0 := by
    split_ifs <;> first | omega | norm_num
  have hcountPenalty : (count * (1 / 10) : ℚ) ≤ count' * (1 / 10) := by gcongr
  exact min_le_min_right 1 (add_le_add (min_le_min_right (1 / 2) hcountPenalty) hduration)

/-! ### The whole result -/

/-- A later end without progress never makes a run look better. -/
theorem later_end_no_better (hlen : 2 ≤ tr.events.length) (hle : w₁ ≤ w₂)
    (hend : ∀ e ∈ tr.events, e.tMs ≤ w₁) (config : FrontierRunConfig) (measured₁ measured₂ : Nat) :
    (tr.runResult config w₂ measured₂).NoBetter (tr.runResult config w₁ measured₁) := by
  have hdrain := tailDrainMs_mono tr hle
  have hfound : gridRate (found (tr.simEvents w₂)) ≤ gridRate (found (tr.simEvents w₁)) :=
    gridRate_mono (found_of_later_end hle hend)
  -- The stalls inside the timeline are the same, and the tail is longer.
  have hcount : (tr.runResult config w₁ measured₁).frontierStallCount
      ≤ (tr.runResult config w₂ measured₂).frontierStallCount := by
    simp only [FrontierTracker.runResult, FrontierTracker.computeMetrics]
    split_ifs <;> omega
  have hmax : (tr.runResult config w₁ measured₁).maxFrontierStallMs
      ≤ (tr.runResult config w₂ measured₂).maxFrontierStallMs :=
    max_le_max_left _ hdrain
  have hsearch : ∀ w, new.findMaxSustainableBitrate (tr.simEvents w) = _ := fun w =>
    findMaxSustainableBitrate_eq (hlen.trans (length_simEvents tr w))
  constructor
  · simp only [FrontierTracker.runResult, hsearch]
    exact hfound
  · simp only [FrontierTracker.runResult, hsearch]
    exact mul_le_mul_of_nonneg_right hfound (by norm_num [DEFAULT_SAFETY_FACTOR])
  · have hpos : ∀ w : Nat, max w 1 > 0 := fun w => Nat.lt_of_lt_of_le one_pos (le_max_right w 1)
    simp only [FrontierTracker.runResult, FrontierTracker.computeMetrics, if_pos (hpos _),
      Option.getD_some]
    gcongr
  · exact hcount
  · exact hmax
  · exact computeStabilityPenalty_mono hcount hmax

/-- Two pages in 10 ms. The run ends there, or after 8 s without progress. -/
theorem later_end_no_better_two_pages :
    (FrontierTracker.runResult ⟨4, [true, true], 8, 2, [⟨0, 4, 4⟩, ⟨10, 8, 4⟩]⟩
        ⟨4, 8, 8, 1, 1, true⟩ 8000 0).NoBetter
      (FrontierTracker.runResult ⟨4, [true, true], 8, 2, [⟨0, 4, 4⟩, ⟨10, 8, 4⟩]⟩
        ⟨4, 8, 8, 1, 1, true⟩ 10 0) :=
  later_end_no_better (by decide) (by decide) (by decide) _ 0 0

end FrontierSim
