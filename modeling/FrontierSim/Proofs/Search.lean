import FrontierSim.Lib.Bisection
import FrontierSim.Proofs.Playback

/-!
# `FrontierSim.Proofs.Search`: the bitrate search and the safe budget

`findMaxSustainableBitrate` halves the interval from 1 to 2000 Mbps fifteen times. So it
tries bitrates of a grid (`gridRate`), and its result is a bisection on the grid numbers
(`findMaxSustainableBitrate_eq`).

A bisection finds the largest bitrate that is sustained if every lower one is sustained as
well. The shadow player does not have this property (`early_start_runs_dry`). Where a try
fails, the search never comes back to the bitrates above it, and `search_misses_maximum` is
a timeline that sustains 2000 Mbps where the search reports about 330. `Findable` says
which results a search can find, and `search_maximum_iff` that the search finds a maximum
exactly when there is one among these.

The lower end of the range is never tried. `reported_sustained_iff` says when the result is
sustained, and `stalled_run_reported` is a timeline where 1 Mbps is reported and nothing is.

The safe budget is 0.85 of the result. `safe_budget_safe` is about the timelines where
playback starts at the same time at both.
-/

set_option autoImplicit false

namespace FrontierSim

open Lib

namespace SafeBudgetEstimator

/-! ### The grid -/

/-- The width at which the search stops. -/
def GRID_WIDTH : ℚ := 1999 / 32768

/-- The bitrates that the search can try. -/
def gridRate (k : Nat) : ℚ := 1 + k * GRID_WIDTH

/-- The bitrates that the search is about. -/
def InRange (r : ℚ) : Prop := 1 ≤ r ∧ r ≤ 2000

/-- The grid starts at the lower end of the search. -/
theorem gridRate_zero : gridRate 0 = 1 := by simp [gridRate]

/-- The grid ends at the upper end of the search, after `2 ^ 15` steps. -/
theorem gridRate_end : gridRate 32768 = 2000 := by norm_num [gridRate, GRID_WIDTH]

/-- The grid is increasing. -/
theorem gridRate_mono {k m : Nat} (h : k ≤ m) : gridRate k ≤ gridRate m := by
  unfold gridRate GRID_WIDTH
  gcongr

/-- The grid lies between the two ends of the search. -/
theorem gridRate_inRange {k : Nat} (h : k ≤ 32768) : InRange (gridRate k) :=
  ⟨gridRate_zero ▸ gridRate_mono (Nat.zero_le k), gridRate_end ▸ gridRate_mono h⟩

/-- Two steps of the grid are more than the tolerance. -/
theorem gridRate_add_tolerance_lt {k m : Nat} (h : k + 2 ≤ m) :
    gridRate k + 1 / 10 < gridRate m := by
  have hm : (k : ℚ) + 2 ≤ m := by exact_mod_cast h
  have hwidth : (1 : ℚ) / 10 < 2 * GRID_WIDTH := by norm_num [GRID_WIDTH]
  have hpos : (0 : ℚ) ≤ GRID_WIDTH := by norm_num [GRID_WIDTH]
  calc gridRate k + 1 / 10 < 1 + k * GRID_WIDTH + 2 * GRID_WIDTH := by
        rw [gridRate]
        linarith
    _ = 1 + (k + 2) * GRID_WIDTH := by ring
    _ ≤ gridRate m := by
        rw [gridRate]
        gcongr

/-! ### The loop -/

/-- The loop on an interval of `2 ^ n` steps ends after `n` halvings, with a bisection. -/
theorem searchLoop_eq {tolerance width : ℚ} (base : ℚ) (survives : ℚ → Bool)
    (hfine : width ≤ tolerance) (hcoarse : tolerance < 2 * width) (n lo iterations : Nat)
    {fuel : Nat} (hfuel : n ≤ fuel) :
    searchLoop tolerance survives fuel (base + lo * width) (base + (lo + 2 ^ n : Nat) * width)
        iterations
      = (base + bisect (fun k => survives (base + k * width) = true) n lo * width,
          iterations + n) := by
  have hpos : 0 < width := by linarith
  induction n generalizing lo iterations fuel with
  | zero =>
    have hdiff : base + (lo + 2 ^ 0 : Nat) * width - (base + lo * width) = width := by
      push_cast
      ring
    cases fuel with
    | zero => rfl
    | succ fuel =>
      -- One step of the grid is within the tolerance.
      rw [searchLoop, hdiff, if_neg (not_lt.mpr hfine)]
      rfl
  | succ n ih =>
    obtain ⟨fuel, rfl⟩ : ∃ f, fuel = f + 1 := ⟨fuel - 1, by omega⟩
    -- The middle of the interval is a grid point again, half the steps further on.
    have hmid : (base + lo * width + (base + (lo + 2 ^ (n + 1) : Nat) * width)) / 2
        = base + (lo + 2 ^ n : Nat) * width := by
      push_cast
      ring
    have hdiff : base + (lo + 2 ^ (n + 1) : Nat) * width - (base + lo * width)
        = 2 ^ n * (2 * width) := by
      push_cast
      ring
    -- Two steps or more are not.
    have hwide : tolerance < 2 ^ n * (2 * width) := by
      have hone : (1 : ℚ) ≤ 2 ^ n := one_le_pow₀ (by norm_num)
      nlinarith
    rw [searchLoop, hdiff, if_pos hwide]
    simp only [hmid]
    rw [bisect]
    split
    · rw [show lo + 2 ^ (n + 1) = lo + 2 ^ n + 2 ^ n by ring, ih _ _ (by omega)]
      congr 1
      omega
    · rw [ih _ _ (by omega)]
      congr 1
      omega

variable {events : List FrontierEvent}

/-- The bitrate is sustained by the time-sorted events. -/
def Sustains (events : List FrontierEvent) (r : ℚ) : Prop :=
  (new.simulate (sortEvents events) r).survived = true

/-- It can be checked whether a bitrate is sustained. -/
instance (events : List FrontierEvent) (r : ℚ) : Decidable (Sustains events r) :=
  inferInstanceAs (Decidable (_ = true))

/-- The sorted events are in the order of their times. -/
theorem sortEvents_sorted (events : List FrontierEvent) :
    (sortEvents events).Pairwise fun a b => a.tMs ≤ b.tMs := by
  have htotal : Std.Total fun a b : FrontierEvent => a.tMs ≤ b.tMs := ⟨fun _ _ => Nat.le_total _ _⟩
  have htrans : IsTrans FrontierEvent fun a b => a.tMs ≤ b.tMs := ⟨fun _ _ _ => Nat.le_trans⟩
  exact List.pairwise_insertionSort _ events

/-- The grid number at which the search ends. -/
def found (events : List FrontierEvent) : Nat :=
  bisect (fun k => Sustains events (gridRate k)) 15 0

/-- The search ends after fifteen halvings, long before its fuel does. -/
theorem search_ends (events : List FrontierEvent) {fuel : Nat} (hfuel : 15 ≤ fuel) :
    searchLoop new.searchToleranceMbps (fun r => (new.simulate (sortEvents events) r).survived)
        fuel new.minBitrateMbps new.maxBitrateMbps 0
      = (gridRate (found events), 15) := by
  -- `1999 / 2 ^ 15` is within the tolerance of 0.1, and `1999 / 2 ^ 14` is not.
  have hfine : GRID_WIDTH ≤ new.searchToleranceMbps := by decide +kernel
  have hcoarse : new.searchToleranceMbps < 2 * GRID_WIDTH := by decide +kernel
  have hloop := searchLoop_eq 1 (fun r => (new.simulate (sortEvents events) r).survived)
    hfine hcoarse 15 0 0 hfuel
  have hlo : new.minBitrateMbps = 1 + (0 : Nat) * GRID_WIDTH := by decide +kernel
  have hhi : new.maxBitrateMbps = 1 + (0 + 2 ^ 15 : Nat) * GRID_WIDTH := by decide +kernel
  rw [hlo, hhi, hloop]
  rfl

/-- The search in floating steps is a bisection on the grid. Its interval is halved fifteen times
until it is shorter than the tolerance, and its ends stay on the grid. -/
theorem findMaxSustainableBitrate_eq (hlen : 2 ≤ events.length) :
    new.findMaxSustainableBitrate events =
      { maxSustainableBitrateMbps := gridRate (found events)
        safeBudgetMbps := gridRate (found events) * DEFAULT_SAFETY_FACTOR
        searchIterations := 15
        startupBufferMs := DEFAULT_STARTUP_BUFFER_MS
        maxBufferMs := DEFAULT_MAX_BUFFER_MS
        simulatedRebufferCount := (new.simulate (sortEvents events)
          (gridRate (found events) * DEFAULT_SAFETY_FACTOR)).rebufferCount } := by
  rw [findMaxSustainableBitrate, if_neg (Nat.not_lt.mpr hlen)]
  simp only [search_ends events (show 15 ≤ SEARCH_FUEL by decide)]
  rfl

/-! ### The maximum -/

/-- A search can find `gridRate k` as a maximum. It is sustained, nothing above it is, up to
the tolerance, and the search is not turned away on its way: at the bitrates that it passes
below `gridRate k`, which are those of the binary prefixes of `k`, and at the next one. -/
structure Findable (S : ℚ → Prop) (k : Nat) : Prop where
  lt : k < 32768
  sustained : S (gridRate k)
  above : ∀ r, InRange r → gridRate k + 1 / 10 < r → ¬ S r
  prefixes : ∀ j < 15, roundDown k j = 0 ∨ S (gridRate (roundDown k j))
  next : k + 1 = 32768 ∨ ¬ S (gridRate (k + 1))

/-- The search reports a sustained bitrate which none that is sustained exceeds by more than
the tolerance. -/
def ReportsMaximum (events : List FrontierEvent) : Prop :=
  Sustains events (new.findMaxSustainableBitrate events).maxSustainableBitrateMbps ∧
  ∀ r, InRange r →
    (new.findMaxSustainableBitrate events).maxSustainableBitrateMbps + 1 / 10 < r →
      ¬ Sustains events r

/-- What the search reports, when it reports a maximum. -/
theorem findable_found (hsustained : Sustains events (gridRate (found events)))
    (habove : ∀ r, InRange r → gridRate (found events) + 1 / 10 < r → ¬ Sustains events r) :
    Findable (Sustains events) (found events) := by
  obtain ⟨hdiv, hpassed, hnext⟩ :=
    bisect_spec (P := fun k => Sustains events (gridRate k)) 15 0
  rw [Nat.zero_mul] at hdiv hpassed hnext
  exact
    { lt := (Nat.div_eq_zero_iff.mp hdiv).resolve_left (by norm_num)
      sustained := hsustained
      above := habove
      prefixes := hpassed
      next := hnext }

/-- The search ends where it is not turned away. -/
theorem found_eq_of_findable {k : Nat} (h : Findable (Sustains events) k) :
    found events = k := by
  refine bisect_unique (q := 0) (Nat.div_eq_of_lt h.lt) ?_ ?_
  · rw [Nat.zero_mul]
    exact h.prefixes
  · intro m hkm hm
    rw [Nat.zero_add, Nat.one_mul] at hm
    -- Two or more grid steps above `k` are over the tolerance. One step may not be.
    rcases Nat.lt_or_ge (k + 1) m with hfar | hnear
    · exact h.above _ (gridRate_inRange (Nat.le_of_lt hm)) (gridRate_add_tolerance_lt hfar)
    · obtain rfl : m = k + 1 := by omega
      exact h.next.resolve_left (by omega)

/-- The search reports a maximum of what is sustained exactly when nothing is sustained, or
a search can find one. -/
theorem search_maximum_iff (hlen : 2 ≤ events.length) :
    ((∃ r, InRange r ∧ Sustains events r) → ReportsMaximum events) ↔
      (∀ r, InRange r → ¬ Sustains events r) ∨ ∃ k, Findable (Sustains events) k := by
  unfold ReportsMaximum
  rw [findMaxSustainableBitrate_eq hlen]
  constructor
  · intro h
    -- Where something is sustained, what the search found is findable.
    by_cases hany : ∃ r, InRange r ∧ Sustains events r
    · obtain ⟨hsustained, habove⟩ := h hany
      exact Or.inr ⟨found events, findable_found hsustained habove⟩
    · exact Or.inl fun r hr hsustained => hany ⟨r, hr, hsustained⟩
  · rintro (hnone | ⟨k, hk⟩) ⟨r, hr, hsustained⟩
    · exact absurd hsustained (hnone r hr)
    · rw [found_eq_of_findable hk]
      exact ⟨hk.sustained, hk.above⟩

/-- Everything arrives at once, and every bitrate is sustained. -/
theorem search_maximum_iff_all_at_once :
    ReportsMaximum [⟨0, 10000000000, 10000000000⟩, ⟨10, 10000000000, 0⟩] := by
  refine (search_maximum_iff (by decide)).mpr (Or.inr ⟨32767, ?_⟩) ⟨1, by norm_num [InRange], ?_⟩
  · refine ⟨by decide, by decide +kernel, ?_, by decide +kernel, Or.inl rfl⟩
    intro r hr hlt
    have htop : (2000 : ℚ) < gridRate 32767 + 1 / 10 := by decide +kernel
    exact absurd (htop.trans hlt) (not_lt.mpr hr.2)
  · decide +kernel

/-- The first try fails, since playback starts at once and runs dry. At 2000 Mbps playback
waits for the second event. -/
theorem search_misses_maximum :
    Sustains [⟨0, 412500000, 412500000⟩, ⟨10000, 1412500000, 1000000000⟩] 2000 ∧
    ¬ ReportsMaximum [⟨0, 412500000, 412500000⟩, ⟨10000, 1412500000, 1000000000⟩] := by
  have hsustains :
      Sustains [⟨0, 412500000, 412500000⟩, ⟨10000, 1412500000, 1000000000⟩] 2000 := by
    decide +kernel
  refine ⟨hsustains, fun h => h.2 2000 (by norm_num [InRange]) ?_ hsustains⟩
  decide +kernel

/-! ### The reported bitrate -/

/-- A reported bitrate is sustained, and 0 is reported where nothing in the range is. -/
def ReportsSustained (events : List FrontierEvent) : Prop :=
  (0 < (new.findMaxSustainableBitrate events).maxSustainableBitrateMbps →
    Sustains events (new.findMaxSustainableBitrate events).maxSustainableBitrateMbps) ∧
  ((∀ r, InRange r → ¬ Sustains events r) →
    (new.findMaxSustainableBitrate events).maxSustainableBitrateMbps = 0)

/-- The search reports a grid bitrate, so at least 1 Mbps. -/
theorem gridRate_pos (k : Nat) : 0 < gridRate k :=
  zero_lt_one.trans_le (gridRate_zero ▸ gridRate_mono (Nat.zero_le k))

/-- The upper end of the search is never found. -/
theorem found_lt (events : List FrontierEvent) : found events < 32768 := by
  have := bisect_lt (P := fun k => Sustains events (gridRate k)) 15 0
  rwa [Nat.zero_add] at this

/-- The search ends at a bitrate that it tried, or at 1 Mbps, where all tries failed. -/
theorem sustains_found_iff (events : List FrontierEvent) :
    Sustains events (gridRate (found events)) ↔
      Sustains events 1 ∨ ∃ j < 15, Sustains events (gridRate (2 ^ j)) := by
  have hstart := bisect_eq_start_iff (P := fun k => Sustains events (gridRate k)) 15 0
  have hpassed := bisect_passed (P := fun k => Sustains events (gridRate k)) 15 0
  simp only [Nat.zero_add] at hstart
  by_cases hzero : found events = 0
  · have hfail : ¬ ∃ j < 15, Sustains events (gridRate (2 ^ j)) := by
      rintro ⟨j, hj, hsustains⟩
      exact hstart.mp hzero j hj hsustains
    rw [hzero, gridRate_zero]
    exact (or_iff_left hfail).symm
  · refine iff_of_true (hpassed.resolve_left hzero) (Or.inr ?_)
    by_contra hnone
    exact hzero (hstart.mpr fun j hj hsustains => hnone ⟨j, hj, hsustains⟩)

/-- Exactly when what is reported is sustained: when 1 Mbps is sustained, or one of the
bitrates that the search tries on its way down to 1 Mbps. -/
theorem reported_sustained_iff (events : List FrontierEvent) :
    ReportsSustained events ↔
      events.length < 2 ∨ Sustains events 1 ∨ ∃ j < 15, Sustains events (gridRate (2 ^ j)) := by
  unfold ReportsSustained
  rcases Nat.lt_or_ge events.length 2 with hshort | hlen
  · -- Too few events are reported as 0.
    have hnone : (new.findMaxSustainableBitrate events).maxSustainableBitrateMbps = 0 := by
      rw [findMaxSustainableBitrate, if_pos hshort]
    rw [hnone]
    exact iff_of_true ⟨fun h => absurd h (lt_irrefl 0), fun _ => rfl⟩ (Or.inl hshort)
  · rw [findMaxSustainableBitrate_eq hlen, or_iff_right (Nat.not_lt.mpr hlen),
      ← sustains_found_iff]
    constructor
    · exact fun h => h.1 (gridRate_pos _)
    · intro hsustained
      refine ⟨fun _ => hsustained, fun hnone => absurd hsustained ?_⟩
      exact hnone _ (gridRate_inRange (found_lt events).le)

/-- Four bytes in ten seconds sustain nothing, and 1 Mbps is reported. -/
theorem stalled_run_reported :
    (new.findMaxSustainableBitrate
      [⟨0, 4, 4⟩, ⟨10000, 8, 4⟩]).maxSustainableBitrateMbps = 1 ∧
    ¬ Sustains [⟨0, 4, 4⟩, ⟨10000, 8, 4⟩] 1 ∧
    ¬ ReportsSustained [⟨0, 4, 4⟩, ⟨10000, 8, 4⟩] := by
  have hreported : (new.findMaxSustainableBitrate
      [⟨0, 4, 4⟩, ⟨10000, 8, 4⟩]).maxSustainableBitrateMbps = 1 := by
    decide +kernel
  have hnot : ¬ Sustains [⟨0, 4, 4⟩, ⟨10000, 8, 4⟩] 1 := by
    decide +kernel
  refine ⟨hreported, hnot, fun h => hnot ?_⟩
  have hsustained := h.1 (hreported ▸ zero_lt_one)
  rwa [hreported] at hsustained

/-! ### The safe budget -/

/-- The reported safe budget is sustained where playback starts at the same time as at the
reported maximum. -/
theorem safe_budget_safe (hlen : 2 ≤ events.length)
    (hmax : Sustains events (new.findMaxSustainableBitrate events).maxSustainableBitrateMbps)
    (hstart : new.startTime (sortEvents events)
        (new.findMaxSustainableBitrate events).safeBudgetMbps
      = new.startTime (sortEvents events)
        (new.findMaxSustainableBitrate events).maxSustainableBitrateMbps) :
    Sustains events (new.findMaxSustainableBitrate events).safeBudgetMbps ∧
      (new.findMaxSustainableBitrate events).simulatedRebufferCount = 0 := by
  rw [findMaxSustainableBitrate_eq hlen] at *
  have hmaxPos : 0 < gridRate (found events) := gridRate_pos _
  have hfactor : DEFAULT_SAFETY_FACTOR ≤ 1 := by norm_num [DEFAULT_SAFETY_FACTOR]
  have hsafePos : 0 < gridRate (found events) * DEFAULT_SAFETY_FACTOR :=
    mul_pos hmaxPos (by norm_num [DEFAULT_SAFETY_FACTOR])
  have hle : gridRate (found events) * DEFAULT_SAFETY_FACTOR ≤ gridRate (found events) :=
    mul_le_of_le_one_right hmaxPos.le hfactor
  have hsorted := sortEvents_sorted events
  -- In milliseconds, where the two bitrates can be compared.
  have hsafe : Sustains events (gridRate (found events) * DEFAULT_SAFETY_FACTOR) := by
    rw [Sustains, simulate_survived_iff hmaxPos hsorted] at hmax
    rw [Sustains, simulate_survived_iff hsafePos hsorted]
    exact survives_of_startTime_eq hsafePos hmaxPos hle hsorted hstart hmax
  exact ⟨hsafe, rebufferCount_of_survived hsafe⟩

/-- Everything arrives at once, and playback starts at once. -/
theorem safe_budget_safe_all_at_once :
    (new.findMaxSustainableBitrate
      [⟨0, 10000000000, 10000000000⟩, ⟨10, 10000000000, 0⟩]).simulatedRebufferCount = 0 :=
  (safe_budget_safe (by decide) (by decide +kernel) (by decide +kernel)).2

/-- At the reported maximum playback waits for the second event. At the safe budget it
starts with the first and runs dry. -/
theorem safe_budget_runs_dry :
    Sustains [⟨0, 645000000, 645000000⟩, ⟨3050, 1645000000, 1000000000⟩]
      (new.findMaxSustainableBitrate
        [⟨0, 645000000, 645000000⟩, ⟨3050, 1645000000, 1000000000⟩]).maxSustainableBitrateMbps ∧
    ¬ Sustains [⟨0, 645000000, 645000000⟩, ⟨3050, 1645000000, 1000000000⟩]
      (new.findMaxSustainableBitrate
        [⟨0, 645000000, 645000000⟩, ⟨3050, 1645000000, 1000000000⟩]).safeBudgetMbps ∧
    (new.findMaxSustainableBitrate
      [⟨0, 645000000, 645000000⟩, ⟨3050, 1645000000, 1000000000⟩]).simulatedRebufferCount = 1 := by
  decide +kernel

end SafeBudgetEstimator

end FrontierSim
