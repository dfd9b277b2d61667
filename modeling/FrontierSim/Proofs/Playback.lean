import FrontierSim.Frontier.Budget
import FrontierSim.Lib.PlayoutBuffer
import Mathlib.Algebra.Order.Field.Basic
import Mathlib.Data.List.Forall2

/-!
# `FrontierSim.Proofs.Playback`: the shadow player and its bitrate

The loop of `simulate` counts its buffer in bytes. Divided by the drain rate, it is a
playout buffer that counts milliseconds (`Lib.PlayoutBuffer`), and the bitrate only enters
through the milliseconds of playback that an event brings (`FrontierEvent.arrival`).
`simulate_survived_iff` says so.

At a lower bitrate every event brings more. It also takes fewer bytes to start, so playback
can start at an earlier event and run dry before the next one, where the higher bitrate
would have waited (`early_start_runs_dry`). `simulate_mono` is about bitrates at which
playback starts at the same time (`SafeBudgetEstimator.startTime`).
-/

set_option autoImplicit false

namespace FrontierSim

open Lib

/-! ### Bytes and milliseconds -/

/-- The buffer of the shadow player, in milliseconds. -/
def SafeBudgetEstimator.buffer (est : SafeBudgetEstimator) : PlayoutBuffer ℚ where
  startup := est.startupBufferMs
  cap := est.maxBufferMs
  cap_nonneg := Nat.cast_nonneg _

/-- The milliseconds of playback that an event brings. -/
def FrontierEvent.arrival {rate : ℚ} (hrate : 0 < rate) (e : FrontierEvent) : Arrival ℚ where
  time := e.tMs
  amount := e.deltaContiguousBytes / rate
  amount_nonneg := div_nonneg (Nat.cast_nonneg _) hrate.le

/-- The body of the loop for an estimator and a drain rate. -/
def SafeBudgetEstimator.next (est : SafeBudgetEstimator) (rate : ℚ) :
    Playback → FrontierEvent → Playback :=
  Playback.step (est.startupBufferMs * rate) (est.maxBufferMs * rate) rate

namespace Playback

/-- A player that has not run dry and holds `level` milliseconds. -/
structure Holds (p : Playback) (rate level : ℚ) (playing : Bool) : Prop where
  started : p.started = playing
  rebufferCount : p.rebufferCount = 0
  bytes : p.bufferBytes = rate * level
  nonneg : 0 ≤ level

variable {est : SafeBudgetEstimator} {p : Playback} {rate level : ℚ} {e : FrontierEvent}

/-- Recording the minimum and starting touch nothing else. These are the simp lemmas for the pieces
of the loop. -/
@[simp] theorem started_recordMin : (p.recordMin rate).started = p.started := by
  unfold recordMin
  split <;> rfl

@[simp] theorem bufferBytes_recordMin : (p.recordMin rate).bufferBytes = p.bufferBytes := by
  unfold recordMin
  split <;> rfl

@[simp] theorem rebufferCount_recordMin : (p.recordMin rate).rebufferCount = p.rebufferCount := by
  unfold recordMin
  split <;> rfl

@[simp] theorem bufferBytes_tryStart {need : ℚ} :
    (p.tryStart need).bufferBytes = p.bufferBytes := by
  unfold tryStart
  split <;> rfl

@[simp] theorem rebufferCount_tryStart {need : ℚ} :
    (p.tryStart need).rebufferCount = p.rebufferCount := by
  unfold tryStart
  split <;> rfl

/-- Playback runs after the check when it ran before, or when the buffer has enough. -/
theorem started_tryStart {need : ℚ} :
    (p.tryStart need).started = (p.started || decide (need ≤ p.bufferBytes)) := by
  unfold tryStart
  cases hstarted : p.started
  · by_cases hneed : need ≤ p.bufferBytes <;> simp [hneed, hstarted]
  · simp [hstarted]

/-- Nothing drains before playback has started. -/
theorem drain_of_waiting (h : p.started = false) (deltaTMs : Nat) :
    p.drain rate deltaTMs = p :=
  if_neg (by simp [h])

/-- A buffer that covers the drain plays on. -/
theorem drain_of_le (h : p.started = true) {deltaTMs : Nat}
    (hle : rate * deltaTMs ≤ p.bufferBytes) :
    p.drain rate deltaTMs = { p with bufferBytes := p.bufferBytes - rate * deltaTMs } := by
  unfold drain
  -- The code skips the drain at distance zero, where it would take nothing.
  rcases Nat.eq_zero_or_pos deltaTMs with rfl | hpos
  · simp
  · rw [if_pos ⟨h, hpos⟩]
    exact if_neg (not_lt.mpr (sub_nonneg.mpr hle))

/-- The buffer runs dry. -/
theorem drain_of_lt (h : p.started = true) {deltaTMs : Nat} (hpos : 0 < deltaTMs)
    (hlt : p.bufferBytes < rate * deltaTMs) :
    p.drain rate deltaTMs =
      { p with bufferBytes := 0, started := false, rebufferCount := p.rebufferCount + 1 } := by
  unfold drain
  rw [if_pos ⟨h, hpos⟩]
  exact if_pos (sub_neg.mpr hlt)

/-- The count of dry buffers never goes down. -/
theorem rebufferCount_le_drain (deltaTMs : Nat) :
    p.rebufferCount ≤ (p.drain rate deltaTMs).rebufferCount := by
  unfold drain
  split
  · dsimp only
    split
    · exact Nat.le_succ _
    · exact Nat.le_refl _
  · exact Nat.le_refl _

/-- In the body of the loop, only the drain counts a dry buffer. -/
theorem rebufferCount_next :
    (est.next rate p e).rebufferCount = (p.drain rate (e.tMs - p.lastTMs)).rebufferCount := by
  simp [SafeBudgetEstimator.next, step, fill]

/-- A player that has run dry once is counted out. -/
theorem rebufferCount_le_foldl (est : SafeBudgetEstimator) (rate : ℚ) (events : List FrontierEvent)
    (p : Playback) : p.rebufferCount ≤ (events.foldl (est.next rate) p).rebufferCount := by
  induction events generalizing p with
  | nil => exact Nat.le_refl _
  | cons e rest ih =>
    refine Nat.le_trans ?_ (ih (est.next rate p e))
    rw [rebufferCount_next]
    exact rebufferCount_le_drain _

/-- Filling in bytes is filling in milliseconds. -/
theorem min_bytes (hrate : 0 < rate) :
    min (rate * level + e.deltaContiguousBytes) (est.maxBufferMs * rate)
      = rate * est.buffer.fill level (e.arrival hrate) := by
  have hbytes : rate * (level + e.deltaContiguousBytes / rate)
      = rate * level + e.deltaContiguousBytes := by
    rw [mul_add, mul_div_cancel₀ _ hrate.ne']
  rw [PlayoutBuffer.fill, mul_min_of_nonneg _ _ hrate.le, ← hbytes, mul_comm _ rate]
  rfl

/-- The startup threshold in bytes is the one in milliseconds. -/
theorem startup_le_iff (hrate : 0 < rate) :
    est.startupBufferMs * rate ≤ rate * level ↔ est.buffer.startup ≤ level := by
  rw [mul_comm]
  exact mul_le_mul_iff_of_pos_left hrate

/-- An event while the player waits. -/
theorem Holds.wait (hrate : 0 < rate) (h : p.Holds rate level false) :
    (est.next rate p e).Holds rate (est.buffer.fill level (e.arrival hrate))
      (decide (est.buffer.startup ≤ est.buffer.fill level (e.arrival hrate))) where
  started := by
    simp only [SafeBudgetEstimator.next, step, drain_of_waiting h.started, started_recordMin,
      started_tryStart, fill, h.started, h.bytes, min_bytes hrate, startup_le_iff hrate,
      Bool.false_or]
  rebufferCount := by rw [rebufferCount_next, drain_of_waiting h.started, h.rebufferCount]
  bytes := by
    simp only [SafeBudgetEstimator.next, step, drain_of_waiting h.started, bufferBytes_recordMin,
      bufferBytes_tryStart, fill, h.bytes, min_bytes hrate]
  nonneg := PlayoutBuffer.fill_nonneg h.nonneg _

/-- The gap between two events, as the code computes it. -/
theorem gap_cast (hlast : p.lastTMs ≤ e.tMs) :
    ((e.tMs - p.lastTMs : Nat) : ℚ) = (e.tMs : ℚ) - p.lastTMs := Nat.cast_sub hlast

/-- An event while the player plays, when the buffer covers the gap. -/
theorem Holds.play (hrate : 0 < rate) (h : p.Holds rate level true) (hlast : p.lastTMs ≤ e.tMs)
    (hgap : (e.tMs : ℚ) - p.lastTMs ≤ level) :
    (est.next rate p e).Holds rate
      (est.buffer.fill (level - ((e.tMs : ℚ) - p.lastTMs)) (e.arrival hrate)) true := by
  -- The drain in bytes is `rate` times the gap, which the level covers.
  have hdrain : p.drain rate (e.tMs - p.lastTMs)
      = { p with bufferBytes := rate * (level - ((e.tMs : ℚ) - p.lastTMs)) } := by
    have hle : rate * ((e.tMs - p.lastTMs : Nat) : ℚ) ≤ p.bufferBytes := by
      rw [gap_cast hlast, h.bytes]
      exact mul_le_mul_of_nonneg_left hgap hrate.le
    rw [drain_of_le h.started hle, gap_cast hlast, h.bytes, ← mul_sub]
  constructor
  · simp only [SafeBudgetEstimator.next, step, hdrain, started_recordMin, started_tryStart, fill,
      h.started, Bool.true_or]
  · rw [rebufferCount_next, hdrain]
    exact h.rebufferCount
  · simp only [SafeBudgetEstimator.next, step, hdrain, bufferBytes_recordMin,
      bufferBytes_tryStart, fill, min_bytes hrate]
  · exact PlayoutBuffer.fill_nonneg (sub_nonneg.mpr hgap) _

/-- An event while the player plays, when the buffer does not cover the gap. -/
theorem Holds.runDry (hrate : 0 < rate) (h : p.Holds rate level true) (hlast : p.lastTMs ≤ e.tMs)
    (hgap : level < (e.tMs : ℚ) - p.lastTMs) : 0 < (est.next rate p e).rebufferCount := by
  have hpos : 0 < e.tMs - p.lastTMs := by
    have := h.nonneg.trans_lt hgap
    rw [← gap_cast hlast] at this
    exact_mod_cast this
  have hdry : p.bufferBytes < rate * ((e.tMs - p.lastTMs : Nat) : ℚ) := by
    rw [gap_cast hlast, h.bytes]
    exact mul_lt_mul_of_pos_left hgap hrate
  rw [rebufferCount_next, drain_of_lt h.started hpos hdry]
  exact Nat.succ_pos _

/-! ### A whole timeline -/

/-- Playback is on at the end and has never stopped. -/
def Survived (p : Playback) : Prop := p.started = true ∧ p.rebufferCount = 0

/-- From an event on at which the player plays. -/
theorem survived_iff_plays (hrate : 0 < rate) (events : List FrontierEvent)
    (h : p.Holds rate level true) (hlast : ∀ e ∈ events, p.lastTMs ≤ e.tMs)
    (hsorted : events.Pairwise fun a b => a.tMs ≤ b.tMs) :
    (events.foldl (est.next rate) p).Survived ↔
      est.buffer.Plays p.lastTMs level (events.map (FrontierEvent.arrival hrate)) := by
  induction events generalizing p level with
  | nil => exact iff_of_true ⟨h.started, h.rebufferCount⟩ trivial
  | cons e rest ih =>
    have hlaste := hlast e List.mem_cons_self
    obtain ⟨hrest, hrestSorted⟩ := List.pairwise_cons.mp hsorted
    rw [List.foldl_cons, List.map_cons, PlayoutBuffer.Plays]
    -- Either the buffer covers the gap to `e`, or it runs dry there and never recovers.
    rcases le_or_gt ((e.tMs : ℚ) - p.lastTMs) level with hgap | hgap
    · rw [ih (h.play hrate hlaste hgap) hrest hrestSorted]
      exact (and_iff_right hgap).symm
    · refine iff_of_false ?_ fun hplays => absurd hplays.1 (not_le.mpr hgap)
      -- The count is positive after `e`, and it never goes down.
      rintro ⟨-, hzero⟩
      have := rebufferCount_le_foldl est rate rest (est.next rate p e)
      have hdry : 0 < (est.next rate p e).rebufferCount := h.runDry hrate hlaste hgap
      omega

/-- From the first event on. -/
theorem survived_iff_survives (hrate : 0 < rate) (events : List FrontierEvent)
    (h : p.Holds rate level false) (hsorted : events.Pairwise fun a b => a.tMs ≤ b.tMs) :
    (events.foldl (est.next rate) p).Survived ↔
      est.buffer.Survives level (events.map (FrontierEvent.arrival hrate)) := by
  induction events generalizing p level with
  | nil =>
    -- A player that never started has not survived, in bytes or in milliseconds.
    refine iff_of_false ?_ id
    rintro ⟨hstarted, -⟩
    exact Bool.false_ne_true (h.started.symm.trans hstarted)
  | cons e rest ih =>
    obtain ⟨hrest, hrestSorted⟩ := List.pairwise_cons.mp hsorted
    have hnext : (est.next rate p e).Holds rate _ _ := h.wait hrate
    rw [List.foldl_cons, List.map_cons, PlayoutBuffer.Survives]
    split
    · rename_i hstart
      rw [decide_eq_true hstart] at hnext
      exact survived_iff_plays hrate rest hnext hrest hrestSorted
    · rename_i hwait
      rw [decide_eq_false hwait] at hnext
      exact ih hnext hrestSorted

/-- The time of the first event after which playback is on. -/
def startTime (est : SafeBudgetEstimator) (rate : ℚ) : Playback → List FrontierEvent → Option Nat
  | _, [] => none
  | p, e :: rest =>
    if (est.next rate p e).started then some e.tMs else startTime est rate (est.next rate p e) rest

/-- The simulation and the playout buffer start at the same event. -/
theorem startTime_cast (hrate : 0 < rate) (events : List FrontierEvent)
    (h : p.Holds rate level false) :
    (startTime est rate p events).map (Nat.cast : Nat → ℚ)
      = est.buffer.startTime level (events.map (FrontierEvent.arrival hrate)) := by
  induction events generalizing p level with
  | nil => rfl
  | cons e rest ih =>
    have hnext : (est.next rate p e).Holds rate _ _ := h.wait hrate
    rw [startTime, hnext.started, List.map_cons, PlayoutBuffer.startTime]
    by_cases hstart : est.buffer.startup ≤ est.buffer.fill level (e.arrival hrate)
    · rw [if_pos hstart, decide_eq_true hstart, if_pos rfl]
      rfl
    · rw [if_neg hstart]
      rw [decide_eq_false hstart] at hnext ⊢
      exact ih hnext

/-- Before the first event the player waits with nothing in its buffer. -/
theorem holds_initial (rate : ℚ) (firstTMs : Nat) : (initial firstTMs).Holds rate 0 false where
  started := rfl
  rebufferCount := rfl
  bytes := (mul_zero rate).symm
  nonneg := le_refl 0

end Playback

/-! ### Two bitrates -/

namespace SafeBudgetEstimator

/-- The time at which playback starts. -/
def startTime (est : SafeBudgetEstimator) (events : List FrontierEvent) (bitrateMbps : ℚ) :
    Option Nat :=
  events.head?.bind fun first =>
    Playback.startTime est (bytesPerMs bitrateMbps) (.initial first.tMs) events

variable {est : SafeBudgetEstimator} {events : List FrontierEvent} {r r' : ℚ}

/-- A positive bitrate drains the buffer. -/
theorem bytesPerMs_pos (hr : 0 < r) : 0 < bytesPerMs r := by
  unfold bytesPerMs
  positivity

/-- A lower bitrate drains the buffer more slowly. -/
theorem bytesPerMs_le (h : r' ≤ r) : bytesPerMs r' ≤ bytesPerMs r := by
  unfold bytesPerMs
  gcongr

/-- The simulation in milliseconds. -/
theorem simulate_survived_iff (hr : 0 < r) (hsorted : events.Pairwise fun a b => a.tMs ≤ b.tMs) :
    (est.simulate events r).survived = true ↔
      est.buffer.Survives 0 (events.map (FrontierEvent.arrival (bytesPerMs_pos hr))) := by
  cases events with
  | nil => exact iff_of_false (by simp [simulate]) id
  | cons first rest =>
    rw [← Playback.survived_iff_survives (bytesPerMs_pos hr) _
      (Playback.holds_initial _ first.tMs) hsorted]
    simp only [simulate, if_neg (not_le.mpr hr), Bool.and_eq_true, beq_iff_eq]
    rfl

/-- A player that survives has not stopped. -/
theorem rebufferCount_of_survived (h : (est.simulate events r).survived = true) :
    (est.simulate events r).rebufferCount = 0 := by
  unfold simulate at h ⊢
  split at h
  · cases h
  · split
    · rfl
    · rename_i hpos
      simp only [if_neg hpos, Bool.and_eq_true, beq_iff_eq] at h
      exact h.2

/-- Each event brings at least as much at the lower bitrate. -/
theorem arrivals_atMost (hr' : 0 < r') (hr : 0 < r) (hle : r' ≤ r) (events : List FrontierEvent) :
    List.Forall₂ Arrival.AtMost (events.map (FrontierEvent.arrival (bytesPerMs_pos hr)))
      (events.map (FrontierEvent.arrival (bytesPerMs_pos hr'))) := by
  rw [List.forall₂_map_left_iff, List.forall₂_map_right_iff, List.forall₂_same]
  intro e _
  refine ⟨rfl, ?_⟩
  exact div_le_div_of_nonneg_left (Nat.cast_nonneg _) (bytesPerMs_pos hr') (bytesPerMs_le hle)

/-- In milliseconds: from a bitrate to a lower one at which playback starts at the same
time. -/
theorem survives_of_startTime_eq (hr' : 0 < r') (hr : 0 < r) (hle : r' ≤ r)
    (hsorted : events.Pairwise fun a b => a.tMs ≤ b.tMs)
    (hstart : est.startTime events r' = est.startTime events r)
    (h : est.buffer.Survives 0 (events.map (FrontierEvent.arrival (bytesPerMs_pos hr)))) :
    est.buffer.Survives 0 (events.map (FrontierEvent.arrival (bytesPerMs_pos hr'))) := by
  -- Both players start empty, and every event brings at least as much at the lower bitrate.
  refine h.mono ?_ ?_ (arrivals_atMost hr' hr hle events) le_rfl le_rfl
  · cases events with
    | nil => rfl
    | cons first rest =>
      have hinit := fun rate => Playback.holds_initial rate first.tMs
      rw [← Playback.startTime_cast (bytesPerMs_pos hr') _ (hinit _),
        ← Playback.startTime_cast (bytesPerMs_pos hr) _ (hinit _)]
      exact congrArg _ hstart
  · -- The arrivals have the times of the events.
    rw [List.pairwise_map]
    exact hsorted.imp fun h => Nat.cast_le.mpr h

/-- A timeline that sustains a bitrate sustains every lower one at which playback starts at
the same time. -/
theorem simulate_mono (hpos : 0 < r') (hlt : r' < r)
    (hsorted : events.Pairwise fun a b => a.tMs ≤ b.tMs)
    (hstart : est.startTime events r' = est.startTime events r)
    (h : (est.simulate events r).survived = true) : (est.simulate events r').survived = true := by
  rw [simulate_survived_iff (hpos.trans hlt) hsorted] at h
  rw [simulate_survived_iff hpos hsorted]
  exact survives_of_startTime_eq hpos (hpos.trans hlt) hlt.le hsorted hstart h

/-- Ten seconds at 2 Mbps take 2.5 MB, and 5 MB arrive at the start. -/
theorem simulate_mono_one_two :
    (new.simulate [⟨0, 5000000, 5000000⟩, ⟨10000, 5000000, 0⟩] 1).survived = true := by
  refine simulate_mono (r := 2) ?_ ?_ ?_ ?_ ?_ <;> decide +kernel

/-- At 1 Mbps playback starts at once, with three seconds in the buffer, and runs dry. At
2 Mbps it waits for the second event. -/
theorem early_start_runs_dry :
    (new.simulate [⟨0, 375000, 375000⟩, ⟨10000, 1000375000, 1000000000⟩] 2).survived = true ∧
    (new.simulate [⟨0, 375000, 375000⟩, ⟨10000, 1000375000, 1000000000⟩] 1).survived = false := by
  decide +kernel

end SafeBudgetEstimator

end FrontierSim
