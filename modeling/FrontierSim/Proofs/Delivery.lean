import FrontierSim.Lib.DeliveryCurve
import FrontierSim.Proofs.Search
import Mathlib.Algebra.Order.Floor.Semiring

/-!
# `FrontierSim.Proofs.Delivery`: the budget is a function of the delivery curve

`deliveredBytes` is the curve of a timeline: the bytes that the frontier has advanced by a
time. The shadow player is the player of `Lib.DeliveryCurve`, with bytes in place of
milliseconds (`Playback.Mirrors`). So `simulate` finds the same on two timelines with the same curve
and the same end, and the search reports the same (`budget_of_delivery`). How the events of
one millisecond are ordered, merged or split has no say, and neither have events without
bytes before the end.
-/

set_option autoImplicit false

namespace FrontierSim

open Lib

/-- The bytes that the frontier has advanced at the time `tMs`. -/
def deliveredBytes (events : List FrontierEvent) (tMs : Nat) : Nat :=
  ((events.filter fun e => e.tMs ≤ tMs).map FrontierEvent.deltaContiguousBytes).sum

/-- Two timelines with the same curve, up to the same end. -/
structure SameDelivery (events events' : List FrontierEvent) : Prop where
  last : events.getLast?.map FrontierEvent.tMs = events'.getLast?.map FrontierEvent.tMs
  curve : ∀ tMs, deliveredBytes events tMs = deliveredBytes events' tMs

/-- The first event counts when it is not after `tMs`. -/
theorem deliveredBytes_cons (e : FrontierEvent) (events : List FrontierEvent) (tMs : Nat) :
    deliveredBytes (e :: events) tMs
      = (if e.tMs ≤ tMs then e.deltaContiguousBytes else 0) + deliveredBytes events tMs := by
  unfold deliveredBytes
  by_cases h : e.tMs ≤ tMs <;> simp [h]

/-- The curve in milliseconds of playback. It only changes at whole milliseconds. -/
theorem delivered_arrivals {rate : ℚ} (hrate : 0 < rate) (events : List FrontierEvent) (t : ℚ) :
    delivered (events.map (FrontierEvent.arrival hrate)) t
      = if 0 ≤ t then (deliveredBytes events ⌊t⌋₊ : ℚ) / rate else 0 := by
  induction events with
  | nil => simp [delivered, deliveredBytes]
  | cons e rest ih =>
    rw [List.map_cons, delivered_cons, ih]
    show (if (e.tMs : ℚ) ≤ t then (e.deltaContiguousBytes : ℚ) / rate else 0) + _ = _
    by_cases ht : 0 ≤ t
    · rw [if_pos ht, if_pos ht, deliveredBytes_cons]
      by_cases he : (e.tMs : ℚ) ≤ t
      · rw [if_pos he, if_pos (Nat.le_floor he), Nat.cast_add, add_div]
      · rw [if_neg he, if_neg fun hle => he ((Nat.le_floor_iff ht).mp hle), zero_add, zero_add]
    · have he : ¬ (e.tMs : ℚ) ≤ t := fun hle => ht ((Nat.cast_nonneg _).trans hle)
      rw [if_neg ht, if_neg ht, if_neg he, zero_add]

/-- Timelines with the same curve in bytes have the same curve in milliseconds of playback, at any
rate. -/
theorem delivered_of_sameDelivery {rate : ℚ} (hrate : 0 < rate)
    {events events' : List FrontierEvent} (h : SameDelivery events events') (t : ℚ) :
    delivered (events.map (FrontierEvent.arrival hrate)) t
      = delivered (events'.map (FrontierEvent.arrival hrate)) t := by
  rw [delivered_arrivals, delivered_arrivals, h.curve]

/-! ### The shadow player -/

namespace Playback

/-- The shadow player is in the state of `q`, with bytes in place of milliseconds. -/
structure Mirrors (p : Playback) (rate : ℚ) (q : Player ℚ) : Prop where
  bytes : p.bufferBytes = rate * q.level
  started : p.started = q.playing
  rebufferCount : p.rebufferCount = q.dry

variable {est : SafeBudgetEstimator} {p : Playback} {rate : ℚ} {q : Player ℚ} {e : FrontierEvent}

/-- The drain of the simulation is that of the player. -/
theorem Mirrors.drain (hrate : 0 < rate) (h : p.Mirrors rate q) (hq : 0 ≤ q.level)
    (deltaTMs : Nat) : (p.drain rate deltaTMs).Mirrors rate (q.drain deltaTMs) := by
  cases hplaying : q.playing with
  | false =>
    rw [drain_of_waiting (h.started.trans hplaying), Player.drain_of_waiting hplaying]
    exact h
  | true =>
    have hstarted : p.started = true := h.started.trans hplaying
    rcases lt_or_ge q.level deltaTMs with hdry | hle
    · have hlt : p.bufferBytes < rate * deltaTMs := by
        rw [h.bytes]
        exact mul_lt_mul_of_pos_left hdry hrate
      have hpos : 0 < deltaTMs := Nat.cast_pos.mp (hq.trans_lt hdry)
      rw [drain_of_lt hstarted hpos hlt, Player.drain, if_pos hplaying, if_pos hdry]
      exact ⟨(mul_zero rate).symm, rfl, congrArg (· + 1) h.rebufferCount⟩
    · have hge : rate * deltaTMs ≤ p.bufferBytes := by
        rw [h.bytes]
        exact mul_le_mul_of_nonneg_left hle hrate.le
      rw [drain_of_le hstarted hge, Player.drain, if_pos hplaying, if_neg (not_lt.mpr hle)]
      refine ⟨?_, h.started, h.rebufferCount⟩
      show p.bufferBytes - rate * deltaTMs = rate * (q.level - deltaTMs)
      rw [h.bytes, mul_sub]

/-- One event, for the shadow player and for the player in milliseconds. -/
theorem Mirrors.next (hrate : 0 < rate) (h : p.Mirrors rate q) (hq : 0 ≤ q.level)
    (hlast : p.lastTMs ≤ e.tMs) :
    (est.next rate p e).Mirrors rate
      ((q.drain ((e.tMs : ℚ) - p.lastTMs)).receive est.buffer (e.arrival hrate).amount) := by
  have hdrain := h.drain hrate hq (e.tMs - p.lastTMs)
  rw [gap_cast hlast] at hdrain
  have hlevel : min ((p.drain rate (e.tMs - p.lastTMs)).bufferBytes + e.deltaContiguousBytes)
      (est.maxBufferMs * rate)
      = rate * est.buffer.fill (q.drain ((e.tMs : ℚ) - p.lastTMs)).level (e.arrival hrate) := by
    rw [hdrain.bytes, min_bytes hrate]
  constructor
  · simp only [SafeBudgetEstimator.next, step, bufferBytes_recordMin, bufferBytes_tryStart, fill]
    exact hlevel
  · simp only [SafeBudgetEstimator.next, step, started_recordMin, started_tryStart, fill, hlevel,
      startup_le_iff hrate, hdrain.started]
    rfl
  · rw [rebufferCount_next, hdrain.rebufferCount]
    rfl

/-- The loop of the simulation is the run of the player, by the step for one event. -/
theorem Mirrors.foldl (hrate : 0 < rate) (events : List FrontierEvent) (h : p.Mirrors rate q)
    (hq : q.Settled est.buffer) (hstartup : 0 < est.startupBufferMs)
    (hlast : ∀ e ∈ events, p.lastTMs ≤ e.tMs)
    (hsorted : events.Pairwise fun a b => a.tMs ≤ b.tMs) :
    (events.foldl (est.next rate) p).Mirrors rate
      (Player.run est.buffer p.lastTMs q (events.map (FrontierEvent.arrival hrate))) := by
  induction events generalizing p q with
  | nil => exact h
  | cons e rest ih =>
    have hlaste := hlast e List.mem_cons_self
    obtain ⟨hrest, hrestSorted⟩ := List.pairwise_cons.mp hsorted
    have hgap : (0 : ℚ) ≤ (e.tMs : ℚ) - p.lastTMs := sub_nonneg.mpr (Nat.cast_le.mpr hlaste)
    have hsettled := (hq.drain (Nat.cast_pos.mpr hstartup) hgap).receive
      (e.arrival hrate).amount_nonneg
    exact ih (h.next hrate hq.nonneg hlaste) hsettled hrest hrestSorted

end Playback

/-! ### The whole simulation -/

namespace SafeBudgetEstimator

variable {events events' : List FrontierEvent} {r : ℚ}

/-- The player before the first arrival. -/
def idlePlayer : Player ℚ := ⟨0, false, 0⟩

/-- The player starts settled, since the startup threshold is positive. -/
theorem settled_idlePlayer : idlePlayer.Settled new.buffer where
  nonneg := le_rfl
  le_cap := new.buffer.cap_nonneg
  waiting _ := Nat.cast_pos.mpr (by decide)

/-- What `simulate` reports of the player at the end. -/
theorem simulate_eq_run (hr : 0 < r) (hne : events ≠ [])
    (hsorted : events.Pairwise fun a b => a.tMs ≤ b.tMs) :
    ∃ q, q = Player.run new.buffer 0 idlePlayer
        (events.map (FrontierEvent.arrival (bytesPerMs_pos hr))) ∧
      (new.simulate events r).survived = (q.playing && q.dry == 0) ∧
      (new.simulate events r).rebufferCount = q.dry := by
  cases events with
  | nil => exact absurd rfl hne
  | cons first rest =>
    have hinit : (Playback.initial first.tMs).Mirrors (bytesPerMs r) idlePlayer :=
      ⟨(mul_zero _).symm, rfl, rfl⟩
    have hfirst : ∀ e ∈ first :: rest, first.tMs ≤ e.tMs := by
      intro e he
      rcases List.mem_cons.mp he with rfl | he
      · exact Nat.le_refl _
      · exact (List.pairwise_cons.mp hsorted).1 e he
    have hstartup : 0 < new.startupBufferMs := by decide
    have hend := hinit.foldl (bytesPerMs_pos hr) _ settled_idlePlayer hstartup hfirst hsorted
    rw [Player.run_of_waiting rfl _ 0] at hend
    refine ⟨_, rfl, ?_, ?_⟩
    · rw [← hend.started, ← hend.rebufferCount, simulate, if_neg (not_le.mpr hr)]
      rfl
    · rw [← hend.rebufferCount, simulate, if_neg (not_le.mpr hr)]
      rfl

/-- An ordered timeline is a list of arrivals up to its last event. -/
theorem timed_arrivals (hr : 0 < r) (hsorted : events.Pairwise fun a b => a.tMs ≤ b.tMs)
    {z : FrontierEvent} (hlast : events.getLast? = some z) :
    Timed (0 : ℚ) z.tMs (events.map (FrontierEvent.arrival (bytesPerMs_pos hr))) where
  sorted := by
    rw [List.pairwise_map]
    exact hsorted.imp fun h => Nat.cast_le.mpr h
  now_le a ha := by
    obtain ⟨e, -, rfl⟩ := List.mem_map.mp ha
    exact Nat.cast_nonneg e.tMs
  le_last a ha := by
    obtain ⟨e, he, rfl⟩ := List.mem_map.mp ha
    obtain ⟨init, rfl⟩ := List.getLast?_eq_some_iff.mp hlast
    rcases List.mem_append.mp he with he | he
    · have hle := (List.pairwise_append.mp hsorted).2.2 e he z (List.mem_singleton_self z)
      exact Nat.cast_le.mpr hle
    · rw [List.mem_singleton.mp he]
      exact le_rfl

/-- `simulate` on two timelines with the same curve. -/
theorem simulate_of_sameDelivery (hr : 0 < r) (h : SameDelivery events events')
    (hsorted : events.Pairwise fun a b => a.tMs ≤ b.tMs)
    (hsorted' : events'.Pairwise fun a b => a.tMs ≤ b.tMs) :
    (new.simulate events r).survived = (new.simulate events' r).survived ∧
      (new.simulate events r).rebufferCount = (new.simulate events' r).rebufferCount := by
  cases hz : events.getLast? with
  | none =>
    have hz' : events'.getLast? = none := by
      have hlast := h.last
      rwa [hz, Option.map_none, eq_comm, Option.map_eq_none_iff] at hlast
    rw [List.getLast?_eq_none_iff.mp hz, List.getLast?_eq_none_iff.mp hz']
    exact ⟨rfl, rfl⟩
  | some z =>
    have hlast := h.last
    rw [hz, Option.map_some, eq_comm, Option.map_eq_some_iff] at hlast
    obtain ⟨z', hz', htime⟩ := hlast
    have hne : events ≠ [] := fun hnil => by simp [hnil] at hz
    have hne' : events' ≠ [] := fun hnil => by simp [hnil] at hz'
    have htimed := timed_arrivals hr hsorted hz
    have htimed' := timed_arrivals hr hsorted' hz'
    rw [htime] at htimed'
    have hstartup : 0 < new.buffer.startup := Nat.cast_pos.mpr (by decide)
    -- Both players are where the curve takes them at the time of the last event.
    have hrun := Player.runTo_eq_of_delivered hstartup le_rfl htimed htimed'
      (delivered_of_sameDelivery (bytesPerMs_pos hr) h) (Nat.cast_nonneg z.tMs) settled_idlePlayer
    rw [Player.runTo_getLast hstartup htimed settled_idlePlayer,
      Player.runTo_getLast hstartup htimed' settled_idlePlayer] at hrun
    · obtain ⟨q, hq, hsurvived, hcount⟩ := simulate_eq_run hr hne hsorted
      obtain ⟨q', hq', hsurvived', hcount'⟩ := simulate_eq_run hr hne' hsorted'
      rw [hsurvived, hsurvived', hcount, hcount', hq, hq', hrun]
      exact ⟨rfl, rfl⟩
    · rw [List.getLast?_map, hz']
      exact ⟨_, rfl, congrArg Nat.cast htime⟩
    · rw [List.getLast?_map, hz]
      exact ⟨_, rfl, rfl⟩

/-- The budget is a function of the delivery curve: so is what `simulate` finds at a bitrate,
and so is what the search reports. -/
theorem budget_of_delivery :
    (∀ events events' : List FrontierEvent,
      (events.Pairwise fun a b => a.tMs ≤ b.tMs) → (events'.Pairwise fun a b => a.tMs ≤ b.tMs) →
      SameDelivery events events' → ∀ r, 0 < r →
      (new.simulate events r).survived = (new.simulate events' r).survived ∧
        (new.simulate events r).rebufferCount = (new.simulate events' r).rebufferCount) ∧
    ∀ events events' : List FrontierEvent, 2 ≤ events.length → 2 ≤ events'.length →
      SameDelivery (sortEvents events) (sortEvents events') →
      new.findMaxSustainableBitrate events = new.findMaxSustainableBitrate events' := by
  constructor
  · exact fun _ _ hsorted hsorted' h _ hr => simulate_of_sameDelivery hr h hsorted hsorted'
  · intro events events' hlen hlen' h
    have hsame : ∀ r : ℚ, 0 < r →
        (new.simulate (sortEvents events) r).survived
            = (new.simulate (sortEvents events') r).survived ∧
          (new.simulate (sortEvents events) r).rebufferCount
            = (new.simulate (sortEvents events') r).rebufferCount :=
      fun _ hr =>
        simulate_of_sameDelivery hr h (sortEvents_sorted events) (sortEvents_sorted events')
    have hsustains : ∀ k, Sustains events (gridRate k) ↔ Sustains events' (gridRate k) := by
      intro k
      rw [Sustains, Sustains, (hsame _ (gridRate_pos k)).1]
    have hfound : found events = found events' :=
      le_antisymm (bisect_mono (fun k => (hsustains k).mp) 15 0)
        (bisect_mono (fun k => (hsustains k).mpr) 15 0)
    have hsafe : 0 < gridRate (found events') * DEFAULT_SAFETY_FACTOR :=
      mul_pos (gridRate_pos _) (by norm_num [DEFAULT_SAFETY_FACTOR])
    rw [findMaxSustainableBitrate_eq hlen, findMaxSustainableBitrate_eq hlen', hfound,
      (hsame _ hsafe).2]

/-- An event without bytes before the end, and one millisecond split in two. -/
theorem budget_of_delivery_split :
    new.findMaxSustainableBitrate [⟨0, 4, 4⟩, ⟨5, 8, 4⟩, ⟨5, 12, 4⟩]
      = new.findMaxSustainableBitrate [⟨0, 4, 4⟩, ⟨3, 4, 0⟩, ⟨5, 12, 8⟩] := by
  refine budget_of_delivery.2 _ _ (by decide) (by decide) ⟨by decide, fun tMs => ?_⟩
  have hsort : sortEvents [⟨0, 4, 4⟩, ⟨5, 8, 4⟩, ⟨5, 12, 4⟩]
      = [⟨0, 4, 4⟩, ⟨5, 8, 4⟩, ⟨5, 12, 4⟩] := by decide
  have hsort' : sortEvents [⟨0, 4, 4⟩, ⟨3, 4, 0⟩, ⟨5, 12, 8⟩]
      = [⟨0, 4, 4⟩, ⟨3, 4, 0⟩, ⟨5, 12, 8⟩] := by decide
  rw [hsort, hsort']
  simp only [deliveredBytes_cons]
  split_ifs <;> rfl

end SafeBudgetEstimator

end FrontierSim
