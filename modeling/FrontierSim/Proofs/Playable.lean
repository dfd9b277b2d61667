import FrontierSim.Frontier.Result
import FrontierSim.Proofs.Batch
import FrontierSim.Proofs.Delivery

/-!
# `FrontierSim.Proofs.Playable`: a sustained bitrate can be played

`Sustains` is a verdict of the shadow player. `sustained_playable` says what it means for a
player that reads the file from its beginning at that bitrate. It starts at the first time by which
three seconds of content are behind the frontier, and from there to the end of the run every byte
is on a page that was reported before the player comes to it, together with all pages before it.

The last tenth of a second of a run is left out, since no tail event is added for a shorter one.
-/

set_option autoImplicit false

namespace FrontierSim

open Lib SafeBudgetEstimator

/-- The bytes that the frontier advances at the times that satisfy `P`. -/
def bytesWhen (P : Nat → Prop) [DecidablePred P] (events : List FrontierEvent) : Nat :=
  ((events.filter fun e => P e.tMs).map FrontierEvent.deltaContiguousBytes).sum

variable {P : Nat → Prop} [DecidablePred P] {events events' : List FrontierEvent}
  {tr : FrontierTracker} {pageSize wallElapsedMs : Nat} {calls : List TrackerCall} {r : ℚ}

/-- The bytes of two timelines in a row add up. -/
theorem bytesWhen_append : bytesWhen P (events ++ events')
    = bytesWhen P events + bytesWhen P events' := by
  simp [bytesWhen]

/-- The order of the events does not matter. -/
theorem bytesWhen_perm (h : events.Perm events') : bytesWhen P events = bytesWhen P events' :=
  ((h.filter _).map _).sum_eq

/-- The same bytes, in milliseconds of playback. -/
theorem arrivedWhen_arrivals {rate : ℚ} (hrate : 0 < rate) {Q : ℚ → Prop} [DecidablePred Q]
    (hQ : ∀ n : Nat, Q n ↔ P n) (events : List FrontierEvent) :
    arrivedWhen Q (events.map (FrontierEvent.arrival hrate)) = bytesWhen P events / rate := by
  induction events with
  | nil => simp [arrivedWhen, bytesWhen]
  | cons e rest ih =>
    have hcons : bytesWhen P (e :: rest)
        = (if P e.tMs then e.deltaContiguousBytes else 0) + bytesWhen P rest := by
      unfold bytesWhen
      by_cases he : P e.tMs <;> simp [he]
    rw [List.map_cons, arrivedWhen_cons, ih, hcons, Nat.cast_add, add_div]
    congr 1
    show (if Q (e.tMs : ℚ) then (e.deltaContiguousBytes : ℚ) / rate else 0) = _
    by_cases he : P e.tMs
    · rw [if_pos he, if_pos ((hQ e.tMs).mpr he)]
    · rw [if_neg he, if_neg fun h => he ((hQ e.tMs).mp h), Nat.cast_zero, zero_div]

/-! ### The timeline of a run -/

/-- The tail event brings no bytes. -/
theorem bytesWhen_simEvents (tr : FrontierTracker) (wallElapsedMs : Nat) :
    bytesWhen P (tr.simEvents wallElapsedMs) = bytesWhen P tr.events := by
  unfold FrontierTracker.simEvents
  split
  · split
    · rw [bytesWhen_append]
      by_cases hP : P wallElapsedMs <;> simp [bytesWhen, hP]
    · rfl
  · rfl

/-- The timeline reaches to the last tenth of a second. -/
theorem exists_late_simEvent (h : tr.simEvents wallElapsedMs ≠ []) :
    ∃ e ∈ tr.simEvents wallElapsedMs, wallElapsedMs ≤ e.tMs + 100 := by
  unfold FrontierTracker.simEvents at h ⊢
  cases hlast : tr.events.getLast? with
  | none =>
    simp only [hlast] at h
    exact absurd (List.getLast?_eq_none_iff.mp hlast) h
  | some last =>
    simp only
    split
    · exact ⟨_, List.mem_append_right _ (List.mem_singleton_self _), Nat.le_add_right _ _⟩
    · rename_i hshort
      exact ⟨last, List.mem_of_getLast? hlast, Nat.le_of_not_lt hshort⟩

/-- A recorded advance has the time of a call. -/
theorem exists_call_of_event {e : FrontierEvent} (hpos : 0 < pageSize)
    (he : e ∈ (FrontierTracker.after pageSize calls).events) :
    ∃ call ∈ calls, e.tMs = call.tMs := by
  rw [events_after hpos, batchEvents] at he
  obtain ⟨⟨call, j⟩, hcall, he⟩ := List.mem_filterMap.mp he
  refine ⟨call, List.fst_mem_of_mem_zipIdx hcall, ?_⟩
  dsimp only at he
  split at he
  · rw [← Option.some.inj he]
  · cases he

/-- With calls in the order of their times, the advances up to a time are those of the calls
up to that time. -/
theorem bytesWhen_after (hpos : 0 < pageSize) (hP : ∀ a b, a ≤ b → P b → P a)
    (hordered : calls.Pairwise fun a b => a.tMs ≤ b.tMs) :
    bytesWhen P (FrontierTracker.after pageSize calls).events
      = pageSize * initialPages pageSize (calls.filter fun call => P call.tMs) := by
  induction calls using List.reverseRecOn with
  | nil => rw [List.filter_nil, ← frontier_after hpos]; rfl
  | append_singleton calls call ih =>
    obtain ⟨hbefore, -, hlast⟩ := List.pairwise_append.mp hordered
    by_cases hcall : P call.tMs
    · -- Then the time of every call satisfies `P`, and so does that of every advance.
      have hall : ∀ c ∈ calls ++ [call], P c.tMs := by
        intro c hc
        rcases List.mem_append.mp hc with hc | hc
        · exact hP _ _ (hlast c hc call (List.mem_singleton_self call)) hcall
        · rwa [List.mem_singleton.mp hc]
      have hevents : ∀ e ∈ (FrontierTracker.after pageSize (calls ++ [call])).events, P e.tMs := by
        intro e he
        obtain ⟨c, hc, htime⟩ := exists_call_of_event hpos he
        exact htime ▸ hall c hc
      rw [List.filter_eq_self.mpr fun c hc => by simpa using hall c hc, bytesWhen,
        List.filter_eq_self.mpr fun e he => by simpa using hevents e he,
        (addsUp_after hpos _).sum, frontier_after hpos]
    · have hnone : [call].filter (fun call => P call.tMs) = [] := by simp [hcall]
      rw [List.filter_append, hnone, List.append_nil, ← ih hbefore, after_append, events_apply,
        bytesWhen_append]
      -- The advance of the last call does not count.
      split <;> simp [bytesWhen, hcall]

/-- The advances up to a time amount to the bytes on the pages that were touched up to that time
without a gap. -/
theorem le_bytesWhen_iff (hpos : 0 < pageSize) (hP : ∀ a b, a ≤ b → P b → P a)
    (hordered : calls.Pairwise fun a b => a.tMs ≤ b.tMs) {content : ℚ} :
    content ≤ bytesWhen P (FrontierTracker.after pageSize calls).events ↔
      ∀ x : Nat, (x : ℚ) < content → ∀ page ≤ x / pageSize,
        ∃ call ∈ calls, P call.tMs ∧ call.Touches pageSize page := by
  rw [bytesWhen_after hpos hP hordered]
  have hgap := (tracks_after hpos (calls.filter fun call => P call.tMs)).firstGap
  rw [lastFrontierPageIndex_after hpos] at hgap
  constructor
  · intro hcontent x hx page hpage
    have hbytes : x < pageSize * initialPages pageSize (calls.filter fun call => P call.tMs) := by
      exact_mod_cast hx.trans_le hcontent
    obtain ⟨call, hcall, htouches⟩ :=
      hgap.below page (hpage.trans_lt (Nat.div_lt_of_lt_mul hbytes))
    rw [List.mem_filter, decide_eq_true_eq] at hcall
    exact ⟨call, hcall.1, hcall.2, htouches⟩
  · -- Otherwise the first byte past the advances would lie on the first page not touched.
    intro htouched
    by_contra hless
    obtain ⟨call, hcall, hcallP, htouches⟩ := htouched _ (not_le.mp hless) _ le_rfl
    rw [Nat.mul_div_cancel_left _ hpos] at htouches
    exact hgap.gap ⟨call, List.mem_filter.mpr ⟨hcall, decide_eq_true hcallP⟩, htouches⟩

/-! ### Playing -/

/-- A bitrate that the timeline sustains, from the shadow player to bytes. Playback starts at the
first time by which three seconds of content are behind the frontier. -/
theorem exists_start_of_sustains (hr : 0 < r) (h : Sustains (tr.simEvents wallElapsedMs) r) :
    ∃ start : Nat,
      IsLeast {m : Nat | 3000 * bytesPerMs r ≤ bytesWhen (· ≤ m) tr.events} start ∧
      ∀ t : ℚ, start ≤ t → t + 100 ≤ wallElapsedMs →
        bytesPerMs r * (t - start) ≤ bytesWhen (fun n => (n : ℚ) < t) tr.events := by
  have hrate := bytesPerMs_pos hr
  have hperm : (sortEvents (tr.simEvents wallElapsedMs)).Perm (tr.simEvents wallElapsedMs) :=
    List.perm_insertionSort _ _
  have hne : tr.simEvents wallElapsedMs ≠ [] := by
    intro hnil
    rw [hnil] at h
    exact absurd h (by simp [Sustains, sortEvents, simulate])
  obtain ⟨late, hlate, hend⟩ := exists_late_simEvent hne
  rw [Sustains, simulate_survived_iff hr (sortEvents_sorted _)] at h
  have hsorted : ((sortEvents (tr.simEvents wallElapsedMs)).map
      (FrontierEvent.arrival hrate)).Pairwise fun a b => a.time ≤ b.time := by
    rw [List.pairwise_map]
    exact (sortEvents_sorted _).imp fun hle => Nat.cast_le.mpr hle
  obtain ⟨start, hstart, hplayed⟩ := h.exists_start le_rfl hsorted
  obtain ⟨a, ha, rfl⟩ := PlayoutBuffer.exists_of_startTime hstart
  obtain ⟨first, -, rfl⟩ := List.mem_map.mp ha
  refine ⟨first.tMs, ?_, fun t hfrom hto => ?_⟩
  · -- The same set of times, in milliseconds of playback and in bytes.
    have hcap : new.buffer.startup ≤ new.buffer.cap := Nat.cast_le.mpr (by decide)
    have hwait : 0 < new.buffer.startup := Nat.cast_pos.mpr (by decide)
    have hleast := PlayoutBuffer.isLeast_startTime hcap hwait hsorted hstart
    have hiff : ∀ m : Nat, new.buffer.startup ≤ 0 + arrivedWhen (· ≤ (m : ℚ))
        ((sortEvents (tr.simEvents wallElapsedMs)).map (FrontierEvent.arrival hrate)) ↔
        3000 * bytesPerMs r ≤ bytesWhen (· ≤ m) tr.events := by
      intro m
      rw [arrivedWhen_arrivals (P := (· ≤ m)) hrate fun n => Nat.cast_le, bytesWhen_perm hperm,
        bytesWhen_simEvents, zero_add, le_div_iff₀ hrate]
      rfl
    exact ⟨(hiff first.tMs).mp hleast.1, fun m hm => Nat.cast_le.mp (hleast.2 ((hiff m).mpr hm))⟩
  · have hmem : late.arrival hrate ∈ (sortEvents (tr.simEvents wallElapsedMs)).map
        (FrontierEvent.arrival hrate) := List.mem_map_of_mem (hperm.mem_iff.mpr hlate)
    have htlate : t ≤ (late.arrival hrate).time := by
      have hcast : (wallElapsedMs : ℚ) ≤ late.tMs + 100 := by exact_mod_cast hend
      show t ≤ (late.tMs : ℚ)
      linarith
    have hbytes := hplayed _ hmem t hfrom htlate
    rw [arrivedWhen_arrivals (P := fun n => (n : ℚ) < t) hrate fun n => Iff.rfl,
      bytesWhen_perm hperm, bytesWhen_simEvents, zero_add, le_div_iff₀ hrate] at hbytes
    rw [mul_comm]
    exact hbytes

/-- Where calls come in the order of their times, a bitrate that the timeline of a run sustains
can be played. The player starts at the first time by which three seconds of content are on
reported pages, and from there on every byte that is played by a time is on a page reported before
that time, and so are all pages before it. -/
theorem sustained_playable (hpos : 0 < pageSize)
    (hordered : calls.Pairwise fun a b => a.tMs ≤ b.tMs) (hr : 0 < r)
    (h : Sustains ((FrontierTracker.after pageSize calls).simEvents wallElapsedMs) r) :
    ∃ start : Nat,
      IsLeast {m : Nat | ∀ x : Nat, (x : ℚ) < 3000 * bytesPerMs r → ∀ page ≤ x / pageSize,
        ∃ call ∈ calls, call.tMs ≤ m ∧ call.Touches pageSize page} start ∧
      ∀ t : ℚ, start ≤ t → t + 100 ≤ wallElapsedMs →
        ∀ x : Nat, (x : ℚ) < bytesPerMs r * (t - start) → ∀ page ≤ x / pageSize,
          ∃ call ∈ calls, (call.tMs : ℚ) < t ∧ call.Touches pageSize page := by
  obtain ⟨start, hleast, hplayed⟩ := exists_start_of_sustains hr h
  refine ⟨start, ?_, fun t hfrom hto => ?_⟩
  · -- A time at which the pages are there is one at which the advances amount to as much.
    have hdown : ∀ m a b : Nat, a ≤ b → b ≤ m → a ≤ m := fun m a b => le_trans
    refine ⟨(le_bytesWhen_iff hpos (hdown start) hordered).mp hleast.1, fun m hm => ?_⟩
    exact hleast.2 ((le_bytesWhen_iff hpos (hdown m) hordered).mpr hm)
  · refine (le_bytesWhen_iff (P := fun n => (n : ℚ) < t) hpos (fun a b hle hb => ?_) hordered).mp
      (hplayed t hfrom hto)
    exact (Nat.cast_le.mpr hle).trans_lt hb

/-- Two pages of 2.5 MB at the start and after one second carry 4 Mbps for eight seconds. -/
theorem sustained_playable_two_pages : ∃ start : Nat,
    IsLeast {m : Nat | ∀ x : Nat, (x : ℚ) < 3000 * bytesPerMs 4 → ∀ page ≤ x / 2500000,
      ∃ call ∈ [TrackerCall.pageCompleted 0 0, .pageCompleted 1 1000], call.tMs ≤ m ∧
        call.Touches 2500000 page} start ∧
    ∀ t : ℚ, start ≤ t → t + 100 ≤ (8000 : Nat) →
      ∀ x : Nat, (x : ℚ) < bytesPerMs 4 * (t - start) → ∀ page ≤ x / 2500000,
        ∃ call ∈ [TrackerCall.pageCompleted 0 0, .pageCompleted 1 1000], (call.tMs : ℚ) < t ∧
          call.Touches 2500000 page :=
  sustained_playable (by decide) (by decide) (by decide) (by decide +kernel)

end FrontierSim
