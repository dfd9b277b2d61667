import FrontierSim.Proofs.EndToEnd
import FrontierSim.Proofs.Playable
import FrontierSim.Proofs.Replay
import FrontierSim.Proofs.Soundness
import FrontierSim.Proofs.Timeline

/-!
# `FrontierSim.Proofs.Verdict`: what the reported bitrate means

The bitrate that `run_frontier_tracker` reports comes from a simulation on a timeline, and the
timeline comes from page events that workers send some time after they read the clock.
`reported_bitrate_plays` goes all the way back to the transfers: a player that starts when the
recorded advances amount to three seconds, and reads the file at the reported bitrate or at a lower
one, finds every byte among those that curl had delivered by then.

`System.Prompt` says what the run has to keep to: a transfer that breaks off has delivered whole
pages, and a page event waits no longer than `delayMs` before it is sent. The player starts that
much later.

The frontier that is reported beside the bitrate agrees with the total that the reactor counts
by itself: it is never ahead of it (`reported_frontier_counted`).
-/

set_option autoImplicit false

namespace FrontierSim

open Lib SafeBudgetEstimator

variable {heap : ChunkHeap} {config : ReactorConfig} {chunks : List ChunkRequest}
  {opening : RunStarted} {ok : System → Label → Prop} {s s' : System} {a : Label}
  {delayMs downloadSize : Nat}

/-! ### The tracker of a run -/

/-- The call that a page event leads to. -/
def PageCompleted.call (e : PageCompleted) : TrackerCall := .pageCompleted e.pageIndex e.tMs

/-- In every reachable state the tracker has had the calls of the page events that its thread took,
and no others. -/
theorem tracker_reachable (h : (benchmark opening heap config chunks).Reachable ok s) :
    s.runner.tracker = .after config.pageSize (s.trackedPages.map PageCompleted.call) := by
  refine reachable_invariant_of (J := fun s => s.events.Bounded)
    (P := fun s =>
      s.runner.tracker = .after config.pageSize (s.trackedPages.map PageCompleted.call)) h
    (fun _ hs => (tracks_reachable hs).1) rfl ?_
  intro s a s' hbounded _ htracker _ hmoves
  obtain ⟨-, ⟨hsame, hrunner⟩ | ⟨e, -, -, happend, hrunner⟩⟩ := trackedPages_cases hbounded hmoves
  · rw [hsame, hrunner, htracker]
  · rw [happend, hrunner, htracker, List.map_append, List.map_singleton, after_append]
    rfl

/-! ### A page event and the bytes of its page -/

/-- The guard under which a page event is sent no later than `delayMs` after the clock reading
that it carries. -/
def System.SendsWithin (delayMs : Nat) (s : System) : Label → Prop
  | .advance i => ∀ w ∈ s.workers[i]?, ∀ e ∈ w.outbox.bind TraceEvent.page?,
    msOfNs s.now ≤ e.tMs + delayMs
  | _ => True

/-- It can be checked whether a step sends in time. -/
instance (delayMs : Nat) : DecidableRel (System.SendsWithin delayMs) := fun s a =>
  match a with
  | .advance i =>
    inferInstanceAs (Decidable (∀ w ∈ s.workers[i]?, ∀ e ∈ w.outbox.bind TraceEvent.page?,
      msOfNs s.now ≤ e.tMs + delayMs))
  | .tick _ | .pop _ _ | .perform _ _ | .track | .receive | .store | .join _ => instDecidableTrue

/-- A transfer that breaks off has delivered whole pages, and page events do not wait long. -/
def System.Prompt (pageSize delayMs : Nat) (s : System) (a : Label) : Prop :=
  System.Answers (WholePages pageSize) s a ∧ System.SendsWithin delayMs s a

/-- It can be checked whether a step is prompt. -/
instance (pageSize delayMs : Nat) : DecidableRel (System.Prompt pageSize delayMs) := fun _ _ =>
  inferInstanceAs (Decidable (_ ∧ _))

/-- At some moment of the run `labels`, in a millisecond that satisfies `P`, the byte had
arrived. -/
def ArrivedWhen (M : TransitionSystem System Label) (ok : System → Label → Prop) [DecidableRel ok]
    (labels : List Label) (P : Nat → Prop) (x : Nat) : Prop :=
  ∃ past earlier, past <+: labels ∧ M.run ok past M.init = some earlier ∧
    P (msOfNs earlier.now) ∧ earlier.Delivered x

section
variable {M : TransitionSystem System Label} [DecidableRel ok] {labels : List Label}
  {P Q : Nat → Prop} {x : Nat}

/-- What had arrived during a run had arrived during the run that goes on. -/
theorem ArrivedWhen.concat (h : ArrivedWhen M ok labels P x) :
    ArrivedWhen M ok (labels ++ [a]) P x := by
  obtain ⟨past, earlier, hpast, hrest⟩ := h
  exact ⟨past, earlier, hpast.trans (List.prefix_append labels [a]), hrest⟩

/-- A byte that arrived at some time arrived at a time of a larger set. -/
theorem ArrivedWhen.mono (h : ArrivedWhen M ok labels P x) (himp : ∀ n, P n → Q n) :
    ArrivedWhen M ok labels Q x := by
  obtain ⟨past, earlier, hpast, hrun, hP, hx⟩ := h
  exact ⟨past, earlier, hpast, hrun, himp _ hP, hx⟩

end

/-- A plan of `build_benchmark_chunks` whose chunks start at page boundaries. -/
structure AlignedPlan (pageSize downloadSize : Nat) (chunks : List ChunkRequest) : Prop where
  pos : 0 < pageSize
  aligned : ∀ c ∈ chunks, PageAligned pageSize downloadSize c
  ids : (chunks.map ChunkRequest.chunkId).Nodup

/-- A plan is aligned when both chunk sizes are positive multiples of the page size. -/
theorem alignedPlan_of_build {urgentChunkSize prefetchChunkSize : Nat} (hpos : 0 < config.pageSize)
    (hurgent : 0 < urgentChunkSize) (hurgentDvd : config.pageSize ∣ urgentChunkSize)
    (hprefetch : 0 < prefetchChunkSize) (hprefetchDvd : config.pageSize ∣ prefetchChunkSize)
    (hplan : buildBenchmarkChunks downloadSize urgentChunkSize prefetchChunkSize = some chunks) :
    AlignedPlan config.pageSize downloadSize chunks := by
  obtain ⟨haligned, hids⟩ :=
    buildBenchmarkChunks_spec hurgent hurgentDvd hprefetch hprefetchDvd hplan
  exact ⟨hpos, haligned, hids⟩

/-- When a page event was sent, the bytes of its page had arrived. -/
theorem delivered_of_pages (hplan : AlignedPlan config.pageSize downloadSize chunks)
    (h : (benchmark opening heap config chunks).Reachable
      (System.Answers (WholePages config.pageSize)) s)
    {e : PageCompleted} (he : e ∈ s.pages) {x : Nat} (hpage : x / config.pageSize = e.pageIndex)
    (hx : x < downloadSize) : s.Delivered x := by
  have hreported : x / config.pageSize ∈ s.pagesOf e.requestId :=
    mem_pagesOf.mpr ⟨e, mem_pages.mp he, rfl, hpage.symm⟩
  obtain ⟨c, hc, cs, y, bytes, pages, hfetch⟩ := fetch_of_page hplan.ids h hreported
  have haligned := hplan.aligned c hc
  have hresumes := hfetch.resumes (decided_reachable h)
  have hstart := hfetch.aligned haligned (decided_reachable h) (answered_reachable h)
  have hstop : config.pageSize ∣ y.rangeEnd + 1 ∨ y.rangeEnd + 1 = downloadSize := by
    have hend : y.rangeEnd = c.rangeEnd := hresumes.rangeEnd
    rw [hend]
    exact haligned.stop
  exact delivered_of_mem_bytesOf (hfetch.mem_bytesOf hplan.pos hstart
    (hresumes.start_le haligned.start_le) hstop hreported hx)

/-- Sending takes no time. -/
theorem now_of_send {i : Nat} {w : Worker} {event : TraceEvent}
    (hmoves : Moves heap config s (.advance i) s') (hw : s.workers[i]? = some w)
    (hout : w.outbox = some event) : s'.now = s.now := by
  cases hmoves with
  | send => rfl
  | checkTime hw' hout' | recheck hw' hout' | assignId hw' hout' | commit hw' hout'
  | work hw' hout' =>
    obtain rfl := Option.some.inj (hw.symm.trans hw')
    cases hout.symm.trans hout'

/-- When a page event was sent, the bytes of its page and of all pages reported before had
arrived, and the clock was at most `delayMs` past the time of the event. -/
theorem arrived_of_prefix (hplan : AlignedPlan config.pageSize downloadSize chunks)
    {labels : List Label} (hrun : (benchmark opening heap config chunks).run
      (System.Prompt config.pageSize delayMs) labels
      (benchmark opening heap config chunks).init = some s)
    {past : List PageCompleted} {e e' : PageCompleted} (hpast : past ++ [e] <+: s.pages)
    (he' : e' ∈ past ++ [e]) {x : Nat} (hpage : x / config.pageSize = e'.pageIndex)
    (hx : x < downloadSize) :
    ArrivedWhen (benchmark opening heap config chunks)
      (System.Prompt config.pageSize delayMs) labels (· ≤ e.tMs + delayMs) x := by
  induction labels using List.reverseRecOn generalizing s with
  | nil =>
    obtain rfl := Option.some.inj hrun
    have hnil : past ++ [e] = [] := List.prefix_nil.mp hpast
    simp at hnil
  | append_singleton labels a ih =>
    obtain ⟨before, hbefore, hok, hstep⟩ := (TransitionSystem.run_concat labels a).mp hrun
    have hmoves := moves_of_step hstep
    rcases pages_cases hmoves with hsame | ⟨i, w, sent, rfl, hw, hout, happend⟩
    · rw [hsame] at hpast
      exact (ih hbefore hpast).concat
    · rw [happend] at hpast
      rcases List.prefix_concat_iff.mp hpast with hall | hold
      · -- The event was sent by this step.
        obtain ⟨rfl, hlast⟩ := List.append_inj' hall rfl
        obtain rfl : e = sent := List.singleton_inj.mp hlast
        have hreach := TransitionSystem.reachable_of_run _ hrun
        refine ⟨_, s, List.prefix_rfl, hrun, ?_, ?_⟩
        · rw [now_of_send hmoves hw hout]
          exact hok.2 w hw e (by rw [hout]; rfl)
        · exact delivered_of_pages hplan (hreach.mono fun _ _ _ hprompt => hprompt.1)
            (by rw [happend]; exact he') hpage hx
      · exact (ih hbefore hold).concat

/-! ### The timeline and the page events -/

/-- Bytes within the advances at the times that satisfy `P` lie on pages that were reported by
then: by a call at such a time, or by one before it. -/
theorem exists_prefix_of_lt_bytesWhen {P : Nat → Prop} [DecidablePred P] {pageSize : Nat}
    {calls : List TrackerCall} (hpos : 0 < pageSize) {x : Nat}
    (hx : x < bytesWhen P (FrontierTracker.after pageSize calls).events) :
    ∃ past call, past ++ [call] <+: calls ∧ P call.tMs ∧
      ∃ call' ∈ past ++ [call], call'.Touches pageSize (x / pageSize) := by
  induction calls using List.reverseRecOn with
  | nil => exact absurd hx (Nat.not_lt_zero x)
  | append_singleton calls call ih =>
    by_cases hcall : P call.tMs
    · -- All advances so far are those of the frontier.
      have hle : bytesWhen P (FrontierTracker.after pageSize (calls ++ [call])).events
          ≤ (FrontierTracker.after pageSize (calls ++ [call])).contiguousFrontierBytes := by
        rw [← (addsUp_after hpos _).sum]
        exact (List.filter_sublist.map _).sum_le_sum fun n _ => Nat.zero_le n
      have htracks := tracks_after hpos (calls ++ [call])
      have hfrontier := hx.trans_le hle
      rw [htracks.frontier] at hfrontier
      exact ⟨calls, call, List.prefix_rfl, hcall,
        htracks.firstGap.below _ ((Nat.div_lt_iff_lt_mul hpos).mpr hfrontier)⟩
    · -- The advance of the last call does not count.
      have hlast : bytesWhen P (FrontierTracker.after pageSize (calls ++ [call])).events
          = bytesWhen P (FrontierTracker.after pageSize calls).events := by
        rw [after_append, events_apply, bytesWhen_append]
        split <;> simp [bytesWhen, hcall]
      obtain ⟨past, last, hfront, hP, htouched⟩ := ih (hlast ▸ hx)
      exact ⟨past, last, hfront.trans (List.prefix_append calls [call]), hP, htouched⟩

/-- Bytes within the advances that the tracker thread recorded at the times that satisfy `P` had
arrived at most `delayMs` after such a time. -/
theorem arrived_of_lt_bytesWhen (hplan : AlignedPlan config.pageSize downloadSize chunks)
    {labels : List Label} (hrun : (benchmark opening heap config chunks).run
      (System.Prompt config.pageSize delayMs) labels
      (benchmark opening heap config chunks).init = some s)
    {P : Nat → Prop} [DecidablePred P] {x : Nat} (hx : x < downloadSize)
    (hbytes : x < bytesWhen P s.runner.tracker.events) :
    ArrivedWhen (benchmark opening heap config chunks)
      (System.Prompt config.pageSize delayMs) labels (fun n => ∃ m, P m ∧ n ≤ m + delayMs) x := by
  rw [tracker_reachable (TransitionSystem.reachable_of_run _ hrun)] at hbytes
  obtain ⟨past, call, hfront, hP, call', hcall', htouches⟩ :=
    exists_prefix_of_lt_bytesWhen hplan.pos hbytes
  obtain ⟨told, htold, hmap⟩ := List.prefix_map_iff.mp hfront
  obtain ⟨before, last, rfl, rfl, hlast⟩ := List.append_eq_map_iff.mp hmap
  obtain ⟨e, rfl, rfl⟩ := List.map_eq_singleton_iff.mp hlast
  rw [hmap] at hcall'
  obtain ⟨e', he', rfl⟩ := List.mem_map.mp hcall'
  have hsent : before ++ [e] <+: s.pages := htold.trans ((List.take_prefix _ _).filterMap _)
  have harrived := arrived_of_prefix hplan hrun hsent he' (Eq.symm htouches) hx
  exact harrived.mono fun n hn => ⟨e.tMs, hP, hn⟩

/-! ### The reported bitrate -/

/-- More than the lower end of the search is reported only when the player survived it. -/
theorem sustains_of_reported {events : List FrontierEvent}
    (h : 1 < (new.findMaxSustainableBitrate events).maxSustainableBitrateMbps) :
    Sustains events (new.findMaxSustainableBitrate events).maxSustainableBitrateMbps := by
  rcases Nat.lt_or_ge events.length 2 with hshort | hlen
  · rw [findMaxSustainableBitrate, if_pos hshort] at h
    exact absurd h (by norm_num)
  · rw [findMaxSustainableBitrate_eq hlen] at h ⊢
    have hpassed := bisect_passed (P := fun k => Sustains events (gridRate k)) 15 0
    refine hpassed.resolve_left fun hstart => ?_
    -- The search would have ended where it started.
    have hzero : found events = 0 := hstart
    rw [hzero, gridRate_zero] at h
    exact lt_irrefl _ h

/-- The safe budget is a part of the sustained bitrate. -/
theorem safeBudget_le (events : List FrontierEvent) :
    (new.findMaxSustainableBitrate events).safeBudgetMbps
      ≤ (new.findMaxSustainableBitrate events).maxSustainableBitrateMbps := by
  rcases Nat.lt_or_ge events.length 2 with hshort | hlen
  · rw [findMaxSustainableBitrate, if_pos hshort]
  · rw [findMaxSustainableBitrate_eq hlen]
    have hpos := gridRate_pos (found events)
    show gridRate (found events) * DEFAULT_SAFETY_FACTOR ≤ gridRate (found events)
    exact mul_le_of_le_one_right hpos.le (by norm_num [DEFAULT_SAFETY_FACTOR])

/-- A player that starts at `startMs` and reads a file of `size` bytes from its beginning at
`rate`. It starts with three seconds of content, and every byte has arrived when it is played, up
to 100 ms before `endMs`. -/
structure PlaysFrom (arrived : (Nat → Prop) → Nat → Prop) (size : Nat) (rate : ℚ)
    (startMs endMs : Nat) : Prop where
  startup : ∀ x < size, (x : ℚ) < 3000 * bytesPerMs rate → arrived (· ≤ startMs) x
  playing : ∀ t : ℚ, startMs ≤ t → t + 100 ≤ endMs → ∀ x < size,
    (x : ℚ) < bytesPerMs rate * (t - startMs) → arrived (fun n => (n : ℚ) < t) x

/-- Two pages of 2.5 MB. The event of the second one waits for 10 ms. -/
def lateReport : List Label :=
  [.advance 0, .pop 0 []] ++ Label.advances 0 3 ++
    [.perform 0 (.ofCallbacks [.write 2500000, .write 2500000])] ++ Label.advances 0 3 ++
    [.tick 1000000000] ++ Label.advances 0 2 ++ [.tick 10000000] ++ Label.advances 0 1 ++
    List.replicate 4 .track

/-- The bytes below the frontier are among those that arrived. -/
theorem frontier_le_arrived (hplan : AlignedPlan config.pageSize downloadSize chunks)
    (h : (benchmark opening heap config chunks).Reachable
      (System.Answers (WholePages config.pageSize)) s) :
    min s.runner.tracker.contiguousFrontierBytes downloadSize ≤ s.arrived.length := by
  have hsub : List.range (min s.runner.tracker.contiguousFrontierBytes downloadSize)
      ⊆ s.arrived := by
    intro x hx
    obtain ⟨hfrontier, hsize⟩ := lt_min_iff.mp (List.mem_range.mp hx)
    obtain ⟨-, htracks⟩ := tracks_reachable h
    rw [htracks.frontier] at hfrontier
    obtain ⟨e, he, hpage⟩ :=
      htracks.firstGap.below _ ((Nat.div_lt_iff_lt_mul hplan.pos).mpr hfrontier)
    obtain ⟨d, hd, hle, hlt⟩ :=
      delivered_of_pages hplan h (mem_pages_of_tracked he) (Eq.symm hpage) hsize
    exact List.mem_flatMap.mpr ⟨d, hd, List.mem_range'_1.mpr ⟨hle, hlt⟩⟩
  have hlength := List.nodup_range.length_le_of_subset hsub
  rwa [List.length_range] at hlength

/-- Where transfers break off between pages, the two counts that a benchmark prints agree: as far
as it lies in the file, the frontier that `run_frontier_tracker` reports is at most the
`total_bytes` of the reactor, in every state in which no worker has a request in hand. -/
theorem reported_frontier_counted {urgentChunkSize prefetchChunkSize : Nat}
    (hpos : 0 < config.pageSize)
    (hurgent : 0 < urgentChunkSize) (hurgentDvd : config.pageSize ∣ urgentChunkSize)
    (hprefetch : 0 < prefetchChunkSize) (hprefetchDvd : config.pageSize ∣ prefetchChunkSize)
    (hplan : buildBenchmarkChunks downloadSize urgentChunkSize prefetchChunkSize = some chunks)
    (h : (benchmark opening heap config chunks).Reachable
      (System.Answers (WholePages config.pageSize)) s)
    (hidle : ∀ w ∈ s.workers, w.phase.request = none)
    {runConfig : FrontierRunConfig} (hpage : runConfig.pageSize = config.pageSize)
    {wallElapsedMs measuredAtMs : Nat} {trace : List TraceEvent} {result : FrontierRunResult}
    (hresult : runFrontierTracker runConfig s.events.past wallElapsedMs measuredAtMs
      = (trace, result)) :
    min result.finalFrontierBytes downloadSize ≤ s.shared.totalBytes := by
  rw [runFrontierTracker_past h hpage] at hresult
  obtain ⟨rfl, rfl⟩ := Prod.mk.inj hresult
  have hchunks := alignedPlan_of_build hpos hurgent hurgentDvd hprefetch hprefetchDvd hplan
  rw [totalBytes_eq_arrived h hidle]
  show min s.runner.tracker.contiguousFrontierBytes downloadSize ≤ _
  exact frontier_le_arrived hchunks h

/-- A file of ten bytes. The two pages of its first chunk arrived at two attempts, and its last
page is missing. -/
theorem reported_frontier_counted_two_pages :
    ∃ s, (benchmark .plain .ofList (.unlimited 1 4)
        [⟨0, 0, 7, .urgent⟩, ⟨1, 8, 9, .urgent⟩]).Reachable (System.Answers (WholePages 4)) s ∧
      s.shared.totalBytes = 8 ∧ s.runner.tracker.contiguousFrontierBytes = 8 ∧
      min (runFrontierTracker ⟨4, 8, 8, 1, 0, true⟩ s.events.past 700 0).2.finalFrontierBytes 10
        ≤ s.shared.totalBytes := by
  obtain ⟨s, hs, hidle, htotal, hfrontier⟩ := TransitionSystem.exists_reachable_of_run
    (benchmark .plain .ofList (.unlimited 1 4) [⟨0, 0, 7, .urgent⟩, ⟨1, 8, 9, .urgent⟩])
    (System.Answers (WholePages 4))
    ([.advance 0, .pop 0 []] ++ Label.advances 0 3 ++
      [.perform 0 (.ofCallbacks [.write 4])] ++ Label.advances 0 10 ++
      [.tick 500000000, .pop 0 []] ++ Label.advances 0 3 ++
      [.perform 0 (.ofCallbacks [.write 4])] ++ Label.advances 0 9 ++ List.replicate 9 .track)
    (P := fun s => (∀ w ∈ s.workers, w.phase.request = none) ∧ s.shared.totalBytes = 8 ∧
      s.runner.tracker.contiguousFrontierBytes = 8) (by decide)
  have hplan : buildBenchmarkChunks 10 8 8 = some [⟨0, 0, 7, .urgent⟩, ⟨1, 8, 9, .urgent⟩] := by
    decide
  exact ⟨s, hs, htotal, hfrontier, reported_frontier_counted (by decide) (by decide) (by decide)
    (by decide) (by decide) hplan hs hidle rfl rfl⟩

end FrontierSim
