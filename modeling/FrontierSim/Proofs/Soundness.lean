import FrontierSim.Proofs.Fetches
import FrontierSim.Proofs.Plan
import Mathlib.Algebra.BigOperators.Ring.List

/-!
# `FrontierSim.Proofs.Soundness`: the frontier and the bytes that arrived

After `perform` the worker reports the page that it is in, however much of it has arrived,
and the tracker counts every reported page as a whole. At the end of the file that is
right. After a transfer that broke off inside a page it is not: `torn_page_counted` is a
run in which the frontier covers bytes that nobody has received.

`frontier_sound` says when that cannot happen: every transfer that breaks off has delivered
a whole number of pages (`WholePages`).
-/

set_option autoImplicit false

namespace FrontierSim

open Lib

/-- The transfer delivers the requested range, or a part of it that is a whole number of
pages. -/
def WholePages (pageSize : Nat) (chunk : PrioritizedChunk) (t : Transfer) : Prop :=
  AtMostRequested chunk t ∧
    (t.bodyBytes = chunk.rangeEnd - chunk.rangeStart + 1 ∨ pageSize ∣ t.bodyBytes)

/-- It can be checked whether an answer has whole pages. -/
instance (pageSize : Nat) (chunk : PrioritizedChunk) (t : Transfer) :
    Decidable (WholePages pageSize chunk t) :=
  inferInstanceAs (Decidable (_ ∧ _))

variable {heap : ChunkHeap} {config : ReactorConfig} {chunks : List ChunkRequest} {s : System}
  {opening : RunStarted} {pageSize downloadSize : Nat} {c : ChunkRequest} {cs : List ChunkCommit}
  {y : PrioritizedChunk} {requestId bytes pages : Nat}

/-- Under `WholePages` every request starts at a page boundary. -/
theorem Fetch.aligned (hfetch : Fetch (WholePages pageSize) pageSize s c cs y requestId bytes pages)
    (hc : PageAligned pageSize downloadSize c) (hdecided : ∀ d ∈ s.commits, Decided pageSize d)
    (hA : Answered (WholePages pageSize) s) : pageSize ∣ y.rangeStart := by
  rw [(hfetch.resumes hdecided).rangeStart]
  refine Nat.dvd_add hc.start_dvd (List.dvd_sum ?_)
  intro n hn
  obtain ⟨d, hd, rfl⟩ := List.mem_map.mp hn
  have hshort := hfetch.short hd (hdecided d (hfetch.commits d hd))
  refine ((hA.commits d (hfetch.commits d hd)).2).resolve_left ?_
  omega

/-- The bytes of a reported page, as far as the file goes, were delivered by the request
that reported it. -/
theorem Fetch.mem_bytesOf
    (hfetch : Fetch (WholePages pageSize) pageSize s c cs y requestId bytes pages)
    (hpos : 0 < pageSize) (hstart : pageSize ∣ y.rangeStart) (hle : y.rangeStart ≤ y.rangeEnd)
    (hstop : pageSize ∣ y.rangeEnd + 1 ∨ y.rangeEnd + 1 = downloadSize) {x : Nat}
    (hpage : x / pageSize ∈ s.pagesOf requestId) (hx : x < downloadSize) :
    x ∈ s.bytesOf requestId := by
  obtain ⟨hlow, hhigh⟩ := List.mem_range'_1.mp (hfetch.reported _ hpage)
  obtain ⟨k, hk⟩ := hstart
  rw [hk, Nat.mul_div_cancel_left k hpos] at hlow hhigh
  have hxlow : y.rangeStart ≤ x := by
    rw [hk, Nat.mul_comm]
    exact (Nat.le_div_iff_mul_le hpos).mp hlow
  have hxhigh : x < (k + pages) * pageSize := (Nat.div_lt_iff_lt_mul hpos).mp hhigh
  -- When the pages are full, they end inside what was delivered.
  have hfull : pages * pageSize ≤ bytes → x < y.rangeStart + bytes := by
    intro hbytes
    rw [Nat.add_mul, Nat.mul_comm k] at hxhigh
    omega
  rw [hfetch.delivered, List.mem_range'_1]
  refine ⟨hxlow, ?_⟩
  rcases hfetch.extent with hbytes | ⟨t, ⟨-, hall | hdvd⟩, rfl, rfl⟩
  · exact hfull hbytes
  · rcases hstop with hstop | hstop
    · -- The range ends at a page boundary, so its length is a number of pages.
      refine hfull ?_
      have hsum : y.rangeEnd + 1 = y.rangeStart + t.bodyBytes := by omega
      rw [hsum, hk] at hstop
      have hdvd := (Nat.dvd_add_right (Nat.dvd_mul_right pageSize k)).mp hstop
      exact (pagesFor_of_dvd hpos hdvd).le
    · omega
  · exact hfull (pagesFor_of_dvd hpos hdvd).le

/-- In a run where every transfer that breaks off delivers a whole number of pages, the
frontier covers only bytes that have arrived. -/
theorem frontier_sound {urgentChunkSize prefetchChunkSize : Nat} (hpos : 0 < config.pageSize)
    (hurgent : 0 < urgentChunkSize) (hurgentDvd : config.pageSize ∣ urgentChunkSize)
    (hprefetch : 0 < prefetchChunkSize) (hprefetchDvd : config.pageSize ∣ prefetchChunkSize)
    (hplan : buildBenchmarkChunks downloadSize urgentChunkSize prefetchChunkSize = some chunks)
    (h : (benchmark opening heap config chunks).Reachable
      (System.Answers (WholePages config.pageSize)) s) :
    ∀ x, x < s.runner.tracker.contiguousFrontierBytes → x < downloadSize → s.Delivered x := by
  intro x hfrontier hx
  obtain ⟨haligned, hids⟩ :=
    buildBenchmarkChunks_spec hurgent hurgentDvd hprefetch hprefetchDvd hplan
  obtain ⟨-, htracks⟩ := tracks_reachable h
  -- The page of the byte was reported.
  rw [htracks.frontier] at hfrontier
  obtain ⟨e, he, hpage⟩ := htracks.firstGap.below _ ((Nat.div_lt_iff_lt_mul hpos).mpr hfrontier)
  have hreported : x / config.pageSize ∈ s.pagesOf e.requestId :=
    mem_pagesOf.mpr ⟨e, mem_pages.mp (mem_pages_of_tracked he), rfl, hpage⟩
  -- The request that reported it delivered its bytes.
  obtain ⟨c, hc, cs, y, bytes, pages, hfetch⟩ := fetch_of_page hids h hreported
  have hresumes := hfetch.resumes (decided_reachable h)
  have hend : y.rangeEnd = c.rangeEnd := hresumes.rangeEnd
  have hstop := (haligned c hc).stop
  refine delivered_of_mem_bytesOf (hfetch.mem_bytesOf hpos
    (hfetch.aligned (haligned c hc) (decided_reachable h) (answered_reachable h))
    (hresumes.start_le (haligned c hc).start_le) ?_ hreported hx)
  rwa [hend]

/-- A plan of two chunks of one page each. The first one is transferred in full and reported, and
the second one has not been asked for. -/
theorem frontier_sound_two_pages :
    ∃ s, (benchmark .plain .ofList (.unlimited 1 4)
        [⟨0, 0, 3, .urgent⟩, ⟨1, 4, 7, .urgent⟩]).Reachable (System.Answers (WholePages 4)) s ∧
      s.runner.tracker.contiguousFrontierBytes = 4 ∧ ∀ x < 4, s.Delivered x := by
  obtain ⟨s, hs, hfrontier⟩ := TransitionSystem.exists_reachable_of_run
    (benchmark .plain .ofList (.unlimited 1 4) [⟨0, 0, 3, .urgent⟩, ⟨1, 4, 7, .urgent⟩])
    (System.Answers (WholePages 4))
    ([.advance 0, .pop 0 []] ++ Label.advances 0 3 ++ [.perform 0 (.ofCallbacks [.write 4])] ++
      Label.advances 0 3 ++ List.replicate 3 .track)
    (P := fun s => s.runner.tracker.contiguousFrontierBytes = 4) (by decide)
  refine ⟨s, hs, hfrontier, fun x hx => ?_⟩
  have hplan : buildBenchmarkChunks 8 4 4 = some [⟨0, 0, 3, .urgent⟩, ⟨1, 4, 7, .urgent⟩] := by
    decide
  exact frontier_sound (by decide) (by decide) (by decide) (by decide) (by decide) hplan hs x
    (by omega) (by omega)

/-- The first transfer for a chunk of two pages breaks off after one byte. The frontier
moves to the end of the first page. -/
theorem torn_page_counted :
    buildBenchmarkChunks 8 8 8 = some [⟨0, 0, 7, .urgent⟩] ∧
    ∃ s, (benchmark .plain .ofList (.unlimited 1 4) [⟨0, 0, 7, .urgent⟩]).Reachable
        (System.Answers AtMostRequested) s ∧
      ∃ x, x < s.runner.tracker.contiguousFrontierBytes ∧ x < 8 ∧ ¬ s.Delivered x := by
  refine ⟨by decide, ?_⟩
  obtain ⟨s, hs, hfrontier, htorn⟩ := TransitionSystem.exists_reachable_of_run
    (benchmark .plain .ofList (.unlimited 1 4) [⟨0, 0, 7, .urgent⟩])
    (System.Answers AtMostRequested)
    ([.advance 0, .pop 0 []] ++ Label.advances 0 3 ++ [.perform 0 (.ofCallbacks [.write 1])] ++
      Label.advances 0 4 ++ List.replicate 3 .track)
    (P := fun s => 1 < s.runner.tracker.contiguousFrontierBytes ∧ ¬ s.Delivered 1) (by decide)
  exact ⟨s, hs, 1, hfrontier, by decide, htorn⟩

end FrontierSim
