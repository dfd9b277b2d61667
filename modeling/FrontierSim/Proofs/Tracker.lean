import FrontierSim.Lib.FirstGap
import FrontierSim.Proofs.Steps

/-!
# `FrontierSim.Proofs.Tracker`: the frontier is the first gap

`FrontierTracker` moves a cursor over a bit vector. `Tracks` says what it computes: the
cursor stands at the first page that was not reported, and the frontier is that page's
offset. `tracks_reachable` connects it with a run, where the pages reported are those of
the events that the tracker thread has received (`System.trackedPages`).
-/

set_option autoImplicit false

namespace FrontierSim

open Lib

/-! ### One page -/

/-- The cursor passes over what is marked and stops at what is not. -/
theorem skipCompleted_spec (pages : List Bool) (k : Nat) :
    ∃ d, FrontierTracker.skipCompleted pages k = k + d ∧
      (∀ i < d, pages[i]? = some true) ∧ pages[d]? ≠ some true := by
  induction pages generalizing k with
  | nil => exact ⟨0, rfl, fun i hi => absurd hi (Nat.not_lt_zero i), by simp⟩
  | cons b rest ih =>
    cases b with
    | false => exact ⟨0, rfl, fun i hi => absurd hi (Nat.not_lt_zero i), by simp⟩
    | true =>
      obtain ⟨d, hd, hrun, hstop⟩ := ih (k + 1)
      refine ⟨d + 1, ?_, ?_, by simpa using hstop⟩
      · rw [FrontierTracker.skipCompleted, hd]
        omega
      · intro i hi
        cases i with
        | zero => rfl
        | succ i => simpa using hrun i (by omega)

/-- Resizing marks nothing. -/
theorem getElem?_resizePages (pages : List Bool) (len p : Nat) :
    (FrontierTracker.resizePages pages len)[p]? = some true ↔ pages[p]? = some true := by
  unfold FrontierTracker.resizePages
  rcases Nat.lt_or_ge p pages.length with hlt | hge
  · rw [List.getElem?_append_left hlt]
  · rw [List.getElem?_append_right hge, List.getElem?_eq_none hge, List.getElem?_replicate]
    split <;> simp

/-- The vector is long enough after the resize. -/
theorem le_length_resizePages (pages : List Bool) (len : Nat) :
    len ≤ (FrontierTracker.resizePages pages len).length := by
  simp only [FrontierTracker.resizePages, List.length_append, List.length_replicate]
  omega

/-- Marking a range of pages that the bit vector has. -/
theorem getElem?_markPages (pages : List Bool) (first count p : Nat)
    (hlen : first + count ≤ pages.length) :
    (FrontierTracker.markPages pages first count)[p]? = some true ↔
      (first ≤ p ∧ p < first + count) ∨ pages[p]? = some true := by
  induction count generalizing pages first with
  | zero =>
    show pages[p]? = some true ↔ _
    exact (or_iff_right fun h => absurd h.1 (Nat.not_le_of_lt h.2)).symm
  | succ count ih =>
    show (FrontierTracker.markPages (pages.set first true) (first + 1) count)[p]? = some true ↔ _
    rw [ih (pages.set first true) (first + 1) (by rw [List.length_set]; omega)]
    by_cases hp : p = first
    · subst hp
      rw [List.getElem?_set_self (by omega)]
      exact iff_of_true (Or.inr rfl) (Or.inl ⟨Nat.le_refl p, by omega⟩)
    · rw [List.getElem?_set_ne (Ne.symm hp)]
      refine or_congr_left ?_
      omega

/-- The tracker stands at the first page outside `S`. -/
structure Tracks (tr : FrontierTracker) (pageSize : Nat) (S : Set Nat) : Prop where
  pageSize_eq : tr.pageSize = pageSize
  marked : ∀ p, tr.pages[p]? = some true ↔ p ∈ S
  frontier : tr.contiguousFrontierBytes = tr.lastFrontierPageIndex * pageSize
  firstGap : FirstGap S tr.lastFrontierPageIndex

variable {tr : FrontierTracker} {pageSize : Nat} {S : Set Nat}

/-- A new tracker stands at page 0 and has no page. -/
theorem tracks_withPageSize (pageSize : Nat) : Tracks (.withPageSize pageSize) pageSize ∅ where
  pageSize_eq := rfl
  marked p := by simp [FrontierTracker.withPageSize]
  frontier := (Nat.zero_mul _).symm
  firstGap := .empty

/-- Moving the cursor after pages were marked. -/
theorem Tracks.advance (h : Tracks tr pageSize S) {pages : List Bool} {T : Set Nat}
    (hmarked : ∀ p, pages[p]? = some true ↔ p ∈ T) (hST : S ⊆ T) (tMs : Nat) :
    Tracks ({ tr with pages := pages }.advanceFrontier tMs) pageSize T := by
  -- The cursor moves `d` pages on, all marked by now, and stops at a page that is not.
  obtain ⟨d, hd, hrun, hstop⟩ := skipCompleted_spec
    (pages.drop tr.lastFrontierPageIndex) tr.lastFrontierPageIndex
  simp only [List.getElem?_drop] at hrun hstop
  have hcursor : ({ tr with pages := pages }.advanceFrontier tMs).lastFrontierPageIndex
      = tr.lastFrontierPageIndex + d := hd
  refine ⟨h.pageSize_eq, hmarked, ?_, ?_⟩
  · rw [← h.pageSize_eq]
    rfl
  · rw [hcursor]
    refine h.firstGap.advance hST (fun p hge hlt => ?_) ?_
    · rw [← hmarked]
      have := hrun (p - tr.lastFrontierPageIndex) (by omega)
      rwa [Nat.add_sub_cancel' hge] at this
    · rw [← hmarked]
      exact hstop

/-- A page report adds the page to the set. -/
theorem Tracks.onPageCompleted (h : Tracks tr pageSize S) (page tMs : Nat) :
    Tracks (tr.onPageCompleted page tMs) pageSize (insert page S) := by
  refine h.advance (fun p => ?_) (Set.subset_insert page S) tMs
  show (FrontierTracker.markPages (FrontierTracker.resizePages tr.pages (page + 1)) page 1)[p]?
    = some true ↔ _
  rw [getElem?_markPages _ _ _ _ (le_length_resizePages _ _), getElem?_resizePages, h.marked,
    Set.mem_insert_iff]
  refine or_congr_left ?_
  omega

/-- The frontier never moves back. -/
theorem Tracks.le_onPageCompleted (h : Tracks tr pageSize S) (page tMs : Nat) :
    tr.contiguousFrontierBytes ≤ (tr.onPageCompleted page tMs).contiguousFrontierBytes := by
  have h' := h.onPageCompleted page tMs
  rw [h.frontier, h'.frontier]
  exact Nat.mul_le_mul_right pageSize (h.firstGap.mono h'.firstGap (Set.subset_insert page S))

/-- An advance is recorded with the time of the call that closed the gap. -/
theorem events_advanceFrontier (tr : FrontierTracker) (tMs : Nat) :
    (tr.advanceFrontier tMs).events = tr.events ++
      if tr.contiguousFrontierBytes < (tr.advanceFrontier tMs).contiguousFrontierBytes then
        [⟨tMs, (tr.advanceFrontier tMs).contiguousFrontierBytes,
          (tr.advanceFrontier tMs).contiguousFrontierBytes - tr.contiguousFrontierBytes⟩]
      else [] := by
  simp only [FrontierTracker.advanceFrontier, Nat.sub_pos_iff_lt]
  split <;> simp

/-- A page adds one event to the timeline when the frontier moves, and none otherwise. -/
theorem events_onPageCompleted (tr : FrontierTracker) (page tMs : Nat) :
    (tr.onPageCompleted page tMs).events = tr.events ++
      if tr.contiguousFrontierBytes < (tr.onPageCompleted page tMs).contiguousFrontierBytes then
        [⟨tMs, (tr.onPageCompleted page tMs).contiguousFrontierBytes,
          (tr.onPageCompleted page tMs).contiguousFrontierBytes - tr.contiguousFrontierBytes⟩]
      else [] :=
  events_advanceFrontier _ tMs

/-! ### The tracker thread -/

namespace System

/-- The page reports in the trace, in the order in which they were sent. -/
def pages (s : System) : List PageCompleted := s.events.sent.filterMap TraceEvent.page?

/-- The page reports that the tracker thread has processed. -/
def trackedPages (s : System) : List PageCompleted := s.events.past.filterMap TraceEvent.page?

end System

/-- A page in the trace is one that was sent. -/
theorem mem_pages {s : System} {e : PageCompleted} :
    e ∈ s.pages ↔ .pageCompleted e ∈ s.events.sent := by
  simp only [System.pages, List.mem_filterMap, TraceEvent.page?_eq_some]
  constructor
  · rintro ⟨_, he, rfl⟩
    exact he
  · exact fun he => ⟨_, he, rfl⟩

/-- What was processed was sent. -/
theorem mem_pages_of_tracked {s : System} {e : PageCompleted} (he : e ∈ s.trackedPages) :
    e ∈ s.pages := by
  obtain ⟨event, hevent, hpage⟩ := List.mem_filterMap.mp he
  exact List.mem_filterMap.mpr ⟨event, List.mem_of_mem_take hevent, hpage⟩

/-- The pages of a list of reports. -/
def pageSet (es : List PageCompleted) : Set Nat := {p | ∃ e ∈ es, e.pageIndex = p}

/-- The last report adds its page. -/
theorem pageSet_append (es : List PageCompleted) (e : PageCompleted) :
    pageSet (es ++ [e]) = insert e.pageIndex (pageSet es) := by
  ext p
  simp only [pageSet, List.mem_append, List.mem_singleton, Set.mem_ofPred_eq, Set.mem_insert_iff]
  constructor
  · rintro ⟨e', he' | rfl, hp⟩
    · exact Or.inr ⟨e', he', hp⟩
    · exact Or.inl hp.symm
  · rintro (rfl | ⟨e', he', hp⟩)
    · exact ⟨e, Or.inr rfl, rfl⟩
    · exact ⟨e', Or.inl he', hp⟩

variable {heap : ChunkHeap} {config : ReactorConfig} {chunks : List ChunkRequest}
  {opening : RunStarted} {ok : System → Label → Prop} {s s' : System} {a : Label}

/-- How a step changes the reports processed: not at all, or the tracker thread processes
one more event. -/
theorem trackedPages_cases (hbounded : s.events.Bounded) (h : Moves heap config s a s') :
    s'.events.Bounded ∧
    ((s'.trackedPages = s.trackedPages ∧ s'.runner.tracker = s.runner.tracker) ∨
      ∃ e, s'.pages = s.pages ∧ e ∈ s.pages ∧ s'.trackedPages = s.trackedPages ++ [e] ∧
        s'.runner.tracker
          = s.runner.tracker.onPageCompleted e.pageIndex (msOfNs e.timestampNs)) := by
  -- What is sent lands behind the cursor of the channel, so the past stays as it is.
  rcases trace_cases h with ⟨new, hevents, hrunner, -⟩ | ⟨event, hrecv, hrunner⟩
  · rw [hevents]
    refine ⟨hbounded.sendAll new, Or.inl ⟨?_, by rw [hrunner]⟩⟩
    rw [System.trackedPages, hevents, hbounded.past_sendAll, System.trackedPages]
  · refine ⟨hbounded.recv hrecv, ?_⟩
    obtain ⟨hpast, hsent⟩ := Channel.past_recv hrecv
    have htracked : s'.trackedPages = s.trackedPages ++ event.page?.toList := by
      rw [System.trackedPages, hpast, List.filterMap_append, System.trackedPages]
      cases hpage : event.page? <;> simp [hpage]
    cases event with
    | pageCompleted e =>
      refine Or.inr ⟨e, by rw [System.pages, hsent, System.pages], ?_, htracked, ?_⟩
      · rw [System.pages, List.mem_filterMap]
        exact ⟨_, List.mem_of_getElem? (Channel.recv_eq_some.mp hrecv).1, rfl⟩
      · rw [hrunner]
        simp only [Runner.process, Runner.processPage]
        split <;> rfl
    | _ =>
      left
      rw [htracked, hrunner]
      exact ⟨List.append_nil _, rfl⟩

/-- The tracker of a run stands at the first page that it was told of. -/
theorem tracks_reachable (h : (benchmark opening heap config chunks).Reachable ok s) :
    s.events.Bounded ∧ Tracks s.runner.tracker config.pageSize (pageSet s.trackedPages) := by
  refine reachable_invariant (P := fun s => s.events.Bounded ∧
    Tracks s.runner.tracker config.pageSize (pageSet s.trackedPages)) h ?_ ?_
  · refine ⟨Channel.bounded_empty.send _, ?_⟩
    have hnil : pageSet (System.start opening heap config chunks).trackedPages = ∅ := by
      have hpast : (System.start opening heap config chunks).events.past = [] := rfl
      simp [pageSet, System.trackedPages, hpast]
    rw [hnil]
    exact tracks_withPageSize config.pageSize
  · rintro s a s' ⟨hbounded, htracks⟩ _ hmoves
    obtain ⟨hbounded', ⟨hsame, hrunner⟩ | ⟨e, -, -, happend, hrunner⟩⟩ :=
      trackedPages_cases hbounded hmoves
    · rw [hsame, hrunner]
      exact ⟨hbounded', htracks⟩
    · rw [happend, hrunner, pageSet_append]
      exact ⟨hbounded', htracks.onPageCompleted _ _⟩

end FrontierSim
