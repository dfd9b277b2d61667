import FrontierSim.Faults
import FrontierSim.Proofs.Feedback
import FrontierSim.Proofs.Fetches
import FrontierSim.Proofs.Pages
import FrontierSim.Proofs.Summary

/-!
# `FrontierSim.Proofs.Overflow`: the run stays in `u64`

Each checked operation of `FrontierSim.Faults` gives what the run computes, where the result
is a `u64` (the lemmas `checked.._eq`). So it is left to bound the values of a run. They all
come from curl's answers: a page that is reported lies before the end of a body, and the
frontier lies at most one page past a page that was reported. `Addressable` is the bound on
the answers, and `faults_eq_false` is the result: in a run with such answers no action faults.
-/

set_option autoImplicit false

namespace FrontierSim

open Lib

/-! ### The checked operations -/

section
variable {h : WorkerHandler} {remaining now : Nat}

/-- Where the page ends in `u64`, building its event does not overflow. -/
theorem checkedPageCompleted_eq
    (hfits : h.currentPageIndex * h.pageSize + h.currentPageBytes < 2 ^ 64) :
    h.checkedPageCompleted now = some (h.pageCompleted now) := by
  have hstart : U64.checkedMul h.currentPageIndex h.pageSize =
      some (h.currentPageIndex * h.pageSize) :=
    U64.checkedMul_eq_some.mpr ⟨by omega, rfl⟩
  have hend : U64.checkedAdd (h.currentPageIndex * h.pageSize) h.currentPageBytes =
      some (h.currentPageIndex * h.pageSize + h.currentPageBytes) :=
    U64.checkedAdd_eq_some.mpr ⟨hfits, rfl⟩
  simp only [WorkerHandler.checkedPageCompleted, hstart, hend, Option.bind_eq_bind,
    Option.bind_some]
  rfl

/-- Where the two counts stay in `u64`, counting the bytes does not overflow. -/
theorem checkedConsume_eq {n : Nat} (hbytes : h.currentPageBytes + n < 2 ^ 64)
    (hreceived : h.bytesReceived + n < 2 ^ 64) : h.checkedConsume n = some (h.consume n) := by
  simp only [WorkerHandler.checkedConsume, U64.checkedAdd_eq_some.mpr ⟨hbytes, rfl⟩,
    U64.checkedAdd_eq_some.mpr ⟨hreceived, rfl⟩, Option.bind_eq_bind, Option.bind_some]
  rfl

/-- A pass of `write` stays in `u64` when the whole callback does. -/
theorem checkedWritePass_eq (hpage : h.currentPageBytes < h.pageSize)
    (hfits : h.currentPageIndex * h.pageSize + h.currentPageBytes + remaining < 2 ^ 64)
    (hreceived : h.bytesReceived + remaining < 2 ^ 64) :
    h.checkedWritePass remaining now = some (h.writePass remaining now) := by
  have hroom : U64.checkedSub h.pageSize h.currentPageBytes =
      some (h.pageSize - h.currentPageBytes) :=
    U64.checkedSub_eq_some.mpr ⟨hpage.le, rfl⟩
  simp only [WorkerHandler.checkedWritePass, WorkerHandler.writePass, hroom, Option.bind_eq_bind,
    Option.bind_some]
  generalize hn : min remaining (h.pageSize - h.currentPageBytes) = n
  have hle : n ≤ remaining := hn ▸ Nat.min_le_left _ _
  have hconsume : h.checkedConsume n = some (h.consume n) :=
    checkedConsume_eq (by omega) (by omega)
  have hleft : U64.checkedSub remaining n = some (remaining - n) :=
    U64.checkedSub_eq_some.mpr ⟨hle, rfl⟩
  simp only [hconsume, hleft, Option.bind_some]
  split
  · rename_i hfull
    have hevent : (h.consume n).checkedPageCompleted now =
        some ((h.consume n).pageCompleted now) := by
      refine checkedPageCompleted_eq ?_
      simp only [WorkerHandler.consume]
      omega
    -- The page ends in `u64`, so the next page has an index there.
    have hindex : U64.checkedAdd (h.consume n).currentPageIndex 1 =
        some ((h.consume n).currentPageIndex + 1) := by
      refine U64.checkedAdd_eq_some.mpr ⟨?_, rfl⟩
      have hmul := Nat.le_mul_of_pos_right (h.currentPageIndex + 1) (Nat.zero_lt_of_lt hpage)
      rw [Nat.succ_mul] at hmul
      simp only [WorkerHandler.consume] at hfull ⊢
      omega
    simp only [hevent, hindex, Option.bind_some]
    rfl
  · rfl

end

section
variable {tr : FrontierTracker} {pageSize : Nat} {S : Set Nat}

/-- Where the new frontier lies in `u64` and is not behind the old one, moving it does not
overflow. -/
theorem checkedAdvanceFrontier_eq {tMs : Nat}
    (hle : tr.contiguousFrontierBytes ≤ (tr.advanceFrontier tMs).contiguousFrontierBytes)
    (hfits : (tr.advanceFrontier tMs).contiguousFrontierBytes < 2 ^ 64) :
    tr.checkedAdvanceFrontier tMs = some (tr.advanceFrontier tMs) := by
  simp only [FrontierTracker.advanceFrontier] at hle hfits
  simp only [FrontierTracker.checkedAdvanceFrontier, U64.checkedMul_eq_some.mpr ⟨hfits, rfl⟩,
    U64.checkedSub_eq_some.mpr ⟨hle, rfl⟩, Option.bind_eq_bind, Option.bind_some]
  rfl

/-- The tracker stays in `u64` when the frontier that it moves to does. -/
theorem checkedOnPageCompleted_eq (h : Tracks tr pageSize S) {page tMs : Nat}
    (hpage : page + 1 < 2 ^ 64)
    (hfits : (tr.onPageCompleted page tMs).contiguousFrontierBytes < 2 ^ 64) :
    tr.checkedOnPageCompleted page tMs = some (tr.onPageCompleted page tMs) := by
  simp only [FrontierTracker.checkedOnPageCompleted, U64.checkedAdd_eq_some.mpr ⟨hpage, rfl⟩,
    Option.bind_eq_bind, Option.bind_some]
  exact checkedAdvanceFrontier_eq (h.le_onPageCompleted page tMs) hfits

/-- The tracker thread divides by the page size only. -/
theorem checkedProcessPage_eq {r : Runner} (h : Tracks r.tracker pageSize S) (hpos : 0 < pageSize)
    {e : PageCompleted} (hpage : e.pageIndex + 1 < 2 ^ 64)
    (hfits : (r.tracker.onPageCompleted e.pageIndex
      (msOfNs e.timestampNs)).contiguousFrontierBytes < 2 ^ 64) :
    r.checkedProcessPage e = some ((r.processPage e).1.tracker,
      (r.processPage e).2.map (· / pageSize)) := by
  have htracker : (r.processPage e).1.tracker =
      r.tracker.onPageCompleted e.pageIndex (msOfNs e.timestampNs) := by
    simp only [Runner.processPage]
    split <;> rfl
  rw [htracker]
  have hne : pageSize ≠ 0 := Nat.pos_iff_ne_zero.mp hpos
  simp only [Runner.checkedProcessPage, checkedOnPageCompleted_eq h hpage hfits,
    Option.bind_eq_bind, Option.bind_some, Runner.processPage, h.pageSize_eq, U64.checkedDiv,
    if_neg hne]
  split <;> rfl

end

/-- The retry decision stays in `u64` when the suffix starts there, and a page past the
frontier lies there. -/
theorem checkedCommitFate_eq {st : SharedState} {pageSize bytes now : Nat}
    {chunk : PrioritizedChunk} {isComplete : Bool} (hsuffix : chunk.rangeStart + bytes < 2 ^ 64)
    (hnear : st.frontierByte + pageSize < 2 ^ 64) :
    st.checkedCommitFate pageSize chunk bytes isComplete now =
      some (st.commitFate pageSize chunk bytes isComplete now) := by
  unfold SharedState.checkedCommitFate SharedState.commitFate
  split
  · rfl
  · split
    · simp only [U64.checkedAdd_eq_some.mpr ⟨hsuffix, rfl⟩,
        U64.checkedAdd_eq_some.mpr ⟨hnear, rfl⟩, Option.bind_eq_bind, Option.bind_some]
      rfl
    · rfl

/-! ### What the answers bound -/

/-- The body, counted from the start of its range and rounded up to pages, ends more than one
page below the end of `u64`. -/
def Addressable (pageSize : Nat) (chunk : PrioritizedChunk) (t : Transfer) : Prop :=
  (pagesFor pageSize (chunk.rangeStart + t.bodyBytes) + 1) * pageSize < 2 ^ 64

/-- The page of the event and the page after it lie in `u64`. -/
structure PageCompleted.InRange (pageSize : Nat) (e : PageCompleted) : Prop where
  pageSize_pos : 0 < pageSize
  fits : (e.pageIndex + 2) * pageSize < 2 ^ 64

variable {pageSize : Nat} {req : Request} {h : WorkerHandler} {t : Transfer}

/-- One page more than the body still ends in `u64`. -/
theorem Addressable.end_lt {chunk : PrioritizedChunk} (ha : Addressable pageSize chunk t)
    (hpos : 0 < pageSize) : chunk.rangeStart + t.bodyBytes + pageSize < 2 ^ 64 := by
  have hle := (pagesFor_le_iff hpos (n := chunk.rangeStart + t.bodyBytes)).mp le_rfl
  rw [Addressable, Nat.succ_mul] at ha
  omega

/-- A page that starts before the end of the body. -/
theorem Addressable.page_lt {chunk : PrioritizedChunk} (ha : Addressable pageSize chunk t)
    (hpos : 0 < pageSize) {k : Nat} (hk : k * pageSize < chunk.rangeStart + t.bodyBytes) :
    (k + 2) * pageSize < 2 ^ 64 := by
  have hlt : k < pagesFor pageSize (chunk.rangeStart + t.bodyBytes) :=
    (lt_pagesFor_iff hpos).mpr hk
  exact (Nat.mul_le_mul_right pageSize (Nat.succ_le_succ hlt)).trans_lt ha

/-- The pages counted do not run ahead of the bytes received. -/
theorem Handling.le_received (hh : Handling pageSize req h) :
    h.currentPageIndex * pageSize + h.currentPageBytes ≤
      req.chunk.rangeStart + h.bytesReceived := by
  have hpos := hh.position
  have hdiv := Nat.div_mul_le_self req.chunk.rangeStart pageSize
  omega

/-- A worker builds an event only for a page that its body reaches. -/
theorem inRange_of_local {w w' : Worker} {now : Nat} {delivery : Option Delivery}
    (hw : w.Consistent pageSize) (hout : w.outbox = none)
    (hanswer : ∀ req t, w.phase.answer = some (req, t) → Addressable pageSize req.chunk t)
    (hlocal : LocalMoves w now w' delivery) {e : PageCompleted}
    (he : w'.outbox = some (.pageCompleted e)) : e.InRange pageSize := by
  obtain ⟨hsize, hphase⟩ := hw
  cases hlocal with
  | panicBegin | panicReturn | header | body =>
    rw [hout] at he
    cases he
  | «begin» | finish | report => cases he
  | @write req t left remaining hph hpos =>
    rw [hph] at hphase hanswer
    obtain ⟨hh, hbytes, -⟩ := hphase
    have hpage : w.handler.currentPageBytes < w.handler.pageSize := hsize ▸ hh.page
    rcases Nat.lt_or_ge (w.handler.currentPageBytes + remaining) w.handler.pageSize with hlt | hge
    · simp only [Worker.writeStep, writePass_open now hlt] at he
      cases he
    · simp only [Worker.writeStep, writePass_full now hpage hge] at he
      cases he
      have hle := hh.le_received
      refine ⟨Nat.zero_lt_of_lt hh.page,
        (hanswer req t rfl).page_lt (Nat.zero_lt_of_lt hh.page) ?_⟩
      simp only [WorkerHandler.pageCompleted, WorkerHandler.consume]
      omega
  | @«return» req t expected hph =>
    rw [hph] at hphase hanswer
    obtain ⟨hh, hbytes, -⟩ := hphase
    simp only [List.map_nil, List.sum_nil, Nat.add_zero] at hbytes
    have hle := hh.le_received
    dsimp only at he
    split at he
    · cases he
      refine ⟨Nat.zero_lt_of_lt hh.page,
        (hanswer req t rfl).page_lt (Nat.zero_lt_of_lt hh.page) ?_⟩
      simp only [WorkerHandler.pageCompleted]
      omega
    · cases he

/-- Every page event that was built is in range, be it sent or not. -/
structure PagesInRange (pageSize : Nat) (s : System) : Prop where
  built : ∀ w ∈ s.workers, ∀ e, w.outbox = some (.pageCompleted e) → e.InRange pageSize
  sent : ∀ e ∈ s.pages, e.InRange pageSize

variable {heap : ChunkHeap} {config : ReactorConfig} {chunks : List ChunkRequest}
  {opening : RunStarted} {ok : System → Label → Prop} {s s' : System} {a : Label}

/-- One step keeps the page events in range. A new one is built by the handler of a request, whose
position is bounded by the length of the answer. -/
theorem pagesInRange_step (hworkers : ∀ w ∈ s.workers, w.Consistent pageSize ∧ w.Fits)
    (hanswered : Answered (Addressable pageSize) s) (hs : PagesInRange pageSize s)
    (hmoves : Moves heap config s a s') : PagesInRange pageSize s' := by
  constructor
  case built =>
    rcases workers_cases hmoves with heq | ⟨i, w, w', hw, hwm, heq⟩
    · rw [heq]
      exact hs.built
    · rw [heq]
      refine forall_setWorker hs.built ?_
      have hmem := List.mem_of_getElem? hw
      intro e he
      cases hwm with
      | send => cases he
      | work hout hlocal =>
        exact inRange_of_local (hworkers w hmem).1 hout (hanswered.workers w hmem) hlocal he
      | idle hout | pop hout | assignId _ hout | perform _ hout | commit hout =>
        rw [hout] at he
        cases he
  case sent =>
    intro e he
    rw [mem_pages] at he
    rcases trace_cases hmoves with ⟨new, hevents, -, hnew⟩ | ⟨event, hrecv, -⟩
    · rw [hevents] at he
      rcases List.mem_append.mp he with he | he
      · exact hs.sent e (mem_pages.mpr he)
      · -- What is new waited in an outbox.
        rcases hnew _ he with ⟨i, w, hw, hout⟩ | ⟨r, hr⟩ | ⟨r, hr⟩
        · exact hs.built w (List.mem_of_getElem? hw) e hout
        · cases hr
        · cases hr
    · rw [(Channel.past_recv hrecv).2] at he
      exact hs.sent e (mem_pages.mpr he)

/-- Where the answers stay in bounds, every page event in a reachable state is in range. -/
theorem pagesInRange_reachable
    (h : (benchmark opening heap config chunks).Reachable
      (System.Answers (Addressable config.pageSize)) s) : PagesInRange config.pageSize s := by
  refine reachable_invariant_of
    (J := fun s => (∀ w ∈ s.workers, w.Consistent config.pageSize ∧ w.Fits) ∧
      Answered (Addressable config.pageSize) s) h
    (fun _ h => ⟨consistent_reachable h, answered_reachable h⟩) ⟨?_, ?_⟩
    fun _ _ _ hJ _ hs _ hmoves => pagesInRange_step hJ.1 hJ.2 hs hmoves
  · intro w hw e he
    rw [List.eq_of_mem_replicate hw] at he
    cases he
  · intro e he
    rw [mem_pages] at he
    -- The channel holds the opening event only.
    cases List.mem_singleton.mp he

/-! ### No action faults -/

/-- The frontier and one more page lie in `u64` when the pages reported do. -/
theorem frontier_lt {tr : FrontierTracker} {es : List PageCompleted}
    (htracks : Tracks tr pageSize (pageSet es)) (hsize : pageSize < 2 ^ 64)
    (hes : ∀ e ∈ es, e.InRange pageSize) : tr.contiguousFrontierBytes + pageSize < 2 ^ 64 := by
  rw [htracks.frontier]
  cases hk : tr.lastFrontierPageIndex with
  | zero => omega
  | succ k =>
    -- The page before the frontier was reported.
    obtain ⟨e, he, rfl⟩ := htracks.firstGap.below k (by omega)
    have hfits := (hes e he).fits
    rw [← Nat.succ_mul]
    exact hfits

/-- The reactor's frontier value is not ahead of the tracker. -/
theorem frontierByte_le (h : (benchmark opening heap config chunks).Reachable ok s) :
    s.shared.frontierByte ≤ s.runner.tracker.contiguousFrontierBytes := by
  have hs : Watched config.pageSize s := by
    refine reachable_invariant h
      ⟨Channel.bounded_empty, ⟨∅, tracks_withPageSize _⟩, LaggedView.consistent_of_nil rfl rfl⟩ ?_
    exact fun _ _ _ hs _ hmoves => (view_moves hs hmoves).1
  exact hs.consistent.seen_le

/-- A worker does not fault on a range with a `u64` length, when the answers and the frontier
are in bounds. -/
theorem worker_faults_eq_false {w : Worker} {shared : SharedState} {now : Nat}
    (hw : w.Consistent pageSize) (hpos : w.held ≠ none → 0 < pageSize)
    (hexpected : ∀ chunk ∈ w.held, chunk.expected ≠ none)
    (hanswer : ∀ req t, w.phase.answer = some (req, t) → Addressable pageSize req.chunk t)
    (hnear : shared.frontierByte + pageSize < 2 ^ 64) : w.faults shared pageSize now = false := by
  obtain ⟨hsize, hphase⟩ := hw
  unfold Worker.faults
  split
  · rename_i req _ hph
    have hne : w.handler.pageSize ≠ 0 := by
      rw [hsize]
      exact Nat.pos_iff_ne_zero.mp (hpos (by simp [held_of_phase hph, Phase.held]))
    simp [WorkerHandler.reinit, U64.checkedDiv, hne]
  · rename_i req t left remaining _ hph
    rw [hph] at hphase hanswer
    obtain ⟨hh, hbytes, -⟩ := hphase
    have hle := hh.le_received
    have hend := (hanswer req t rfl).end_lt (Nat.zero_lt_of_lt hh.page)
    split
    · rw [checkedWritePass_eq (hsize ▸ hh.page) (by rw [hsize]; omega) (by omega)]
      rfl
    · have hexp : req.chunk.expected.isNone = false :=
        Option.isNone_eq_false_iff.mpr
          (Option.isSome_iff_ne_none.mpr (hexpected _ (held_of_phase hph)))
      rw [checkedPageCompleted_eq (by rw [hsize]; omega), hexp]
      simp
  · rename_i req t bytes isComplete _ hph
    rw [hph] at hphase hanswer
    obtain ⟨hpos', hcounted⟩ := hphase
    have hend := (hanswer req t rfl).end_lt hpos'
    have hbytes := hcounted.bytes
    rw [checkedCommitFate_eq (by omega) hnear]
    rfl
  · rfl

/-- The tracker thread does not fault on an event in range. -/
theorem checkedProcessPage_isSome {r : Runner} {es : List PageCompleted} {e : PageCompleted}
    (htracks : Tracks r.tracker pageSize (pageSet es)) (hsize : pageSize < 2 ^ 64)
    (hes : ∀ e ∈ es, e.InRange pageSize) (he : e.InRange pageSize) :
    (r.checkedProcessPage e).isSome = true := by
  have hafter : Tracks (r.tracker.onPageCompleted e.pageIndex (msOfNs e.timestampNs)) pageSize
      (pageSet (es ++ [e])) := by
    rw [pageSet_append]
    exact htracks.onPageCompleted _ _
  have hall : ∀ e' ∈ es ++ [e], e'.InRange pageSize := by
    intro e' he'
    rcases List.mem_append.mp he' with he' | he'
    · exact hes e' he'
    · exact List.mem_singleton.mp he' ▸ he
  have hfrontier := frontier_lt hafter hsize hall
  have hindex := Nat.le_mul_of_pos_right (e.pageIndex + 2) he.pageSize_pos
  have hfits := he.fits
  rw [checkedProcessPage_eq htracks he.pageSize_pos (by omega) (by omega)]
  rfl

/-- In a run whose answers are in bounds, on ranges with a `u64` length, no action faults. -/
theorem faults_eq_false (hids : (chunks.map ChunkRequest.chunkId).Nodup)
    (hchunks : ∀ c ∈ chunks, c.WellFormed) (hpos : chunks ≠ [] → 0 < config.pageSize)
    (hsize : config.pageSize < 2 ^ 64)
    (h : (benchmark opening heap config chunks).Reachable
      (System.Answers (Addressable config.pageSize)) s) (a : Label) :
    s.faults config a = false := by
  have hpages := pagesInRange_reachable h
  obtain ⟨-, htracks⟩ := tracks_reachable h
  have htracked : ∀ e ∈ s.trackedPages, e.InRange config.pageSize :=
    fun e he => hpages.sent e (mem_pages_of_tracked he)
  unfold System.faults
  split
  · rename_i i
    cases hw : s.workers[i]? with
    | none => rfl
    | some w =>
      have hmem := List.mem_of_getElem? hw
      refine worker_faults_eq_false (consistent_reachable h w hmem).1 ?_ ?_
        ((answered_reachable h).workers w hmem) ?_
      · intro hheld
        obtain ⟨y, hy⟩ := Option.ne_none_iff_exists'.mp hheld
        obtain ⟨c, hc, -⟩ := planned_of_held hids h hw hy
        exact hpos (List.ne_nil_of_mem hc)
      · intro y hy
        obtain ⟨c, hc, hresumes⟩ := resumes_of_held hids h hw hy
        exact expected_of_resumes (hchunks c hc) hresumes
      · have hle := frontierByte_le h
        have hfrontier := frontier_lt htracks hsize htracked
        omega
  · split
    · rename_i e _ hrecv
      have he : e ∈ s.pages :=
        mem_pages.mpr (List.mem_of_getElem? (Channel.recv_eq_some.mp hrecv).1)
      rw [Option.isNone_eq_false_iff]
      exact checkedProcessPage_isSome htracks hsize htracked (hpages.sent e he)
    · rfl
  · rfl

/-! ### A server that sends what it is asked for -/

/-- A body that stays in a range which ends two pages below the end of `u64`. -/
theorem addressable_of_atMostRequested {chunk : PrioritizedChunk} (hpos : 0 < pageSize)
    (hle : chunk.rangeStart ≤ chunk.rangeEnd)
    (hend : chunk.rangeEnd + 1 + 2 * pageSize ≤ 2 ^ 64) (h : AtMostRequested chunk t) :
    Addressable pageSize chunk t := by
  unfold AtMostRequested at h
  unfold Addressable
  rcases Nat.eq_zero_or_pos (pagesFor pageSize (chunk.rangeStart + t.bodyBytes)) with hzero | hsome
  · rw [hzero]
    omega
  · -- The last page starts before the end of the body.
    have hlast := (lt_pagesFor_iff hpos).mp (Nat.sub_one_lt_of_lt hsome)
    rw [Nat.sub_mul] at hlast
    rw [Nat.succ_mul]
    omega

/-- A request before `perform` is in its worker's hands. -/
theorem held_of_readyRequest {i : Nat} (h : req ∈ s.readyRequest i) :
    ∃ w, s.workers[i]? = some w ∧ w.held = some req.chunk := by
  unfold System.readyRequest at h
  split at h
  · rename_i hw
    cases h
    exact ⟨_, hw, rfl⟩
  · cases h

/-- The bound on the answers comes for free where the plan ends two pages below the end of
`u64` and no answer is longer than its range. -/
theorem reachable_addressable (hids : (chunks.map ChunkRequest.chunkId).Nodup)
    (hchunks : ∀ c ∈ chunks, c.WellFormed) (hpos : chunks ≠ [] → 0 < config.pageSize)
    (hend : ∀ c ∈ chunks, c.rangeEnd + 1 + 2 * config.pageSize ≤ 2 ^ 64)
    (h : (benchmark opening heap config chunks).Reachable (System.Answers AtMostRequested) s) :
    (benchmark opening heap config chunks).Reachable
      (System.Answers (Addressable config.pageSize)) s := by
  apply h.mono
  intro s a hs hok
  cases a with
  | perform i t =>
    intro req hreq
    obtain ⟨w, hw, hheld⟩ := held_of_readyRequest hreq
    -- The request is for what is left of a planned range.
    obtain ⟨c, hc, hresumes⟩ := resumes_of_held hids hs hw hheld
    have hrangeEnd : req.chunk.rangeEnd = c.rangeEnd := hresumes.rangeEnd
    exact addressable_of_atMostRequested (hpos (List.ne_nil_of_mem hc))
      (hresumes.start_le (hchunks c hc).1) (hrangeEnd ▸ hend c hc) (hok req hreq)
  | _ => trivial

end FrontierSim
