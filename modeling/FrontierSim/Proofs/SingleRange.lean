import FrontierSim.Proofs.Aggregation
import FrontierSim.Proofs.Ledger
import FrontierSim.Proofs.Stories
import FrontierSim.Transport.DownloadRange

/-!
# `FrontierSim.Proofs.SingleRange`: the single download and the reactor tell the same

`download_range` reports a request on its own, and the workers of the reactor report theirs in
between each other's events. `bodyPages` is the list of page events that a body is reported
with. A transfer of `download_range` sends it (`perform_received`), and it is what the events of
a committed request hold (`bodyPages_of_commit`).

`download_agrees` puts the two beside each other: for the same request and a body of the same
length, the announcement, the pages and the byte count are the same. The two differ in the error
class, which only the reactor reports, and where curl fails. There the reactor reports what has
arrived, and `download_range` stops after the full pages.
-/

set_option autoImplicit false

namespace FrontierSim

open Lib

/-! ### Times -/

/-- The events have times from `lo` to `hi`, and none runs back. -/
structure Timed (lo hi : Nat) (pages : List PageCompleted) : Prop where
  le : lo ≤ hi
  sorted : pages.Pairwise fun a b => a.timestampNs ≤ b.timestampNs
  within : ∀ p ∈ pages, lo ≤ p.timestampNs ∧ p.timestampNs ≤ hi

variable {lo mid hi : Nat} {pages pages' : List PageCompleted}

/-- Without pages there is only the order of the two ends. -/
theorem timed_nil (h : lo ≤ hi) : Timed lo hi [] :=
  ⟨h, .nil, fun _ hp => absurd hp List.not_mem_nil⟩

/-- A page between the two ends. -/
theorem timed_singleton {p : PageCompleted} (hlo : lo ≤ p.timestampNs) (hhi : p.timestampNs ≤ hi) :
    Timed lo hi [p] := by
  refine ⟨hlo.trans hhi, List.pairwise_singleton _ _, fun q hq => ?_⟩
  rw [List.mem_singleton.mp hq]
  exact ⟨hlo, hhi⟩

/-- Pages up to some time, and then pages from there on. -/
theorem Timed.append (h : Timed lo mid pages) (h' : Timed mid hi pages') :
    Timed lo hi (pages ++ pages') := by
  refine ⟨h.le.trans h'.le, List.pairwise_append.mpr ⟨h.sorted, h'.sorted, ?_⟩, ?_⟩
  · intro p hp q hq
    exact (h.within p hp).2.trans (h'.within q hq).1
  · intro p hp
    rcases List.mem_append.mp hp with hp | hp
    · exact ⟨(h.within p hp).1, (h.within p hp).2.trans h'.le⟩
    · exact ⟨h.le.trans (h'.within p hp).1, (h'.within p hp).2⟩

/-- A loop whose passes give their events the time that they are handed. -/
theorem timed_writeLoop {H : Type} {pass : Pass H}
    (hpass : ∀ h remaining now h' left p, pass h remaining now = some (h', left, some p) →
      p.timestampNs = now) (fuel : Nat) {remaining : Nat} {h h' : H} {clock clock' : Clock}
    (hloop : writeLoop pass fuel remaining h clock = some (h', pages, clock')) :
    Timed clock.now clock'.now pages := by
  induction fuel generalizing remaining h clock pages with
  | zero =>
    cases remaining with
    | zero =>
      cases hloop
      exact timed_nil le_rfl
    | succ remaining => cases hloop
  | succ fuel ih =>
    cases remaining with
    | zero =>
      cases hloop
      exact timed_nil le_rfl
    | succ remaining =>
      simp only [writeLoop, Option.bind_eq_bind, Option.bind_eq_some_iff, Option.pure_def,
        Option.some.injEq, Prod.mk.injEq] at hloop
      obtain ⟨⟨next, left, page⟩, hnext, ⟨last, more, clock₁⟩, hrest, rfl, rfl, rfl⟩ := hloop
      cases page with
      | none => exact ih hrest
      | some p =>
        have htime := hpass _ _ _ _ _ _ hnext
        have hlater := ih hrest
        have hfirst : Timed clock.now clock.read.2.now [p] := by
          refine timed_singleton ?_ ?_
          · rw [htime, Clock.read_eq]
            exact clock.now_le_read
          · rw [htime, Clock.read_eq]
        exact hfirst.append hlater

/-! ### The transfer -/

namespace DownloadHandler

/-- A page event carries the clock reading of its pass. -/
theorem time_of_writePass (h : DownloadHandler) (remaining now : Nat) (h' : DownloadHandler)
    (left : Nat) (p : PageCompleted) (hpass : h.writePass remaining now = some (h', left, some p)) :
    p.timestampNs = now := by
  unfold writePass at hpass
  simp only [Option.bind_eq_bind, Option.bind_eq_some_iff] at hpass
  obtain ⟨room, -, hpass⟩ := hpass
  split at hpass
  · cases hpass
    rfl
  · cases hpass

/-- The handler holds what a worker's handler holds after `n` bytes. -/
def Holds (h : DownloadHandler) (w : WorkerHandler) (n : Nat) : Prop :=
  h.toWorker = { w.received n with responseCode := h.responseCode }

end DownloadHandler

namespace Downloading

open WorkerHandler

variable {w : WorkerHandler} {d : Downloading} {n : Nat}

/-- One callback. -/
theorem call_received (hpos : 0 < w.pageSize) (hd : d.handler.Holds w n) (clock : Clock)
    (callback : Callback) :
    ∃ d' pages clock', d.call clock callback = some (d', pages, clock') ∧
      d'.handler.Holds w (n + callback.bytes) ∧
      d'.handler.responseCode = callback.code d.handler.responseCode ∧
      pages.map PageCompleted.untimed = w.pagesBetween n (n + callback.bytes) ∧
      Timed clock.now clock'.now pages := by
  cases callback with
  | header line =>
    refine ⟨_, [], clock, rfl, ?_, rfl, ?_, timed_nil le_rfl⟩
    · have hheader : (d.handler.header line).toWorker = { d.handler.toWorker with
          responseCode := WorkerHandler.headerCode d.handler.responseCode line } := rfl
      show (d.handler.header line).toWorker = _
      rw [hheader, hd]
      rfl
    · simp [pagesBetween, Callback.bytes]
  | write len =>
    -- The worker's loop, from the same state.
    obtain ⟨pages, clock', hloop, hpages⟩ := writeLoop_received
      (h := { w with responseCode := d.handler.responseCode }) (n := n) hpos len clock
      (le_refl len)
    have hmap := map_writeLoop DownloadHandler.map_writePass len len d.handler clock
    rw [hd] at hmap
    obtain ⟨⟨handler, written, clock₁⟩, hwrite, heq⟩ :=
      Option.map_eq_some_iff.mp (hmap.trans hloop)
    simp only [Prod.map, id, Prod.mk.injEq] at heq
    obtain ⟨hhandler, rfl, rfl⟩ := heq
    have hcode : handler.responseCode = d.handler.responseCode :=
      congrArg WorkerHandler.responseCode hhandler
    refine ⟨{ d with handler := handler }, written, clock₁, ?_, ?_, hcode, hpages,
      timed_writeLoop DownloadHandler.time_of_writePass len hwrite⟩
    · simp only [call, DownloadHandler.write, writeWith, hwrite, Option.bind_eq_bind,
        Option.bind_some]
      rfl
    · show handler.toWorker = _
      rw [hhandler, hcode]
      rfl

/-- All callbacks of a transfer. -/
theorem perform_received (hpos : 0 < w.pageSize) (callbacks : List Callback)
    (hd : d.handler.Holds w n) (clock : Clock) :
    ∃ d' pages clock', perform callbacks d clock = some (d', pages, clock') ∧
      d'.handler.Holds w (n + (callbacks.map Callback.bytes).sum) ∧
      d'.handler.responseCode = callbacks.foldl Callback.code d.handler.responseCode ∧
      pages.map PageCompleted.untimed
        = w.pagesBetween n (n + (callbacks.map Callback.bytes).sum) ∧
      Timed clock.now clock'.now pages := by
  induction callbacks generalizing d n clock with
  | nil =>
    exact ⟨d, [], clock, rfl, hd, rfl, by simp [pagesBetween], timed_nil le_rfl⟩
  | cons callback rest ih =>
    obtain ⟨d₁, pages, clock₁, hcall, hd₁, hcode, hpages, htimed⟩ :=
      call_received hpos hd clock callback
    obtain ⟨d₂, more, clock₂, hrest, hd₂, hcode₂, hmore, htimed₂⟩ := ih hd₁ clock₁
    rw [List.map_cons, List.sum_cons, ← Nat.add_assoc]
    refine ⟨d₂, pages ++ more, clock₂, ?_, hd₂, by rw [hcode₂, hcode]; rfl, ?_,
      htimed.append htimed₂⟩
    · simp only [perform, hcall, hrest, Option.bind_eq_bind, Option.bind_some]
      rfl
    · rw [List.map_append, hpages, hmore]
      exact w.pagesBetween_trans (Nat.le_add_right _ _) (Nat.le_add_right _ _)

end Downloading

/-! ### The pages of a body -/

/-- The page events of an `n`-byte body: the full pages, and what is left. Without times. -/
def WorkerHandler.bodyPages (w : WorkerHandler) (n : Nat) : List PageCompleted :=
  w.pagesBetween 0 n ++
    if n % w.pageSize > 0 then [(w.received n).pageCompleted 0] else []

/-- The event of `bytes` bytes in the page number `i`, counted from the handler's page on. -/
def WorkerHandler.pageOf (w : WorkerHandler) (i bytes : Nat) : PageCompleted where
  requestId := w.requestId
  chunkId := w.chunkId
  pageIndex := w.currentPageIndex + i
  pageStartByte := (w.currentPageIndex + i) * w.pageSize
  pageEndByte := (w.currentPageIndex + i) * w.pageSize + bytes
  pageBytes := bytes
  cumulativeBytes := i * w.pageSize + bytes
  timestampNs := 0

/-- The pages of a body: the full ones, and a partial one where some bytes remain. -/
theorem WorkerHandler.bodyPages_eq {w : WorkerHandler} {n k r : Nat}
    (hn : n = k * w.pageSize + r) (hr : r < w.pageSize) :
    w.bodyPages n = (List.range' 0 k).map w.fullPage ++ if r > 0 then [w.pageOf k r] else [] := by
  subst hn
  have hdiv : (k * w.pageSize + r) / w.pageSize = k := by
    rw [Nat.add_comm, Nat.add_mul_div_right _ _ (Nat.zero_lt_of_lt hr), Nat.div_eq_of_lt hr,
      Nat.zero_add]
  have hmod : (k * w.pageSize + r) % w.pageSize = r := by
    rw [Nat.add_comm, Nat.add_mul_mod_self_right, Nat.mod_eq_of_lt hr]
  rw [bodyPages, pagesBetween, Nat.zero_div, Nat.sub_zero, hdiv, hmod]
  simp only [pageCompleted, received, pageOf, hdiv, hmod]

/-- One more page. -/
theorem WorkerHandler.bodyPages_next {w : WorkerHandler} (k : Nat) {bytes : Nat}
    (hpos : 0 < bytes) (hle : bytes ≤ w.pageSize) :
    w.bodyPages (k * w.pageSize + bytes) = w.bodyPages (k * w.pageSize) ++ [w.pageOf k bytes] := by
  have hsize : 0 < w.pageSize := hpos.trans_le hle
  rw [bodyPages_eq (n := k * w.pageSize) rfl hsize, if_neg (Nat.lt_irrefl 0), List.append_nil]
  rcases Nat.eq_or_lt_of_le hle with rfl | hlt
  · rw [← Nat.succ_mul, bodyPages_eq (n := k.succ * w.pageSize) rfl hsize,
      if_neg (Nat.lt_irrefl 0), List.append_nil, List.range'_concat, List.map_append]
    simp [fullPage, pageOf, Nat.succ_mul]
  · rw [bodyPages_eq rfl hlt, if_pos hpos]

/-- The end of a transfer completes the pages of the body. -/
theorem Downloading.lastPage_received {w : WorkerHandler} {d : Downloading} {n : Nat}
    (hd : d.handler.Holds w n) (clock : Clock) :
    w.pagesBetween 0 n ++ (d.lastPage clock).1.map PageCompleted.untimed = w.bodyPages n ∧
      Timed clock.now (d.lastPage clock).2.now (d.lastPage clock).1 := by
  have hemit : (d.handler.emitPageCompleted clock.read.1).untimed
      = (w.received n).pageCompleted 0 := by
    show (d.handler.toWorker.pageCompleted clock.read.1).untimed = _
    rw [hd]
    rfl
  have hbytes : d.handler.currentPageBytes = n % w.pageSize :=
    congrArg WorkerHandler.currentPageBytes hd
  unfold lastPage WorkerHandler.bodyPages
  rw [hbytes]
  split
  · refine ⟨by rw [List.map_singleton, hemit], timed_singleton ?_ ?_⟩
    · show clock.now ≤ clock.read.1
      rw [clock.read_eq]
      exact clock.now_le_read
    · show clock.read.1 ≤ clock.read.2.now
      rw [clock.read_eq]
  · exact ⟨rfl, timed_nil le_rfl⟩

/-- Page events as the reader takes them: the pages they come to, and the last time. -/
inductive Paged (pageSize : Nat) (e : RequestStarted) :
    List PageCompleted → Pages → (time : Nat) → Prop
  | nil : Paged pageSize e [] ⟨0, none, true⟩ e.timestampNs
  | snoc {list : List PageCompleted} {pages : Pages} {time : Nat} {p : PageCompleted}
      (h : Paged pageSize e list pages time) (hid : p.requestId = e.requestId)
      (hchunk : p.chunkId = e.chunkId) (hfits : pages.Fits pageSize p)
      (htime : time ≤ p.timestampNs) :
      Paged pageSize e (list ++ [p]) (.after pageSize p) p.timestampNs

namespace Paged

variable {pageSize start time : Nat} {e e' : RequestStarted} {list list' : List PageCompleted}
  {told : Pages}

/-- The reader takes the announcement and the pages. -/
theorem read (h : Paged pageSize e list told time) :
    readAll pageSize (.requestStarted e :: list.map .pageCompleted)
      = some (.running e told time) := by
  induction h with
  | nil => rfl
  | snoc _ hid hchunk hfits htime ih =>
    rw [List.map_append, ← List.cons_append]
    exact readAll_concat ih (if_pos ⟨hid, hchunk, hfits, htime⟩)

/-- Pages that differ in their times only, with times of their own. -/
theorem of_untimed (h : Paged pageSize e list told time) (hid : e'.requestId = e.requestId)
    (hchunk : e'.chunkId = e.chunkId)
    (heq : list'.map PageCompleted.untimed = list.map PageCompleted.untimed)
    (htimed : Timed e'.timestampNs hi list') :
    ∃ time', Paged pageSize e' list' told time' ∧ time' ≤ hi := by
  induction h generalizing list' hi with
  | nil =>
    obtain rfl := List.map_eq_nil_iff.mp heq
    exact ⟨_, .nil, htimed.le⟩
  | @snoc list told time p _ hpid hpchunk hfits _ ih =>
    rw [List.map_append, List.map_eq_append_iff] at heq
    obtain ⟨front, last, rfl, hfront, hlast⟩ := heq
    obtain ⟨p', rfl, hp⟩ : ∃ p', last = [p'] ∧ p'.untimed = p.untimed := by
      obtain ⟨p', rest, rfl, hp, hrest⟩ := List.map_eq_cons_iff.mp hlast
      exact ⟨p', by rw [List.map_eq_nil_iff.mp hrest], hp⟩
    obtain ⟨hsorted, -, hcross⟩ := List.pairwise_append.mp htimed.sorted
    have hbounds := htimed.within p' (by simp)
    have hbefore : Timed e'.timestampNs p'.timestampNs front :=
      ⟨hbounds.1, hsorted, fun q hq =>
        ⟨(htimed.within q (by simp [hq])).1, hcross q hq p' (by simp)⟩⟩
    obtain ⟨time', hpaged, htime'⟩ := ih hfront hbefore
    -- The reader looks at these fields of the page.
    obtain ⟨requestId, chunkId, index, startByte, endByte, bytes, cumulative, ts⟩ := p
    obtain ⟨requestId', chunkId', index', startByte', endByte', bytes', cumulative', ts'⟩ := p'
    simp only [PageCompleted.untimed, PageCompleted.mk.injEq, and_true] at hp
    obtain ⟨rfl, rfl, rfl, rfl, rfl, rfl, rfl⟩ := hp
    exact ⟨ts', .snoc hpaged (hpid.trans hid.symm) (hpchunk.trans hchunk.symm) hfits htime',
      hbounds.2⟩

/-- Pages with consecutive numbers are those of a body. -/
theorem eq_bodyPages (h : Paged pageSize e list told time)
    (hindex : list.map PageCompleted.pageIndex = List.range' (start / pageSize) list.length) :
    list.map PageCompleted.untimed
        = (WorkerHandler.fresh e.requestId e.chunkId pageSize start).bodyPages told.bytes ∧
      (told.more = true → told.bytes = list.length * pageSize) := by
  induction h with
  | nil => exact ⟨by simp [WorkerHandler.bodyPages, WorkerHandler.pagesBetween], by simp⟩
  | @snoc list told time p _ hid hchunk hfits _ ih =>
    rw [List.map_append, List.length_append, List.length_singleton, List.range'_concat,
      Nat.one_mul] at hindex
    obtain ⟨hfront, hlast⟩ := List.append_inj hindex (by simp)
    obtain ⟨hmore, -, hstartByte, hendByte, hpositive, hle, hcumulative⟩ := hfits
    obtain ⟨huntimed, hbytes⟩ := ih hfront
    have hnumber : p.pageIndex = start / pageSize + list.length := by simpa using hlast
    have htold := hbytes hmore
    rw [htold] at hcumulative huntimed
    obtain ⟨requestId, chunkId, index, startByte, endByte, bytes, cumulative, ts⟩ := p
    simp only at hid hchunk hnumber hstartByte hendByte hpositive hle hcumulative
    subst hid hchunk hnumber hstartByte hendByte hcumulative
    constructor
    · rw [List.map_append, List.map_singleton, huntimed]
      exact (WorkerHandler.bodyPages_next (w := .fresh e.requestId e.chunkId pageSize start)
        list.length hpositive hle).symm
    · -- Only a full page is not the last one.
      intro hfull
      rw [List.length_append, List.length_singleton, Nat.succ_mul]
      exact congrArg _ (of_decide_eq_true hfull)

end Paged

/-! ### The story of a committed request -/

/-- What an event says about the transfer, without times, without the connection and without the
error class. -/
inductive Gist
  | started (e : RequestStarted)
  | page (p : PageCompleted)
  | finished (requestId totalBytes : Nat)
  deriving DecidableEq

/-- The announcement without its time. -/
def RequestStarted.untimed (e : RequestStarted) : RequestStarted := { e with timestampNs := 0 }

/-- The gist of an event that both paths send. The reactor's other events have none. -/
def TraceEvent.gist? : TraceEvent → Option Gist
  | .requestStarted e => some (.started e.untimed)
  | .pageCompleted p => some (.page p.untimed)
  | .requestFinished f => some (.finished f.requestId f.totalBytes)
  | .runStarted _ | .requestPrereq _ | .requestResumed _ | .frontierAdvanced _
  | .connectionLifecycle _ => none

/-- An event without a gist is no page event. -/
theorem page_of_gist {event : TraceEvent} (h : event.gist? = none) : event.page? = none := by
  cases event with
  | pageCompleted => cases h
  | _ => rfl

/-- The events of a transfer, without times. -/
def gists (events : List TraceEvent) : List Gist := events.filterMap TraceEvent.gist?

/-- The gists of two lists in a row. -/
theorem gists_append (events new : List TraceEvent) :
    gists (events ++ new) = gists events ++ gists new := List.filterMap_append

/-- The gists of page events are the pages without their times. -/
theorem gists_pages (list : List PageCompleted) :
    gists (list.map .pageCompleted) = (list.map PageCompleted.untimed).map .page := by
  rw [gists, List.filterMap_map, List.map_map]
  exact List.filterMap_eq_map_iff_forall_eq_some.mpr fun p _ => rfl

/-- The events that lead the reader to a stage. -/
def Stage.Holds (pageSize : Nat) (events : List TraceEvent) : Stage → Prop
  | .unseen => events = []
  | .running e told time => ∃ list, Paged pageSize e list told time ∧
    events = .requestStarted e :: list.map .pageCompleted
  | .finished e _ | .described e _ | .resumed e _ => ∃ list told time f rest,
    Paged pageSize e list told time ∧ f.requestId = e.requestId ∧ f.totalBytes = told.bytes ∧
    events = .requestStarted e :: list.map .pageCompleted ++ .requestFinished f :: rest ∧
    ∀ event ∈ rest, event.gist? = none

section Reading
variable {pageSize : Nat} {events : List TraceEvent} {stage next : Stage} {event : TraceEvent}

/-- A reader that takes one more event still knows what it has read. -/
theorem holds_of_read (hholds : stage.Holds pageSize events)
    (hread : stage.read pageSize event = some next) : next.Holds pageSize (events ++ [event]) := by
  unfold Stage.read at hread
  split at hread
  case h_1 e =>
    cases hread
    rw [show events = [] from hholds]
    exact ⟨[], .nil, rfl⟩
  case h_2 e told time p =>
    obtain ⟨list, hpaged, rfl⟩ := hholds
    split at hread
    · cases hread
      rename_i hfits
      exact ⟨list ++ [p], hpaged.snoc hfits.1 hfits.2.1 hfits.2.2.1 hfits.2.2.2, by simp⟩
    · cases hread
  case h_3 e told time f =>
    obtain ⟨list, hpaged, rfl⟩ := hholds
    split at hread
    · cases hread
      rename_i hends
      exact ⟨list, told, time, f, [], hpaged, hends.1, hends.2.1, rfl, by simp⟩
    · cases hread
  case h_4 e f q =>
    obtain ⟨list, told, time, f, rest, hpaged, hid, htotal, rfl, hrest⟩ := hholds
    split at hread
    · cases hread
      exact ⟨list, told, time, f, rest ++ [.requestPrereq q], hpaged, hid, htotal, by simp,
        List.forall_mem_append.mpr ⟨hrest, by simp [TraceEvent.gist?]⟩⟩
    · cases hread
  case h_5 e q r =>
    obtain ⟨list, told, time, f, rest, hpaged, hid, htotal, rfl, hrest⟩ := hholds
    split at hread
    · cases hread
      exact ⟨list, told, time, f, rest ++ [.requestResumed r], hpaged, hid, htotal, by simp,
        List.forall_mem_append.mpr ⟨hrest, by simp [TraceEvent.gist?]⟩⟩
    · cases hread
  case h_6 => cases hread

/-- The stage after a story says what the story has told so far. -/
theorem holds_of_readAll (hread : readAll pageSize events = some stage) :
    stage.Holds pageSize events := by
  induction events using List.reverseRecOn generalizing stage with
  | nil =>
    cases hread
    rfl
  | append_singleton events event ih =>
    rw [readAll_append] at hread
    obtain ⟨before, hbefore, hlast⟩ := Option.bind_eq_some_iff.mp hread
    refine holds_of_read (ih hbefore) ?_
    simpa using hlast

end Reading

variable {heap : ChunkHeap} {config : ReactorConfig} {chunks : List ChunkRequest}
  {opening : RunStarted} {ok : System → Label → Prop} {s : System} {c : ChunkCommit}

/-- The pages of a story are the pages of its request. -/
theorem filterMap_page_story (events : List TraceEvent) (r : Nat) :
    (events.filter fun e => e.requestId? = some r).filterMap TraceEvent.page?
      = (events.filterMap TraceEvent.page?).filter fun p => p.requestId = r := by
  rw [List.filterMap_filter, List.filter_filterMap]
  refine List.filterMap_congr fun event _ => ?_
  cases event with
  | pageCompleted p =>
    by_cases hr : p.requestId = r <;>
      simp [TraceEvent.requestId?, TraceEvent.page?, Option.filter, hr]
  | _ => simp [TraceEvent.page?]

/-- The `RequestFinished` of a commit, without its time. -/
def finishedOf (c : ChunkCommit) : RequestFinished :=
  c.request.finished c.note.transfer c.note.transfer.bodyBytes c.note.transfer.finalStatus 0

/-- The trace tells the length of a committed body, and the class of its error. -/
theorem untimed_of_finished (h : (benchmark opening heap config chunks).Reachable ok s)
    (hc : c ∈ s.commits) {f : RequestFinished} (hf : .requestFinished f ∈ s.events.sent)
    (hid : f.requestId = c.note.requestId) : f.untimed = finishedOf c := by
  have hN := numbered_reachable h
  have hbalanced := balanced_reachable (once_final config.pageSize) h
  have hmem : f.untimed ∈ s.reports TraceEvent.finishedUntimed :=
    List.mem_filterMap.mpr ⟨_, hf, rfl⟩
  rw [← Multiset.mem_coe, hbalanced, Multiset.mem_add, Multiset.mem_coe, Multiset.mem_coe] at hmem
  rcases hmem with hmem | hmem
  · obtain ⟨c', hc', heq⟩ := List.mem_map.mp hmem
    have hsame : c'.note.requestId = f.requestId := congrArg RequestFinished.requestId heq
    -- No other commit has the id.
    obtain rfl : c' = c := List.inj_on_of_nodup_map hN.nodup hc' hc (hsame.trans hid)
    exact heq.symm
  · -- A worker with the id would still have the request in its hands.
    obtain ⟨w, hw, hsent⟩ := List.mem_filterMap.mp hmem
    obtain ⟨req, hreq, heq⟩ : ∃ req, w.phase.request = some req ∧ req.requestId = f.requestId := by
      obtain ⟨req, t, bytes, hreq, huntimed⟩ := request_of_sentFinal hsent
      exact ⟨req, hreq, congrArg RequestFinished.requestId huntimed⟩
    obtain ⟨i, hi⟩ := List.mem_iff_getElem?.mp hw
    have hat : requestAt s.workers i = some req := by
      rw [requestAt, hi, Option.bind_some, hreq]
    exact absurd (hid.symm.trans heq.symm) (hN.disjoint c hc i req hat)

/-- The request of a commit is announced, its body is reported page by page, and its end is
reported with the length of the body. -/
theorem story_of_commit (h : (benchmark opening heap config chunks).Reachable ok s)
    (hc : c ∈ s.commits) :
    ∃ ts list told time f rest,
      Paged config.pageSize (c.request.started ts) list told time ∧
      told.bytes = c.note.transfer.bodyBytes ∧
      list.map PageCompleted.untimed = (WorkerHandler.fresh c.note.requestId c.item.chunkId
        config.pageSize c.item.rangeStart).bodyPages c.note.transfer.bodyBytes ∧
      f.untimed = finishedOf c ∧
      s.story c.note.requestId = .requestStarted (c.request.started ts) ::
        list.map .pageCompleted ++ .requestFinished f :: rest ∧
      ∀ event ∈ rest, event.gist? = none := by
  obtain ⟨stage, hread, hcloses⟩ := (storied_reachable h).commits c hc
  have hholds := holds_of_readAll hread
  obtain ⟨ts, list, told, time, f, rest, hpaged, hid, htotal, hstory, hrest⟩ :
      ∃ ts list told time f rest, Paged config.pageSize (c.request.started ts) list told time ∧
        f.requestId = c.note.requestId ∧ f.totalBytes = told.bytes ∧
        s.story c.note.requestId = .requestStarted (c.request.started ts) ::
          list.map .pageCompleted ++ .requestFinished f :: rest ∧
        ∀ event ∈ rest, event.gist? = none := by
    unfold Stage.Closes at hcloses
    split at hcloses
    · obtain ⟨ts, _, rfl⟩ := hcloses
      exact ⟨ts, hholds⟩
    · obtain ⟨ts, _, rfl⟩ := hcloses
      exact ⟨ts, hholds⟩
  have hfinished : .requestFinished f ∈ s.events.sent := by
    refine (List.mem_filter.mp (?_ : _ ∈ s.story c.note.requestId)).1
    rw [hstory]
    simp
  have huntimed := untimed_of_finished h hc hfinished hid
  have hbytes : f.totalBytes = c.note.transfer.bodyBytes :=
    congrArg RequestFinished.totalBytes huntimed
  -- The ledger has the numbers of the pages.
  have hledger := ((ledger_reachable h).commits c hc).pages_sent
  have hindex : list.map PageCompleted.pageIndex
      = List.range' (c.item.rangeStart / config.pageSize) list.length := by
    have hpages : (s.story c.note.requestId).filterMap TraceEvent.page? = list := by
      have hnone : rest.filterMap TraceEvent.page? = [] :=
        List.filterMap_eq_nil_iff.mpr fun event hevent => page_of_gist (hrest event hevent)
      have hsome : (list.map TraceEvent.pageCompleted).filterMap TraceEvent.page? = list := by
        rw [List.filterMap_map]
        exact List.filterMap_some
      rw [hstory, List.cons_append, List.filterMap_cons_none rfl, List.filterMap_append, hsome,
        List.filterMap_cons_none rfl, hnone, List.append_nil]
    rw [System.story, filterMap_page_story] at hpages
    rw [System.pagesOf, hpages] at hledger
    have hnumbers : list.map PageCompleted.pageIndex = List.range' (c.item.rangeStart /
        config.pageSize) (pagesFor config.pageSize c.note.transfer.bodyBytes) := hledger
    have hlength := congrArg List.length hnumbers
    rw [List.length_map, List.length_range'] at hlength
    rwa [← hlength] at hnumbers
  have heq := (hpaged.eq_bodyPages hindex).1
  rw [← htotal, hbytes] at heq
  exact ⟨ts, list, told, time, f, rest, hpaged, htotal.symm.trans hbytes, heq, huntimed, hstory,
    hrest⟩

/-! ### The two paths -/

/-- The parameters of a single download of the request. -/
def Request.download (req : Request) (pageSize : Nat) (url : String) (sink : Sink) :
    DownloadParams where
  requestId := req.requestId
  chunkId := req.chunk.chunkId
  url := url
  rangeStart := req.chunk.rangeStart
  rangeEnd := req.chunk.rangeEnd
  lane := req.chunk.lane
  attempt := req.attempt
  pageSize := pageSize
  sink := sink

/-- A single download next to the story of a request that was answered by `t`. -/
structure DownloadAgrees (pageSize : Nat) (story : List TraceEvent) (t : Transfer) (a : EasyAnswer)
    (events : List TraceEvent) (result : Except String DownloadResult) : Prop where
  /-- The reactor reports the class of curl's error, or else that of the status. -/
  reactorClass : ∀ f, .requestFinished f ∈ story → f.errorClass = errorClass t.curlErr t.finalStatus
  /-- `download_range` reports no error class, whatever the status. -/
  downloadClass : ∀ f, .requestFinished f ∈ events → f.errorClass = none
  refused : ∀ call e, a.setupErr = some (call, e) →
    events = [] ∧ result = .error (call.message e)
  /-- The announcement and the full pages, and nothing else. -/
  broken : ∀ e, a.setupErr = none → a.performErr = some e →
    gists events = (gists story).take (1 + t.bodyBytes / pageSize) ∧
      result = .error ("perform: " ++ e)
  complete : a.setupErr = none → a.performErr = none → gists events = gists story ∧
    ∃ r e time, result = .ok r ∧ readAll pageSize events = some (.finished e (r.finished time)) ∧
      r.totalBytes = t.bodyBytes ∧ r.responseCode = (a.callbacks.foldl Callback.code none).getD 0

section Download
variable {params : DownloadParams} {a : EasyAnswer}

/-- The transfer of a download: what it has sent and holds at its end. -/
theorem perform_params (hpos : 0 < params.pageSize) (clock : Clock) :
    ∃ handler d pages clock', DownloadHandler.new params.requestId params.chunkId
        params.rangeStart params.pageSize params.sink = some handler ∧
      Downloading.perform a.callbacks ⟨handler, []⟩ clock = some (d, pages, clock') ∧
      d.handler.Holds (.fresh params.requestId params.chunkId params.pageSize params.rangeStart)
        a.bodyBytes ∧
      d.handler.responseCode = a.callbacks.foldl Callback.code none ∧
      pages.map PageCompleted.untimed = (WorkerHandler.fresh params.requestId params.chunkId
        params.pageSize params.rangeStart).pagesBetween 0 a.bodyBytes ∧
      Timed clock.now clock'.now pages := by
  have hdiv : U64.checkedDiv params.rangeStart params.pageSize
      = some (params.rangeStart / params.pageSize) := by
    rw [U64.checkedDiv, if_neg hpos.ne']
  have hnew : DownloadHandler.Holds ⟨params.requestId, params.chunkId, params.rangeStart, 0,
      params.pageSize, 0, params.rangeStart / params.pageSize, none, params.sink⟩
      (.fresh params.requestId params.chunkId params.pageSize params.rangeStart) 0 := by
    simp [DownloadHandler.Holds, DownloadHandler.toWorker, WorkerHandler.received,
      WorkerHandler.fresh]
  obtain ⟨d, pages, clock', hperform, hd, hcode, hpages, htimed⟩ :=
    Downloading.perform_received (d := ⟨_, []⟩) hpos a.callbacks hnew clock
  rw [Nat.zero_add] at hd hpages
  refine ⟨_, d, pages, clock', ?_, hperform, hd, hcode, hpages, htimed⟩
  rw [DownloadHandler.new, hdiv]
  rfl

variable {sha256 : String → String} {handler : DownloadHandler} {d : Downloading}
  {clock clock' : Clock}

/-- The announcement and the full pages. -/
def DownloadParams.sent (params : DownloadParams) (startedNs : Nat) (pages : List PageCompleted) :
    List TraceEvent :=
  .requestStarted (params.started startedNs) :: pages.map .pageCompleted

/-- Before the end of a download no end of a request is reported. -/
theorem not_mem_sent {startedNs : Nat} {f : RequestFinished} :
    .requestFinished f ∉ params.sent startedNs pages := by
  simp [DownloadParams.sent]

/-- Where a setup call fails, nothing is sent. -/
theorem downloadRange_refused
    (hnew : DownloadHandler.new params.requestId params.chunkId params.rangeStart params.pageSize
      params.sink = some handler) {call : SetupCall} {e : String}
    (hsetup : a.setupErr = some (call, e)) :
    downloadRange sha256 params a clock = some ([], .error (call.message e)) := by
  simp only [downloadRange, hnew, hsetup, Option.bind_eq_bind, Option.bind_some]
  rfl

/-- Where `perform` fails, the announcement and the full pages have been sent. -/
theorem downloadRange_broken
    (hnew : DownloadHandler.new params.requestId params.chunkId params.rangeStart params.pageSize
      params.sink = some handler) (hsetup : a.setupErr = none)
    (hperform : Downloading.perform a.callbacks ⟨handler, []⟩ clock.read.2
      = some (d, pages, clock')) {e : String} (herr : a.performErr = some e) :
    downloadRange sha256 params a clock
      = some (params.sent clock.read.1 pages, .error ("perform: " ++ e)) := by
  simp only [downloadRange, hnew, hsetup, hperform, herr, Option.bind_eq_bind, Option.bind_some]
  rfl

/-- Where `perform` succeeds, the partial page and the end of the request are sent too. -/
theorem downloadRange_complete
    (hnew : DownloadHandler.new params.requestId params.chunkId params.rangeStart params.pageSize
      params.sink = some handler) (hsetup : a.setupErr = none)
    (hperform : Downloading.perform a.callbacks ⟨handler, []⟩ clock.read.2
      = some (d, pages, clock')) (herr : a.performErr = none) :
    downloadRange sha256 params a clock
      = some (params.sent clock.read.1 (pages ++ (d.lastPage clock').1) ++
          [.requestFinished ((params.result sha256 a d).finished (d.lastPage clock').2.read.1)],
        .ok (params.result sha256 a d)) := by
  simp only [downloadRange, hnew, hsetup, hperform, herr, Option.bind_eq_bind, Option.bind_some,
    DownloadParams.sent, List.map_append, List.cons_append, List.append_assoc]
  rfl

end Download

/-- The gists of an announcement with its pages. -/
theorem gists_request {e : RequestStarted} {list untimed : List PageCompleted}
    (hlist : list.map PageCompleted.untimed = untimed) :
    gists (.requestStarted e :: list.map .pageCompleted)
      = .started e.untimed :: untimed.map .page := by
  rw [← hlist, ← gists_pages]
  rfl

/-- For the request of any commit, in any interleaving: a single download of the same range that
receives a body of the same length sends the same events, up to times, the connection and the
error class, which it never reports. When curl fails it stops after the full pages. -/
theorem download_agrees
    (h : (benchmark opening heap config chunks).Reachable TransitionSystem.any s)
    (hc : c ∈ s.commits) (sha256 : String → String) (url : String) (sink : Sink) (a : EasyAnswer)
    (hbody : a.bodyBytes = c.note.transfer.bodyBytes) (clock : Clock) :
    ∃ events result, downloadRange sha256 (c.request.download config.pageSize url sink) a clock
        = some (events, result) ∧
      DownloadAgrees config.pageSize (s.story c.note.requestId) c.note.transfer a events
        result := by
  obtain ⟨ts, list, told, time, f, rest, hpaged, htold, hlist, huntimed, hstory, hrest⟩ :=
    story_of_commit h hc
  have hclass : ∀ f, .requestFinished f ∈ s.story c.note.requestId →
      f.errorClass = errorClass c.note.transfer.curlErr c.note.transfer.finalStatus := by
    intro f hf
    obtain ⟨hsent, hid⟩ := List.mem_filter.mp hf
    have hid : some f.requestId = some c.note.requestId := of_decide_eq_true hid
    exact congrArg RequestFinished.errorClass
      (untimed_of_finished h hc hsent (Option.some.inj hid))
  have hpos := (decided_reachable h c hc).pageSize_pos
  let params := c.request.download config.pageSize url sink
  let w := WorkerHandler.fresh c.note.requestId c.item.chunkId config.pageSize c.item.rangeStart
  let bytes := c.note.transfer.bodyBytes
  have hgists : gists (s.story c.note.requestId) = .started (c.request.started ts).untimed ::
      (w.bodyPages bytes).map .page ++ [.finished c.note.requestId bytes] := by
    have hnone : gists rest = [] := List.filterMap_eq_nil_iff.mpr hrest
    rw [hstory, gists_append, gists_request hlist]
    show _ ++ .finished f.requestId f.totalBytes :: gists rest = _
    rw [hnone, show f.requestId = c.note.requestId from congrArg RequestFinished.requestId huntimed,
      show f.totalBytes = bytes from congrArg RequestFinished.totalBytes huntimed]
  obtain ⟨handler, d, pages, clock', hnew, hperform, hd, hcode, hpages, htimed⟩ :=
    perform_params (a := a) (show 0 < params.pageSize from hpos) clock.read.2
  rw [hbody] at hd hpages
  obtain ⟨hlast, htimedLast⟩ := Downloading.lastPage_received hd clock'
  rw [← hpages, ← List.map_append] at hlast
  cases hsetup : a.setupErr with
  | some err =>
    obtain ⟨call, e⟩ := err
    refine ⟨_, _, downloadRange_refused hnew hsetup, hclass, ?_, ?_, ?_, ?_⟩
    · exact fun f hf => absurd hf List.not_mem_nil
    · intro call e hsome
      cases Option.some.inj (hsetup.symm.trans hsome)
      exact ⟨rfl, rfl⟩
    · intro e hnone
      cases hsetup.symm.trans hnone
    · intro hnone
      cases hsetup.symm.trans hnone
  | none =>
    cases herr : a.performErr with
    | some e =>
      refine ⟨_, _, downloadRange_broken hnew hsetup hperform herr, hclass, ?_, ?_, ?_, ?_⟩
      · exact fun f hf => absurd hf not_mem_sent
      · intro call e hsome
        cases hsetup.symm.trans hsome
      · intro e' _ herr'
        cases herr.symm.trans herr'
        refine ⟨?_, rfl⟩
        have hlength : ((w.pagesBetween 0 bytes).map Gist.page).length
            = bytes / config.pageSize := by
          rw [List.length_map, WorkerHandler.pagesBetween, List.length_map, List.length_range',
            Nat.zero_div, Nat.sub_zero]
          rfl
        rw [DownloadParams.sent, gists_request hpages, hgists, WorkerHandler.bodyPages,
          List.map_append, Nat.add_comm 1, List.cons_append, List.take_succ_cons,
          List.append_assoc, List.take_left' hlength]
        rfl
      · intro _ hnone
        cases herr.symm.trans hnone
    | none =>
      refine ⟨_, _, downloadRange_complete hnew hsetup hperform herr, hclass, ?_, ?_, ?_, ?_⟩
      · intro f hf
        rcases List.mem_append.mp hf with hf | hf
        · exact absurd hf not_mem_sent
        · cases List.mem_singleton.mp hf
          rfl
      · intro call e hsome
        cases hsetup.symm.trans hsome
      · intro e _ hsome
        cases herr.symm.trans hsome
      · intro _ _
        have htotal' : d.handler.bytesReceived = bytes := congrArg WorkerHandler.bytesReceived hd
        refine ⟨?_, _, params.started clock.read.1, (d.lastPage clock').2.read.1, rfl, ?_, htotal',
          congrArg (·.getD 0) hcode⟩
        · rw [gists_append, DownloadParams.sent, gists_request hlast, hgists]
          show _ ++ [Gist.finished params.requestId d.handler.bytesReceived] = _
          rw [htotal']
          rfl
        · have hstarted : Timed (params.started clock.read.1).timestampNs
              (d.lastPage clock').2.now (pages ++ (d.lastPage clock').1) := by
            show Timed clock.read.1 _ _
            rw [clock.read_eq]
            exact htimed.append htimedLast
          -- The reader takes the pages as it takes those of the story.
          have hid' : (params.started clock.read.1).requestId = (c.request.started ts).requestId :=
            rfl
          obtain ⟨time', hpaged', htime'⟩ :=
            hpaged.of_untimed hid' rfl (hlast.trans hlist.symm) hstarted
          refine readAll_concat hpaged'.read (if_pos ⟨rfl, htotal'.trans htold.symm, ?_⟩)
          refine htime'.trans ?_
          show _ ≤ (d.lastPage clock').2.read.1
          rw [Clock.read_eq]
          exact Clock.now_le_read _

/-- A full page and a partial one, of which the reactor fetches the rest in a second request. -/
def sixBytes : EasyAnswer where
  setupErr := none
  callbacks := [.header (some "HTTP/1.1 206 Partial Content".toList), .write 1, .write 5]
  performErr := none
  namelookupMs := some 2
  connectMs := some 9
  appconnectMs := none
  starttransferMs := some 20
  totalMs := some 30
  connId := 0
  queueUs := 150
  primaryIp := "192.0.2.1"
  primaryPort := 443
  localIp := "192.0.2.7"
  localPort := 50000
  effectiveUrl := none

/-- Six bytes of a chunk of eight, in both paths: a full page, and a partial one. -/
theorem download_agrees_six_bytes :
    ∃ s c, (benchmark .plain .ofList (.unlimited 1 4) [⟨0, 0, 7, .urgent⟩]).Reachable
        TransitionSystem.any s ∧ c ∈ s.commits ∧
      ∃ events result, downloadRange id (c.request.download 4 "http://host/file" .discard) sixBytes
          ⟨0, [3, 1, 4]⟩ = some (events, result) ∧
        DownloadAgrees 4 (s.story c.note.requestId) c.note.transfer sixBytes events result := by
  obtain ⟨s, hs, hsome, hbody⟩ := TransitionSystem.exists_reachable_of_run
    (benchmark .plain .ofList (.unlimited 1 4) [⟨0, 0, 7, .urgent⟩]) TransitionSystem.any
    ([.advance 0, .pop 0 []] ++ Label.advances 0 3 ++
      [.perform 0 (.ofCallbacks [.write 6])] ++ Label.advances 0 11)
    (P := fun s => 0 < s.commits.length ∧
      ∀ c ∈ s.commits, sixBytes.bodyBytes = c.note.transfer.bodyBytes) (by decide)
  obtain ⟨c, hc⟩ := List.exists_mem_of_length_pos hsome
  exact ⟨s, c, hs, hc, download_agrees hs hc id "http://host/file" .discard sixBytes (hbody c hc)
    ⟨0, [3, 1, 4]⟩⟩

end FrontierSim
