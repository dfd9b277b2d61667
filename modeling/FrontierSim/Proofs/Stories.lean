import FrontierSim.Proofs.Pacing
import FrontierSim.Proofs.Reports

/-!
# `FrontierSim.Proofs.Stories`: the trace of one request

The events of all workers are mixed in one channel. `Stage.read` is a reader that looks at
the events of one request alone, and expects: the announcement, the pages one after the other
with growing byte counts, only the last of them partial, the `RequestFinished` with the last
byte count, the `RequestPrereq` with the same connection, and for a retry the
`RequestResumed` with the next attempt number, in the order of their times.

`stories_readable` says that the reader is never surprised, whatever the interleaving. It
rests on `Storied`, which follows the reader one event further, through the outbox: so
sending an event changes nothing, and building one is the step to look at.

`concurrency_bounded` is about the requests together: at no point of the trace are more
requests open than there are workers.
-/

set_option autoImplicit false

namespace FrontierSim

open Lib

/-! ### The reader -/

/-- The request that an event is about. -/
def TraceEvent.requestId? : TraceEvent → Option Nat
  | .requestStarted e => some e.requestId
  | .requestPrereq e => some e.requestId
  | .pageCompleted e => some e.requestId
  | .requestResumed e => some e.requestId
  | .requestFinished e => some e.requestId
  | .runStarted _ | .frontierAdvanced _ | .connectionLifecycle _ => none

/-- What the pages of a request have told: the bytes so far, the page expected next (any page,
at the beginning), and whether a further page may come. -/
structure Pages where
  bytes : Nat
  next : Option Nat
  more : Bool
  deriving DecidableEq

/-- The page is the next one. -/
def Pages.Fits (pages : Pages) (pageSize : Nat) (p : PageCompleted) : Prop :=
  pages.more = true ∧ (∀ n ∈ pages.next, p.pageIndex = n) ∧
    p.pageStartByte = p.pageIndex * pageSize ∧ p.pageEndByte = p.pageStartByte + p.pageBytes ∧
    0 < p.pageBytes ∧ p.pageBytes ≤ pageSize ∧ p.cumulativeBytes = pages.bytes + p.pageBytes

/-- The reader can check a page. -/
instance (pages : Pages) (pageSize : Nat) (p : PageCompleted) : Decidable (pages.Fits pageSize p) :=
  inferInstanceAs (Decidable (_ ∧ _))

/-- After a partial page no page may come. -/
def Pages.after (pageSize : Nat) (p : PageCompleted) : Pages :=
  ⟨p.cumulativeBytes, some (p.pageIndex + 1), decide (p.pageBytes = pageSize)⟩

/-- How far the events of one request have come. `time` is the time of the last one. -/
inductive Stage
  | unseen
  | running (e : RequestStarted) (pages : Pages) (time : Nat)
  | finished (e : RequestStarted) (f : RequestFinished)
  | described (e : RequestStarted) (q : RequestPrereq)
  | resumed (e : RequestStarted) (r : RequestResumed)
  deriving DecidableEq

/-- The reader's next stage. `none` is an event that it does not expect. -/
def Stage.read (pageSize : Nat) (stage : Stage) (event : TraceEvent) : Option Stage :=
  match stage, event with
  | .unseen, .requestStarted e => some (.running e ⟨0, none, true⟩ e.timestampNs)
  | .running e pages time, .pageCompleted p =>
    if p.requestId = e.requestId ∧ p.chunkId = e.chunkId ∧ pages.Fits pageSize p ∧
        time ≤ p.timestampNs then
      some (.running e (.after pageSize p) p.timestampNs)
    else none
  | .running e pages time, .requestFinished f =>
    if f.requestId = e.requestId ∧ f.totalBytes = pages.bytes ∧ time ≤ f.timestampNs then
      some (.finished e f)
    else none
  | .finished e f, .requestPrereq q =>
    if q.requestId = e.requestId ∧ q.connectionId = f.connectionId ∧
        q.newConnection = f.newConnection ∧ f.timestampNs ≤ q.timestampNs then
      some (.described e q)
    else none
  | .described e q, .requestResumed r =>
    if r.requestId = e.requestId ∧ r.attempt = e.attempt + 1 ∧ q.timestampNs ≤ r.timestampNs then
      some (.resumed e r)
    else none
  | _, _ => none

/-- The stage after a list of events. -/
def readAll (pageSize : Nat) (events : List TraceEvent) : Option Stage :=
  events.foldlM (Stage.read pageSize) .unseen

/-- Reading goes on from the stage that the first events led to. -/
theorem readAll_append (pageSize : Nat) (events new : List TraceEvent) :
    readAll pageSize (events ++ new)
      = (readAll pageSize events).bind fun stage => new.foldlM (Stage.read pageSize) stage :=
  List.foldlM_append

/-- One more event. -/
theorem readAll_concat {pageSize : Nat} {events : List TraceEvent} {stage next : Stage}
    {event : TraceEvent} (h : readAll pageSize events = some stage)
    (hnext : stage.read pageSize event = some next) :
    readAll pageSize (events ++ [event]) = some next := by
  rw [readAll_append, h, Option.bind_some, List.foldlM_cons, hnext]
  rfl

/-- The events of a request, in the order of the trace. -/
def System.story (s : System) (r : Nat) : List TraceEvent :=
  s.events.sent.filter fun e => e.requestId? = some r

variable {heap : ChunkHeap} {config : ReactorConfig} {chunks : List ChunkRequest}
  {opening : RunStarted} {ok : System → Label → Prop} {s s' : System} {a : Label} {w w' : Worker}
  {pageSize now : Nat}

/-- The events of a request that were sent since come last in its story. -/
theorem story_append {new : List TraceEvent} (hsent : s'.events.sent = s.events.sent ++ new)
    (r : Nat) : s'.story r = s.story r ++ new.filter fun e => e.requestId? = some r := by
  rw [System.story, hsent, List.filter_append, System.story]

/-- Where nothing was sent, no story changes. -/
theorem story_of_sent (hsent : s'.events.sent = s.events.sent) (r : Nat) :
    s'.story r = s.story r := by
  rw [System.story, hsent, System.story]

/-! ### What a worker has told -/

/-- The stage that the worker's own events have come to, with the one that waits to be sent. -/
def Worker.Tells (now : Nat) (w : Worker) (stage : Stage) : Prop :=
  match w.phase with
  | .assigned _ => stage = .unseen
  | .ready req => ∃ ts, stage = .running (req.started ts) ⟨0, none, true⟩ ts ∧ ts ≤ now ∧
    w.handler.bytesReceived = 0 ∧ w.handler.currentPageBytes = 0
  | .performing req .. => ∃ ts bytes next time,
    stage = .running (req.started ts) ⟨bytes, next, true⟩ time ∧ time ≤ now ∧
    bytes + w.handler.currentPageBytes = w.handler.bytesReceived ∧
    ∀ n ∈ next, n = w.handler.currentPageIndex
  | .finishing req _ bytes _ => ∃ ts next more time,
    stage = .running (req.started ts) ⟨bytes, next, more⟩ time ∧ time ≤ now
  | .reporting req t bytes _ => ∃ ts code time,
    stage = .finished (req.started ts) (req.finished t bytes code time) ∧ time ≤ now
  | .committing req t .. => ∃ ts time,
    stage = .described (req.started ts) (req.prereq t time) ∧ time ≤ now
  | _ => True

/-- What a worker has told stays in the past. -/
theorem Worker.Tells.mono {stage : Stage} {now' : Nat} (h : w.Tells now stage) (hle : now ≤ now') :
    w.Tells now' stage := by
  unfold Worker.Tells at h ⊢
  cases hph : w.phase with
  | ready =>
    simp only [hph] at h ⊢
    obtain ⟨ts, hstage, hts, hrest⟩ := h
    exact ⟨ts, hstage, hts.trans hle, hrest⟩
  | performing =>
    simp only [hph] at h ⊢
    obtain ⟨ts, bytes, next, time, hstage, htime, hrest⟩ := h
    exact ⟨ts, bytes, next, time, hstage, htime.trans hle, hrest⟩
  | finishing =>
    simp only [hph] at h ⊢
    obtain ⟨ts, next, more, time, hstage, htime⟩ := h
    exact ⟨ts, next, more, time, hstage, htime.trans hle⟩
  | reporting =>
    simp only [hph] at h ⊢
    obtain ⟨ts, code, time, hstage, htime⟩ := h
    exact ⟨ts, code, time, hstage, htime.trans hle⟩
  | committing =>
    simp only [hph] at h ⊢
    obtain ⟨ts, time, hstage, htime⟩ := h
    exact ⟨ts, time, hstage, htime.trans hle⟩
  | assigned =>
    simp only [hph] at h ⊢
    exact h
  | _ => trivial

/-- The events of the worker's request, with the one in the outbox, are read to a stage that
fits the worker. -/
def Worker.Told (pageSize : Nat) (s : System) (w : Worker) : Prop :=
  ∀ req ∈ w.phase.request, ∃ stage,
    readAll pageSize (s.story req.requestId ++ w.outbox.toList) = some stage ∧ w.Tells s.now stage

/-- The reader takes the page that the worker reports. -/
theorem read_page {req : Request} {ts bytes time : Nat} {next : Option Nat}
    {h : WorkerHandler} (hh : Handling pageSize req h) (hsize : h.pageSize = pageSize) {n : Nat}
    (hpos : 0 < h.currentPageBytes + n) (hle : h.currentPageBytes + n ≤ pageSize)
    (hbytes : bytes + h.currentPageBytes = h.bytesReceived)
    (hnext : ∀ k ∈ next, k = h.currentPageIndex) (htime : time ≤ now) :
    (Stage.running (req.started ts) ⟨bytes, next, true⟩ time).read pageSize
        (.pageCompleted ((h.consume n).pageCompleted now))
      = some (.running (req.started ts)
          (.after pageSize ((h.consume n).pageCompleted now)) now) := by
  refine if_pos ⟨hh.requestId, hh.chunkId, ⟨rfl, ?_, ?_, rfl, hpos, hle, ?_⟩, htime⟩
  · exact fun k hk => (hnext k hk).symm
  · show h.currentPageIndex * h.pageSize = h.currentPageIndex * pageSize
    rw [hsize]
  · show h.bytesReceived + n = bytes + (h.currentPageBytes + n)
    omega

/-- One pass of the loop in `write`. -/
theorem told_write {req : Request} {t : Transfer} {left : List Callback} {remaining : Nat}
    (hcons : w.Consistent pageSize) (hout : w.outbox = none)
    (hph : w.phase = .performing req t left remaining) (htold : w.Told pageSize s) :
    (w.writeStep s.now req t left remaining).Told pageSize s := by
  obtain ⟨hsize, hphase⟩ := hcons
  rw [hph] at hphase
  obtain ⟨hh, -, -⟩ := hphase
  have hpage : w.handler.currentPageBytes < w.handler.pageSize := hsize ▸ hh.page
  obtain ⟨stage, hread, htells⟩ := htold req (by rw [hph]; rfl)
  simp only [Worker.Tells, hph] at htells
  obtain ⟨ts, bytes, next, time, rfl, htime, hbytes, hnext⟩ := htells
  rw [hout, Option.toList_none, List.append_nil] at hread
  rintro _ ⟨⟩
  -- The pass leaves the page open, or it completes the page and reports it.
  rcases Nat.lt_or_ge (w.handler.currentPageBytes + remaining) w.handler.pageSize with hlt | hge
  · simp only [Worker.writeStep, writePass_open s.now hlt]
    refine ⟨_, by simpa using hread, ts, bytes, next, time, rfl, htime, ?_, hnext⟩
    simp only [WorkerHandler.consume]
    omega
  · simp only [Worker.writeStep, writePass_full s.now hpage hge]
    have hfull : w.handler.currentPageBytes + (w.handler.pageSize - w.handler.currentPageBytes)
        = pageSize := by omega
    have hpos : 0 < w.handler.currentPageBytes
        + (w.handler.pageSize - w.handler.currentPageBytes) := by omega
    refine ⟨_, readAll_concat hread (read_page hh hsize hpos hfull.le hbytes hnext htime), ts,
      _, some (w.handler.currentPageIndex + 1), s.now, ?_, le_rfl, Nat.add_zero _, ?_⟩
    · simp only [Pages.after, WorkerHandler.pageCompleted, WorkerHandler.consume, hfull,
        decide_true]
      rfl
    · intro n hn
      exact (Option.some.inj hn).symm

/-- The worker's own code builds the event that the reader expects next. -/
theorem told_local {delivery : Option Delivery} (hcons : w.Consistent pageSize)
    (hout : w.outbox = none) (hlocal : LocalMoves w s.now w' delivery)
    (htold : w.Told pageSize s) : w'.Told pageSize s := by
  have hold : ∀ req, w.phase.request = some req → ∃ stage,
      readAll pageSize (s.story req.requestId) = some stage ∧ w.Tells s.now stage := by
    intro req hreq
    have hread := htold req hreq
    rwa [hout, Option.toList_none, List.append_nil] at hread
  cases hlocal with
  | @panicBegin req hph =>
    obtain ⟨stage, hread, -⟩ := hold req (by rw [hph]; rfl)
    rintro _ ⟨⟩
    exact ⟨stage, by simpa [hout] using hread, trivial⟩
  | @panicReturn req t hph =>
    obtain ⟨stage, hread, -⟩ := hold req (by rw [hph]; rfl)
    rintro _ ⟨⟩
    exact ⟨stage, by simpa [hout] using hread, trivial⟩
  | @begin req hph =>
    obtain ⟨stage, hread, htells⟩ := hold req (by rw [hph]; rfl)
    simp only [Worker.Tells, hph] at htells
    subst htells
    rintro _ ⟨⟩
    exact ⟨_, readAll_concat hread rfl, s.now, rfl, le_rfl, rfl, rfl⟩
  | write hph => exact told_write hcons hout hph htold
  | @header req t line left hph =>
    obtain ⟨stage, hread, htells⟩ := hold req (by rw [hph]; rfl)
    simp only [Worker.Tells, hph] at htells
    rintro _ ⟨⟩
    exact ⟨stage, by simpa [hout] using hread, htells⟩
  | @body req t len left hph =>
    obtain ⟨stage, hread, htells⟩ := hold req (by rw [hph]; rfl)
    simp only [Worker.Tells, hph] at htells
    rintro _ ⟨⟩
    exact ⟨stage, by simpa [hout] using hread, htells⟩
  | @«return» req t expected hph =>
    obtain ⟨hsize, hphase⟩ := hcons
    rw [hph] at hphase
    obtain ⟨hh, -, -⟩ := hphase
    obtain ⟨stage, hread, htells⟩ := hold req (by rw [hph]; rfl)
    simp only [Worker.Tells, hph] at htells
    obtain ⟨ts, bytes, next, time, rfl, htime, hbytes, hnext⟩ := htells
    rintro _ ⟨⟩
    by_cases hopen : w.handler.currentPageBytes > 0
    · -- The partial page is reported as the last one.
      refine ⟨_, ?_, ts, some (w.handler.currentPageIndex + 1),
        decide (w.handler.currentPageBytes = pageSize), s.now, rfl, le_rfl⟩
      simp only [if_pos hopen]
      exact readAll_concat hread
        (read_page (n := 0) hh hsize hopen hh.page.le hbytes hnext htime)
    · obtain rfl : bytes = w.handler.bytesReceived := by omega
      exact ⟨_, by simpa [hopen] using hread, ts, next, true, time, rfl, htime⟩
  | @finish req t bytes isComplete hph =>
    obtain ⟨stage, hread, htells⟩ := hold req (by rw [hph]; rfl)
    simp only [Worker.Tells, hph] at htells
    obtain ⟨ts, next, more, time, rfl, htime⟩ := htells
    rintro _ ⟨⟩
    refine ⟨_, readAll_concat hread (if_pos ⟨rfl, rfl, htime⟩), ts, _, s.now, rfl, le_rfl⟩
  | @report req t bytes isComplete hph =>
    obtain ⟨stage, hread, htells⟩ := hold req (by rw [hph]; rfl)
    simp only [Worker.Tells, hph] at htells
    obtain ⟨ts, code, time, rfl, htime⟩ := htells
    rintro _ ⟨⟩
    exact ⟨_, readAll_concat hread (if_pos ⟨rfl, rfl, rfl, htime⟩), ts, s.now, rfl, le_rfl⟩

/-! ### The steps of a run -/

/-- The story of a committed request is told to the end: a retry is announced as such. -/
def Stage.Closes (stage : Stage) (c : ChunkCommit) : Prop :=
  match c.fate with
  | .retry entry => ∃ ts time,
    stage = .resumed (c.request.started ts) (c.request.resumed entry time)
  | _ => ∃ ts time,
    stage = .described (c.request.started ts) (c.request.prereq c.note.transfer time)

/-- The invariant. An id that no request has is in no event. -/
structure Storied (pageSize : Nat) (s : System) : Prop where
  workers : ∀ w ∈ s.workers, w.Told pageSize s
  commits : ∀ c ∈ s.commits, ∃ stage,
    readAll pageSize (s.story c.note.requestId) = some stage ∧ stage.Closes c
  unowned : ∀ r, (∀ c ∈ s.commits, c.note.requestId ≠ r) →
    (∀ i, ∀ req ∈ requestAt s.workers i, req.requestId ≠ r) → s.story r = []

/-- What a worker has told, in a later state with the same events of its request. -/
theorem told_of_story (hw : w.Told pageSize s) (hnow : s.now ≤ s'.now)
    (hstory : ∀ req ∈ w.phase.request, s'.story req.requestId = s.story req.requestId) :
    w.Told pageSize s' := by
  intro req hreq
  obtain ⟨stage, hread, htells⟩ := hw req hreq
  rw [← hstory req hreq] at hread
  exact ⟨stage, hread, htells.mono hnow⟩

/-- A worker without a request has nothing to tell. -/
theorem told_of_no_request (hnone : w.phase.request = none) : w.Told pageSize s := by
  intro req hreq
  rw [hnone] at hreq
  cases hreq

/-- Worker `i` became `w'` and kept its request, and only that request has new events. -/
theorem storied_set {i : Nat} (hS : Storied pageSize s) (hN : Numbered s)
    (hw : s.workers[i]? = some w) (hworkers : s'.workers = s.workers.set i w')
    (hreq : w'.phase.request = w.phase.request) (hcommits : s'.commits = s.commits)
    (hnow : s.now ≤ s'.now)
    (hstory : ∀ r, (∀ req ∈ w.phase.request, req.requestId ≠ r) → s'.story r = s.story r)
    (htold : w'.Told pageSize s') : Storied pageSize s' := by
  have hat : ∀ req ∈ w.phase.request, req ∈ requestAt s.workers i := fun req h => by
    rwa [requestAt_of_phase hw rfl]
  have hrequests : requestAt s'.workers = requestAt s.workers := by
    rw [hworkers, requestAt_set_of_eq hw hreq]
  constructor
  · intro v hv
    obtain ⟨j, hj⟩ := List.mem_iff_getElem?.mp (hworkers ▸ hv)
    rcases getElem?_setWorker hw hj with ⟨-, rfl⟩ | ⟨hji, hj⟩
    · exact htold
    · -- Another worker has another request, and so have the commits.
      refine told_of_story (hS.workers v (List.mem_of_getElem? hj)) hnow ?_
      intro req hreq'
      refine hstory _ fun r hr heq => hji ?_
      exact hN.unique j i req (by rwa [requestAt_of_phase hj rfl]) r (hat r hr) heq.symm
  · intro c hc
    rw [hcommits] at hc
    rw [hstory c.note.requestId fun r hr heq => hN.disjoint c hc i r (hat r hr) heq.symm]
    exact hS.commits c hc
  · intro r hnocommit hnoworker
    rw [hcommits] at hnocommit
    rw [hrequests] at hnoworker
    rw [hstory r fun req hr => hnoworker i req (hat req hr)]
    exact hS.unowned r hnocommit hnoworker

/-- The workers and the commits stay as they are, and no request has a new event. -/
theorem storied_of_same (hS : Storied pageSize s) (hworkers : s'.workers = s.workers)
    (hcommits : s'.commits = s.commits) (hnow : s.now ≤ s'.now)
    (hstory : ∀ r, s'.story r = s.story r) : Storied pageSize s' := by
  constructor
  · intro w hw
    exact told_of_story (hS.workers w (hworkers ▸ hw)) hnow fun req _ => hstory _
  · intro c hc
    rw [hstory]
    exact hS.commits c (hcommits ▸ hc)
  · intro r hnocommit hnoworker
    rw [hcommits] at hnocommit
    rw [hworkers] at hnoworker
    rw [hstory]
    exact hS.unowned r hnocommit hnoworker

/-- An event that waits in the outbox is about the worker's own request. -/
theorem requestId_of_pending {phase : Phase} {event : TraceEvent} (h : Pending phase event) :
    ∃ req, phase.request = some req ∧ event.requestId? = some req.requestId := by
  cases h with
  | started req | finished | prereq => exact ⟨_, rfl, rfl⟩
  | page hid | partialPage hid => exact ⟨_, rfl, congrArg some hid⟩

/-- An event that is sent comes last in the story of its request, and in no other one. -/
theorem story_send {i : Nat} {event : TraceEvent} {req : Request}
    (hid : event.requestId? = some req.requestId) (r : Nat) :
    (s.sendOutbox i w event).story r
      = s.story r ++ if req.requestId = r then [event] else [] := by
  rw [story_append (show _ = s.events.sent ++ [event] from rfl)]
  congr 1
  by_cases hr : req.requestId = r <;> simp [hid, hr]

/-- The event goes from the outbox to the trace. The reader has seen it before. -/
theorem storied_send {i : Nat} {event : TraceEvent} (hS : Storied pageSize s) (hN : Numbered s)
    (hw : s.workers[i]? = some w) (hout : w.outbox = some event) (hfits : w.Fits) :
    Storied pageSize (s.sendOutbox i w event) := by
  obtain ⟨req, hreq, hid⟩ := requestId_of_pending (hfits event hout)
  refine storied_set hS hN hw rfl rfl rfl le_rfl ?_ ?_
  · intro r hr
    rw [story_send hid, if_neg (hr req hreq), List.append_nil]
  · intro req' hreq'
    obtain ⟨stage, hread, htells⟩ := hS.workers w (List.mem_of_getElem? hw) req' hreq'
    refine ⟨stage, ?_, htells⟩
    obtain rfl : req = req' := Option.some.inj (hreq.symm.trans hreq')
    rw [story_send hid, if_pos rfl, Option.toList_none, List.append_nil]
    rwa [hout] at hread

/-- A fresh id is in no event. -/
theorem storied_assign {i : Nat} {chunk : PrioritizedChunk} (hS : Storied pageSize s)
    (hN : Numbered s) (hw : s.workers[i]? = some w) (hout : w.outbox = none)
    (hph : w.phase = .popped chunk) : Storied pageSize (s.assignId i w chunk) := by
  have hfresh : s.story s.nextRequestId = [] := by
    refine hS.unowned _ (fun c hc heq => ?_) (fun j req hreq heq => ?_)
    · exact absurd (hN.commits_fresh c hc) (by omega)
    · exact absurd (hN.fresh j req hreq) (by omega)
  have hrequests : requestAt (s.assignId i w chunk).workers
      = Function.update (requestAt s.workers) i (some ⟨s.nextRequestId, chunk⟩) :=
    requestAt_set hw _
  constructor
  · refine forall_setWorker (fun v hv => told_of_story (hS.workers v hv) le_rfl fun _ _ => rfl) ?_
    rintro _ ⟨⟩
    refine ⟨.unseen, ?_, rfl⟩
    show readAll pageSize (s.story s.nextRequestId ++ w.outbox.toList) = _
    rw [hfresh, hout]
    rfl
  · exact hS.commits
  · intro r hnocommit hnoworker
    refine hS.unowned r hnocommit fun j req hreq => ?_
    -- Worker `i` had no request before.
    have hji : j ≠ i := by
      rintro rfl
      rw [requestAt_of_phase hw hph] at hreq
      cases hreq
    refine hnoworker j req ?_
    rwa [hrequests, Function.update_of_ne hji]

variable {req : Request} {t : Transfer} {bytes : Nat} {isComplete : Bool}

/-- The announcement of a retry is about the committed request. -/
theorem story_commit {i : Nat} (r : Nat) :
    (s.commit heap config i w req t bytes isComplete).story r
      = s.story r ++ if req.requestId = r then
        match s.shared.commitFate config.pageSize req.chunk bytes isComplete s.now with
        | .retry entry => [.requestResumed (req.resumed entry s.now)]
        | _ => []
      else [] := by
  rw [story_append rfl]
  congr 1
  cases s.shared.commitFate config.pageSize req.chunk bytes isComplete s.now with
  | retry entry =>
    by_cases hr : req.requestId = r <;> simp [TraceEvent.requestId?, Request.resumed, hr]
  | done | givenUp => simp

/-- A commit closes the story of its request. A retry is announced in the story of the request that
failed. -/
theorem storied_commit {i : Nat} (hS : Storied config.pageSize s) (hN : Numbered s)
    (hw : s.workers[i]? = some w) (hout : w.outbox = none)
    (hph : w.phase = .committing req t bytes isComplete) :
    Storied config.pageSize (s.commit heap config i w req t bytes isComplete) := by
  have hat : requestAt s.workers i = some req := by
    rw [requestAt_of_phase hw hph]
    rfl
  have hother : ∀ r, req.requestId ≠ r →
      (s.commit heap config i w req t bytes isComplete).story r = s.story r := by
    intro r hr
    rw [story_commit, if_neg hr, List.append_nil]
  constructor
  · intro v hv
    obtain ⟨j, hj⟩ := List.mem_iff_getElem?.mp hv
    rcases getElem?_setWorker hw hj with ⟨-, rfl⟩ | ⟨hji, hj⟩
    · exact told_of_no_request rfl
    · refine told_of_story (hS.workers v (List.mem_of_getElem? hj)) le_rfl ?_
      intro req' hreq'
      refine hother _ fun heq => hji ?_
      exact hN.unique j i req' (by rwa [requestAt_of_phase hj rfl]) req hat heq.symm
  · intro c hc
    rcases List.mem_append.mp hc with hc | hc
    · rw [hother _ (hN.disjoint c hc i req hat).symm]
      exact hS.commits c hc
    · -- The story of this request ends here.
      rw [List.mem_singleton.mp hc]
      obtain ⟨stage, hread, htells⟩ := hS.workers w (List.mem_of_getElem? hw) req (by rw [hph]; rfl)
      simp only [Worker.Tells, hph] at htells
      obtain ⟨ts, time, rfl, htime⟩ := htells
      rw [hout, Option.toList_none, List.append_nil] at hread
      show ∃ stage, readAll config.pageSize
        ((s.commit heap config i w req t bytes isComplete).story req.requestId) = some stage ∧ _
      rw [story_commit, if_pos rfl]
      unfold Stage.Closes
      cases hfate : s.shared.commitFate config.pageSize req.chunk bytes isComplete s.now with
      | retry entry =>
        exact ⟨_, readAll_concat hread (if_pos ⟨rfl, rfl, htime⟩), ts, s.now, rfl⟩
      | done | givenUp =>
        exact ⟨_, by rwa [List.append_nil], ts, time, rfl⟩
  · intro r hnocommit hnoworker
    have hr : req.requestId ≠ r := hnocommit _ (List.mem_append_right _ (List.mem_singleton_self _))
    rw [hother r hr]
    refine hS.unowned r (fun c hc => hnocommit c (List.mem_append_left _ hc)) fun j r' hr' => ?_
    by_cases hji : j = i
    · subst hji
      obtain rfl : req = r' := Option.some.inj (hat.symm.trans hr')
      exact hr
    · refine hnoworker j r' ?_
      rwa [show requestAt (s.commit heap config i w req t bytes isComplete).workers
        = Function.update (requestAt s.workers) i none from requestAt_set hw _,
        Function.update_of_ne hji]

/-- One step keeps the stories. It adds to one story at most, of the worker that moves, and the ids
of all other requests differ from it. -/
theorem storied_step (hS : Storied config.pageSize s) (hN : Numbered s)
    (hworkers : ∀ w ∈ s.workers, w.Consistent config.pageSize ∧ w.Fits)
    (hmoves : Moves heap config s a s') : Storied config.pageSize s' := by
  have hnow := now_mono hmoves
  have htoldAt : ∀ {i : Nat} {w : Worker}, s.workers[i]? = some w → w.Told config.pageSize s :=
    fun hw => hS.workers _ (List.mem_of_getElem? hw)
  cases effect_of_moves hmoves with
  | tick | receive | store => exact storied_of_same hS rfl rfl hnow fun r => story_of_sent rfl r
  | track hrecv => exact storied_of_same hS rfl rfl hnow (story_of_sent (Channel.past_recv hrecv).2)
  | @join order =>
    refine storied_of_same hS rfl rfl hnow fun r => ?_
    -- The records of the connections are about no request.
    rw [story_append rfl, List.filter_eq_nil_iff.mpr, List.append_nil]
    intro e he
    obtain ⟨conn, -, rfl⟩ := List.mem_map.mp he
    simp [TraceEvent.requestId?]
  | send hw hout =>
    exact storied_send hS hN hw hout (hworkers _ (List.mem_of_getElem? hw)).2
  | loop _ _ _ _ hw _ hidle hnone =>
    exact storied_set hS hN hw rfl (hnone.trans (request_of_idle hidle).symm) rfl hnow
      (fun _ _ => rfl) (told_of_no_request hnone)
  | assignId hw hout hph => exact storied_assign hS hN hw hout hph
  | commit hw hout hph => exact storied_commit hS hN hw hout hph
  | @perform i w req t hw hout hph =>
    refine storied_set hS hN hw rfl (by rw [hph]; rfl) rfl hnow (fun _ _ => rfl) ?_
    obtain ⟨stage, hread, htells⟩ := htoldAt hw req (by rw [hph]; rfl)
    simp only [Worker.Tells, hph] at htells
    obtain ⟨ts, rfl, hts, hbytes, hpage⟩ := htells
    rintro _ ⟨⟩
    exact ⟨_, hread, ts, 0, none, ts, rfl, hts, by rw [hbytes, hpage], fun n hn => by cases hn⟩
  | work hw hout hlocal =>
    have htold := told_local (hworkers _ (List.mem_of_getElem? hw)).1 hout hlocal (htoldAt hw)
    exact storied_set hS hN hw rfl (request_of_local hlocal) rfl hnow (fun _ _ => rfl)
      (told_of_story htold hnow fun _ _ => rfl)

/-- In every reachable state the stories of all requests can be read. -/
theorem storied_reachable (h : (benchmark opening heap config chunks).Reachable ok s) :
    Storied config.pageSize s := by
  refine reachable_invariant_of
    (J := fun s => Numbered s ∧ ∀ w ∈ s.workers, w.Consistent config.pageSize ∧ w.Fits) h
    (fun _ h => ⟨numbered_reachable h, consistent_reachable h⟩) ?_
    fun _ _ _ hJ _ hS _ hmoves => storied_step hS hJ.1 hJ.2 hmoves
  constructor
  · intro w hw
    rw [List.eq_of_mem_replicate hw]
    exact told_of_no_request rfl
  · exact fun c hc => absurd hc List.not_mem_nil
  · exact fun r _ _ => rfl

/-- The reader takes the events that were sent. The one in the outbox comes after them. -/
theorem readAll_prefix {events new : List TraceEvent} {stage : Stage}
    (h : readAll pageSize (events ++ new) = some stage) :
    ∃ before, readAll pageSize events = some before := by
  rw [readAll_append] at h
  obtain ⟨before, hbefore, -⟩ := Option.bind_eq_some_iff.mp h
  exact ⟨before, hbefore⟩

/-- In every interleaving the events of each request come in the one order: the announcement,
the pages from first to last, the end with their sum, the connection, and for a retry the
next attempt. When a request is committed, none of them is missing. -/
theorem stories_readable
    (h : (benchmark opening heap config chunks).Reachable TransitionSystem.any s) :
    (∀ r, ∃ stage, readAll config.pageSize (s.story r) = some stage) ∧
      ∀ c ∈ s.commits, ∃ stage,
        readAll config.pageSize (s.story c.note.requestId) = some stage ∧ stage.Closes c := by
  have hS := storied_reachable h
  refine ⟨fun r => ?_, hS.commits⟩
  by_cases hcommit : ∃ c ∈ s.commits, c.note.requestId = r
  · obtain ⟨c, hc, rfl⟩ := hcommit
    obtain ⟨stage, hread, -⟩ := hS.commits c hc
    exact ⟨stage, hread⟩
  by_cases hworker : ∃ i, ∃ req ∈ requestAt s.workers i, req.requestId = r
  · obtain ⟨i, req, hreq, rfl⟩ := hworker
    obtain ⟨w, hw, hreq⟩ := exists_of_requestAt hreq
    obtain ⟨stage, hread, -⟩ := hS.workers w (List.mem_of_getElem? hw) req hreq
    exact readAll_prefix hread
  · -- Nobody has had this id.
    refine ⟨.unseen, ?_⟩
    rw [hS.unowned r (fun c hc heq => hcommit ⟨c, hc, heq⟩)
      fun i req hreq heq => hworker ⟨i, req, hreq, heq⟩]
    rfl

/-- A request with a full page and a partial one, whose rest is queued again. -/
theorem stories_readable_retry :
    ∃ s, (benchmark .plain .ofList (.unlimited 1 4) [⟨0, 0, 7, .urgent⟩]).Reachable
        TransitionSystem.any s ∧
      (s.story 1).length = 6 ∧ s.commits.length = 1 ∧
      (∀ r, ∃ stage, readAll 4 (s.story r) = some stage) ∧
      ∀ c ∈ s.commits, ∃ stage,
        readAll 4 (s.story c.note.requestId) = some stage ∧ stage.Closes c := by
  obtain ⟨s, hs, hstory, hcommits⟩ := TransitionSystem.exists_reachable_of_run
    (benchmark .plain .ofList (.unlimited 1 4) [⟨0, 0, 7, .urgent⟩]) TransitionSystem.any
    ([.advance 0, .pop 0 []] ++ Label.advances 0 3 ++
      [.perform 0 (.ofCallbacks [.write 6])] ++ Label.advances 0 11)
    (P := fun s => (s.story 1).length = 6 ∧ s.commits.length = 1) (by decide)
  exact ⟨s, hs, hstory, hcommits, stories_readable hs⟩

/-! ### The requests together -/

/-- The number of announcements. -/
def startedCount (events : List TraceEvent) : Nat := (events.filterMap TraceEvent.startedId).length

/-- The number of requests that were reported as finished. -/
def finishedCount (events : List TraceEvent) : Nat :=
  (events.filterMap TraceEvent.finishedBytes).length

/-- The announcements of two lists in a row. -/
theorem startedCount_append (events new : List TraceEvent) :
    startedCount (events ++ new) = startedCount events + startedCount new := by
  rw [startedCount, List.filterMap_append, List.length_append, startedCount, startedCount]

/-- The ends of requests of two lists in a row. -/
theorem finishedCount_append (events new : List TraceEvent) :
    finishedCount (events ++ new) = finishedCount events + finishedCount new := by
  rw [finishedCount, List.filterMap_append, List.length_append, finishedCount, finishedCount]

/-- Events that neither announce nor finish a request are not counted. -/
theorem counts_of_quiet {events : List TraceEvent}
    (h : ∀ e ∈ events, e.startedId = none ∧ e.finishedBytes = none) :
    startedCount events = 0 ∧ finishedCount events = 0 := by
  constructor
  · rw [startedCount, List.filterMap_eq_nil_iff.mpr fun e he => (h e he).1, List.length_nil]
  · rw [finishedCount, List.filterMap_eq_nil_iff.mpr fun e he => (h e he).2, List.length_nil]

/-- Between none and `limit` requests are announced and not finished. -/
def OpenWithin (limit : Nat) (events : List TraceEvent) : Prop :=
  finishedCount events ≤ startedCount events ∧ startedCount events ≤ finishedCount events + limit

/-- A worker says that a request is finished after it has announced it. -/
theorem announced_of_sentFinished (h : w.sentFinished ≠ none) :
    w.announced ≠ none := by
  obtain ⟨handler, phase, outbox⟩ := w
  cases phase <;> cases outbox <;> simp_all [Worker.sentFinished, Worker.announced]

/-- The requests of the whole trace that are open are in the workers' hands. -/
theorem openWithin_reachable (h : (benchmark opening heap config chunks).Reachable ok s) :
    OpenWithin config.maxConcurrent s.events.sent := by
  have hstarted := congrArg Multiset.card (balanced_reachable (once_started config.pageSize) h)
  have hfinished := congrArg Multiset.card (balanced_reachable (once_finished config.pageSize) h)
  simp only [Multiset.card_add, Multiset.coe_card, System.reports, System.reported,
    List.length_map] at hstarted hfinished
  have hlimit : (s.workers.filterMap fun w => w.announced.map Request.requestId).length
      ≤ config.maxConcurrent := length_workers h ▸ List.length_filterMap_le _ _
  have horder : (s.workers.filterMap Worker.sentFinished).length
      ≤ (s.workers.filterMap fun w => w.announced.map Request.requestId).length := by
    rw [List.length_filterMap_eq_countP, List.length_filterMap_eq_countP]
    refine List.countP_mono_left fun w _ hw => ?_
    have hann := announced_of_sentFinished (Option.isSome_iff_ne_none.mp hw)
    rw [Option.isSome_map]
    exact Option.isSome_iff_ne_none.mpr hann
  constructor <;> simp only [startedCount, finishedCount] <;> omega

/-- The bound goes through every step: one event is sent at a time, apart from those that
neither announce nor finish a request. -/
theorem openWithin_prefix {limit : Nat} {new : List TraceEvent}
    (hsent : s'.events.sent = s.events.sent ++ new)
    (hnew : new.length ≤ 1 ∨ ∀ e ∈ new, e.startedId = none ∧ e.finishedBytes = none)
    (hbefore : ∀ events rest, s.events.sent = events ++ rest → OpenWithin limit events)
    (hall : OpenWithin limit s'.events.sent) :
    ∀ events rest, s'.events.sent = events ++ rest → OpenWithin limit events := by
  intro events rest heq
  rw [hsent, List.append_eq_append_iff] at heq
  rcases heq with ⟨more, rfl, hmore⟩ | ⟨more, hmore, -⟩
  · rcases hnew with hone | hsilent
    · -- The one new event is in `rest` or in `more`.
      rw [hmore, List.length_append] at hone
      cases more with
      | nil =>
        rw [List.append_nil]
        exact hbefore _ [] (List.append_nil _).symm
      | cons e more =>
        have hrest : rest = [] := List.length_eq_zero_iff.mp (by
          rw [List.length_cons] at hone
          omega)
        rw [hsent, hmore, hrest, List.append_nil] at hall
        exact hall
    · obtain ⟨hstarted, hfinished⟩ :=
        counts_of_quiet fun e he => hsilent e (hmore ▸ List.mem_append_left _ he)
      rw [OpenWithin, startedCount_append, finishedCount_append, hstarted, hfinished]
      exact hbefore _ [] (List.append_nil _).symm
  · exact hbefore events more hmore

/-- At every point of the trace, the requests announced and not yet finished are at most as
many as there are workers. -/
theorem concurrency_bounded
    (h : (benchmark opening heap config chunks).Reachable TransitionSystem.any s) :
    ∀ events rest, s.events.sent = events ++ rest →
      finishedCount events ≤ startedCount events ∧
        startedCount events ≤ finishedCount events + config.maxConcurrent := by
  refine reachable_invariant_of
    (J := fun s => OpenWithin config.maxConcurrent s.events.sent)
    (P := fun s => ∀ events rest, s.events.sent = events ++ rest →
      OpenWithin config.maxConcurrent events) h (fun _ h => openWithin_reachable h) ?_ ?_
  · -- The opening event is about no request.
    intro events rest heq
    have hopening : ∀ e ∈ events, e.startedId = none ∧ e.finishedBytes = none := by
      intro e he
      have hmem : e ∈ (System.start opening heap config chunks).events.sent := by
        rw [heq]
        exact List.mem_append_left rest he
      rw [List.mem_singleton.mp hmem]
      exact ⟨rfl, rfl⟩
    obtain ⟨hstarted, hfinished⟩ := counts_of_quiet hopening
    rw [OpenWithin, hstarted, hfinished]
    exact ⟨le_rfl, Nat.zero_le _⟩
  · intro s a s' _ hall hP _ hmoves
    have hnone : ∀ {t : System}, t.events.sent = s.events.sent →
        ∀ events rest, t.events.sent = events ++ rest → OpenWithin config.maxConcurrent events :=
      fun heq events rest h => hP events rest (heq ▸ h)
    cases effect_of_moves hmoves with
    | tick | loop | assignId | work | perform | receive | store => exact hnone rfl
    | track hrecv => exact hnone (Channel.past_recv hrecv).2
    | @send i w event =>
      have hsent : (s.sendOutbox i w event).events.sent = s.events.sent ++ [event] := rfl
      exact openWithin_prefix hsent (Or.inl le_rfl) hP hall
    | commit =>
      refine openWithin_prefix rfl (Or.inl ?_) hP hall
      split <;> simp
    | @join order =>
      refine openWithin_prefix rfl (Or.inr fun e he => ?_) hP hall
      obtain ⟨conn, -, rfl⟩ := List.mem_map.mp he
      exact ⟨rfl, rfl⟩

/-- Two workers, each with a request in its hands. -/
theorem concurrency_bounded_two_workers :
    ∃ s, (benchmark .plain .ofList (.unlimited 2 4)
        [⟨0, 0, 7, .urgent⟩, ⟨1, 8, 15, .urgent⟩]).Reachable TransitionSystem.any s ∧
      startedCount s.events.sent = 2 ∧
      (∀ events rest, s.events.sent = events ++ rest →
        finishedCount events ≤ startedCount events ∧
          startedCount events ≤ finishedCount events + 2) := by
  obtain ⟨s, hs, htwo⟩ := TransitionSystem.exists_reachable_of_run
    (benchmark .plain .ofList (.unlimited 2 4) [⟨0, 0, 7, .urgent⟩, ⟨1, 8, 15, .urgent⟩])
    TransitionSystem.any
    ([.advance 0, .advance 1, .pop 0 [], .pop 1 []] ++ Label.advances 0 3 ++ Label.advances 1 3)
    (P := fun s => startedCount s.events.sent = 2) (by decide)
  exact ⟨s, hs, htwo, concurrency_bounded hs⟩

end FrontierSim
