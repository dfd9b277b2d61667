import FrontierSim.Proofs.Pages
import FrontierSim.Proofs.Requests

/-!
# `FrontierSim.Proofs.Ledger`: what each request delivered and reported

`System.bytesOf` lists the file offsets of the body bytes that arrived for a request, and
`System.pagesOf` the pages that its events reported. `Recorded` states them: the bytes run
from `range_start` on, and the pages run from the page of `range_start` on, both without a
gap. `Ledger` is the invariant that gives the lengths, for the requests in the workers'
hands and for the committed ones.

So a committed request with a body of `n` bytes reported `pagesFor n` pages. That number
depends on `n` alone: neither the status of the response nor the position of `range_start`
in its page has a say.
-/

set_option autoImplicit false

namespace FrontierSim

open Lib

namespace System

/-- The file offsets that the deliveries for a request cover, in order of arrival. -/
def bytesOf (s : System) (requestId : Nat) : List Nat :=
  (s.delivered.filter fun d => d.requestId = requestId).flatMap fun d =>
    List.range' d.offset d.len

/-- The pages that the events of a request reported, in order. -/
def pagesOf (s : System) (requestId : Nat) : List Nat :=
  ((s.events.sent.filterMap TraceEvent.page?).filter fun e => e.requestId = requestId).map
    fun e => e.pageIndex

end System

/-- The page of the report that waits in the outbox. -/
def Worker.pendingPage (w : Worker) : Option Nat :=
  (w.outbox.bind TraceEvent.page?).map fun e => e.pageIndex

/-- `bytes` bytes arrived for the request, and `pages` pages are reported, of which
`pending` still waits in the outbox. -/
structure Recorded (pageSize : Nat) (s : System) (req : Request) (bytes pages : Nat)
    (pending : Option Nat) : Prop where
  bytes : s.bytesOf req.requestId = List.range' req.chunk.rangeStart bytes
  pages : s.pagesOf req.requestId ++ pending.toList
    = List.range' (req.chunk.rangeStart / pageSize) pages

/-- What is recorded for the request of a worker. -/
def Worker.Logged (pageSize : Nat) (s : System) (w : Worker) : Prop :=
  match w.phase with
  | .assigned req | .ready req => Recorded pageSize s req 0 0 none
  | .performing req _ _ remaining =>
    Recorded pageSize s req (w.handler.bytesReceived + remaining)
      (w.handler.currentPageIndex - req.chunk.rangeStart / pageSize) w.pendingPage
  | .finishing req t _ _ =>
    Recorded pageSize s req t.bodyBytes (pagesFor pageSize t.bodyBytes) w.pendingPage
  | .reporting req t _ _ | .committing req t _ _ =>
    Recorded pageSize s req t.bodyBytes (pagesFor pageSize t.bodyBytes) none
  | .panicked req =>
    ∃ bytes pages, pages * pageSize ≤ bytes ∧ Recorded pageSize s req bytes pages none
  | .loopHead | .locking | .sleeping | .popped _ | .exited => True

/-- The invariant. Nothing is recorded for an id that no request has. -/
structure Ledger (pageSize : Nat) (s : System) : Prop where
  workers : ∀ w ∈ s.workers, w.Logged pageSize s
  commits : ∀ c ∈ s.commits, Recorded pageSize s ⟨c.note.requestId, c.item⟩
    c.note.transfer.bodyBytes (pagesFor pageSize c.note.transfer.bodyBytes) none
  unowned : ∀ r, (∀ c ∈ s.commits, c.note.requestId ≠ r) →
    (∀ i, ∀ req ∈ requestAt s.workers i, req.requestId ≠ r) →
    s.bytesOf r = [] ∧ s.pagesOf r = []

/-! ### What a step records -/

/-- Two states that record the same for an id. -/
def SameFor (s s' : System) (r : Nat) : Prop :=
  s'.bytesOf r = s.bytesOf r ∧ s'.pagesOf r = s.pagesOf r

variable {pageSize : Nat} {s s' : System}

/-- Where no byte arrives and nothing is sent, the records stay. -/
theorem sameFor_of_eq (hdelivered : s'.delivered = s.delivered)
    (hsent : s'.events.sent = s.events.sent) (r : Nat) : SameFor s s' r := by
  constructor
  · rw [System.bytesOf, hdelivered, System.bytesOf]
  · rw [System.pagesOf, hsent, System.pagesOf]

/-- A record depends on the bytes and pages of its own id only. -/
theorem Recorded.of_same {req : Request} {bytes pages : Nat} {pending : Option Nat}
    (h : Recorded pageSize s req bytes pages pending) (hsame : SameFor s s' req.requestId) :
    Recorded pageSize s' req bytes pages pending :=
  ⟨hsame.1.trans h.bytes, by rw [hsame.2, h.pages]⟩

/-- With nothing in the outbox, the trace has all reports. -/
theorem Recorded.pages_sent {req : Request} {bytes pages : Nat}
    (h : Recorded pageSize s req bytes pages none) :
    s.pagesOf req.requestId = List.range' (req.chunk.rangeStart / pageSize) pages := by
  rw [← h.pages, Option.toList_none, List.append_nil]

/-- Appending events without a page report. -/
theorem sameFor_of_no_page {new : List TraceEvent} (hdelivered : s'.delivered = s.delivered)
    (hsent : s'.events.sent = s.events.sent ++ new) (hnew : ∀ e ∈ new, e.page? = none)
    (r : Nat) : SameFor s s' r := by
  constructor
  · rw [System.bytesOf, hdelivered, System.bytesOf]
  · rw [System.pagesOf, hsent, List.filterMap_append, List.filterMap_eq_nil_iff.mpr hnew,
      List.append_nil, System.pagesOf]

/-- A page event adds its page to the record of its request. -/
theorem pagesOf_append {e : PageCompleted}
    (hsent : s'.events.sent = s.events.sent ++ [.pageCompleted e]) (r : Nat) :
    s'.pagesOf r = s.pagesOf r ++ if e.requestId = r then [e.pageIndex] else [] := by
  unfold System.pagesOf
  rw [hsent, List.filterMap_append, List.filter_append, List.map_append]
  congr 1
  by_cases hr : e.requestId = r <;> simp [TraceEvent.page?, hr]

/-- A piece of a body adds its bytes to the record of its request. -/
theorem bytesOf_append {d : Delivery} (hdelivered : s'.delivered = s.delivered ++ [d]) (r : Nat) :
    s'.bytesOf r = s.bytesOf r ++ if d.requestId = r then List.range' d.offset d.len else [] := by
  unfold System.bytesOf
  rw [hdelivered, List.filter_append, List.flatMap_append]
  congr 1
  by_cases hr : d.requestId = r <;> simp [hr]

/-- What is recorded for a worker depends on what is recorded for its request. -/
theorem logged_of_same {w : Worker} (hw : w.Logged pageSize s)
    (hsame : ∀ req ∈ w.phase.request, SameFor s s' req.requestId) : w.Logged pageSize s' := by
  unfold Worker.Logged at *
  cases hph : w.phase with
  | loopHead | locking | sleeping | popped | exited => trivial
  | panicked req =>
    simp only [hph] at hw ⊢
    obtain ⟨bytes, pages, hle, hrec⟩ := hw
    exact ⟨bytes, pages, hle, hrec.of_same (hsame req (by rw [hph]; rfl))⟩
  | assigned req | ready req | performing req | finishing req | reporting req | committing req =>
    simp only [hph] at hw ⊢
    exact hw.of_same (hsame req (by rw [hph]; rfl))

/-- The ledger after worker `i` became `w'` and kept its request, when only that request
has new records. -/
theorem ledger_set {i : Nat} {w w' : Worker} (hL : Ledger pageSize s) (hN : Numbered s)
    (hw : s.workers[i]? = some w) (hworkers : s'.workers = s.workers.set i w')
    (hreq : w'.phase.request = w.phase.request) (hcommits : s'.commits = s.commits)
    (hsame : ∀ r, (∀ req ∈ w.phase.request, req.requestId ≠ r) → SameFor s s' r)
    (hlogged : w'.Logged pageSize s') : Ledger pageSize s' := by
  have hat : ∀ req ∈ w.phase.request, req ∈ requestAt s.workers i := fun req h => by
    rwa [requestAt_of_phase hw rfl]
  have hrequests : requestAt s'.workers = requestAt s.workers := by
    rw [hworkers, requestAt_set_of_eq hw hreq]
  constructor
  · intro v hv
    obtain ⟨j, hj⟩ := List.mem_iff_getElem?.mp (hworkers ▸ hv)
    rcases getElem?_setWorker hw hj with ⟨-, rfl⟩ | ⟨hji, hj⟩
    · exact hlogged
    · -- Another worker has another request, and so have the commits.
      refine logged_of_same (hL.workers v (List.mem_of_getElem? hj)) ?_
      intro req hreq'
      refine hsame _ fun r hr heq => hji ?_
      exact hN.unique j i req (by rwa [requestAt_of_phase hj rfl]) r (hat r hr) heq.symm
  · intro c hc
    rw [hcommits] at hc
    refine (hL.commits c hc).of_same (hsame _ fun r hr heq => ?_)
    exact hN.disjoint c hc i r (hat r hr) heq.symm
  · intro r hnocommit hnoworker
    rw [hcommits] at hnocommit
    rw [hrequests] at hnoworker
    obtain ⟨hbytes, hpages⟩ := hL.unowned r hnocommit hnoworker
    have := hsame r fun req hr => hnoworker i req (hat req hr)
    exact ⟨this.1.trans hbytes, this.2.trans hpages⟩

/-- The ledger when nothing is recorded and the workers stay as they are. -/
theorem ledger_of_same (hL : Ledger pageSize s) (hworkers : s'.workers = s.workers)
    (hcommits : s'.commits = s.commits) (hsame : ∀ r, SameFor s s' r) : Ledger pageSize s' := by
  constructor
  · intro w hw
    exact logged_of_same (hL.workers w (hworkers ▸ hw)) fun req _ => hsame _
  · intro c hc
    exact (hL.commits c (hcommits ▸ hc)).of_same (hsame _)
  · intro r hnocommit hnoworker
    rw [hcommits] at hnocommit
    rw [hworkers] at hnoworker
    obtain ⟨hbytes, hpages⟩ := hL.unowned r hnocommit hnoworker
    exact ⟨(hsame r).1.trans hbytes, (hsame r).2.trans hpages⟩

/-! ### The actions of a worker -/

/-- A report moves from the outbox to the trace. -/
theorem Recorded.send {req : Request} {bytes pages : Nat} {e : PageCompleted}
    (h : Recorded pageSize s req bytes pages (some e.pageIndex)) (hid : e.requestId = req.requestId)
    (hdelivered : s'.delivered = s.delivered)
    (hsent : s'.events.sent = s.events.sent ++ [.pageCompleted e]) :
    Recorded pageSize s' req bytes pages none := by
  constructor
  · rw [System.bytesOf, hdelivered]
    exact h.bytes
  · rw [pagesOf_append hsent, if_pos hid, Option.toList_none, List.append_nil]
    exact h.pages

/-- Sending moves the page that waited in the outbox into the record. -/
theorem logged_send {i : Nat} {w : Worker} {event : TraceEvent} (hfits : w.Fits)
    (hout : w.outbox = some event) (hlogged : w.Logged pageSize s) :
    ({ w with outbox := none } : Worker).Logged pageSize (s.sendOutbox i w event) ∧
      ∀ r, (∀ req ∈ w.phase.request, req.requestId ≠ r) →
        SameFor s (s.sendOutbox i w event) r := by
  have hpending := hfits event hout
  obtain ⟨handler, phase, outbox⟩ := w
  subst hout
  have hsilent : event.page? = none → ∀ r,
      SameFor s (s.sendOutbox i ⟨handler, phase, some event⟩ event) r :=
    fun hnone => sameFor_of_no_page rfl (show _ = s.events.sent ++ [event] from rfl)
      (by simpa using hnone)
  cases hpending with
  | started | finished | prereq =>
    exact ⟨hlogged.of_same (hsilent rfl _), fun r _ => hsilent rfl r⟩
  | page hid | partialPage hid =>
    refine ⟨hlogged.send hid rfl rfl, fun r hr => ⟨rfl, ?_⟩⟩
    rw [pagesOf_append rfl, if_neg (hid ▸ hr _ rfl), List.append_nil]

variable {req : Request} {t : Transfer} {now : Nat} {w w' : Worker}

/-- Where the page counter stands. -/
theorem Handling.index {h : WorkerHandler} (hh : Handling pageSize req h) :
    req.chunk.rangeStart / pageSize ≤ h.currentPageIndex ∧
      h.bytesReceived = (h.currentPageIndex - req.chunk.rangeStart / pageSize) * pageSize
        + h.currentPageBytes := by
  have hpage := hh.page
  have hpos := hh.position
  have hle : req.chunk.rangeStart / pageSize ≤ h.currentPageIndex := by
    -- A counter below the start would stand for a position before it.
    by_contra hlt
    have hsucc : h.currentPageIndex + 1 ≤ req.chunk.rangeStart / pageSize := by omega
    have hmul := Nat.mul_le_mul_right pageSize hsucc
    rw [Nat.succ_mul] at hmul
    omega
  refine ⟨hle, ?_⟩
  rw [Nat.sub_mul]
  have := Nat.mul_le_mul_right pageSize hle
  omega

/-- The pages from `a` on, with page `b` as the last one. -/
theorem range'_to_succ {a b : Nat} (hab : a ≤ b) :
    List.range' a (b - a + 1) = List.range' a (b - a) ++ [b] := by
  rw [List.range'_concat, Nat.one_mul, Nat.add_sub_cancel' hab]

/-- A pass of `write` moves bytes from the callback to the pages. -/
theorem logged_write {left : List Callback} {remaining : Nat} (hcons : w.Consistent pageSize)
    (hout : w.outbox = none) (hph : w.phase = .performing req t left remaining)
    (hlogged : w.Logged pageSize s) :
    (w.writeStep now req t left remaining).Logged pageSize s := by
  obtain ⟨hsize, hphase⟩ := hcons
  simp only [Worker.Logged, Worker.pendingPage, hph, hout] at hphase hlogged
  have hh := hphase.1
  obtain ⟨hle, -⟩ := hh.index
  have hpage : w.handler.currentPageBytes < w.handler.pageSize := hsize ▸ hh.page
  rcases Nat.lt_or_ge (w.handler.currentPageBytes + remaining) w.handler.pageSize with hlt | hge
  · simp only [Worker.writeStep, writePass_open now hlt]
    exact hlogged
  · -- The page is full. Its report is in the outbox, and the counter is one further.
    simp only [Worker.writeStep, writePass_full now hpage hge]
    constructor
    · rw [hlogged.bytes]
      simp only [WorkerHandler.consume, WorkerHandler.nextPage]
      congr 1
      omega
    · have hpages := hlogged.pages
      simp only [Option.bind_none, Option.map_none, Option.toList_none, List.append_nil] at hpages
      simp only [WorkerHandler.consume, WorkerHandler.nextPage, Nat.succ_sub hle]
      rw [range'_to_succ hle, hpages]
      rfl

/-- The end of `perform`. The last page is reported when it is partial. -/
theorem logged_return {expected : Nat} (hcons : w.Consistent pageSize) (hout : w.outbox = none)
    (hph : w.phase = .performing req t [] 0) (hlogged : w.Logged pageSize s) :
    ({ w with
        phase := .finishing req t w.handler.bytesReceived
          (decide (w.handler.bytesReceived ≥ expected))
        outbox := if w.handler.currentPageBytes > 0 then
            some (.pageCompleted (w.handler.pageCompleted now))
          else none } : Worker).Logged pageSize s := by
  obtain ⟨hsize, hphase⟩ := hcons
  simp only [Worker.Logged, Worker.pendingPage, hph, hout] at hphase hlogged ⊢
  obtain ⟨hh, hbytes, -⟩ := hphase
  have hbytes : w.handler.bytesReceived = t.bodyBytes := by simpa using hbytes
  obtain ⟨hle, hreceived⟩ := hh.index
  have hpages := hlogged.pages
  simp only [Option.bind_none, Option.map_none, Option.toList_none, List.append_nil] at hpages
  constructor
  · rw [hlogged.bytes, hbytes, Nat.add_zero]
  · rw [← hbytes, pagesFor_eq hreceived hh.page]
    split
    · rw [range'_to_succ hle, hpages]
      rfl
    · -- The body ends with a full page, which `write` has reported.
      simpa using hpages

/-- One action of the worker's own code, with the piece that it delivers. -/
theorem logged_local {i : Nat} {delivery : Option Delivery} (hcons : w.Consistent pageSize)
    (hout : w.outbox = none) (hlocal : LocalMoves w now w' delivery)
    (hlogged : w.Logged pageSize s) :
    w'.Logged pageSize (s.work i w' delivery) ∧
      ∀ r, (∀ req ∈ w.phase.request, req.requestId ≠ r) → SameFor s (s.work i w' delivery) r := by
  -- Without a delivery nothing is recorded.
  have hsilent : ∀ r, SameFor s (s.work i w' none) r :=
    sameFor_of_eq (List.append_nil _) rfl
  have hkeep : w'.Logged pageSize s → w'.Logged pageSize (s.work i w' none) ∧
      ∀ r, (∀ req ∈ w.phase.request, req.requestId ≠ r) → SameFor s (s.work i w' none) r :=
    fun hw' => ⟨logged_of_same hw' fun _ _ => hsilent _, fun r _ => hsilent r⟩
  cases hlocal with
  | @panicBegin req hph =>
    refine hkeep ?_
    simp only [Worker.Logged, hph] at hlogged ⊢
    exact ⟨0, 0, by simp, hlogged⟩
  | begin hph =>
    refine hkeep ?_
    simp only [Worker.Logged, hph] at hlogged ⊢
    exact hlogged
  | write hph => exact hkeep (logged_write hcons hout hph hlogged)
  | header hph =>
    refine hkeep ?_
    simp only [Worker.Logged, hph] at hlogged ⊢
    exact hlogged
  | @panicReturn req t hph =>
    refine hkeep ?_
    have hphase := hcons.2
    simp only [Worker.Logged, Worker.pendingPage, hph, hout] at hphase hlogged ⊢
    obtain ⟨-, hreceived⟩ := hphase.1.index
    exact ⟨_, _, by omega, hlogged⟩
  | «return» hph => exact hkeep (logged_return hcons hout hph hlogged)
  | finish hph =>
    refine hkeep ?_
    simp only [Worker.Logged, Worker.pendingPage, hph, hout] at hlogged ⊢
    exact hlogged
  | report hph =>
    refine hkeep ?_
    simp only [Worker.Logged, hph] at hlogged ⊢
    exact hlogged
  | @body req t len left hph =>
    constructor
    · simp only [Worker.Logged, Worker.pendingPage, hph, hout] at hlogged ⊢
      refine ⟨?_, hlogged.pages⟩
      rw [bytesOf_append rfl, if_pos rfl, hlogged.bytes, Nat.add_zero, List.range'_append_1]
    · intro r hr
      refine ⟨?_, rfl⟩
      rw [bytesOf_append rfl, if_neg (hr req (by rw [hph]; rfl)), List.append_nil]

/-! ### The steps of a run -/

variable {heap : ChunkHeap} {config : ReactorConfig} {chunks : List ChunkRequest}
  {opening : RunStarted} {ok : System → Label → Prop} {a : Label}

/-- The ledger when a worker gets a request with a fresh id. -/
theorem ledger_assign {i : Nat} {chunk : PrioritizedChunk} (hL : Ledger config.pageSize s)
    (hN : Numbered s) (hw : s.workers[i]? = some w) (hph : w.phase = .popped chunk) :
    Ledger config.pageSize (s.assignId i w chunk) := by
  -- Nobody has had this id, so nothing is recorded for it.
  have hfresh : s.bytesOf s.nextRequestId = [] ∧ s.pagesOf s.nextRequestId = [] := by
    refine hL.unowned _ (fun c hc heq => ?_) (fun j req hreq heq => ?_)
    · exact absurd (hN.commits_fresh c hc) (by omega)
    · exact absurd (hN.fresh j req hreq) (by omega)
  have hrequests : requestAt (s.assignId i w chunk).workers
      = Function.update (requestAt s.workers) i (some ⟨s.nextRequestId, chunk⟩) :=
    requestAt_set hw _
  have hsame : ∀ r, SameFor s (s.assignId i w chunk) r := sameFor_of_eq rfl rfl
  constructor
  · refine forall_setWorker
      (fun v hv => logged_of_same (hL.workers v hv) fun _ _ => hsame _) ?_
    exact Recorded.of_same ⟨hfresh.1, by rw [hfresh.2]; rfl⟩ (hsame s.nextRequestId)
  · exact fun c hc => (hL.commits c hc).of_same (hsame _)
  · intro r hnocommit hnoworker
    refine hL.unowned r hnocommit fun j req hreq => ?_
    -- Worker `i` had no request before.
    have hji : j ≠ i := by
      rintro rfl
      rw [requestAt_of_phase hw hph] at hreq
      cases hreq
    refine hnoworker j req ?_
    rwa [hrequests, Function.update_of_ne hji]

/-- The ledger when a worker commits its request. -/
theorem ledger_commit {i bytes : Nat} {isComplete : Bool} (hL : Ledger config.pageSize s)
    (hw : s.workers[i]? = some w) (hph : w.phase = .committing req t bytes isComplete) :
    Ledger config.pageSize (s.commit heap config i w req t bytes isComplete) := by
  have hsame : ∀ r, SameFor s (s.commit heap config i w req t bytes isComplete) r := by
    refine sameFor_of_no_page rfl rfl fun e he => ?_
    split at he
    · rw [List.mem_singleton.mp he]
      rfl
    · cases he
  have hlogged := hL.workers w (List.mem_of_getElem? hw)
  simp only [Worker.Logged, hph] at hlogged
  have hrequests : requestAt (s.commit heap config i w req t bytes isComplete).workers
      = Function.update (requestAt s.workers) i none :=
    requestAt_set hw _
  constructor
  · exact forall_setWorker (fun v hv => logged_of_same (hL.workers v hv) fun _ _ => hsame _)
      trivial
  · intro c hc
    rcases List.mem_append.mp hc with hc | hc
    · exact (hL.commits c hc).of_same (hsame _)
    · rw [List.mem_singleton.mp hc]
      exact hlogged.of_same (hsame _)
  · intro r hnocommit hnoworker
    obtain ⟨hbytes, hpages⟩ := hL.unowned r
      (fun c hc => hnocommit c (List.mem_append_left _ hc)) fun j r' hr' => by
        by_cases hji : j = i
        · -- The request of worker `i` is committed now.
          subst hji
          rw [requestAt_of_phase hw hph] at hr'
          cases hr'
          exact hnocommit _ (List.mem_append_right _ (List.mem_singleton_self _))
        · exact hnoworker j r' (by rwa [hrequests, Function.update_of_ne hji])
    exact ⟨(hsame r).1.trans hbytes, (hsame r).2.trans hpages⟩

/-- A worker without a request has nothing to keep a record of. -/
theorem logged_of_no_request {w : Worker} {phase : Phase} (hnone : phase.request = none) :
    ({ w with phase := phase } : Worker).Logged pageSize s := by
  cases phase <;> trivial

/-- One step keeps the ledger. It writes to the record of one request at most, the one in the hands
of the worker that moves, and the ids of all others differ from it (`Numbered`). -/
theorem ledger_step (hL : Ledger config.pageSize s) (hN : Numbered s)
    (hworkers : ∀ w ∈ s.workers, w.Consistent config.pageSize ∧ w.Fits)
    (hmoves : Moves heap config s a s') : Ledger config.pageSize s' := by
  have hloggedAt : ∀ {i : Nat} {w : Worker}, s.workers[i]? = some w →
      w.Logged config.pageSize s := fun hw => hL.workers _ (List.mem_of_getElem? hw)
  -- A worker that records nothing.
  have hsilent : ∀ {i : Nat} {w w' : Worker} {t : System}, s.workers[i]? = some w →
      t.workers = s.workers.set i w' → w'.phase.request = w.phase.request →
      t.commits = s.commits → t.delivered = s.delivered → t.events.sent = s.events.sent →
      w'.Logged config.pageSize s → Ledger config.pageSize t := by
    intro i w w' t hw hset hreq hcommits hdelivered hsent hlogged
    have hsame := sameFor_of_eq hdelivered hsent
    exact ledger_set hL hN hw hset hreq hcommits (fun r _ => hsame r)
      (logged_of_same hlogged fun _ _ => hsame _)
  cases effect_of_moves hmoves with
  | tick | receive | store =>
    exact ledger_of_same hL rfl rfl fun r => sameFor_of_eq rfl rfl r
  | track hrecv =>
    refine ledger_of_same hL rfl rfl (sameFor_of_eq rfl ?_)
    exact (Channel.past_recv hrecv).2
  | join =>
    refine ledger_of_same hL rfl rfl (sameFor_of_no_page rfl rfl fun e he => ?_)
    obtain ⟨conn, -, rfl⟩ := List.mem_map.mp he
    rfl
  | send hw hout =>
    obtain ⟨hlogged, hsame⟩ :=
      logged_send (hworkers _ (List.mem_of_getElem? hw)).2 hout (hloggedAt hw)
    exact ledger_set hL hN hw rfl rfl rfl hsame hlogged
  | loop _ _ _ _ hw _ hidle hnone =>
    exact hsilent hw rfl (hnone.trans (request_of_idle hidle).symm) rfl rfl rfl
      (logged_of_no_request hnone)
  | assignId hw hout hph => exact ledger_assign hL hN hw hph
  | commit hw hout hph => exact ledger_commit hL hw hph
  | perform t hw hout hph =>
    refine hsilent hw rfl (by rw [hph]; rfl) rfl rfl rfl ?_
    have hphase := (hworkers _ (List.mem_of_getElem? hw)).1.2
    have hlogged := hloggedAt hw
    simp only [Worker.Logged, Worker.pendingPage, hph, hout] at hphase hlogged ⊢
    -- Nothing is received yet, and the page counter stands at the start.
    obtain ⟨hh, hzero, -⟩ := hphase
    obtain ⟨-, hreceived⟩ := hh.index
    have hmul := hreceived.symm.trans hzero
    rw [Nat.add_eq_zero_iff, Nat.mul_eq_zero] at hmul
    have hpage := hh.page
    rw [hzero, hmul.1.resolve_right (by omega)]
    exact hlogged
  | work hw hout hlocal =>
    obtain ⟨hlogged, hsame⟩ := logged_local (hworkers _ (List.mem_of_getElem? hw)).1 hout
      hlocal (hloggedAt hw)
    exact ledger_set hL hN hw rfl (request_of_local hlocal) rfl hsame hlogged

/-- Before the first step nothing is recorded. -/
theorem ledger_start : Ledger config.pageSize (.start opening heap config chunks) := by
  constructor
  · intro w hw
    rw [List.eq_of_mem_replicate hw]
    trivial
  · exact fun c hc => absurd hc List.not_mem_nil
  · exact fun r _ _ => ⟨rfl, rfl⟩

/-- The ledger is right in every reachable state. -/
theorem ledger_reachable (h : (benchmark opening heap config chunks).Reachable ok s) :
    Ledger config.pageSize s :=
  reachable_invariant_of
    (J := fun s => Numbered s ∧ ∀ w ∈ s.workers, w.Consistent config.pageSize ∧ w.Fits) h
    (fun _ h => ⟨numbered_reachable h, consistent_reachable h⟩) ledger_start
    fun _ _ _ hJ _ hL _ hmoves => ledger_step hL hJ.1 hJ.2 hmoves

/-! ### The pages reported so far -/

/-- The event was sent, or waits in an outbox. -/
def System.Emitted (s : System) (e : TraceEvent) : Prop :=
  e ∈ s.events.sent ∨ ∃ w ∈ s.workers, w.outbox = some e

/-- A page in the record of a request was sent in a page event. -/
theorem mem_pagesOf {r p : Nat} :
    p ∈ s.pagesOf r ↔
      ∃ e, .pageCompleted e ∈ s.events.sent ∧ e.requestId = r ∧ e.pageIndex = p := by
  simp only [System.pagesOf, List.mem_map, List.mem_filter, List.mem_filterMap,
    TraceEvent.page?_eq_some, decide_eq_true_eq]
  constructor
  · rintro ⟨e, ⟨⟨_, hevent, rfl⟩, hr⟩, hp⟩
    exact ⟨e, hevent, hr, hp⟩
  · rintro ⟨e, hevent, hr, hp⟩
    exact ⟨e, ⟨⟨_, hevent, rfl⟩, hr⟩, hp⟩

/-- A page report that waits in the outbox is about the worker's own request. -/
theorem request_of_pending {phase : Phase} {e : PageCompleted}
    (h : Pending phase (.pageCompleted e)) :
    ∃ req, phase.request = some req ∧ e.requestId = req.requestId := by
  cases h with
  | page hid => exact ⟨_, rfl, hid⟩
  | partialPage hid => exact ⟨_, rfl, hid⟩

/-- A page event in the outbox is the page that waits. -/
theorem pendingPage_of_outbox {w : Worker} {e : PageCompleted}
    (hout : w.outbox = some (.pageCompleted e)) : w.pendingPage = some e.pageIndex := by
  rw [Worker.pendingPage, hout]
  rfl

/-- No page report waits in a phase that has none. -/
theorem pendingPage_eq_none {w : Worker} (hfits : w.Fits)
    (hno : ∀ e, ¬ Pending w.phase (.pageCompleted e)) : w.pendingPage = none := by
  rw [Worker.pendingPage, Option.map_eq_none_iff]
  cases hout : w.outbox with
  | none => rfl
  | some event =>
    cases hpage : event.page? with
    | none => exact hpage
    | some e =>
      rw [TraceEvent.page?_eq_some.mp hpage] at hout
      exact absurd (hfits _ hout) (hno e)

/-- What is recorded for a request that curl has answered: full pages only while `perform`
runs, and after it the pages of the whole body. -/
theorem recorded_of_answer {w : Worker} {req : Request} {t : Transfer}
    (hcons : w.Consistent pageSize) (hfits : w.Fits) (hlogged : w.Logged pageSize s)
    (hanswer : w.phase.answer = some (req, t)) :
    0 < pageSize ∧ ∃ bytes pages, Recorded pageSize s req bytes pages w.pendingPage ∧
      bytes ≤ t.bodyBytes ∧ (pages * pageSize ≤ bytes ∨
        (bytes = t.bodyBytes ∧ pages = pagesFor pageSize t.bodyBytes)) := by
  have hphase := hcons.2
  have hnone := pendingPage_eq_none hfits
  unfold Worker.Logged at hlogged
  cases hph : w.phase with
  | performing =>
    simp only [hph, Phase.answer, Option.some.injEq, Prod.mk.injEq] at hphase hlogged hanswer
    obtain ⟨rfl, rfl⟩ := hanswer
    obtain ⟨hh, hbytes, -⟩ := hphase
    obtain ⟨-, hreceived⟩ := hh.index
    exact ⟨Nat.zero_lt_of_lt hh.page, _, _, hlogged, by omega, Or.inl (by omega)⟩
  | finishing =>
    simp only [hph, Phase.answer, Option.some.injEq, Prod.mk.injEq] at hphase hlogged hanswer
    obtain ⟨rfl, rfl⟩ := hanswer
    exact ⟨Nat.zero_lt_of_lt hphase.1.page, _, _, hlogged, le_rfl, Or.inr ⟨rfl, rfl⟩⟩
  | reporting | committing =>
    simp only [hph, Phase.answer, Option.some.injEq, Prod.mk.injEq] at hphase hlogged hanswer
    obtain ⟨rfl, rfl⟩ := hanswer
    -- The last page was sent before the finished event was built.
    rw [hnone (by rw [hph]; exact fun e h => nomatch h)]
    exact ⟨hphase.1, _, _, hlogged, le_rfl, Or.inr ⟨rfl, rfl⟩⟩
  | _ => simp [hph, Phase.answer] at hanswer

/-- What is recorded for any request in a worker's hands. -/
theorem recorded_of_request {w : Worker} {req : Request} (hcons : w.Consistent pageSize)
    (hfits : w.Fits) (hlogged : w.Logged pageSize s) (hreq : w.phase.request = some req) :
    ∃ bytes pages pending, Recorded pageSize s req bytes pages pending ∧
      (pages * pageSize ≤ bytes ∨ ∃ t, w.phase.answer = some (req, t) ∧
        bytes = t.bodyBytes ∧ pages = pagesFor pageSize t.bodyBytes) := by
  have hanswered : ∀ t, w.phase.answer = some (req, t) →
      ∃ bytes pages pending, Recorded pageSize s req bytes pages pending ∧
        (pages * pageSize ≤ bytes ∨ ∃ t, w.phase.answer = some (req, t) ∧
          bytes = t.bodyBytes ∧ pages = pagesFor pageSize t.bodyBytes) := by
    intro t hanswer
    obtain ⟨-, bytes, pages, hrec, -, hpages⟩ := recorded_of_answer hcons hfits hlogged hanswer
    refine ⟨bytes, pages, _, hrec, hpages.imp id ?_⟩
    rintro ⟨hbytes, hpages⟩
    exact ⟨t, hanswer, hbytes, hpages⟩
  cases hph : w.phase with
  | performing req' t | finishing req' t | reporting req' t | committing req' t =>
    rw [hph] at hreq
    cases hreq
    rw [← hph]
    exact hanswered t (by rw [hph]; rfl)
  | assigned req' | ready req' =>
    rw [hph] at hreq
    cases hreq
    simp only [Worker.Logged, hph] at hlogged
    exact ⟨0, 0, none, hlogged, Or.inl (by simp)⟩
  | panicked req' =>
    rw [hph] at hreq
    cases hreq
    simp only [Worker.Logged, hph] at hlogged
    obtain ⟨bytes, pages, hle, hrec⟩ := hlogged
    exact ⟨bytes, pages, none, hrec, Or.inl hle⟩
  | _ =>
    rw [hph] at hreq
    cases hreq

end FrontierSim
