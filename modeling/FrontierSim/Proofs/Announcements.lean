import FrontierSim.Proofs.Attempts
import Mathlib.Data.List.Forall2

/-!
# `FrontierSim.Proofs.Announcements`: the attempts in the trace

The trace announces every request with a `RequestStarted` event, and every retry with a
`RequestResumed` event. `Traced` is the invariant that reads these events back: the
started events of a chunk are, in order, its committed requests and the one that a worker
has announced and not committed, and the resumed events are, in order, the retries.

`Worker.announced` is the request whose started event was sent. `attempts_cases` says how
a step changes it, the commits and the two kinds of events.
-/

set_option autoImplicit false

namespace FrontierSim

open Lib

namespace System

/-- The announcements in the trace, in order. -/
def started (s : System) : List RequestStarted := s.events.sent.filterMap TraceEvent.started?

/-- The retries in the trace, in order. -/
def resumed (s : System) : List RequestResumed := s.events.sent.filterMap TraceEvent.resumed?

/-- The started events of a chunk, in order. -/
def startedAt (s : System) (id : Nat) : List RequestStarted :=
  s.started.filter fun e => e.chunkId = id

end System

/-- The request that the worker has announced and not committed. A worker with page size
zero panics before it announces anything. -/
def Worker.announced (w : Worker) : Option Request :=
  match w.phase, w.outbox with
  | .ready req, none => some req
  | .performing req .., _ | .finishing req .., _ | .reporting req .., _ | .committing req .., _ =>
    some req
  | .panicked req, _ => if w.handler.pageSize = 0 then none else some req
  | _, _ => none

/-- The announced request of worker `i`. -/
def announcedAt (ws : List Worker) (i : Nat) : Option Request := ws[i]?.bind Worker.announced

/-- The worker at place `i` has announced what `announcedAt` says. -/
theorem announcedAt_eq {ws : List Worker} {i : Nat} {w : Worker} (hw : ws[i]? = some w) :
    announcedAt ws i = w.announced := by
  rw [announcedAt, hw, Option.bind_some]

/-- When worker `i` changes, only its announcement changes. -/
theorem announcedAt_set {ws : List Worker} {i : Nat} {w : Worker} (hw : ws[i]? = some w)
    (w' : Worker) :
    announcedAt (ws.set i w') = Function.update (announcedAt ws) i w'.announced := by
  funext j
  by_cases hij : j = i
  · subst hij
    rw [Function.update_self, announcedAt_eq (getElem?_set_self hw)]
  · rw [Function.update_of_ne hij, announcedAt, List.getElem?_set_ne (Ne.symm hij), announcedAt]

/-- A worker that goes on with the same announcement changes none of them. -/
theorem announcedAt_set_of_eq {ws : List Worker} {i : Nat} {w w' : Worker}
    (hw : ws[i]? = some w) (heq : w'.announced = w.announced) :
    announcedAt (ws.set i w') = announcedAt ws := by
  rw [announcedAt_set hw, heq, ← announcedAt_eq hw, Function.update_eq_self]

/-- An announced request is the one that the worker has in hand. -/
theorem request_of_announced {w : Worker} {req : Request} (h : w.announced = some req) :
    w.phase.request = some req := by
  obtain ⟨handler, phase, outbox⟩ := w
  cases phase with
  | performing | finishing | reporting | committing => exact h
  | ready =>
    cases outbox with
    | none => exact h
    | some => cases h
  | panicked =>
    simp only [Worker.announced] at h
    split at h
    · cases h
    · exact h
  | _ => cases h

/-- A worker without a request has announced none that is not committed. -/
theorem announced_of_no_request {w : Worker} (h : w.phase.request = none) :
    w.announced = none := by
  cases hann : w.announced with
  | none => rfl
  | some req =>
    rw [request_of_announced hann] at h
    cases h

/-- An announced request is in the worker's hands. -/
theorem held_of_announced {w : Worker} {req : Request} (h : w.announced = some req) :
    w.held = some req.chunk :=
  held_of_request (request_of_announced h)

variable {heap : ChunkHeap} {config : ReactorConfig} {chunks : List ChunkRequest}
  {opening : RunStarted} {ok : System → Label → Prop} {s s' : System} {a : Label}

/-- The worker's own code announces nothing. -/
theorem announced_of_local {w w' : Worker} {now pageSize : Nat} {delivery : Option Delivery}
    (hcons : w.Consistent pageSize) (h : LocalMoves w now w' delivery) :
    w'.announced = w.announced := by
  obtain ⟨hsize, hphase⟩ := hcons
  cases h with
  | panicBegin hph hzero => simp [Worker.announced, hph, hzero]
  | begin hph => simp [Worker.announced, hph]
  | write hph => simp [Worker.announced, Worker.writeStep, hph]
  | header hph => simp [Worker.announced, hph]
  | body hph => simp [Worker.announced, hph]
  | panicReturn hph =>
    -- This worker got as far as `perform`, so its page size is not zero.
    rw [hph] at hphase
    have hpos := Nat.zero_lt_of_lt hphase.1.page
    simp [Worker.announced, hph, hsize, Nat.pos_iff_ne_zero.mp hpos]
  | «return» hph => simp [Worker.announced, hph]
  | finish hph => simp [Worker.announced, hph]
  | report hph => simp [Worker.announced, hph]

/-- Events that announce nothing. -/
def Quiet (new : List TraceEvent) : Prop :=
  new.filterMap TraceEvent.started? = [] ∧ new.filterMap TraceEvent.resumed? = []

/-- No event announces nothing. -/
theorem quiet_nil : Quiet [] := ⟨rfl, rfl⟩

/-- The announcements after events were appended to the trace. -/
theorem announcements_append (new : List TraceEvent)
    (hsent : s'.events.sent = s.events.sent ++ new) :
    s'.started = s.started ++ new.filterMap TraceEvent.started? ∧
      s'.resumed = s.resumed ++ new.filterMap TraceEvent.resumed? := by
  constructor
  · rw [System.started, hsent, List.filterMap_append, System.started]
  · rw [System.resumed, hsent, List.filterMap_append, System.resumed]

/-- Events that announce nothing leave both lists as they are. -/
theorem announcements_quiet {new : List TraceEvent} (hquiet : Quiet new)
    (hsent : s'.events.sent = s.events.sent ++ new) :
    s'.started = s.started ∧ s'.resumed = s.resumed := by
  have happend := announcements_append new hsent
  rwa [hquiet.1, hquiet.2, List.append_nil, List.append_nil] at happend

/-- Sending announces a request when it sends its started event, and nothing otherwise. -/
theorem announced_of_send {w : Worker} {event : TraceEvent} (hfits : w.Fits)
    (hout : w.outbox = some event) :
    (∃ req timestampNs, event = .requestStarted (req.started timestampNs) ∧
      w.held = some req.chunk ∧ w.announced = none ∧
      ({ w with outbox := none } : Worker).announced = some req) ∨
    (Quiet [event] ∧ ({ w with outbox := none } : Worker).announced = w.announced) := by
  have hpending := hfits event hout
  obtain ⟨handler, phase, outbox⟩ := w
  subst hout
  cases hpending with
  | started req timestampNs => exact Or.inl ⟨req, timestampNs, rfl, rfl, rfl, rfl⟩
  | page | partialPage | finished | prereq => exact Or.inr ⟨⟨rfl, rfl⟩, rfl⟩

/-- How a step changes the announced requests, the commits and the announcements. -/
theorem attempts_cases (hworkers : ∀ w ∈ s.workers, w.Consistent config.pageSize ∧ w.Fits)
    (h : Moves heap config s a s') :
    (announcedAt s'.workers = announcedAt s.workers ∧ s'.commits = s.commits ∧
      s'.started = s.started ∧ s'.resumed = s.resumed) ∨
    (∃ i w req timestampNs, s.workers[i]? = some w ∧ w.held = some req.chunk ∧
      w.announced = none ∧
      announcedAt s'.workers = Function.update (announcedAt s.workers) i (some req) ∧
      s'.commits = s.commits ∧ s'.started = s.started ++ [req.started timestampNs] ∧
      s'.resumed = s.resumed) ∨
    (∃ i req t fate, announcedAt s.workers i = some req ∧
      announcedAt s'.workers = Function.update (announcedAt s.workers) i none ∧
      s'.commits = s.commits ++ [⟨req.chunk, ⟨req.requestId, t⟩, fate⟩] ∧
      s'.started = s.started ∧
      s'.resumed = s.resumed ++
        match fate with
        | .retry entry => [req.resumed entry s.now]
        | _ => []) := by
  -- A worker that has no request has announced nothing.
  have hidle : ∀ {i : Nat} {w w' : Worker}, s.workers[i]? = some w → w.phase.request = none →
      w'.announced = none → announcedAt (s.workers.set i w') = announcedAt s.workers :=
    fun hw hnone hafter => announcedAt_set_of_eq hw
      (hafter.trans (announced_of_no_request hnone).symm)
  cases effect_of_moves h with
  | tick | receive | store => exact Or.inl ⟨rfl, rfl, rfl, rfl⟩
  | track hrecv =>
    have hsent := (Channel.past_recv hrecv).2
    refine Or.inl ⟨rfl, rfl, announcements_quiet quiet_nil ?_⟩
    rw [List.append_nil]
    exact hsent
  | join =>
    refine Or.inl ⟨rfl, rfl, announcements_quiet ⟨?_, ?_⟩ rfl⟩ <;>
    · rw [List.filterMap_eq_nil_iff]
      intro e he
      obtain ⟨conn, -, rfl⟩ := List.mem_map.mp he
      rfl
  | loop _ _ _ _ hw _ hbefore hnone =>
    exact Or.inl ⟨hidle hw (request_of_idle hbefore) (announced_of_no_request hnone), rfl, rfl, rfl⟩
  | assignId hw hout hph =>
    exact Or.inl ⟨hidle hw (by rw [hph]; rfl) rfl, rfl, rfl, rfl⟩
  | perform t hw hout hph =>
    refine Or.inl ⟨announcedAt_set_of_eq hw ?_, rfl, rfl, rfl⟩
    simp [Worker.announced, hph, hout]
  | work hw hout hlocal =>
    have hcons := (hworkers _ (List.mem_of_getElem? hw)).1
    have heq := announced_of_local hcons hlocal
    exact Or.inl ⟨announcedAt_set_of_eq hw heq, rfl, rfl, rfl⟩
  | @commit i w req t bytes isComplete hw hout hph =>
    have hreq : w.announced = some req := by simp [Worker.announced, hph]
    refine Or.inr (Or.inr ⟨i, req, t, _, (announcedAt_eq hw).trans hreq, announcedAt_set hw _,
      rfl, ?_⟩)
    obtain ⟨hstarted, hresumed⟩ := announcements_append _
      (show (s.commit heap config i w req t bytes isComplete).events.sent = _ from rfl)
    refine ⟨hstarted.trans ?_, hresumed.trans ?_⟩
    · cases s.shared.commitFate config.pageSize req.chunk bytes isComplete s.now <;>
        exact List.append_nil _
    · congr 1
      cases s.shared.commitFate config.pageSize req.chunk bytes isComplete s.now <;> rfl
  | @send i w event hw hout =>
    rcases announced_of_send (hworkers w (List.mem_of_getElem? hw)).2 hout with
      ⟨req, timestampNs, rfl, hheld, hnone, hsome⟩ | ⟨hquiet, heq⟩
    · obtain ⟨hstarted, hresumed⟩ := announcements_append _
        (show (s.sendOutbox i w (.requestStarted (req.started timestampNs))).events.sent = _ from
          rfl)
      refine Or.inr (Or.inl ⟨i, w, req, timestampNs, hw, hheld, hnone, ?_, rfl, hstarted,
        hresumed.trans (List.append_nil _)⟩)
      exact hsome ▸ announcedAt_set hw _
    · exact Or.inl ⟨announcedAt_set_of_eq hw heq, rfl, announcements_quiet hquiet rfl⟩

/-! ### The trace of a chunk -/

/-- The event announces the request. -/
def StartedBy (req : Request) (e : RequestStarted) : Prop :=
  ∃ timestampNs, e = req.started timestampNs

/-- The event announces the retry that the commit queued. -/
def ResumedBy (c : ChunkCommit) (e : RequestResumed) : Prop :=
  ∃ entry timestampNs, c.fate = .retry entry ∧ e = c.request.resumed entry timestampNs

/-- `cur` is the announced request for the chunk, if there is one. -/
def IsCurrent (ws : List Worker) (id : Nat) (cur : Option Request) : Prop :=
  ∀ req, cur = some req ↔ ∃ i, announcedAt ws i = some req ∧ req.chunk.chunkId = id

/-- What the announcements of a chunk are. -/
structure Traced (s : System) : Prop where
  started : ∀ id, ∃ cur, IsCurrent s.workers id cur ∧
    List.Forall₂ StartedBy ((s.commitsAt id).map ChunkCommit.request ++ cur.toList) (s.startedAt id)
  resumed : List.Forall₂ ResumedBy (s.commits.filter fun c => !c.fate.isFinal) s.resumed

/-- A new announcement is the last one of its chunk, and changes nothing for the others. -/
theorem startedAt_append {e : RequestStarted} (h : s'.started = s.started ++ [e]) (id : Nat) :
    s'.startedAt id = s.startedAt id ++ if e.chunkId = id then [e] else [] := by
  rw [System.startedAt, h, List.filter_append, System.startedAt]
  congr 1
  by_cases hid : e.chunkId = id <;> simp [hid]

/-- A new commit is the last one of its chunk, and changes nothing for the others. -/
theorem commitsAt_append {c : ChunkCommit} (h : s'.commits = s.commits ++ [c]) (id : Nat) :
    s'.commitsAt id = s.commitsAt id ++ if c.item.chunkId = id then [c] else [] := by
  rw [System.commitsAt, h, List.filter_append, System.commitsAt]
  congr 1
  by_cases hid : c.item.chunkId = id <;> simp [hid]

/-- Two workers whose announced requests are for one chunk are one worker. -/
theorem announced_exclusive {ids : List Nat} (hC : Conserved ids s) {i j : Nat}
    {req req' : Request} (hi : announcedAt s.workers i = some req)
    (hj : announcedAt s.workers j = some req') (hid : req.chunk.chunkId = req'.chunk.chunkId) :
    i = j := by
  obtain ⟨v, hv, hvreq⟩ := Option.bind_eq_some_iff.mp hi
  obtain ⟨w, hw, hwreq⟩ := Option.bind_eq_some_iff.mp hj
  exact hC.exclusive i j v w req.chunk req'.chunk hv hw (held_of_announced hvreq)
    (held_of_announced hwreq) hid

/-- A change of one worker that is not about the chunk. -/
theorem isCurrent_update_of_ne {ws ws' : List Worker} {id i : Nat} {cur x : Option Request}
    (hcur : IsCurrent ws id cur)
    (hupdate : announcedAt ws' = Function.update (announcedAt ws) i x)
    (hbefore : ∀ req ∈ announcedAt ws i, req.chunk.chunkId ≠ id)
    (hafter : ∀ req ∈ x, req.chunk.chunkId ≠ id) : IsCurrent ws' id cur := by
  intro req
  rw [hcur req]
  constructor
  · rintro ⟨j, hj, hid⟩
    refine ⟨j, ?_, hid⟩
    have hji : j ≠ i := by
      rintro rfl
      exact hbefore req hj hid
    rwa [hupdate, Function.update_of_ne hji]
  · rintro ⟨j, hj, hid⟩
    rw [hupdate] at hj
    by_cases hji : j = i
    · subst hji
      rw [Function.update_self] at hj
      exact absurd hid (hafter req hj)
    · rw [Function.update_of_ne hji] at hj
      exact ⟨j, hj, hid⟩

/-- A change of the one worker that is about the chunk. -/
theorem isCurrent_update_self {ws ws' : List Worker} {id i : Nat} {x : Option Request}
    (hupdate : announcedAt ws' = Function.update (announcedAt ws) i x)
    (hid : ∀ req ∈ x, req.chunk.chunkId = id)
    (hothers : ∀ j ≠ i, ∀ req ∈ announcedAt ws j, req.chunk.chunkId ≠ id) :
    IsCurrent ws' id x := by
  intro req
  constructor
  · intro hreq
    exact ⟨i, by rw [hupdate, Function.update_self, hreq], hid req hreq⟩
  · rintro ⟨j, hj, hrid⟩
    rw [hupdate] at hj
    by_cases hji : j = i
    · subst hji
      rwa [Function.update_self] at hj
    · rw [Function.update_of_ne hji] at hj
      exact absurd hrid (hothers j hji req hj)

/-- Worker `i` announces its request. -/
theorem startedAt_of_announce {ids : List Nat} (hT : Traced s) (hC : Conserved ids s) {i : Nat}
    {w : Worker} {req : Request} {timestampNs : Nat} (hw : s.workers[i]? = some w)
    (hheld : w.held = some req.chunk) (hnone : w.announced = none)
    (hann : announcedAt s'.workers = Function.update (announcedAt s.workers) i (some req))
    (hcommits : s'.commits = s.commits)
    (hstarted : s'.started = s.started ++ [req.started timestampNs]) (id : Nat) :
    ∃ cur, IsCurrent s'.workers id cur ∧
      List.Forall₂ StartedBy ((s'.commitsAt id).map ChunkCommit.request ++ cur.toList)
        (s'.startedAt id) := by
  obtain ⟨cur, hcur, hall⟩ := hT.started id
  have hnonei : announcedAt s.workers i = none := (announcedAt_eq hw).trans hnone
  rw [startedAt_append hstarted, System.commitsAt, hcommits]
  by_cases hid : req.chunk.chunkId = id
  · -- Whoever else announced a request for the chunk would hold it as well.
    have hothers : ∀ j ≠ i, ∀ r ∈ announcedAt s.workers j, r.chunk.chunkId ≠ id := by
      intro j hji r hj hrid
      obtain ⟨v, hv, hvreq⟩ := Option.bind_eq_some_iff.mp hj
      exact hji (hC.exclusive i j w v req.chunk r.chunk hw hv hheld (held_of_announced hvreq)
        (hid.trans hrid.symm)).symm
    have hcurnone : cur = none := by
      cases hc : cur with
      | none => rfl
      | some r =>
        obtain ⟨j, hj, hrid⟩ := (hcur r).mp hc
        by_cases hji : j = i
        · rw [hji, hnonei] at hj
          cases hj
        · exact absurd hrid (hothers j hji r hj)
    subst hcurnone
    refine ⟨some req, isCurrent_update_self hann ?_ hothers, ?_⟩
    · intro r hr
      cases hr
      exact hid
    · rw [show (req.started timestampNs).chunkId = id from hid, if_pos rfl]
      rw [Option.toList_none, List.append_nil] at hall
      exact List.rel_append hall (.cons ⟨timestampNs, rfl⟩ .nil)
  · refine ⟨cur, isCurrent_update_of_ne hcur hann ?_ ?_, ?_⟩
    · intro r hr
      rw [hnonei] at hr
      cases hr
    · intro r hr
      cases hr
      exact hid
    · rw [show (req.started timestampNs).chunkId = req.chunk.chunkId from rfl, if_neg hid,
        List.append_nil]
      exact hall

/-- Worker `i` commits the request that it announced. -/
theorem startedAt_of_commit {ids : List Nat} (hT : Traced s) (hC : Conserved ids s) {i : Nat}
    {req : Request} {t : Transfer} {fate : Fate PrioritizedChunk}
    (hreq : announcedAt s.workers i = some req)
    (hann : announcedAt s'.workers = Function.update (announcedAt s.workers) i none)
    (hcommits : s'.commits = s.commits ++ [⟨req.chunk, ⟨req.requestId, t⟩, fate⟩])
    (hstarted : s'.started = s.started) (id : Nat) :
    ∃ cur, IsCurrent s'.workers id cur ∧
      List.Forall₂ StartedBy ((s'.commitsAt id).map ChunkCommit.request ++ cur.toList)
        (s'.startedAt id) := by
  obtain ⟨cur, hcur, hall⟩ := hT.started id
  rw [commitsAt_append hcommits, System.startedAt, hstarted]
  by_cases hid : req.chunk.chunkId = id
  · have hcursome : cur = some req := (hcur req).mpr ⟨i, hreq, hid⟩
    subst hcursome
    refine ⟨none, isCurrent_update_self hann ?_ ?_, ?_⟩
    · intro r hr
      cases hr
    · intro j hji r hj hrid
      exact hji (announced_exclusive hC hj hreq (hrid.trans hid.symm))
    · rw [if_pos hid, List.map_append, Option.toList_none, List.append_nil]
      exact hall
  · refine ⟨cur, isCurrent_update_of_ne hcur hann ?_ ?_, ?_⟩
    · intro r hr
      rw [hreq] at hr
      cases hr
      exact hid
    · intro r hr
      cases hr
    · rw [if_neg hid, List.append_nil]
      exact hall

/-- One step keeps the announcements in line. A worker that announces is the only one that holds
the chunk (`Conserved`), so that the chunk had no announced request before; at the commit the
request moves from the worker to the commits. -/
theorem traced_step {ids : List Nat} (hT : Traced s) (hC : Conserved ids s)
    (hworkers : ∀ w ∈ s.workers, w.Consistent config.pageSize ∧ w.Fits)
    (hmoves : Moves heap config s a s') : Traced s' := by
  rcases attempts_cases hworkers hmoves with ⟨hann, hcommits, hstarted, hresumed⟩ |
    ⟨i, w, req, timestampNs, hw, hheld, hnone, hann, hcommits, hstarted, hresumed⟩ |
    ⟨i, req, t, fate, hreq, hann, hcommits, hstarted, hresumed⟩
  · constructor
    · intro id
      obtain ⟨cur, hcur, hall⟩ := hT.started id
      refine ⟨cur, fun r => by rw [hann]; exact hcur r, ?_⟩
      rwa [System.commitsAt, hcommits, System.startedAt, hstarted]
    · rw [hcommits, hresumed]
      exact hT.resumed
  · refine ⟨startedAt_of_announce hT hC hw hheld hnone hann hcommits hstarted, ?_⟩
    rw [hcommits, hresumed]
    exact hT.resumed
  · refine ⟨startedAt_of_commit hT hC hreq hann hcommits hstarted, ?_⟩
    rw [hcommits, hresumed, List.filter_append]
    refine List.rel_append hT.resumed ?_
    cases fate with
    | done | givenUp => exact .nil
    | retry entry => exact .cons ⟨entry, s.now, rfl, rfl⟩ .nil

/-- Before the first step nothing is announced, held or committed. -/
theorem traced_start : Traced (.start opening heap config chunks) := by
  constructor
  · intro id
    refine ⟨none, ?_, .nil⟩
    intro req
    constructor
    · intro h
      cases h
    · rintro ⟨i, hi, -⟩
      obtain ⟨w, hw, hreq⟩ := Option.bind_eq_some_iff.mp hi
      rw [List.eq_of_mem_replicate (List.mem_of_getElem? hw)] at hreq
      cases hreq
  · exact .nil

/-- In every reachable state the announcements of a chunk are those of its commits and of the
request in progress, in order. -/
theorem traced_reachable (hids : (chunks.map ChunkRequest.chunkId).Nodup)
    (h : (benchmark opening heap config chunks).Reachable ok s) : Traced s := by
  refine reachable_invariant_of
    (J := fun s => Conserved (chunks.map ChunkRequest.chunkId) s ∧
      ∀ w ∈ s.workers, w.Consistent config.pageSize ∧ w.Fits) h
    (fun _ h => ⟨conserved_of_tracked (booked_reachable h) (tracked_reachable hids h),
      consistent_reachable h⟩) traced_start ?_
  exact fun _ _ _ hJ _ hT _ hmoves => traced_step hT hJ.1 hJ.2 hmoves

end FrontierSim
