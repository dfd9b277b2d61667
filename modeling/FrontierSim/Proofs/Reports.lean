import FrontierSim.Proofs.Announcements

/-!
# `FrontierSim.Proofs.Reports`: every request is reported once

A worker sends one `RequestStarted`, one `RequestFinished` and one `RequestPrereq` event for
each of its requests, each at its own point of the loop. `OncePerRequest` says what these
three kinds of events have in common: `sent` reads off a worker what it has sent of the kind
for the request in its hands, and only sending such an event changes that.

`Balanced` follows by induction over the run. The events of the kind in the trace are
one for each commit, and the ones that `sent` gives. When no worker has a request in its
hands, the events and the commits correspond one to one.
-/

set_option autoImplicit false

namespace FrontierSim

open Lib

/-! ### One event of a kind for each request -/

/-- The kind of events that `kind` selects is sent once for each request. `sent` is what the
worker has sent of it, and `key` is what the event says about the request and the answer. -/
structure OncePerRequest {β : Type} (pageSize : Nat) (kind : TraceEvent → Option β)
    (sent : Worker → Option β) (key : Request → Transfer → β) : Prop where
  opening : ∀ e, kind (.runStarted e) = none
  resumed : ∀ e, kind (.requestResumed e) = none
  lifecycle : ∀ e, kind (.connectionLifecycle e) = none
  early : ∀ w : Worker, (w.phase.request = none ∨ ∃ req, w.phase = .assigned req) → sent w = none
  perform : ∀ (w : Worker) (req : Request) (t : Transfer), w.phase = .ready req →
    w.outbox = none → sent { w with phase := .performing req t t.callbacks 0 } = sent w
  work : ∀ (w w' : Worker) (now : Nat) (delivery : Option Delivery), w.Consistent pageSize →
    w.outbox = none → LocalMoves w now w' delivery → sent w' = sent w
  send : ∀ (w : Worker) (event : TraceEvent), w.outbox = some event → Pending w.phase event →
    (sent { w with outbox := none }).toList = (sent w).toList ++ (kind event).toList
  commit : ∀ (w : Worker) (req : Request) (t : Transfer) (bytes : Nat) (isComplete : Bool),
    w.Consistent pageSize → w.outbox = none → w.phase = .committing req t bytes isComplete →
    sent w = some (key req t)

/-- A part of what the events say is told once for each request as well. -/
theorem OncePerRequest.map {β γ : Type} {pageSize : Nat} {kind : TraceEvent → Option β}
    {sent : Worker → Option β} {key : Request → Transfer → β}
    (h : OncePerRequest pageSize kind sent key) (part : β → γ) :
    OncePerRequest pageSize (fun e => (kind e).map part) (fun w => (sent w).map part)
      (fun req t => part (key req t)) where
  opening e := by rw [h.opening, Option.map_none]
  resumed e := by rw [h.resumed, Option.map_none]
  lifecycle e := by rw [h.lifecycle, Option.map_none]
  early w hw := by rw [h.early w hw, Option.map_none]
  perform w req t hph hout := by rw [h.perform w req t hph hout]
  work w w' now delivery hcons hout hlocal := by rw [h.work w w' now delivery hcons hout hlocal]
  send w event hout hpending := by
    have hsend := congrArg (List.map part) (h.send w event hout hpending)
    rwa [List.map_append, ← Option.toList_map, ← Option.toList_map, ← Option.toList_map] at hsend
  commit w req t bytes isComplete hcons hout hph := by
    rw [h.commit w req t bytes isComplete hcons hout hph, Option.map_some]

section Balance
variable {heap : ChunkHeap} {config : ReactorConfig} {chunks : List ChunkRequest}
  {opening : RunStarted} {ok : System → Label → Prop} {s s' : System} {a : Label} {β : Type}
  {pageSize : Nat} {kind : TraceEvent → Option β} {sent : Worker → Option β}
  {key : Request → Transfer → β}

/-- What the trace holds of a kind of events. -/
def System.reports (s : System) (kind : TraceEvent → Option β) : List β :=
  s.events.sent.filterMap kind

/-- What the events of the kind say about the commits. -/
def System.reported (s : System) (key : Request → Transfer → β) : List β :=
  s.commits.map fun c => key c.request c.note.transfer

/-- What was sent is what the commits report, and what the workers have sent since. -/
def Balanced (kind : TraceEvent → Option β) (sent : Worker → Option β)
    (key : Request → Transfer → β) (s : System) : Prop :=
  (s.reports kind : Multiset β)
    = (s.reported key : Multiset β) + (s.workers.filterMap sent : Multiset β)

/-- The reports of the events that were sent since come last. -/
theorem reports_append {new : List TraceEvent} (hsent : s'.events.sent = s.events.sent ++ new) :
    s'.reports kind = s.reports kind ++ new.filterMap kind := by
  rw [System.reports, hsent, List.filterMap_append, System.reports]

/-- Events of other kinds. -/
theorem reports_silent {new : List TraceEvent} (hsent : s'.events.sent = s.events.sent ++ new)
    (hnone : ∀ e ∈ new, kind e = none) : s'.reports kind = s.reports kind := by
  rw [reports_append hsent, List.filterMap_eq_nil_iff.mpr hnone, List.append_nil]

/-- A step that neither sends nor commits, after which the worker has sent what it had. -/
theorem balanced_of_same (hB : Balanced kind sent key s) {i : Nat} {w w' : Worker}
    (hw : s.workers[i]? = some w) (heq : sent w' = sent w)
    (hset : s'.workers = s.workers.set i w') (hcommits : s'.commits = s.commits)
    (hevents : s'.events = s.events) : Balanced kind sent key s' := by
  obtain ⟨rest, hws, hws'⟩ := coe_filterMap_set sent hw
  unfold Balanced at hB ⊢
  rw [hset, hws', heq, ← hws, System.reports, hevents, System.reported, hcommits]
  exact hB

/-- The event joins the trace and what worker `i` has sent. -/
theorem balanced_send (hO : OncePerRequest pageSize kind sent key) (hB : Balanced kind sent key s)
    {i : Nat} {w : Worker} {event : TraceEvent} (hw : s.workers[i]? = some w)
    (hout : w.outbox = some event) (hfits : w.Fits) :
    Balanced kind sent key (s.sendOutbox i w event) := by
  obtain ⟨rest, hws, hset⟩ := coe_filterMap_set sent hw
  have hkind : (s.sendOutbox i w event).reports kind
      = s.reports kind ++ (kind event).toList := by
    rw [reports_append rfl]
    cases hkind : kind event <;> simp [hkind]
  have hreported : (s.sendOutbox i w event).reported key = s.reported key := rfl
  unfold Balanced at hB ⊢
  show (((s.sendOutbox i w event).reports kind : List β) : Multiset β)
    = _ + ((s.workers.set i { w with outbox := none }).filterMap sent : Multiset β)
  rw [hkind, hset, hO.send w event hout (hfits event hout), hreported, ← Multiset.coe_add, hB, hws,
    ← Multiset.coe_add]
  abel

/-- What worker `i` has sent becomes the report of its commit. -/
theorem balanced_commit (hO : OncePerRequest config.pageSize kind sent key)
    (hB : Balanced kind sent key s) {i : Nat} {w : Worker} {req : Request} {t : Transfer}
    {bytes : Nat} {isComplete : Bool} (hw : s.workers[i]? = some w) (hout : w.outbox = none)
    (hph : w.phase = .committing req t bytes isComplete)
    (hcons : w.Consistent config.pageSize) :
    Balanced kind sent key (s.commit heap config i w req t bytes isComplete) := by
  obtain ⟨rest, hws, hset⟩ := coe_filterMap_set sent hw
  have hkind : (s.commit heap config i w req t bytes isComplete).reports kind
      = s.reports kind := by
    refine reports_silent rfl ?_
    intro e he
    split at he
    · rw [List.mem_singleton.mp he]
      exact hO.resumed _
    · cases he
  have hreported : (s.commit heap config i w req t bytes isComplete).reported key
      = s.reported key ++ [key req t] := by
    rw [System.reported, System.commit, List.map_append, System.reported]
    rfl
  unfold Balanced at hB ⊢
  show (((s.commit heap config i w req t bytes isComplete).reports kind : List β) : Multiset β)
    = _ + ((s.workers.set i { w with phase := .loopHead }).filterMap sent : Multiset β)
  rw [hkind, hset, hreported, hO.early _ (Or.inl rfl), hB, hws,
    hO.commit w req t bytes isComplete hcons hout hph, ← Multiset.coe_add]
  simp only [Option.toList_some, Option.toList_none, Multiset.coe_nil, zero_add]
  abel

/-- One step keeps the balance. A worker that sends an event of the kind has then sent it, and its
commit moves the report from the worker to the commits. -/
theorem balanced_step (hO : OncePerRequest config.pageSize kind sent key)
    (hworkers : ∀ w ∈ s.workers, w.Consistent config.pageSize ∧ w.Fits)
    (hB : Balanced kind sent key s) (hmoves : Moves heap config s a s') :
    Balanced kind sent key s' := by
  cases effect_of_moves hmoves with
  | tick | receive | store => exact hB
  | track hrecv =>
    rw [Balanced, System.reports, (Channel.past_recv hrecv).2]
    exact hB
  | join =>
    rw [Balanced, reports_silent rfl]
    · exact hB
    · intro e he
      obtain ⟨conn, -, rfl⟩ := List.mem_map.mp he
      exact hO.lifecycle _
  | loop _ _ _ _ hw _ hidle hnone =>
    refine balanced_of_same hB hw ?_ rfl rfl rfl
    exact (hO.early _ (Or.inl hnone)).trans (hO.early _ (Or.inl (request_of_idle hidle))).symm
  | assignId hw _ hph =>
    refine balanced_of_same hB hw ?_ rfl rfl rfl
    exact (hO.early _ (Or.inr ⟨_, rfl⟩)).trans (hO.early _ (Or.inl (by rw [hph]; rfl))).symm
  | perform t hw hout hph => exact balanced_of_same hB hw (hO.perform _ _ t hph hout) rfl rfl rfl
  | work hw hout hlocal =>
    have hcons := (hworkers _ (List.mem_of_getElem? hw)).1
    exact balanced_of_same hB hw (hO.work _ _ _ _ hcons hout hlocal) rfl rfl rfl
  | send hw hout => exact balanced_send hO hB hw hout (hworkers _ (List.mem_of_getElem? hw)).2
  | commit hw hout hph =>
    exact balanced_commit hO hB hw hout hph (hworkers _ (List.mem_of_getElem? hw)).1

/-- In every reachable state the events of the kind are those of the commits and of the workers
that have sent theirs. -/
theorem balanced_reachable (hO : OncePerRequest config.pageSize kind sent key)
    (h : (benchmark opening heap config chunks).Reachable ok s) : Balanced kind sent key s := by
  refine reachable_invariant_of
    (J := fun s => ∀ w ∈ s.workers, w.Consistent config.pageSize ∧ w.Fits) h
    (fun _ => consistent_reachable) ?_ fun _ _ _ hJ _ hB _ hmoves => balanced_step hO hJ hB hmoves
  -- No worker has sent anything.
  have hnone : (System.start opening heap config chunks).workers.filterMap sent = [] := by
    rw [List.filterMap_eq_nil_iff]
    intro w hw
    rw [List.eq_of_mem_replicate hw]
    exact hO.early _ (Or.inl rfl)
  have hopening : (System.start opening heap config chunks).reports kind = [] :=
    List.filterMap_cons_none (hO.opening opening)
  rw [Balanced, hnone, hopening]
  rfl

/-- When no worker has sent an event of the kind for the request in its hands, the events of
the kind are one for each commit. -/
theorem reports_perm (hO : OncePerRequest config.pageSize kind sent key)
    (h : (benchmark opening heap config chunks).Reachable ok s)
    (hnone : ∀ w ∈ s.workers, sent w = none) : (s.reports kind).Perm (s.reported key) := by
  have hbalanced := balanced_reachable hO h
  rw [Balanced, List.filterMap_eq_nil_iff.mpr hnone, Multiset.coe_nil, add_zero] at hbalanced
  exact Multiset.coe_eq_coe.mp hbalanced

end Balance

/-! ### The kinds -/

/-- The event without its time. -/
def RequestFinished.untimed (e : RequestFinished) : RequestFinished := { e with timestampNs := 0 }

namespace TraceEvent

/-- The request that a `request_started` announces. -/
def startedId (e : TraceEvent) : Option Nat := e.started?.map fun e => e.requestId

/-- The id and the byte count of a `RequestFinished`. -/
def finishedBytes (e : TraceEvent) : Option (Nat × Nat) :=
  e.finished?.map fun e => (e.requestId, e.totalBytes)

/-- A `RequestFinished` without its time. -/
def finishedUntimed (e : TraceEvent) : Option RequestFinished :=
  e.finished?.map RequestFinished.untimed

/-- The request that a `request_prereq` describes. -/
def prereqId (e : TraceEvent) : Option Nat := e.prereq?.map fun e => e.requestId

end TraceEvent

namespace Worker

/-- What the worker has said in a `RequestFinished` about the request in its hands. -/
def sentFinished (w : Worker) : Option (Nat × Nat) :=
  match w.phase, w.outbox with
  | .reporting req _ bytes _, none => some (req.requestId, bytes)
  | .committing req _ bytes _, _ => some (req.requestId, bytes)
  | _, _ => none

/-- The whole `RequestFinished` that the worker has sent, without its time. -/
def sentFinal (w : Worker) : Option RequestFinished :=
  match w.phase, w.outbox with
  | .reporting req t bytes _, none => some (req.finished t bytes t.finalStatus 0)
  | .committing req t bytes _, _ => some (req.finished t bytes t.finalStatus 0)
  | _, _ => none

/-- The id of the request in the worker's hands, when its `RequestPrereq` was sent. -/
def sentPrereq (w : Worker) : Option Nat :=
  match w.phase, w.outbox with
  | .committing req .., none => some req.requestId
  | _, _ => none

end Worker

/-- `request_started` is sent once for each request. -/
theorem once_started (pageSize : Nat) :
    OncePerRequest pageSize TraceEvent.startedId
      (fun w => w.announced.map Request.requestId) (fun req _ => req.requestId) where
  resumed _ := rfl
  lifecycle _ := rfl
  opening _ := rfl
  early w h := by
    rw [Option.map_eq_none_iff]
    rcases h with hnone | ⟨req, hph⟩
    · exact announced_of_no_request hnone
    · simp [Worker.announced, hph]
  perform w req t hph hout := by simp [Worker.announced, hph, hout]
  work w w' now delivery hcons _ hlocal := by
    rw [announced_of_local hcons hlocal]
  send w event hout hpending := by
    obtain ⟨handler, phase, outbox⟩ := w
    subst hout
    cases hpending <;> rfl
  commit w req t bytes isComplete _ _ hph := by simp [Worker.announced, hph]

/-- `request_finished` is sent once for each request. All of its fields but the time follow from the
request and from curl's answer. -/
theorem once_final (pageSize : Nat) :
    OncePerRequest pageSize TraceEvent.finishedUntimed Worker.sentFinal
      (fun req t => req.finished t t.bodyBytes t.finalStatus 0) where
  resumed _ := rfl
  lifecycle _ := rfl
  opening _ := rfl
  early w h := by
    obtain ⟨handler, phase, outbox⟩ := w
    rcases h with hnone | ⟨req, rfl⟩
    · cases phase <;> first | rfl | cases hnone
    · rfl
  perform w req t hph _ := by simp [Worker.sentFinal, hph]
  work w w' now delivery _ hout hlocal := by
    cases hlocal <;> simp_all [Worker.sentFinal, Worker.writeStep]
  send w event hout hpending := by
    obtain ⟨handler, phase, outbox⟩ := w
    subst hout
    cases hpending <;> rfl
  commit w req t bytes isComplete hcons _ hph := by
    obtain ⟨-, hphase⟩ := hcons
    rw [hph] at hphase
    simp only [Worker.sentFinal, hph, hphase.2.bytes]

/-- The same with the id and the byte count alone. -/
theorem once_finished (pageSize : Nat) :
    OncePerRequest pageSize TraceEvent.finishedBytes Worker.sentFinished
      (fun req t => (req.requestId, t.bodyBytes)) := by
  have hkind : TraceEvent.finishedBytes
      = fun e => e.finishedUntimed.map fun f => (f.requestId, f.totalBytes) := by
    funext e
    cases e <;> rfl
  have hsent : Worker.sentFinished
      = fun w => w.sentFinal.map fun f => (f.requestId, f.totalBytes) := by
    funext ⟨handler, phase, outbox⟩
    cases phase <;> cases outbox <;> rfl
  rw [hkind, hsent]
  exact (once_final pageSize).map _

/-- A worker that has sent a `RequestFinished` has the request in its hands. -/
theorem request_of_sentFinal {w : Worker} {f : RequestFinished} (h : w.sentFinal = some f) :
    ∃ req t bytes, w.phase.request = some req ∧ req.finished t bytes t.finalStatus 0 = f := by
  obtain ⟨handler, phase, outbox⟩ := w
  cases phase with
  | reporting req t bytes isComplete =>
    cases outbox with
    | none => exact ⟨req, t, bytes, rfl, Option.some.inj h⟩
    | some => cases h
  | committing req t bytes isComplete => exact ⟨req, t, bytes, rfl, Option.some.inj h⟩
  | _ => cases h

/-- `request_prereq` is sent once for each request. -/
theorem once_prereq (pageSize : Nat) :
    OncePerRequest pageSize TraceEvent.prereqId Worker.sentPrereq
      (fun req _ => req.requestId) where
  resumed _ := rfl
  lifecycle _ := rfl
  opening _ := rfl
  early w h := by
    obtain ⟨handler, phase, outbox⟩ := w
    rcases h with hnone | ⟨req, rfl⟩
    · cases phase <;> first | rfl | cases hnone
    · rfl
  perform w req t hph _ := by simp [Worker.sentPrereq, hph]
  work w w' now delivery _ hout hlocal := by
    cases hlocal <;> simp_all [Worker.sentPrereq, Worker.writeStep]
  send w event hout hpending := by
    obtain ⟨handler, phase, outbox⟩ := w
    subst hout
    cases hpending <;> rfl
  commit w req t bytes isComplete _ hout hph := by simp only [Worker.sentPrereq, hph, hout]

end FrontierSim
