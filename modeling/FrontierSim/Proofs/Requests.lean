import FrontierSim.Proofs.Conservation
import FrontierSim.Proofs.Handler
import Mathlib.Logic.Function.Basic

/-!
# `FrontierSim.Proofs.Requests`: requests have distinct ids

`requestAt` reads off the request that each worker works on. `request_moves` says how a step
changes it: a worker gets a request with the next id, or commits the one it has, or nothing
changes.

`Issued` follows: the ids below the counter are those of the commits and those in the workers'
hands. So they are distinct (`Numbered`), and whatever carries a request id has one owner.
-/

set_option autoImplicit false

namespace FrontierSim

open Lib

/-- The request with curl's answer to it, from the call of `perform` to the commit. -/
def Phase.answer : Phase → Option (Request × Transfer)
  | .performing req t .. | .finishing req t .. | .reporting req t .. | .committing req t .. =>
    some (req, t)
  | _ => none

/-- A worker holds the chunk of its request. -/
theorem held_of_request {phase : Phase} {req : Request} (h : phase.request = some req) :
    phase.held = some req.chunk := by
  cases phase <;> cases h <;> rfl

/-- A worker in its loop control has no request. -/
theorem request_of_idle {phase : Phase} (h : phase.idle = true) : phase.request = none := by
  cases phase <;> first | rfl | cases h

/-- A worker that has an answer has the request that was answered. -/
theorem request_of_answer {phase : Phase} {req : Request} {t : Transfer}
    (h : phase.answer = some (req, t)) : phase.request = some req := by
  cases phase with
  | performing | finishing | reporting | committing =>
    cases h
    rfl
  | _ => cases h

/-- The request of worker `i`. -/
def requestAt (ws : List Worker) (i : Nat) : Option Request := ws[i]?.bind fun w => w.phase.request

/-- The request of worker `i` can be read off its phase. -/
theorem requestAt_of_phase {ws : List Worker} {i : Nat} {w : Worker} (hw : ws[i]? = some w)
    {phase : Phase} (hph : w.phase = phase) : requestAt ws i = phase.request := by
  rw [requestAt, hw, Option.bind_some, hph]

/-- A request belongs to some worker. -/
theorem exists_of_requestAt {ws : List Worker} {i : Nat} {req : Request}
    (h : requestAt ws i = some req) :
    ∃ w, ws[i]? = some w ∧ w.phase.request = some req :=
  Option.bind_eq_some_iff.mp h

/-- When worker `i` changes, only its request changes. -/
theorem requestAt_set {ws : List Worker} {i : Nat} {w : Worker} (hw : ws[i]? = some w)
    (w' : Worker) :
    requestAt (ws.set i w') = Function.update (requestAt ws) i w'.phase.request := by
  funext j
  by_cases hij : j = i
  · subst hij
    rw [Function.update_self, requestAt, getElem?_set_self hw, Option.bind_some]
  · rw [Function.update_of_ne hij, requestAt, List.getElem?_set_ne (Ne.symm hij), requestAt]

/-- A worker that keeps its request. -/
theorem requestAt_set_of_eq {ws : List Worker} {i : Nat} {w w' : Worker} (hw : ws[i]? = some w)
    (heq : w'.phase.request = w.phase.request) : requestAt (ws.set i w') = requestAt ws := by
  rw [requestAt_set hw, heq, ← requestAt_of_phase hw rfl, Function.update_eq_self]

/-- The worker's own code keeps its request. -/
theorem request_of_local {w w' : Worker} {now : Nat} {delivery : Option Delivery}
    (h : LocalMoves w now w' delivery) : w'.phase.request = w.phase.request := by
  cases h <;> simp only [Worker.writeStep, *, Phase.request]

variable {heap : ChunkHeap} {config : ReactorConfig} {chunks : List ChunkRequest}
  {opening : RunStarted} {ok : System → Label → Prop} {s s' : System} {a : Label}

/-- How a step changes the requests and the commits: a worker gets a request with the next id,
or commits the one it has, or keeps what it has. -/
theorem request_moves (h : Moves heap config s a s') :
    ((s'.workers = s.workers ∨ ∃ (i : Nat) (w w' : Worker), s.workers[i]? = some w ∧
        w'.phase.request = w.phase.request ∧ s'.workers = s.workers.set i w') ∧
      s'.nextRequestId = s.nextRequestId ∧ s'.commits = s.commits) ∨
    (∃ (i : Nat) (w w' : Worker) (chunk : PrioritizedChunk), s.workers[i]? = some w ∧
      w.phase.request = none ∧ w'.phase.request = some ⟨s.nextRequestId, chunk⟩ ∧
      s'.workers = s.workers.set i w' ∧ s'.nextRequestId = s.nextRequestId + 1 ∧
      s'.commits = s.commits) ∨
    (∃ (i : Nat) (w w' : Worker) (req : Request) (t : Transfer) (bytes : Nat) (isComplete : Bool)
      (fate : Fate PrioritizedChunk), s.workers[i]? = some w ∧
      w.phase = .committing req t bytes isComplete ∧ w'.phase.request = none ∧
      s'.workers = s.workers.set i w' ∧ s'.nextRequestId = s.nextRequestId ∧
      s'.commits = s.commits ++ [⟨req.chunk, ⟨req.requestId, t⟩, fate⟩]) := by
  cases effect_of_moves h with
  | tick | track | receive | store | join => exact Or.inl ⟨Or.inl rfl, rfl, rfl⟩
  | loop _ _ _ _ hw _ hidle hnone =>
    exact Or.inl ⟨Or.inr ⟨_, _, _, hw, hnone.trans (request_of_idle hidle).symm, rfl⟩, rfl, rfl⟩
  | @send i w event hw hout =>
    exact Or.inl ⟨Or.inr ⟨i, w, { w with outbox := none }, hw, rfl, rfl⟩, rfl, rfl⟩
  | perform t hw hout hph =>
    exact Or.inl ⟨Or.inr ⟨_, _, _, hw, by rw [hph]; rfl, rfl⟩, rfl, rfl⟩
  | work hw hout hlocal =>
    exact Or.inl ⟨Or.inr ⟨_, _, _, hw, request_of_local hlocal, rfl⟩, rfl, rfl⟩
  | assignId hw hout hph =>
    exact Or.inr (Or.inl ⟨_, _, _, _, hw, by rw [hph]; rfl, rfl, rfl, rfl, rfl⟩)
  | commit hw hout hph =>
    exact Or.inr (Or.inr ⟨_, _, _, _, _, _, _, _, hw, hph, rfl, rfl, rfl, rfl⟩)

/-! ### The ids -/

/-- The ids of the requests in the workers' hands. -/
def requestIds (ws : List Worker) : List Nat :=
  ws.filterMap fun w => w.phase.request.map Request.requestId

/-- The id of a worker's request is among the ids in the workers' hands. -/
theorem mem_requestIds {ws : List Worker} {i : Nat} {req : Request}
    (h : requestAt ws i = some req) : req.requestId ∈ requestIds ws := by
  obtain ⟨w, hw, hreq⟩ := exists_of_requestAt h
  exact List.mem_filterMap.mpr ⟨w, List.mem_of_getElem? hw, by rw [hreq, Option.map_some]⟩

/-- Two workers whose requests have one id are one worker, when no id occurs twice. -/
theorem index_of_requestIds {ws : List Worker} (hnodup : (requestIds ws).Nodup) {i j : Nat}
    {req req' : Request} (hi : requestAt ws i = some req) (hj : requestAt ws j = some req')
    (hid : req.requestId = req'.requestId) : i = j := by
  rw [requestIds, List.Nodup, List.pairwise_filterMap, List.pairwise_iff_getElem] at hnodup
  obtain ⟨v, hv, hreq⟩ := exists_of_requestAt hi
  obtain ⟨w, hw, hreq'⟩ := exists_of_requestAt hj
  obtain ⟨hilt, rfl⟩ := List.getElem?_eq_some_iff.mp hv
  obtain ⟨hjlt, rfl⟩ := List.getElem?_eq_some_iff.mp hw
  have hmapi : (ws[i].phase.request.map Request.requestId) = some req.requestId := by
    rw [hreq, Option.map_some]
  have hmapj : (ws[j].phase.request.map Request.requestId) = some req'.requestId := by
    rw [hreq', Option.map_some]
  rcases Nat.lt_trichotomy i j with hlt | heq | hlt
  · exact absurd hid (hnodup i j hilt hjlt hlt _ hmapi _ hmapj)
  · exact heq
  · exact absurd hid.symm (hnodup j i hjlt hilt hlt _ hmapj _ hmapi)

/-- The ids below the counter are those of the commits and those in the workers' hands. -/
def Issued (s : System) : Prop :=
  1 ≤ s.nextRequestId ∧ (List.range' 1 (s.nextRequestId - 1) : Multiset Nat)
    = (s.commits.map fun c => c.note.requestId : List Nat) + (requestIds s.workers : Multiset Nat)

/-- One step keeps the count of ids. A new request takes the id at the counter, and a commit moves
an id from the worker to the commits. -/
theorem issued_step (hI : Issued s) (hmoves : Moves heap config s a s') : Issued s' := by
  obtain ⟨hpos, hids⟩ := hI
  rcases request_moves hmoves with ⟨hworkers, hnext, hcommits⟩ |
    ⟨i, w, w', chunk, hw, hnone, hreq, hworkers, hnext, hcommits⟩ |
    ⟨i, w, w', req, t, bytes, isComplete, fate, hw, hph, hnone, hworkers, hnext, hcommits⟩
  · refine ⟨hnext ▸ hpos, ?_⟩
    rw [hnext, hcommits, hids]
    rcases hworkers with heq | ⟨i, w, w', hw, hreq, heq⟩
    · rw [heq]
    · obtain ⟨rest, hws, hset⟩ :=
        coe_filterMap_set (fun w => w.phase.request.map Request.requestId) hw
      rw [requestIds, requestIds, heq, hset, hws, hreq]
  · -- The id of the counter goes to worker `i`.
    refine ⟨by omega, ?_⟩
    obtain ⟨rest, hws, hset⟩ :=
      coe_filterMap_set (fun w => w.phase.request.map Request.requestId) hw
    have hrange : List.range' 1 (s'.nextRequestId - 1)
        = List.range' 1 (s.nextRequestId - 1) ++ [s.nextRequestId] := by
      rw [show s'.nextRequestId - 1 = (s.nextRequestId - 1) + 1 by omega, List.range'_concat,
        show 1 + 1 * (s.nextRequestId - 1) = s.nextRequestId by omega]
    rw [hrange, hcommits, requestIds, hworkers, hset, ← Multiset.coe_add, hids, requestIds, hws,
      hnone, hreq]
    simp only [Option.map_some, Option.map_none, Option.toList_some, Option.toList_none,
      Multiset.coe_nil, zero_add]
    abel
  · -- The id in the hands of worker `i` becomes the id of its commit.
    refine ⟨hnext ▸ hpos, ?_⟩
    obtain ⟨rest, hws, hset⟩ :=
      coe_filterMap_set (fun w => w.phase.request.map Request.requestId) hw
    have hsome : w.phase.request = some req := by
      rw [hph]
      rfl
    rw [hnext, hcommits, List.map_append, requestIds, hworkers, hset, hids, requestIds, hws, hsome,
      hnone, ← Multiset.coe_add]
    simp only [Option.map_some, Option.map_none, Option.toList_some, Option.toList_none,
      Multiset.coe_nil, zero_add, List.map_singleton]
    abel

/-- In every reachable state each id below the counter was issued once. -/
theorem issued_reachable
    (h : (benchmark opening heap config chunks).Reachable ok s) : Issued s := by
  refine reachable_invariant h ⟨Nat.le_refl 1, ?_⟩ fun _ _ _ hI _ hmoves => issued_step hI hmoves
  -- No worker has a request yet.
  have hnone : requestIds (System.start opening heap config chunks).workers = [] := by
    rw [requestIds, List.filterMap_eq_nil_iff]
    intro w hw
    rw [List.eq_of_mem_replicate hw]
    rfl
  rw [hnone]
  rfl

/-- When no worker has a request in its hands, the commits have the ids from 1 on, up to their
number. -/
theorem issued_perm (h : (benchmark opening heap config chunks).Reachable ok s)
    (hnone : ∀ w ∈ s.workers, w.phase.request = none) :
    (s.commits.map fun c => c.note.requestId).Perm (List.range' 1 s.commits.length) := by
  obtain ⟨-, hids⟩ := issued_reachable h
  have hnil : requestIds s.workers = [] := by
    rw [requestIds, List.filterMap_eq_nil_iff]
    intro w hw
    rw [hnone w hw, Option.map_none]
  rw [hnil, Multiset.coe_nil, add_zero] at hids
  have hperm := Multiset.coe_eq_coe.mp hids
  have hlength := hperm.length_eq
  rw [List.length_range', List.length_map] at hlength
  rw [← hlength]
  exact hperm.symm

/-- The ids of the requests, held and committed, are distinct and below the counter. -/
structure Numbered (s : System) : Prop where
  fresh : ∀ i, ∀ req ∈ requestAt s.workers i, req.requestId < s.nextRequestId
  unique : ∀ i j, ∀ req ∈ requestAt s.workers i, ∀ req' ∈ requestAt s.workers j,
    req.requestId = req'.requestId → i = j
  commits_fresh : ∀ c ∈ s.commits, c.note.requestId < s.nextRequestId
  disjoint : ∀ c ∈ s.commits, ∀ i, ∀ req ∈ requestAt s.workers i,
    c.note.requestId ≠ req.requestId
  nodup : (s.commits.map fun c => c.note.requestId).Nodup

/-- The ids were issued once each. -/
theorem numbered_of_issued (hI : Issued s) : Numbered s := by
  obtain ⟨hpos, hids⟩ := hI
  have hperm := Multiset.coe_eq_coe.mp (hids.trans (Multiset.coe_add _ _))
  have hnodup := hperm.nodup_iff.mp List.nodup_range'
  obtain ⟨hcommits, hworkers, hdisjoint⟩ := List.nodup_append.mp hnodup
  have hfresh : ∀ id, (id ∈ s.commits.map fun c => c.note.requestId) ∨ id ∈ requestIds s.workers →
      id < s.nextRequestId := by
    intro id hid
    have hrange := hperm.mem_iff.mpr (List.mem_append.mpr hid)
    rw [List.mem_range'_1] at hrange
    omega
  constructor
  · exact fun i req hreq => hfresh _ (Or.inr (mem_requestIds hreq))
  · exact fun i j req hreq req' hreq' => index_of_requestIds hworkers hreq hreq'
  · exact fun c hc => hfresh _ (Or.inl (List.mem_map_of_mem hc))
  · exact fun c hc i req hreq =>
      hdisjoint _ (List.mem_map_of_mem hc) _ (mem_requestIds hreq)
  · exact hcommits

/-- In every reachable state the ids of all requests are distinct. -/
theorem numbered_reachable
    (h : (benchmark opening heap config chunks).Reachable ok s) : Numbered s :=
  numbered_of_issued (issued_reachable h)

end FrontierSim
