import FrontierSim.Proofs.Selection
import FrontierSim.Proofs.Steps
import Mathlib.Algebra.Order.Group.Multiset
import Mathlib.Tactic.Abel

/-!
# `FrontierSim.Proofs.Conservation`: no chunk is lost or fetched twice

The reactor refines `Lib.WorkQueue`. `System.workQueue` forgets everything but the queue,
the chunks in the workers' hands and the commits. `workQueue_steps` shows that a step of
the run is a number of steps of the work queue: the pop section may discard entries and
takes at most one, the commit section closes or retries, and everything else is invisible.

So the invariants of the work queue hold of the run (`tracked_reachable`,
`covered_reachable`). `Booked` connects the history of commits with the shared state: the
completed set and the two outcome counters are read off the commits.

`chunk_conservation` assembles these facts.
-/

set_option autoImplicit false

namespace FrontierSim

open Lib

/-! ### The work queue of a run -/

/-- The chunks in the workers' hands. -/
def heldChunks (ws : List Worker) : Multiset PrioritizedChunk := ws.filterMap Worker.held

/-- The state as a work queue: the chunk queue, the chunks in the workers' hands, and the
commits. -/
def System.workQueue (s : System) : WorkQueue PrioritizedChunk CommitNote :=
  ⟨s.shared.chunkQueue, heldChunks s.workers, s.commits⟩

/-- What is read off the workers, with worker `i` singled out. -/
theorem coe_filterMap_set {β : Type} (f : Worker → Option β) {ws : List Worker} {i : Nat}
    {w : Worker} (hw : ws[i]? = some w) :
    ∃ rest : Multiset β, (ws.filterMap f : Multiset β) = ((f w).toList : Multiset β) + rest ∧
      ∀ w' : Worker, ((ws.set i w').filterMap f : Multiset β)
        = ((f w').toList : Multiset β) + rest := by
  obtain ⟨before, after, hws, hset⟩ := filterMap_set f hw
  have hsplit : ∀ x : List β, ((before ++ x ++ after : List β) : Multiset β)
      = (x : Multiset β) + ((before ++ after : List β)) := by
    intro x
    simp only [← Multiset.coe_add]
    abel
  refine ⟨((before ++ after : List β)), ?_, fun w' => ?_⟩
  · rw [hws, hsplit]
  · rw [hset w', hsplit]

/-- The held chunks, with worker `i` singled out. -/
theorem heldChunks_set {ws : List Worker} {i : Nat} {w : Worker} (hw : ws[i]? = some w) :
    ∃ rest : Multiset PrioritizedChunk,
      heldChunks ws = (w.held.toList : Multiset PrioritizedChunk) + rest ∧
      ∀ w' : Worker, heldChunks (ws.set i w')
        = (w'.held.toList : Multiset PrioritizedChunk) + rest :=
  coe_filterMap_set Worker.held hw

/-- A worker that keeps its chunk keeps the held chunks. -/
theorem heldChunks_of_held_eq {ws : List Worker} {i : Nat} {w : Worker} (w' : Worker)
    (hw : ws[i]? = some w) (heq : w'.held = w.held) :
    heldChunks (ws.set i w') = heldChunks ws := by
  obtain ⟨rest, hws, hset⟩ := heldChunks_set hw
  rw [hset w', hws, heq]

/-- A held chunk is in the hands of some worker. -/
theorem mem_heldChunks {ws : List Worker} {c : PrioritizedChunk} :
    c ∈ heldChunks ws ↔ ∃ (i : Nat) (w : Worker), ws[i]? = some w ∧ w.held = some c := by
  rw [heldChunks, Multiset.mem_coe, List.mem_filterMap]
  constructor
  · rintro ⟨w, hw, hheld⟩
    obtain ⟨i, hi⟩ := List.mem_iff_getElem?.mp hw
    exact ⟨i, w, hi, hheld⟩
  · rintro ⟨i, w, hi, hheld⟩
    exact ⟨w, List.mem_of_getElem? hi, hheld⟩

/-- The commits account for the completed set and for the counters of the outcomes. -/
structure Booked (s : System) : Prop where
  completed : ∀ id, id ∈ s.shared.completedChunks ↔
    ∃ c ∈ s.commits, c.fate.isDone = true ∧ c.item.chunkId = id
  failed : s.shared.failedChunks = s.commits.countP (fun c => c.fate.isGivenUp)

variable {heap : ChunkHeap} {config : ReactorConfig} {chunks : List ChunkRequest}
  {opening : RunStarted} {ok : System → Label → Prop} {s s' : System} {a : Label}

/-- Only the commit section touches the commits, the completed set, the counters and the
connection registry. -/
theorem ledger_cases (h : Moves heap config s a s') :
    (∃ i w req t bytes isComplete, s.workers[i]? = some w ∧ w.outbox = none ∧
      w.phase = .committing req t bytes isComplete ∧
      s' = s.commit heap config i w req t bytes isComplete) ∨
    (s'.commits = s.commits ∧ ∃ queue frontierByte timeExpired,
      s'.shared = { s.shared with
        chunkQueue := queue
        frontierByte := frontierByte
        timeExpired := timeExpired }) := by
  cases effect_of_moves h with
  | commit hw hout hph => exact Or.inl ⟨_, _, _, _, _, _, hw, hout, hph, rfl⟩
  | _ => exact Or.inr ⟨rfl, _, _, _, rfl⟩

/-- One step keeps the books. Only the commit section touches them, and its three fates are three
entries. -/
theorem booked_step (h : Booked s) (hmoves : Moves heap config s a s') : Booked s' := by
  rcases ledger_cases hmoves with ⟨i, w, req, t, bytes, isComplete, -, -, -, rfl⟩ |
    ⟨hcommits, queue, frontierByte, timeExpired, hshared⟩
  · simp only [System.commit, SharedState.commit]
    -- Which fate it is does not matter here, only what each one does to the books.
    generalize s.shared.commitFate config.pageSize req.chunk bytes isComplete s.now = fate
    cases fate with
    | done =>
      constructor
      · intro id
        simp only [SharedState.applyFate, Finset.mem_insert, h.completed id, List.mem_append,
          List.mem_singleton]
        constructor
        · rintro (rfl | ⟨c, hc, hdone, hid⟩)
          · exact ⟨_, Or.inr rfl, rfl, rfl⟩
          · exact ⟨c, Or.inl hc, hdone, hid⟩
        · rintro ⟨c, hc | rfl, hdone, hid⟩
          · exact Or.inr ⟨c, hc, hdone, hid⟩
          · exact Or.inl hid.symm
      · simpa [SharedState.applyFate, List.countP_append] using h.failed
    | retry entry =>
      constructor
      · intro id
        simp [SharedState.applyFate, h.completed id, or_and_right, exists_or]
      · simpa [SharedState.applyFate, List.countP_append] using h.failed
    | givenUp =>
      constructor
      · intro id
        simp [SharedState.applyFate, h.completed id, or_and_right, exists_or]
      · simpa [SharedState.applyFate, List.countP_append] using h.failed
  · constructor
    · rw [hcommits, hshared]
      exact h.completed
    · rw [hcommits, hshared]
      exact h.failed

/-- The books are right in every reachable state. -/
theorem booked_reachable (h : (benchmark opening heap config chunks).Reachable ok s) : Booked s :=
  reachable_invariant h ⟨by simp [System.start], rfl⟩
    fun _ _ _ hB _ hmoves => booked_step hB hmoves

/-! ### The refinement -/

/-- A chunk is queued again when it is not complete, the time has not expired, and attempts
are left. -/
theorem retry_of_commitFate {st : SharedState} {pageSize bytes now : Nat}
    {chunk entry : PrioritizedChunk} {isComplete : Bool}
    (h : st.commitFate pageSize chunk bytes isComplete now = .retry entry) :
    entry = retryEntry st.frontierByte pageSize chunk chunk.nextAttempt bytes now ∧
      isComplete = false ∧ st.timeExpired = false ∧ chunk.nextAttempt < MAX_ATTEMPTS := by
  unfold SharedState.commitFate at h
  split at h
  · cases h
  · rename_i hcomplete
    split at h
    · rename_i hretry
      cases h
      simp only [Bool.and_eq_true, Bool.not_eq_true', decide_eq_true_eq] at hretry
      exact ⟨rfl, Bool.eq_false_iff.mpr hcomplete, hretry⟩
    · cases h

/-- Discarding entries whose key is done. -/
theorem steps_discard {β κ : Type} {key : PrioritizedChunk → κ} {dropped : List PrioritizedChunk}
    {q h : Multiset PrioritizedChunk} {l : List (Commit PrioritizedChunk β)}
    (hdone : ∀ x ∈ dropped, ∃ c ∈ l, c.fate.isDone = true ∧ key c.item = key x) :
    WorkQueue.Steps key ⟨(dropped : Multiset PrioritizedChunk) + q, h, l⟩ ⟨q, h, l⟩ := by
  induction dropped with
  | nil => simpa using Relation.ReflTransGen.refl
  | cons x rest ih =>
    refine .head ?_ (ih fun y hy => hdone y (List.mem_cons_of_mem x hy))
    rw [← Multiset.cons_coe, Multiset.cons_add]
    exact .discard x _ h l (hdone x List.mem_cons_self)

/-- The pop section discards the entries that are gone and takes the one it found. -/
theorem steps_pop {β κ : Type} {key : PrioritizedChunk → κ} {found : Option PrioritizedChunk}
    {queue queue' dropped : List PrioritizedChunk} {h : Multiset PrioritizedChunk}
    {l : List (Commit PrioritizedChunk β)}
    (hperm : (found.toList ++ (queue' ++ dropped)).Perm queue)
    (hdone : ∀ x ∈ dropped, ∃ c ∈ l, c.fate.isDone = true ∧ key c.item = key x) :
    WorkQueue.Steps key ⟨queue, h, l⟩
      ⟨queue', (found.toList : Multiset PrioritizedChunk) + h, l⟩ := by
  have hsplit : (queue : Multiset PrioritizedChunk)
      = (dropped : Multiset PrioritizedChunk) + ((found.toList ++ queue' : List _)) := by
    rw [← Multiset.coe_eq_coe.mpr hperm]
    simp only [← Multiset.coe_add]
    abel
  rw [hsplit]
  refine .trans (steps_discard hdone) ?_
  cases found with
  | none => simpa using Relation.ReflTransGen.refl
  | some chunk =>
    exact Relation.ReflTransGen.single (.take chunk (queue' : Multiset PrioritizedChunk) h l)

/-- The work queue does not see a worker's action that leaves its chunk in its hands. -/
theorem workQueue_setWorker {i : Nat} {w : Worker} (w' : Worker) (hw : s.workers[i]? = some w)
    (heq : w'.held = w.held) : (s.setWorker i w').workQueue = s.workQueue := by
  simp only [System.workQueue, System.setWorker]
  rw [heldChunks_of_held_eq w' hw heq]

/-- The pop section discards completed entries, and takes the chunk that it finds. -/
theorem workQueue_pop (hB : Booked s) {i : Nat} {w : Worker} (ticks : List Nat)
    (hw : s.workers[i]? = some w) (hnone : w.held = none) :
    WorkQueue.Steps PrioritizedChunk.chunkId s.workQueue (s.popChunk heap i w ticks).workQueue := by
  unfold System.popChunk
  split
  · rw [workQueue_setWorker { w with phase := .exited } hw hnone.symm]
  · obtain ⟨dropped, hdropped, hperm⟩ :=
      (selects_popNext heap s.shared.completedChunks s.shared.chunkQueue ⟨s.now, ticks⟩).split
    obtain ⟨rest, hheld, hset⟩ := heldChunks_set hw
    have hdone : ∀ x ∈ dropped, ∃ c ∈ s.commits, c.fate.isDone = true ∧
        c.item.chunkId = x.chunkId :=
      fun x hx => (hB.completed _).mp (hdropped x hx).1
    simp only [System.workQueue, System.setWorker]
    rw [hset, hheld, hnone]
    simp only [Option.toList_none, Multiset.coe_nil, zero_add]
    convert steps_pop hperm hdone using 3
    cases (popNext heap s.shared.completedChunks s.shared.chunkQueue ⟨s.now, ticks⟩).1 <;> rfl

/-- The commit section closes the chunk or queues it again. -/
theorem workQueue_commit {i : Nat} {w : Worker} {req : Request} {t : Transfer} {bytes : Nat}
    {isComplete : Bool} (hw : s.workers[i]? = some w) (hsome : w.held = some req.chunk) :
    WorkQueue.Steps PrioritizedChunk.chunkId s.workQueue
      (s.commit heap config i w req t bytes isComplete).workQueue := by
  obtain ⟨rest, hheld, hset⟩ := heldChunks_set hw
  simp only [System.workQueue, System.commit, SharedState.commit, System.setWorker]
  rw [hset, hheld, hsome]
  simp only [Worker.held, Phase.held, Option.toList_some, Option.toList_none,
    Multiset.coe_nil, zero_add, Multiset.coe_singleton, Multiset.singleton_add]
  refine .single ?_
  cases hfate : s.shared.commitFate config.pageSize req.chunk bytes isComplete s.now with
  | done => exact .close req.chunk _ .done _ rest s.commits rfl
  | givenUp => exact .close req.chunk _ .givenUp _ rest s.commits rfl
  | retry entry =>
    simp only [SharedState.applyFate]
    rw [Multiset.coe_eq_coe.mpr (heap.push_perm s.shared.chunkQueue entry), ← Multiset.cons_coe]
    -- The retry entry keeps the chunk id.
    have hid : entry.chunkId = req.chunk.chunkId := by
      rw [(retry_of_commitFate hfate).1]
      rfl
    exact .retry req.chunk _ entry _ rest s.commits hid

/-- A step of the run is a number of steps of the work queue. -/
theorem workQueue_steps (hB : Booked s) (hmoves : Moves heap config s a s') :
    WorkQueue.Steps PrioritizedChunk.chunkId s.workQueue s'.workQueue := by
  -- An action that keeps the three components is invisible.
  have hsame : ∀ {t : System}, t.workQueue = s.workQueue →
      WorkQueue.Steps PrioritizedChunk.chunkId s.workQueue t.workQueue :=
    fun heq => heq ▸ .refl
  cases hmoves with
  | tick | track | receive | store | join => exact .refl
  | send hw hout => exact hsame (workQueue_setWorker _ hw rfl)
  | checkTime hw hout hph =>
    refine hsame ?_
    unfold System.checkTime
    split <;> exact workQueue_setWorker _ hw (held_of_phase hph).symm
  | recheck hw hout hph =>
    refine hsame ?_
    unfold System.recheck
    split <;> exact workQueue_setWorker _ hw (held_of_phase hph).symm
  | assignId hw hout hph => exact hsame (workQueue_setWorker _ hw (held_of_phase hph).symm)
  | work hw hout hlocal => exact hsame (workQueue_setWorker _ hw (held_of_localStep hlocal))
  | perform t hw hout hph => exact hsame (workQueue_setWorker _ hw (held_of_phase hph).symm)
  | pop ticks hw hout hph => exact workQueue_pop hB ticks hw (held_of_phase hph)
  | commit hw hout hph => exact workQueue_commit hw (held_of_phase hph)

/-- The entries that the run starts with. -/
def entries (chunks : List ChunkRequest) : List PrioritizedChunk :=
  chunks.map ChunkRequest.entry

/-- The entries have the ids of the plan. -/
theorem map_chunkId_entries (chunks : List ChunkRequest) :
    (entries chunks).map PrioritizedChunk.chunkId = chunks.map ChunkRequest.chunkId := by
  simp [entries, ChunkRequest.entry]

/-- The run starts with the plan in the queue, and with nothing held or committed. -/
theorem workQueue_start :
    (System.start opening heap config chunks).workQueue = WorkQueue.initial (entries chunks) := by
  have hheld : heldChunks (System.start opening heap config chunks).workers = 0 := by
    simp only [heldChunks, System.start]
    rw [List.filterMap_eq_nil_iff.mpr]
    · rfl
    · intro w hw
      rw [List.eq_of_mem_replicate hw]
      rfl
  unfold System.workQueue WorkQueue.initial
  rw [hheld]
  congr 1
  exact Multiset.coe_eq_coe.mpr (heap.pushAll_nil_perm _)

/-- The general invariant of work queues, for a plan with distinct ids. -/
theorem tracked_reachable (hids : (chunks.map ChunkRequest.chunkId).Nodup)
    (h : (benchmark opening heap config chunks).Reachable ok s) :
    WorkQueue.Tracked PrioritizedChunk.chunkId (entries chunks) s.workQueue := by
  refine reachable_invariant_of (J := Booked)
    (P := fun s => WorkQueue.Tracked PrioritizedChunk.chunkId (entries chunks) s.workQueue) h
    (fun _ => booked_reachable) ?_ ?_
  · rw [workQueue_start]
    exact WorkQueue.tracked_initial (by rwa [map_chunkId_entries])
  · intro s a s' hB _ hT _ hmoves
    exact hT.steps (workQueue_steps hB hmoves)

/-- The general invariant for plans with repeated ids: no id is lost. -/
theorem covered_reachable (h : (benchmark opening heap config chunks).Reachable ok s) :
    WorkQueue.Covered PrioritizedChunk.chunkId (entries chunks) s.workQueue := by
  refine reachable_invariant_of (J := Booked)
    (P := fun s => WorkQueue.Covered PrioritizedChunk.chunkId (entries chunks) s.workQueue) h
    (fun _ => booked_reachable) ?_ ?_
  · rw [workQueue_start]
    exact WorkQueue.covered_initial
  · intro s a s' hB _ hC _ hmoves
    exact hC.steps (workQueue_steps hB hmoves)

/-! ### Where a chunk is -/

namespace System

/-- The entries of the queue with an id. -/
def queuedAt (s : System) (id : Nat) : Nat :=
  s.shared.chunkQueue.countP fun c => c.chunkId = id

/-- The workers that popped a chunk with the id and have not committed it. -/
def heldAt (s : System) (id : Nat) : Nat :=
  s.workers.countP fun w => w.held.any fun c => c.chunkId = id

/-- 1 for a chunk in the completed set, 0 for another. -/
def completedAt (s : System) (id : Nat) : Nat :=
  if id ∈ s.shared.completedChunks then 1 else 0

/-- The ids of the chunks that were given up, in commit order. -/
def givenUp (s : System) : List Nat :=
  (s.commits.filter fun c => c.fate.isGivenUp).map fun c => c.item.chunkId

end System

/-- Each chunk is in one place, once. `failed_chunks` counts the ones given up. -/
structure Conserved (ids : List Nat) (s : System) : Prop where
  place : ∀ id ∈ ids, s.queuedAt id + s.heldAt id + s.completedAt id + s.givenUp.count id = 1
  unknown : ∀ id ∉ ids, s.queuedAt id + s.heldAt id + s.completedAt id + s.givenUp.count id = 0
  givenUp_nodup : s.givenUp.Nodup
  failed : s.shared.failedChunks = s.givenUp.length
  exclusive : ∀ (i j : Nat) (v w : Worker) (c d : PrioritizedChunk), s.workers[i]? = some v →
    s.workers[j]? = some w → v.held = some c → w.held = some d → c.chunkId = d.chunkId → i = j

/-- A chunk is held as often as there are workers that hold it. -/
theorem countP_heldChunks (ws : List Worker) (id : Nat) :
    (heldChunks ws).countP (fun c => c.chunkId = id)
      = ws.countP fun w => w.held.any fun c => c.chunkId = id := by
  rw [heldChunks, Multiset.coe_countP, List.countP_filterMap]
  refine List.countP_congr fun w _ => ?_
  cases w.held <;> simp

/-- The queue as a multiset has as many entries of a chunk as the list. -/
theorem queuedAt_eq (s : System) (id : Nat) :
    s.workQueue.queue.countP (fun c => c.chunkId = id) = s.queuedAt id :=
  Multiset.coe_countP ..

/-- The commits that gave up a chunk. -/
theorem countP_isGivenUp (s : System) (id : Nat) :
    (s.workQueue.commitsAt PrioritizedChunk.chunkId id).countP (fun c => c.fate.isGivenUp)
      = s.givenUp.count id := by
  rw [System.givenUp, List.count, List.countP_map, List.countP_filter, WorkQueue.commitsAt,
    List.countP_filter]
  refine List.countP_congr fun c _ => ?_
  simp [Function.comp, and_comm]

/-- The commits that completed a chunk: one when the id is in the completed set. -/
theorem countP_isDone (hB : Booked s) (id : Nat)
    (hone : (s.workQueue.commitsAt PrioritizedChunk.chunkId id).countP
      (fun c => c.fate.isDone) ≤ 1) :
    (s.workQueue.commitsAt PrioritizedChunk.chunkId id).countP (fun c => c.fate.isDone)
      = s.completedAt id := by
  unfold System.completedAt
  split
  · rename_i hid
    obtain ⟨c, hc, hdone, hkey⟩ := (hB.completed id).mp hid
    refine Nat.le_antisymm hone (List.countP_pos_iff.mpr ⟨c, ?_, hdone⟩)
    simpa [WorkQueue.commitsAt, System.workQueue] using ⟨hc, hkey⟩
  · rename_i hid
    rw [List.countP_eq_zero]
    intro c hc hdone
    obtain ⟨hc, hkey⟩ : c ∈ s.commits ∧ c.item.chunkId = id := by
      simpa [WorkQueue.commitsAt, System.workQueue] using hc
    exact hid ((hB.completed id).mpr ⟨c, hc, hdone, hkey⟩)

/-- A final commit completes the chunk or gives it up. -/
theorem countP_isFinal {α β : Type} (cs : List (Commit α β)) :
    cs.countP (fun c => c.fate.isFinal)
      = cs.countP (fun c => c.fate.isDone) + cs.countP (fun c => c.fate.isGivenUp) := by
  induction cs with
  | nil => rfl
  | cons c rest ih =>
    simp only [List.countP_cons, ih]
    cases c.fate <;> simp <;> omega

/-- Each planned chunk is in one place. Its lineage is open, and the live entry is queued or held,
or it is closed by a final commit, and then the chunk is complete or given up. -/
theorem place_of_tracked (hB : Booked s)
    (hT : WorkQueue.Tracked PrioritizedChunk.chunkId (entries chunks) s.workQueue) {id : Nat}
    (hid : id ∈ chunks.map ChunkRequest.chunkId) :
    s.queuedAt id + s.heldAt id + s.completedAt id + s.givenUp.count id = 1 := by
  rw [← map_chunkId_entries] at hid
  obtain ⟨x, hx, rfl⟩ := List.mem_map.mp hid
  have hplaces := hT.places hx
  rw [countP_isFinal] at hplaces
  have hdone := countP_isDone hB x.chunkId (by omega)
  rw [queuedAt_eq, hdone, countP_isGivenUp] at hplaces
  rw [System.heldAt, ← countP_heldChunks]
  simp only [System.workQueue] at hplaces
  omega

/-- An id that was not planned does not turn up. -/
theorem unknown_of_tracked (hB : Booked s)
    (hT : WorkQueue.Tracked PrioritizedChunk.chunkId (entries chunks) s.workQueue) {id : Nat}
    (hid : id ∉ chunks.map ChunkRequest.chunkId) :
    s.queuedAt id + s.heldAt id + s.completedAt id + s.givenUp.count id = 0 := by
  have hne : ∀ x ∈ entries chunks, x.chunkId ≠ id := by
    rintro x hx rfl
    rw [← map_chunkId_entries] at hid
    exact hid (List.mem_map_of_mem hx)
  have hqueued : s.queuedAt id = 0 := by
    rw [System.queuedAt, List.countP_eq_zero]
    intro c hc hkey
    obtain ⟨x, hx, hxkey⟩ := hT.known c (Or.inl (Multiset.mem_coe.mpr hc))
    exact hne x hx (hxkey.trans (by simpa using hkey))
  have hheld : s.heldAt id = 0 := by
    rw [System.heldAt, ← countP_heldChunks, Multiset.countP_eq_zero]
    intro c hc hkey
    obtain ⟨x, hx, hxkey⟩ := hT.known c (Or.inr hc)
    exact hne x hx (hxkey.trans hkey)
  have hnil : s.workQueue.commitsAt PrioritizedChunk.chunkId id = [] := by
    rw [WorkQueue.commitsAt, List.filter_eq_nil_iff]
    intro c hc hkey
    obtain ⟨x, hx, hxkey⟩ := hT.logged c hc
    exact hne x hx (hxkey.trans (by simpa using hkey))
  have hdone := countP_isDone hB id (by simp [hnil])
  have hgivenUp := countP_isGivenUp s id
  rw [hnil] at hdone hgivenUp
  simp only [List.countP_nil] at hdone hgivenUp
  omega

/-- Two workers that hold the same id are one worker. -/
theorem exclusive_of_heldAt {id : Nat} (hheld : s.heldAt id ≤ 1) {i j : Nat} {v w : Worker}
    (hv : s.workers[i]? = some v) (hw : s.workers[j]? = some w)
    (hvid : (v.held.any fun c => c.chunkId = id) = true)
    (hwid : (w.held.any fun c => c.chunkId = id) = true) : i = j := by
  by_contra hij
  -- Without worker `i` nobody would hold the id, but worker `j` does.
  obtain ⟨hi, rfl⟩ := List.getElem?_eq_some_iff.mp hv
  have hset := List.countP_set (p := fun w => w.held.any fun c => c.chunkId = id)
    (a := Worker.new 0) hi
  rw [if_pos hvid, if_neg (by simp [Worker.new, Worker.held, Phase.held])] at hset
  have hmem : w ∈ s.workers.set i (.new 0) :=
    List.mem_of_getElem? ((List.getElem?_set_ne hij).trans hw)
  have hpos := List.countP_pos_iff (p := fun w => w.held.any fun c => c.chunkId = id).mpr
    ⟨w, hmem, hwid⟩
  unfold System.heldAt at hheld
  omega

/-- No id is in two places. -/
theorem places_le_one (hB : Booked s)
    (hT : WorkQueue.Tracked PrioritizedChunk.chunkId (entries chunks) s.workQueue) (id : Nat) :
    s.queuedAt id + s.heldAt id + s.completedAt id + s.givenUp.count id ≤ 1 := by
  by_cases hid : id ∈ chunks.map ChunkRequest.chunkId
  · exact (place_of_tracked hB hT hid).le
  · exact (unknown_of_tracked hB hT hid).le.trans (Nat.zero_le 1)

/-- The general invariant of work queues gives conservation for the fields of the program. -/
theorem conserved_of_tracked (hB : Booked s)
    (hT : WorkQueue.Tracked PrioritizedChunk.chunkId (entries chunks) s.workQueue) :
    Conserved (chunks.map ChunkRequest.chunkId) s where
  place _ hid := place_of_tracked hB hT hid
  unknown _ hid := unknown_of_tracked hB hT hid
  givenUp_nodup := by
    rw [List.nodup_iff_count_le_one]
    intro id
    have := places_le_one hB hT id
    omega
  failed := by
    rw [hB.failed, System.givenUp, List.length_map, List.countP_eq_length_filter]
  exclusive := by
    intro i j v w c d hv hw hc hd hcd
    have hle : s.heldAt c.chunkId ≤ 1 := by
      have := places_le_one hB hT c.chunkId
      omega
    exact exclusive_of_heldAt hle hv hw (by simp [hc]) (by simp [hd, hcd])

/-- A completed chunk is neither queued nor held. -/
theorem idle_of_completed (hB : Booked s)
    (hT : WorkQueue.Tracked PrioritizedChunk.chunkId (entries chunks) s.workQueue) {id : Nat}
    (hid : id ∈ s.shared.completedChunks) : s.queuedAt id = 0 ∧ s.heldAt id = 0 := by
  have hone : s.completedAt id = 1 := if_pos hid
  have hplaces := places_le_one hB hT id
  omega

/-- An id stays in the completed set. -/
theorem completed_mono (hmoves : Moves heap config s a s') {id : Nat}
    (hid : id ∈ s.shared.completedChunks) : id ∈ s'.shared.completedChunks := by
  rcases ledger_cases hmoves with ⟨i, w, req, t, bytes, isComplete, -, -, -, rfl⟩ |
    ⟨-, queue, frontierByte, timeExpired, hshared⟩
  · simp only [System.commit, SharedState.commit]
    generalize s.shared.commitFate config.pageSize req.chunk bytes isComplete s.now = fate
    cases fate with
    | done => exact Finset.mem_insert_of_mem hid
    | retry entry => exact hid
    | givenUp => exact hid
  · rwa [hshared]

/-- In every reachable state each planned chunk is queued, held, completed or given up,
exactly once. A completed chunk is never fetched again. -/
theorem chunk_conservation (hids : (chunks.map ChunkRequest.chunkId).Nodup)
    (h : (benchmark opening heap config chunks).Reachable TransitionSystem.any s) :
    Conserved (chunks.map ChunkRequest.chunkId) s ∧
    ∀ s', (benchmark opening heap config chunks).Path TransitionSystem.any s s' →
      ∀ id ∈ s.shared.completedChunks, s'.queuedAt id = 0 ∧ s'.heldAt id = 0 := by
  refine ⟨conserved_of_tracked (booked_reachable h) (tracked_reachable hids h), ?_⟩
  intro s' hpath id hid
  -- The id stays in the completed set, and what is in there is nowhere else.
  have hid' : id ∈ s'.shared.completedChunks :=
    hpath.invariant (P := fun s => id ∈ s.shared.completedChunks) hid
      fun _ _ _ hid _ hstep => completed_mono (moves_of_step hstep) hid
  have hs' := h.trans hpath
  exact idle_of_completed (booked_reachable hs') (tracked_reachable hids hs') hid'

/-- A plan of three chunks of one page each. -/
def threeChunks : List ChunkRequest :=
  [⟨0, 0, 3, .urgent⟩, ⟨1, 4, 7, .urgent⟩, ⟨2, 8, 11, .prefetch⟩]

/-- Two workers hold one chunk each, and the third chunk is queued. -/
theorem chunk_conservation_two_workers :
    ∃ s, (benchmark .plain .ofList (.unlimited 2 4) threeChunks).Reachable TransitionSystem.any s ∧
      (s.heldAt 0 = 1 ∧ s.heldAt 1 = 1 ∧ s.queuedAt 2 = 1) ∧ Conserved [0, 1, 2] s := by
  obtain ⟨s, hs, hP⟩ := TransitionSystem.exists_reachable_of_run
    (benchmark .plain .ofList (.unlimited 2 4) threeChunks) TransitionSystem.any
    [.advance 0, .pop 0 [], .advance 1, .pop 1 []]
    (P := fun s => s.heldAt 0 = 1 ∧ s.heldAt 1 = 1 ∧ s.queuedAt 2 = 1) (by decide)
  exact ⟨s, hs, hP, (chunk_conservation (by decide) hs).1⟩

end FrontierSim
