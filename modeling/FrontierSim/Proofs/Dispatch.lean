import FrontierSim.Proofs.Announcements
import FrontierSim.Proofs.Clock
import FrontierSim.Proofs.Plan

/-!
# `FrontierSim.Proofs.Dispatch`: first attempts follow the plan

The plan lists its chunks in the order of the queue: urgent before prefetch, and each lane from
the start of the file on. A chunk that was never taken carries no backoff, so no pop section
sets it aside. `untouched_pop` follows: the chunks that were never taken are always the last
ones of the plan, whatever is queued again beside them.

The trace sees this with a delay, since a worker announces a chunk some time after it took it.
`dispatch_in_order` bounds the delay: the announced chunks are an initial piece of the plan,
apart from at most one chunk for each worker.
-/

set_option autoImplicit false

namespace FrontierSim

open Lib

/-! ### The order of the plan -/

/-- Every chunk of the plan has a higher priority than those behind it. -/
def Ranked (chunks : List ChunkRequest) : Prop :=
  chunks.Pairwise fun a b => a.entry.Outranks b.entry

section Plan
variable {downloadSize urgentChunkSize prefetchChunkSize urgentBoundary : Nat}

/-- A chunk of the plan starts at `offset` or behind it, in the lane of its start. -/
theorem planFrom_shape (hurgent : 0 < urgentChunkSize) (hprefetch : 0 < prefetchChunkSize)
    {room offset chunkId : Nat} {chunks : List ChunkRequest}
    (hplan : planFrom downloadSize urgentChunkSize prefetchChunkSize urgentBoundary room offset
      chunkId = some chunks) :
    (∀ c ∈ chunks, offset ≤ c.rangeStart ∧
      (c.lane = .urgent ↔ c.rangeStart < urgentBoundary)) ∧
    chunks.Pairwise fun a b => a.rangeStart < b.rangeStart := by
  induction room generalizing offset chunkId chunks with
  | zero =>
    cases hplan
    simp
  | succ room ih =>
    by_cases hlt : offset < downloadSize
    · obtain ⟨c, rest, rfl, -, hstart, hend, hrest⟩ := planFrom_succ hlt hplan
      obtain ⟨hpos, -⟩ := chunkShape_spec hurgent (one_dvd _) hprefetch
        (one_dvd _) urgentBoundary offset
      obtain ⟨hall, hsorted⟩ := ih hrest
      have hlane : c.lane = .urgent ↔ offset < urgentBoundary := by
        simp only [planFrom, if_pos hlt, Option.bind_eq_bind, Option.bind_eq_some_iff,
          Option.pure_def, Option.some.injEq, List.cons.injEq] at hplan
        obtain ⟨-, -, -, -, -, -, -, -, -, -, -, -, rfl, -⟩ := hplan
        by_cases hoffset : offset < urgentBoundary <;> simp [chunkShape, hoffset]
      refine ⟨?_, List.pairwise_cons.mpr ⟨?_, hsorted⟩⟩
      · intro d hd
        rcases List.mem_cons.mp hd with rfl | hd
        · rw [hstart]
          exact ⟨le_rfl, hlane⟩
        · exact ⟨by have := (hall d hd).1; omega, (hall d hd).2⟩
      · intro d hd
        have := (hall d hd).1
        omega
    · simp only [planFrom, if_neg hlt, Option.some.injEq] at hplan
      cases hplan
      simp

/-- A plan is ranked: it is urgent chunks and then prefetch ones, each with a higher start than the
one before. -/
theorem ranked_plan (hurgent : 0 < urgentChunkSize) (hprefetch : 0 < prefetchChunkSize)
    {chunks : List ChunkRequest}
    (hplan : buildBenchmarkChunks downloadSize urgentChunkSize prefetchChunkSize = some chunks) :
    Ranked chunks := by
  obtain ⟨hall, hsorted⟩ := planFrom_shape hurgent hprefetch hplan
  refine hsorted.imp_of_mem fun {a b} ha hb hlt => ?_
  have hlanea := (hall a ha).2
  have hlaneb := (hall b hb).2
  -- With a prefetch chunk before it, a chunk is not urgent.
  show (a.lane = .urgent ∧ b.lane = .prefetch) ∨ (a.lane = b.lane ∧ a.rangeStart < b.rangeStart)
  cases hla : a.lane <;> cases hlb : b.lane <;> simp_all; omega

end Plan

/-! ### The pop section -/

/-- The entries of the queue that were never taken. -/
def untouched (queue : List PrioritizedChunk) : List PrioritizedChunk :=
  queue.filter fun c => c.attempt = 0

/-- The chunks from number `k` on are those that were never taken. -/
def DispatchedTo (chunks : List ChunkRequest) (k : Nat) (s : System) : Prop :=
  (untouched s.shared.chunkQueue).Perm ((entries chunks).drop k)

variable {heap : ChunkHeap} {config : ReactorConfig} {chunks : List ChunkRequest}
  {opening : RunStarted} {ok : System → Label → Prop} {s s' : System} {a : Label}
  {completed : Finset Nat} {queue left : List PrioritizedChunk} {start finish k : Nat}
  {found : Option PrioritizedChunk}

/-- First attempts in two queues together. -/
theorem untouched_append (queue more : List PrioritizedChunk) :
    untouched (queue ++ more) = untouched queue ++ untouched more := List.filter_append queue more

/-- The order of the queue does not matter. -/
theorem untouched_perm (h : queue.Perm left) : (untouched queue).Perm (untouched left) := h.filter _

/-- The pop section takes the first chunk that was never taken, or it takes none of them. -/
theorem untouched_pop (hrank : Ranked chunks)
    (hsel : Selects completed queue start finish found left)
    (hopen : ∀ c ∈ untouched queue, c.chunkId ∉ completed)
    (hqueue : (untouched queue).Perm ((entries chunks).drop k)) :
    ∃ k', (untouched left).Perm ((entries chunks).drop k') := by
  obtain ⟨dropped, hdropped, hperm⟩ := hsel.split
  have hperm' := untouched_perm hperm
  -- What is dropped was completed, so it was taken before.
  have hnone : untouched dropped = [] := by
    rw [untouched, List.filter_eq_nil_iff]
    intro c hc hfresh
    have hmem : c ∈ untouched queue := hperm'.mem_iff.mp (by simp [untouched, hc, hfresh])
    exact hopen c hmem (hdropped c hc).1
  rw [untouched_append, untouched_append, hnone, List.append_nil] at hperm'
  have hall := hperm'.trans hqueue
  have hkept : untouched found.toList = [] →
      ∃ k', (untouched left).Perm ((entries chunks).drop k') :=
    fun hnil => ⟨k, by rwa [hnil, List.nil_append] at hall⟩
  cases found with
  | none => exact hkept rfl
  | some c =>
    by_cases hfresh : c.attempt = 0
    · have hone : untouched (some c).toList = [c] := by simp [untouched, hfresh]
      rw [hone] at hall
      have hc : c ∈ (entries chunks).drop k := hall.mem_iff.mp (List.mem_append_left _ (by simp))
      refine ⟨k + 1, ?_⟩
      obtain ⟨x, rest, hdrop⟩ := List.exists_cons_of_ne_nil (List.ne_nil_of_mem hc)
      rw [hdrop] at hc hall hqueue
      have hrest : (entries chunks).drop (k + 1) = rest := by
        rw [← List.tail_drop, hdrop, List.tail_cons]
      rw [hrest]
      -- The first one is ready, so what was found is no worse. The others are worse.
      have hx : x ∈ untouched queue := hqueue.mem_iff.mpr List.mem_cons_self
      obtain ⟨y, hy, rfl⟩ := List.mem_map.mp
        (List.mem_of_mem_drop (hdrop ▸ List.mem_cons_self : x ∈ (entries chunks).drop k))
      obtain ⟨c', hc', hle⟩ := hsel.best y.entry (List.mem_of_mem_filter hx) (hopen _ hx)
        fun retryAt hretry => by cases hretry
      cases hc'
      have heq : c = y.entry := by
        rcases List.mem_cons.mp hc with heq | hc
        · exact heq
        have hsorted : (y.entry :: rest).Pairwise PrioritizedChunk.Outranks :=
          hdrop ▸ (List.pairwise_map.mpr hrank).drop
        exact absurd hle (PrioritizedChunk.not_outranks_iff.not.mp
          (not_not.mpr ((List.pairwise_cons.mp hsorted).1 c hc)))
      rw [heq] at hall
      exact List.Perm.cons_inv hall
    · exact hkept (by simp [untouched, hfresh])

/-! ### The runs -/

/-- What was never taken is not complete. -/
theorem open_of_untouched (hids : (chunks.map ChunkRequest.chunkId).Nodup)
    (h : (benchmark opening heap config chunks).Reachable ok s) :
    ∀ c ∈ untouched s.shared.chunkQueue, c.chunkId ∉ s.shared.completedChunks := by
  intro c hc hdone
  obtain ⟨hqueued, -⟩ :=
    idle_of_completed (booked_reachable h) (tracked_reachable hids h) hdone
  rw [System.queuedAt, List.countP_eq_zero] at hqueued
  exact hqueued c (List.mem_of_mem_filter hc) (by simp)

/-- One step takes at most one more chunk for its first attempt. The entry that is popped outranks
all others that are ready, and entries without an attempt are always ready, so that it is number
`k` of the plan. -/
theorem dispatched_step (hrank : Ranked chunks)
    (hopen : ∀ c ∈ untouched s.shared.chunkQueue, c.chunkId ∉ s.shared.completedChunks)
    (h : DispatchedTo chunks k s) (hmoves : Moves heap config s a s') :
    ∃ k', DispatchedTo chunks k' s' := by
  cases hmoves with
  | tick | send | track | receive | store | join | work | perform | assignId => exact ⟨k, h⟩
  | checkTime =>
    refine ⟨k, ?_⟩
    unfold System.checkTime
    split <;> exact h
  | recheck =>
    refine ⟨k, ?_⟩
    unfold System.recheck
    split <;> exact h
  | pop ticks =>
    unfold System.popChunk
    split
    · exact ⟨k, h⟩
    · exact untouched_pop hrank (selects_popNext heap s.shared.completedChunks _ _) hopen h
  | @commit i w req t bytes isComplete =>
    refine ⟨k, ?_⟩
    show (untouched (s.shared.commit heap req.chunk t bytes s.now _).chunkQueue).Perm _
    cases hfate : s.shared.commitFate config.pageSize req.chunk bytes isComplete s.now with
    | done | givenUp => exact h
    | retry entry =>
      refine (untouched_perm (heap.push_perm _ entry)).trans ?_
      -- A retry entry counts its attempts.
      obtain ⟨rfl, -⟩ := retry_of_commitFate hfate
      exact h

/-- In every reachable state the first attempts that wait are the end of the plan. -/
theorem dispatched_reachable (hids : (chunks.map ChunkRequest.chunkId).Nodup)
    (hrank : Ranked chunks) (h : (benchmark opening heap config chunks).Reachable ok s) :
    ∃ k, DispatchedTo chunks k s := by
  refine reachable_invariant_of
    (J := fun s => ∀ c ∈ untouched s.shared.chunkQueue, c.chunkId ∉ s.shared.completedChunks)
    (P := fun s => ∃ k, DispatchedTo chunks k s) h (fun _ => open_of_untouched hids) ?_ ?_
  · refine ⟨0, (untouched_perm (heap.pushAll_nil_perm _)).trans ?_⟩
    rw [untouched, List.filter_eq_self.mpr]
    · exact .refl _
    · intro c hc
      obtain ⟨y, -, rfl⟩ := List.mem_map.mp hc
      rfl
  · rintro s a s' hopen - ⟨k, hk⟩ - hmoves
    exact dispatched_step hrank hopen hk hmoves

/-! ### What the trace shows -/

/-- A chunk that waits for its first attempt is not announced. -/
theorem startedAt_of_untouched (hids : (chunks.map ChunkRequest.chunkId).Nodup)
    (h : (benchmark opening heap config chunks).Reachable ok s) {c : ChunkRequest} (hc : c ∈ chunks)
    (hqueue : c.entry ∈ s.shared.chunkQueue) : s.startedAt c.chunkId = [] := by
  obtain ⟨cur, hcur, hall⟩ := (traced_reachable hids h).started c.chunkId
  have hlin := (tracked_reachable hids h).lineage_of_mem (List.mem_map_of_mem hc)
    (Or.inl (Multiset.mem_coe.mpr hqueue)) rfl
  have hattempt : 0 = 0 + (s.commitsAt c.chunkId).length :=
    (resumes_of_lineage hlin (decided_commitsAt h c.chunkId) _ rfl).attempt
  -- The chunk is in the queue, so nobody holds it.
  have hnone : cur = none := by
    cases hc : cur with
    | none => rfl
    | some req =>
      obtain ⟨i, hi, hid⟩ := (hcur req).mp hc
      obtain ⟨w, hw, hann⟩ := Option.bind_eq_some_iff.mp hi
      have hplaces := places_le_one (booked_reachable h) (tracked_reachable hids h) c.chunkId
      have hheld : 0 < s.heldAt c.chunkId :=
        List.countP_pos_iff.mpr ⟨w, List.mem_of_getElem? hw, by simp [held_of_announced hann, hid]⟩
      have hqueued : 0 < s.queuedAt c.chunkId :=
        List.countP_pos_iff.mpr ⟨c.entry, hqueue, decide_eq_true rfl⟩
      omega
  have hlength := hall.length_eq
  rw [hnone, Option.toList_none, List.append_nil, List.length_map] at hlength
  exact List.length_eq_zero_iff.mp (by omega)

/-- A chunk that is neither announced nor waiting for its first attempt is in a worker's
hands. -/
theorem held_of_not_started (hids : (chunks.map ChunkRequest.chunkId).Nodup)
    (h : (benchmark opening heap config chunks).Reachable ok s) {c : ChunkRequest} (hc : c ∈ chunks)
    (hstarted : s.startedAt c.chunkId = []) (hqueue : c.entry ∉ s.shared.chunkQueue) :
    ∃ w ∈ s.workers, w.held = some c.entry := by
  obtain ⟨cur, hcur, hall⟩ := (traced_reachable hids h).started c.chunkId
  have hnil : s.commitsAt c.chunkId = [] := by
    have hlength := hall.length_eq
    rw [hstarted, List.length_append, List.length_map] at hlength
    exact List.length_eq_zero_iff.mp (by simp only [List.length_nil] at hlength; omega)
  -- Without a commit the chunk is as it was planned.
  have hentry : ∀ y, (y ∈ s.workQueue.queue ∨ y ∈ s.workQueue.held) → y.chunkId = c.chunkId →
      y = c.entry := by
    intro y hy hid
    have hlin := (tracked_reachable hids h).lineage_of_mem (List.mem_map_of_mem hc) hy hid
    have hcommits : s.workQueue.commitsAt PrioritizedChunk.chunkId c.entry.chunkId = [] := hnil
    rw [hcommits] at hlin
    exact Option.some.inj hlin.eq_of_nil
  rcases covered_reachable h c.entry (List.mem_map_of_mem hc) with hlive | ⟨d, hd, -, hkey⟩
  · obtain ⟨y, hy⟩ := Multiset.exists_mem_of_ne_zero hlive
    obtain ⟨hplace, hid⟩ := (WorkQueue.mem_liveAt PrioritizedChunk.chunkId).mp hy
    obtain rfl := hentry y hplace hid
    rcases hplace with hqueued | hheld
    · exact absurd (Multiset.mem_coe.mp hqueued) hqueue
    · obtain ⟨i, w, hw, hsome⟩ := mem_heldChunks.mp hheld
      exact ⟨w, List.mem_of_getElem? hw, hsome⟩
  · have hmem : d ∈ s.commitsAt c.chunkId := List.mem_filter.mpr ⟨hd, decide_eq_true hkey⟩
    rw [hnil] at hmem
    cases hmem

/-- First attempts follow the plan, in every interleaving and whatever fails: the chunks from
some number on wait for their first attempt, and of those before it at most one for each worker
is not announced yet. A worker holds each of these. -/
theorem dispatch_in_order {downloadSize urgentChunkSize prefetchChunkSize : Nat}
    (hurgent : 0 < urgentChunkSize) (hprefetch : 0 < prefetchChunkSize)
    (hplan : buildBenchmarkChunks downloadSize urgentChunkSize prefetchChunkSize = some chunks)
    (h : (benchmark opening heap config chunks).Reachable TransitionSystem.any s) :
    ∃ k, (∀ c ∈ chunks.drop k, s.startedAt c.chunkId = [] ∧ c.entry ∈ s.shared.chunkQueue) ∧
      (∀ c ∈ chunks.take k, s.startedAt c.chunkId = [] →
        ∃ w ∈ s.workers, w.held = some c.entry) ∧
      ((chunks.take k).filter fun c => s.startedAt c.chunkId = []).length
        ≤ config.maxConcurrent := by
  obtain ⟨-, hids⟩ := buildBenchmarkChunks_spec hurgent (one_dvd _) hprefetch
    (one_dvd _) hplan
  obtain ⟨k, hk⟩ := dispatched_reachable hids (ranked_plan hurgent hprefetch hplan) h
  rw [DispatchedTo, entries, ← List.map_drop] at hk
  have hwaits : ∀ c ∈ chunks.drop k, c.entry ∈ s.shared.chunkQueue := fun c hc =>
    List.mem_of_mem_filter (hk.mem_iff.mpr (List.mem_map_of_mem hc))
  -- The entry of an earlier chunk is gone from the queue.
  have hgone : ∀ c ∈ chunks.take k, c.entry ∉ s.shared.chunkQueue := by
    intro c hc hqueue
    have hmem : c.entry ∈ untouched s.shared.chunkQueue :=
      List.mem_filter.mpr ⟨hqueue, decide_eq_true rfl⟩
    obtain ⟨d, hd, hentry⟩ := List.mem_map.mp (hk.mem_iff.mp hmem)
    rw [← List.take_append_drop k chunks, List.map_append] at hids
    refine (List.nodup_append.mp hids).2.2 c.chunkId (List.mem_map_of_mem hc) d.chunkId
      (List.mem_map_of_mem hd) ?_
    exact congrArg PrioritizedChunk.chunkId hentry.symm
  have hheld : ∀ c ∈ chunks.take k, s.startedAt c.chunkId = [] →
      ∃ w ∈ s.workers, w.held = some c.entry := fun c hc hstarted =>
    held_of_not_started hids h (List.mem_of_mem_take hc) hstarted (hgone c hc)
  refine ⟨k, fun c hc => ⟨?_, hwaits c hc⟩, hheld, ?_⟩
  · exact startedAt_of_untouched hids h (List.mem_of_mem_drop hc) (hwaits c hc)
  · -- Different chunks are in the hands of different workers.
    have hsubperm : (((chunks.take k).filter fun c => s.startedAt c.chunkId = []).map
        ChunkRequest.chunkId).Subperm ((s.workers.filterMap Worker.held).map
          PrioritizedChunk.chunkId) := by
      refine List.Nodup.subperm (hids.sublist ?_) ?_
      · exact (List.filter_sublist.trans (List.take_sublist k chunks)).map _
      · intro id hid
        obtain ⟨c, hc, rfl⟩ := List.mem_map.mp hid
        obtain ⟨hmem, hstarted⟩ := List.mem_filter.mp hc
        obtain ⟨w, hw, hsome⟩ := hheld c hmem (of_decide_eq_true hstarted)
        exact List.mem_map.mpr ⟨c.entry, List.mem_filterMap.mpr ⟨w, hw, hsome⟩, rfl⟩
    have hlength := hsubperm.length_le
    rw [List.length_map, List.length_map] at hlength
    exact (hlength.trans (List.length_filterMap_le _ _)).trans (length_workers h).le

/-- The first chunk is queued again, and the other two wait for their first attempts. -/
theorem dispatch_in_order_retry :
    ∃ s, (benchmark .plain .ofList (.unlimited 1 4) threeChunks).Reachable TransitionSystem.any s ∧
      s.shared.retriedChunks = 1 ∧
      ∃ k, (∀ c ∈ threeChunks.drop k,
          s.startedAt c.chunkId = [] ∧ c.entry ∈ s.shared.chunkQueue) ∧
        (∀ c ∈ threeChunks.take k, s.startedAt c.chunkId = [] →
          ∃ w ∈ s.workers, w.held = some c.entry) ∧
        ((threeChunks.take k).filter fun c => s.startedAt c.chunkId = []).length ≤ 1 := by
  obtain ⟨s, hs, hretried⟩ := TransitionSystem.exists_reachable_of_run
    (benchmark .plain .ofList (.unlimited 1 4) threeChunks) TransitionSystem.any
    ([.advance 0, .pop 0 []] ++ Label.advances 0 3 ++ [.perform 0 (.ofCallbacks [.write 1])] ++
      Label.advances 0 10)
    (P := fun s => s.shared.retriedChunks = 1) (by decide)
  have hplan : buildBenchmarkChunks 12 4 4 = some threeChunks := by decide
  exact ⟨s, hs, hretried, dispatch_in_order (by decide) (by decide) hplan hs⟩

end FrontierSim
