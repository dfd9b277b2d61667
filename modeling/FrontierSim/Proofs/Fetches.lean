import FrontierSim.Proofs.Attempts
import FrontierSim.Proofs.Tracker

/-!
# `FrontierSim.Proofs.Fetches`: where a reported page comes from

Every page report in the trace belongs to a request, and every request is for what some
commits have left of a planned chunk. `Fetch` collects what is known of that request: the
bytes that it delivered, the pages that it reported, and the transfers before it.
-/

set_option autoImplicit false

namespace FrontierSim

open Lib

/-- The byte of the file has arrived. -/
def System.Delivered (s : System) (x : Nat) : Prop :=
  ∃ d ∈ s.delivered, d.offset ≤ x ∧ x < d.offset + d.len

/-- It can be checked whether a byte has arrived. -/
instance (s : System) (x : Nat) : Decidable (s.Delivered x) :=
  inferInstanceAs (Decidable (∃ d ∈ s.delivered, _))

/-- The body is no longer than the requested range. -/
def AtMostRequested (chunk : PrioritizedChunk) (t : Transfer) : Prop :=
  t.bodyBytes ≤ chunk.rangeEnd - chunk.rangeStart + 1

/-- It can be checked whether an answer is no longer than its request. -/
instance (chunk : PrioritizedChunk) (t : Transfer) : Decidable (AtMostRequested chunk t) :=
  inferInstanceAs (Decidable (_ ≤ _))

/-- A byte that arrived for some request has arrived. -/
theorem delivered_of_mem_bytesOf {s : System} {r x : Nat} (h : x ∈ s.bytesOf r) :
    s.Delivered x := by
  obtain ⟨d, hd, hx⟩ := List.mem_flatMap.mp h
  exact ⟨d, List.mem_of_mem_filter hd, List.mem_range'_1.mp hx⟩

variable {heap : ChunkHeap} {config : ReactorConfig} {chunks : List ChunkRequest}
  {opening : RunStarted} {ok : System → Label → Prop} {R : PrioritizedChunk → Transfer → Prop}
  {s s' : System} {a : Label}

/-! ### Curl's answers -/

/-- Every answer of curl satisfies `R`. -/
structure Answered (R : PrioritizedChunk → Transfer → Prop) (s : System) : Prop where
  commits : ∀ c ∈ s.commits, R c.item c.note.transfer
  workers : ∀ w ∈ s.workers, ∀ req t, w.phase.answer = some (req, t) → R req.chunk t

/-- The worker's own code goes on with the answer that it has, or drops it. -/
theorem answer_of_local {w w' : Worker} {now : Nat} {delivery : Option Delivery}
    (h : LocalMoves w now w' delivery) :
    w'.phase.answer = none ∨ w'.phase.answer = w.phase.answer := by
  cases h <;> simp [Worker.writeStep, *, Phase.answer]

/-- One step keeps the property of the answers. A new answer comes in by `perform` alone, where the
guard gives the property. -/
theorem answered_step (hA : Answered R s) (hok : System.Answers R s a)
    (hmoves : Moves heap config s a s') : Answered R s' := by
  have hset : ∀ {i : Nat} {w' : Worker},
      (∀ req t, w'.phase.answer = some (req, t) → R req.chunk t) →
      ∀ w ∈ s.workers.set i w', ∀ req t, w.phase.answer = some (req, t) → R req.chunk t :=
    fun h => forall_setWorker hA.workers h
  have hmem : ∀ {i : Nat} {w : Worker}, s.workers[i]? = some w → w ∈ s.workers :=
    List.mem_of_getElem?
  cases effect_of_moves hmoves with
  | tick | track | receive | store | join => exact ⟨hA.commits, hA.workers⟩
  | loop phase _ _ _ _ _ _ hnone =>
    refine ⟨hA.commits, hset fun req t hanswer => ?_⟩
    -- An answer belongs to a request, and there is none.
    have hreq : phase.request = some req := request_of_answer hanswer
    rw [hnone] at hreq
    cases hreq
  | @send i w event hw => exact ⟨hA.commits, hset (hA.workers w (hmem hw))⟩
  | assignId => exact ⟨hA.commits, hset fun _ _ h => nomatch h⟩
  | @perform i w req t hw hout hph =>
    refine ⟨hA.commits, hset ?_⟩
    intro req' t' hanswer
    cases hanswer
    refine hok req ?_
    obtain ⟨handler, phase, outbox⟩ := w
    subst hout hph
    rw [System.readyRequest, hw]
    rfl
  | @work i w w' delivery hw hout hlocal =>
    refine ⟨hA.commits, hset ?_⟩
    intro req t hanswer
    -- The answer stays the same until the commit.
    rcases answer_of_local hlocal with hnone | heq
    · rw [hnone] at hanswer
      cases hanswer
    · exact hA.workers w (hmem hw) req t (heq ▸ hanswer)
  | @commit i w req t bytes isComplete hw hout hph =>
    refine ⟨?_, hset fun _ _ h => nomatch h⟩
    intro c hc
    rcases List.mem_append.mp hc with hc | hc
    · exact hA.commits c hc
    · rw [List.mem_singleton.mp hc]
      exact hA.workers w (hmem hw) req t (by rw [hph]; rfl)

/-- Where the guard holds of every step, every answer in a reachable state has the property. -/
theorem answered_reachable
    (h : (benchmark opening heap config chunks).Reachable (System.Answers R) s) :
    Answered R s := by
  refine reachable_invariant h ⟨fun c hc => absurd hc List.not_mem_nil, ?_⟩
    fun _ _ _ hA hok hmoves => answered_step hA hok hmoves
  intro w hw req t hanswer
  rw [List.eq_of_mem_replicate hw] at hanswer
  cases hanswer

/-! ### The request behind a page report -/

/-- The request `requestId` is for `y`, which is what the transfers `cs` have left of the
planned chunk `c`. It delivered `bytes` bytes, and reported no page past the first `pages`.
Those are full pages, unless they are the pages of a whole body. -/
structure Fetch (R : PrioritizedChunk → Transfer → Prop) (pageSize : Nat) (s : System)
    (c : ChunkRequest) (cs : List ChunkCommit) (y : PrioritizedChunk)
    (requestId bytes pages : Nat) : Prop where
  lineage : WorkQueue.Lineage c.entry cs (some y)
  commits : ∀ d ∈ cs, d ∈ s.commits
  delivered : s.bytesOf requestId = List.range' y.rangeStart bytes
  reported : ∀ p ∈ s.pagesOf requestId, p ∈ List.range' (y.rangeStart / pageSize) pages
  extent : pages * pageSize ≤ bytes ∨
    ∃ t, R y t ∧ bytes = t.bodyBytes ∧ pages = pagesFor pageSize t.bodyBytes

/-- The request is for what is left of the planned chunk. -/
theorem Fetch.resumes {pageSize requestId bytes pages : Nat} {c : ChunkRequest}
    {cs : List ChunkCommit} {y : PrioritizedChunk}
    (hfetch : Fetch R pageSize s c cs y requestId bytes pages)
    (hdecided : ∀ d ∈ s.commits, Decided pageSize d) : Resumes c.entry y cs :=
  resumes_of_lineage hfetch.lineage (fun d hd => hdecided d (hfetch.commits d hd)) y rfl

/-- The transfers before a request were all retried, so they left something of the range. -/
theorem Fetch.short {pageSize requestId bytes pages : Nat} {c : ChunkRequest}
    {cs : List ChunkCommit} {y : PrioritizedChunk}
    (hfetch : Fetch R pageSize s c cs y requestId bytes pages) {d : ChunkCommit} (hd : d ∈ cs)
    (hdecided : Decided pageSize d) :
    d.item.rangeStart + d.note.transfer.bodyBytes < d.item.rangeEnd + 1 := by
  -- A transfer that reached the end of the range completes the chunk, and nothing follows it.
  by_contra hge
  have hfinal : d.fate.isFinal = true := Fate.isFinal_of_isDone (hdecided.done.mpr (by omega))
  cases hfetch.lineage.eq_none_of_final hd hfinal

/-- Something recorded has an owner. -/
theorem owner_of_page {pageSize r p : Nat} (hL : Ledger pageSize s) (hp : p ∈ s.pagesOf r) :
    (∃ d ∈ s.commits, d.note.requestId = r) ∨
      ∃ i, ∃ req ∈ requestAt s.workers i, req.requestId = r := by
  by_contra hno
  rw [not_or] at hno
  obtain ⟨-, hpages⟩ := hL.unowned r (fun d hd hid => hno.1 ⟨d, hd, hid⟩)
    fun i req hreq hid => hno.2 ⟨i, req, hreq, hid⟩
  rw [hpages] at hp
  cases hp

/-- Every page that was reported belongs to a request, committed or in progress, and so to what
earlier transfers have left of a planned chunk. -/
theorem fetch_of_page (hids : (chunks.map ChunkRequest.chunkId).Nodup)
    (h : (benchmark opening heap config chunks).Reachable (System.Answers R) s) {r p : Nat}
    (hp : p ∈ s.pagesOf r) :
    ∃ c ∈ chunks, ∃ cs y bytes pages, Fetch R config.pageSize s c cs y r bytes pages := by
  have hL := ledger_reachable h
  have hA := answered_reachable h
  rcases owner_of_page hL hp with ⟨d, hd, rfl⟩ | ⟨i, req, hreq, rfl⟩
  · -- The request is committed. Its commit is one of a lineage.
    obtain ⟨c, hc, hmem⟩ := planned_of_commit hids h hd
    obtain ⟨cur, hlin⟩ := lineage_reachable hids h hc
    obtain ⟨k, hk⟩ := List.mem_iff_getElem?.mp hmem
    have hrec := hL.commits d hd
    refine ⟨c, hc, _, d.item, _, _, hlin.take hk, ?_, hrec.bytes, ?_,
      Or.inr ⟨d.note.transfer, hA.commits d hd, rfl, rfl⟩⟩
    · exact fun d' hd' => List.mem_of_mem_filter (List.mem_of_mem_take hd')
    · intro q hq
      exact hrec.pages_sent ▸ hq
  · -- A worker has the request, and its chunk is what the commits have left.
    obtain ⟨w, hw, hreq⟩ := exists_of_requestAt hreq
    have hwmem := List.mem_of_getElem? hw
    have hheld : w.held = some req.chunk := held_of_request hreq
    obtain ⟨c, hc, hkey⟩ := planned_of_held hids h hw hheld
    obtain ⟨hcons, hfits⟩ := consistent_reachable h w hwmem
    obtain ⟨bytes, pages, pending, hrec, hextent⟩ :=
      recorded_of_request hcons hfits (hL.workers w hwmem) hreq
    refine ⟨c, hc, _, req.chunk, bytes, pages, lineage_of_held hids h hc hw hheld hkey,
      fun d hd => List.mem_of_mem_filter hd, hrec.bytes, ?_, hextent.imp id ?_⟩
    · intro q hq
      rw [← hrec.pages]
      exact List.mem_append_left _ hq
    · rintro ⟨t, hanswer, hbytes, hpages⟩
      exact ⟨t, hA.workers w hwmem req t hanswer, hbytes, hpages⟩

end FrontierSim
