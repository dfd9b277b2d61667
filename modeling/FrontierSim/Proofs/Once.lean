import FrontierSim.Proofs.EndToEnd
import FrontierSim.Proofs.Tiling

/-!
# `FrontierSim.Proofs.Once`: no byte is transferred twice

The bytes of a request lie behind those of the earlier requests for its chunk, and chunks do not
overlap. So as long as no answer is longer than its request, no byte of the file arrives twice,
in any state of any run, whatever breaks off and is asked for again (`arrived_once`). With
`served_file_arrives` every byte arrives exactly once where the file is served.
-/

set_option autoImplicit false

namespace FrontierSim

open Lib

variable {heap : ChunkHeap} {config : ReactorConfig} {chunks : List ChunkRequest}
  {opening : RunStarted} {ok : System → Label → Prop} {s : System} {c c' : ChunkRequest}
  {k k' n n' r r' : Nat}

/-- Request `r` was attempt `k + 1` for the chunk, and brought `n` bytes so far. A commit closed
it, or a worker holds it after all commits for the chunk. -/
structure Piece (s : System) (c : ChunkRequest) (k n r : Nat) : Prop where
  bytes : s.bytesOf r = List.range' (s.resumePoint c k) n
  inside : s.resumePoint c k + n ≤ c.rangeEnd + 1
  place : (∃ d, (s.commitsAt c.chunkId)[k]? = some d ∧ d.note.requestId = r ∧
      d.note.transfer.bodyBytes = n) ∨
    (k = (s.commitsAt c.chunkId).length ∧
      ∃ i, ∃ req ∈ requestAt s.workers i, req.requestId = r ∧ req.chunk.chunkId = c.chunkId)

/-- Later attempts do not start earlier. -/
theorem resumePoint_mono (s : System) (c : ChunkRequest) {i j : Nat} (hij : i ≤ j) :
    s.resumePoint c i ≤ s.resumePoint c j := by
  induction hij with
  | refl => exact le_rfl
  | @step j _ ih =>
    refine ih.trans ?_
    cases hd : (s.commitsAt c.chunkId)[j]? with
    | some d =>
      rw [resumePoint_succ hd]
      exact Nat.le_add_right _ _
    | none =>
      rw [System.resumePoint, System.resumePoint, List.take_add_one, hd, Option.toList_none,
        List.append_nil]

/-! ### The pieces -/

section Pieces
variable (hids : (chunks.map ChunkRequest.chunkId).Nodup)
  (h : (benchmark opening heap config chunks).Reachable (System.Answers AtMostRequested) s)
include hids h

/-- The request of a commit was an attempt for some chunk of the plan. -/
theorem piece_of_commit {d : ChunkCommit} (hd : d ∈ s.commits) :
    ∃ c ∈ chunks, ∃ k n, Piece s c k n d.note.requestId := by
  obtain ⟨c, hc, hmem⟩ := planned_of_commit hids h hd
  obtain ⟨cur, hlin⟩ := lineage_reachable hids h hc
  obtain ⟨k, hk⟩ := List.mem_iff_getElem?.mp hmem
  have hresumes := resumes_of_lineage (hlin.take hk)
    (fun d' hd' => decided_commitsAt h _ d' (List.mem_of_mem_take hd')) _ rfl
  have hstart : d.item.rangeStart = s.resumePoint c k := hresumes.rangeStart
  have hend : d.item.rangeEnd = c.rangeEnd := hresumes.rangeEnd
  have hle := (decided_reachable h d hd).start_le
  have hatMost : d.note.transfer.bodyBytes ≤ d.item.rangeEnd - d.item.rangeStart + 1 :=
    (answered_reachable h).commits d hd
  refine ⟨c, hc, k, d.note.transfer.bodyBytes, ?_, by omega, Or.inl ⟨d, hk, rfl, rfl⟩⟩
  rw [← hstart]
  exact ((ledger_reachable h).commits d hd).bytes

/-- What a request in a worker's hands brought, while its range is not exceeded. -/
theorem piece_of_held (hchunks : ∀ c ∈ chunks, c.WellFormed) {i : Nat} {w : Worker}
    {req : Request} (hw : s.workers[i]? = some w) (hreq : w.phase.request = some req)
    (hbytes : s.bytesOf req.requestId = List.range' req.chunk.rangeStart n)
    (hn : n ≤ req.chunk.rangeEnd - req.chunk.rangeStart + 1) :
    ∃ c ∈ chunks, ∃ k n, Piece s c k n req.requestId := by
  have hheld : w.held = some req.chunk := held_of_request hreq
  obtain ⟨c, hc, hkey⟩ := planned_of_held hids h hw hheld
  have hresumes := resumes_of_lineage (lineage_of_held hids h hc hw hheld hkey)
    (decided_commitsAt h c.chunkId) _ rfl
  have hstart : req.chunk.rangeStart = s.resumePoint c (s.commitsAt c.chunkId).length := by
    rw [System.resumePoint, List.take_length]
    exact hresumes.rangeStart
  have hend : req.chunk.rangeEnd = c.rangeEnd := hresumes.rangeEnd
  have hle : req.chunk.rangeStart ≤ req.chunk.rangeEnd := hresumes.start_le (hchunks c hc).1
  have hreqAt : requestAt s.workers i = some req := by
    rw [requestAt_of_phase hw rfl]
    exact hreq
  exact ⟨c, hc, _, n, by rw [← hstart, hbytes], by omega,
    Or.inr ⟨rfl, i, req, hreqAt, rfl, hkey⟩⟩

/-- A request that brought something is a piece of a planned chunk. -/
theorem piece_of_bytes (hpos : 0 < config.pageSize) (hchunks : ∀ c ∈ chunks, c.WellFormed)
    (hne : s.bytesOf r ≠ []) : ∃ c ∈ chunks, ∃ k n, Piece s c k n r := by
  have hL := ledger_reachable h
  by_cases hcommit : ∃ d ∈ s.commits, d.note.requestId = r
  · obtain ⟨d, hd, rfl⟩ := hcommit
    exact piece_of_commit hids h hd
  · obtain ⟨i, req, hreqAt, rfl⟩ : ∃ i, ∃ req ∈ requestAt s.workers i, req.requestId = r := by
      by_contra hno
      exact hne (hL.unowned r (fun d hd hid => hcommit ⟨d, hd, hid⟩)
        fun i req hreq hid => hno ⟨i, req, hreq, hid⟩).1
    obtain ⟨w, hw, hreq⟩ := exists_of_requestAt hreqAt
    have hmem := List.mem_of_getElem? hw
    have hlogged := hL.workers w hmem
    cases hanswer : w.phase.answer with
    | some p =>
      obtain ⟨req', t⟩ := p
      have hreq' := request_of_answer hanswer
      rw [hreq] at hreq'
      cases hreq'
      obtain ⟨hcons, hfits⟩ := consistent_reachable h w hmem
      obtain ⟨-, bytes, pages, hrec, hle, -⟩ := recorded_of_answer hcons hfits hlogged hanswer
      exact piece_of_held hids h hchunks hw hreq hrec.bytes
        (hle.trans ((answered_reachable h).workers w hmem req t hanswer))
    | none =>
      -- Before the answer nothing has arrived.
      unfold Worker.Logged at hlogged
      cases hph : w.phase with
      | assigned req' | ready req' =>
        rw [hph] at hreq
        cases hreq
        rw [hph] at hlogged
        exact absurd hlogged.bytes hne
      | panicked req' =>
        have := pageSize_of_panicked hids h hchunks hmem hph
        omega
      | performing | finishing | reporting | committing =>
        rw [hph] at hanswer
        cases hanswer
      | _ =>
        rw [hph] at hreq
        cases hreq

/-- There is one request for each attempt. -/
theorem Piece.unique (hp : Piece s c k n r) (hp' : Piece s c k n' r') : r = r' := by
  rcases hp.place with ⟨d, hd, rfl, -⟩ | ⟨rfl, i, req, hreq, rfl, hkey⟩
  · rcases hp'.place with ⟨d', hd', rfl, -⟩ | ⟨rfl, -⟩
    · rw [hd] at hd'
      cases hd'
      rfl
    · rw [List.getElem?_eq_none le_rfl] at hd
      cases hd
  · rcases hp'.place with ⟨d', hd', -⟩ | ⟨-, i', req', hreq', rfl, hkey'⟩
    · rw [List.getElem?_eq_none le_rfl] at hd'
      cases hd'
    · -- Two workers that hold one chunk are one worker.
      obtain ⟨w, hw, hreqw⟩ := exists_of_requestAt hreq
      obtain ⟨w', hw', hreqw'⟩ := exists_of_requestAt hreq'
      have hC := conserved_of_tracked (booked_reachable h) (tracked_reachable hids h)
      obtain rfl := hC.exclusive i i' w w' _ _ hw hw' (held_of_request hreqw)
        (held_of_request hreqw') (hkey.trans hkey'.symm)
      rw [hreq] at hreq'
      cases hreq'
      rfl

end Pieces

/-- The bytes of a piece are in the range of its chunk. -/
theorem Piece.mem_bytes (hp : Piece s c k n r) {x : Nat} (hx : x ∈ s.bytesOf r) :
    x ∈ c.bytes := by
  rw [hp.bytes, List.mem_range'_1] at hx
  have hinside := hp.inside
  have hstart : c.rangeStart ≤ s.resumePoint c k := Nat.le_add_right _ _
  exact List.mem_range'_1.mpr (by omega)

/-- An attempt starts where the one before it ended, or later. -/
theorem Piece.end_le (hp : Piece s c k n r) (hp' : Piece s c k' n' r') (hlt : k < k') :
    s.resumePoint c k + n ≤ s.resumePoint c k' := by
  refine le_trans ?_ (resumePoint_mono s c hlt)
  rcases hp.place with ⟨d, hd, -, rfl⟩ | ⟨rfl, -⟩
  · exact (resumePoint_succ hd).ge
  · -- Nothing follows the request that is held.
    have hle : k' ≤ (s.commitsAt c.chunkId).length := by
      rcases hp'.place with ⟨d', hd', -⟩ | ⟨rfl, -⟩
      · exact (List.getElem?_eq_some_iff.mp hd').1.le
      · exact le_rfl
    omega

/-- Two requests bring different bytes. -/
theorem disjoint_pieces (hids : (chunks.map ChunkRequest.chunkId).Nodup)
    (h : (benchmark opening heap config chunks).Reachable (System.Answers AtMostRequested) s)
    (hapart : (chunks.flatMap ChunkRequest.bytes).Nodup) (hc : c ∈ chunks) (hc' : c' ∈ chunks)
    (hp : Piece s c k n r) (hp' : Piece s c' k' n' r') (hne : r ≠ r') :
    List.Disjoint (s.bytesOf r) (s.bytesOf r') := by
  by_cases hchunk : c = c'
  · subst hchunk
    have hk : k ≠ k' := by
      rintro rfl
      exact hne (hp.unique hids h hp')
    intro x hx hx'
    rw [hp.bytes, List.mem_range'_1] at hx
    rw [hp'.bytes, List.mem_range'_1] at hx'
    rcases Nat.lt_or_gt_of_ne hk with hlt | hgt
    · have := hp.end_le hp' hlt
      omega
    · have := hp'.end_le hp hgt
      omega
  · intro x hx hx'
    have hpairs := (List.nodup_flatMap.mp hapart).2
    have : Std.Symm (Function.onFun List.Disjoint ChunkRequest.bytes) :=
      ⟨fun _ _ hd => List.Disjoint.symm hd⟩
    exact hpairs.forall hc hc' hchunk (hp.mem_bytes hx) (hp'.mem_bytes hx')

/-! ### All requests together -/

section Together
variable (hpos : 0 < config.pageSize)
  (hids : (chunks.map ChunkRequest.chunkId).Nodup) (hchunks : ∀ c ∈ chunks, c.WellFormed)
  (h : (benchmark opening heap config chunks).Reachable (System.Answers AtMostRequested) s)
include hpos hids hchunks h

/-- The bytes of distinct requests are distinct. Two attempts for one chunk have pieces of its
range one behind the other, and two chunks have ranges apart. -/
theorem nodup_bytes (hapart : (chunks.flatMap ChunkRequest.bytes).Nodup) {ids : List Nat}
    (hnodup : ids.Nodup) : (ids.flatMap s.bytesOf).Nodup := by
  rw [List.nodup_flatMap]
  constructor
  · intro r _
    by_cases hne : s.bytesOf r = []
    · rw [hne]
      exact List.nodup_nil
    · obtain ⟨c, -, k, n, hp⟩ := piece_of_bytes hids h hpos hchunks hne
      rw [hp.bytes]
      exact List.nodup_range'
  · refine hnodup.imp fun {r r'} hrr' => ?_
    show List.Disjoint (s.bytesOf r) (s.bytesOf r')
    intro x hx hx'
    obtain ⟨c, hc, k, n, hp⟩ := piece_of_bytes hids h hpos hchunks (List.ne_nil_of_mem hx)
    obtain ⟨c', hc', k', n', hp'⟩ := piece_of_bytes hids h hpos hchunks (List.ne_nil_of_mem hx')
    exact disjoint_pieces hids h hapart hc hc' hp hp' hrr' hx hx'

/-- A byte that arrived for a request lies in the range of some chunk. -/
theorem mem_plan_of_mem_bytesOf {x : Nat} (hx : x ∈ s.bytesOf r) :
    x ∈ chunks.flatMap ChunkRequest.bytes := by
  obtain ⟨c, hc, k, n, hp⟩ := piece_of_bytes hids h hpos hchunks (List.ne_nil_of_mem hx)
  exact List.mem_flatMap.mpr ⟨c, hc, hp.mem_bytes hx⟩

end Together

/-- Where no answer is longer than its request, every byte that arrived is one of the file, and
no byte arrived twice, in every state of every run over a plan. So `total_bytes` never exceeds
the size of the file. -/
theorem arrived_once {downloadSize urgentChunkSize prefetchChunkSize : Nat}
    (hsize : downloadSize < 2 ^ 64) (hpos : 0 < config.pageSize)
    (hurgent : 0 < urgentChunkSize) (hprefetch : 0 < prefetchChunkSize)
    (hplan : buildBenchmarkChunks downloadSize urgentChunkSize prefetchChunkSize = some chunks)
    (h : (benchmark opening heap config chunks).Reachable (System.Answers AtMostRequested) s) :
    s.arrived.Nodup ∧ (∀ x ∈ s.arrived, x < downloadSize) ∧
      s.shared.totalBytes ≤ downloadSize := by
  obtain ⟨haligned, hids⟩ := buildBenchmarkChunks_spec hurgent (one_dvd _) hprefetch (one_dvd _)
    hplan
  have hchunks : ∀ c ∈ chunks, c.WellFormed := fun c hc => by
    have hend := (haligned c hc).end_lt
    exact ⟨(haligned c hc).start_le, by omega⟩
  obtain ⟨n, hbytes, hn⟩ := planFrom_bytes hurgent hprefetch hplan
  have hapart : (chunks.flatMap ChunkRequest.bytes).Nodup := hbytes ▸ List.nodup_range'
  have hinside : ∀ r, ∀ x ∈ s.bytesOf r, x < downloadSize := by
    intro r x hx
    have hmem := mem_plan_of_mem_bytesOf hpos hids hchunks h hx
    rw [hbytes, List.mem_range'_1] at hmem
    omega
  -- The deliveries, request by request.
  have hperm : ((s.delivered.map Delivery.requestId).dedup.flatMap s.bytesOf).Perm s.arrived :=
    flatMap_group_perm (f := Delivery.requestId) (fun d => List.range' d.offset d.len)
      (List.nodup_dedup _) fun d hd _ => List.mem_dedup.mpr (List.mem_map_of_mem hd)
  refine ⟨hperm.nodup_iff.mp (nodup_bytes hpos hids hchunks h hapart (List.nodup_dedup _)),
    ?_, ?_⟩
  · intro x hx
    obtain ⟨r, -, hx⟩ := List.mem_flatMap.mp (hperm.mem_iff.mpr hx)
    exact hinside r x hx
  · rw [totalBytes_eq h, ← List.flatMap_map (fun d : ChunkCommit => d.note.requestId) s.bytesOf,
      ← List.length_range (n := downloadSize)]
    refine List.Subperm.length_le (List.Nodup.subperm
      (nodup_bytes hpos hids hchunks h hapart (numbered_reachable h).nodup) fun x hx => ?_)
    obtain ⟨r, -, hx⟩ := List.mem_flatMap.mp hx
    exact List.mem_range.mpr (hinside r x hx)

/-- A chunk of eight bytes: three arrived at the first attempt, and two so far at the second. -/
theorem arrived_once_second_attempt :
    ∃ s, (benchmark .plain .ofList (.unlimited 1 4) [⟨0, 0, 7, .urgent⟩]).Reachable
        (System.Answers AtMostRequested) s ∧
      s.arrived = [0, 1, 2, 3, 4] ∧ s.arrived.Nodup ∧ (∀ x ∈ s.arrived, x < 8) ∧
      s.shared.totalBytes ≤ 8 := by
  obtain ⟨s, hs, harrived⟩ := TransitionSystem.exists_reachable_of_run
    (benchmark .plain .ofList (.unlimited 1 4) [⟨0, 0, 7, .urgent⟩])
    (System.Answers AtMostRequested)
    ([.advance 0, .pop 0 []] ++ Label.advances 0 3 ++
      [.perform 0 (.ofCallbacks [.write 3])] ++ Label.advances 0 10 ++
      [.tick 500000000, .pop 0 []] ++ Label.advances 0 3 ++
      [.perform 0 (.ofCallbacks [.write 2, .write 3])] ++ Label.advances 0 1)
    (P := fun s => s.arrived = [0, 1, 2, 3, 4]) (by decide)
  have hplan : buildBenchmarkChunks 8 8 8 = some [⟨0, 0, 7, .urgent⟩] := by decide
  exact ⟨s, hs, harrived, arrived_once (by decide) (by decide) (by decide) (by decide) hplan hs⟩

end FrontierSim
