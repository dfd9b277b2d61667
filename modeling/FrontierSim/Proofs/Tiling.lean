import FrontierSim.Proofs.Announcements

/-!
# `FrontierSim.Proofs.Tiling`: the attempts of a chunk tile its range

Attempt `i + 1` for the chunk `[a, b]` asks for `[s, b]`, where `s` is `a` plus the body
bytes of the attempts before it (`System.resumePoint`). So the pieces that arrive lie one
behind the other, and the pieces of a completed chunk are `[a, b]`.
-/

set_option autoImplicit false

namespace FrontierSim

open Lib

/-- Where attempt `i + 1` for the chunk starts. -/
def System.resumePoint (s : System) (c : ChunkRequest) (i : Nat) : Nat :=
  c.rangeStart + received ((s.commitsAt c.chunkId).take i)

/-- The attempts for the chunk, as the trace announces them and as they were answered. -/
structure Tiles (c : ChunkRequest) (s : System) : Prop where
  /-- The attempts are numbered from 1, and each asks for the rest of the range. -/
  attempts : ∀ i e, (s.startedAt c.chunkId)[i]? = some e →
    e.attempt = i + 1 ∧ s.resumePoint c i ≤ c.rangeEnd ∧
      e.requestedRange = rangeString (s.resumePoint c i) c.rangeEnd
  count : (s.startedAt c.chunkId).length ≤ MAX_ATTEMPTS
  /-- An attempt moves the resume point by the body bytes of its answer. -/
  answers : ∀ i d, (s.commitsAt c.chunkId)[i]? = some d →
    s.resumePoint c (i + 1) = s.resumePoint c i + d.note.transfer.bodyBytes ∧
      ∃ e, (s.startedAt c.chunkId)[i]? = some e ∧ e.requestId = d.note.requestId
  /-- An attempt follows an answered one that left something of its range. -/
  follows : ∀ i e, (s.startedAt c.chunkId)[i + 1]? = some e →
    ∃ d, (s.commitsAt c.chunkId)[i]? = some d ∧
      d.note.transfer.bodyBytes < c.rangeEnd - s.resumePoint c i + 1
  /-- Before a further attempt, its range and number are announced. -/
  announced : ∀ i e e', (s.startedAt c.chunkId)[i]? = some e →
    (s.startedAt c.chunkId)[i + 1]? = some e' →
      ∃ r ∈ s.resumed, r.requestId = e.requestId
  /-- What is announced for the next attempt is what it asks for. -/
  announces : ∀ i e, (s.startedAt c.chunkId)[i]? = some e →
    ∀ r ∈ s.resumed, r.requestId = e.requestId →
      r.suffixRange = rangeString (s.resumePoint c (i + 1)) c.rangeEnd ∧ r.attempt = i + 2
  /-- When no answer is longer than what was requested, the pieces of a completed chunk
  are its range. -/
  partition : c.chunkId ∈ s.shared.completedChunks →
    (∀ i d, (s.commitsAt c.chunkId)[i]? = some d →
      d.note.transfer.bodyBytes ≤ c.rangeEnd - s.resumePoint c i + 1) →
    ((s.commitsAt c.chunkId).flatMap fun d => s.bytesOf d.note.requestId)
      = List.range' c.rangeStart (c.rangeEnd - c.rangeStart + 1)

variable {heap : ChunkHeap} {config : ReactorConfig} {chunks : List ChunkRequest}
  {opening : RunStarted} {ok : System → Label → Prop} {s s' : System} {a : Label}

/-- Related lists have related entries. -/
theorem forall₂_getElem? {α β : Type} {R : α → β → Prop} {xs : List α} {ys : List β}
    (h : List.Forall₂ R xs ys) {i : Nat} {y : β} (hy : ys[i]? = some y) :
    ∃ x, xs[i]? = some x ∧ R x y := by
  obtain ⟨hlen, hget⟩ := List.forall₂_iff_get.mp h
  obtain ⟨hi, rfl⟩ := List.getElem?_eq_some_iff.mp hy
  exact ⟨xs[i], List.getElem?_eq_getElem (hlen ▸ hi), hget i (hlen ▸ hi) hi⟩

/-- The request behind started event number `i` of a chunk. It is the one that commit `i`
closed, or the last one, which a worker still holds. -/
structure AttemptAt (s : System) (c : ChunkRequest) (i : Nat) (e : RequestStarted)
    (req : Request) : Prop where
  startedBy : StartedBy req e
  lineage : WorkQueue.Lineage c.entry ((s.commitsAt c.chunkId).take i) (some req.chunk)
  length : ((s.commitsAt c.chunkId).take i).length = i
  place : (∃ d, (s.commitsAt c.chunkId)[i]? = some d ∧ req = d.request) ∨
    (i = (s.commitsAt c.chunkId).length ∧ ∃ j, announcedAt s.workers j = some req)

/-- Behind each announcement of a chunk stands one request, by the order of commits and
announcements (`Traced`). -/
theorem attemptAt_of_started (hids : (chunks.map ChunkRequest.chunkId).Nodup)
    (h : (benchmark opening heap config chunks).Reachable ok s) {c : ChunkRequest} (hc : c ∈ chunks)
    {i : Nat} {e : RequestStarted} (he : (s.startedAt c.chunkId)[i]? = some e) :
    ∃ req, AttemptAt s c i e req := by
  obtain ⟨cur, hcur, hall⟩ := (traced_reachable hids h).started c.chunkId
  obtain ⟨last, hlin⟩ := lineage_reachable hids h hc
  obtain ⟨req, hreq, hstarted⟩ := forall₂_getElem? hall he
  refine ⟨req, ?_⟩
  rcases Nat.lt_or_ge i (s.commitsAt c.chunkId).length with hlt | hge
  · -- A commit closed this attempt.
    rw [List.getElem?_append_left (by simpa using hlt), List.getElem?_map,
      Option.map_eq_some_iff] at hreq
    obtain ⟨d, hd, rfl⟩ := hreq
    exact ⟨hstarted, hlin.take hd, by simp; omega, Or.inl ⟨d, hd, rfl⟩⟩
  · -- The attempt is the last one, and a worker still has its request.
    rw [List.getElem?_append_right (by simpa using hge), List.length_map] at hreq
    have hi : i = (s.commitsAt c.chunkId).length := by
      have hbound := (List.getElem?_eq_some_iff.mp hreq).1
      have : cur.toList.length ≤ 1 := by cases cur <;> simp
      omega
    subst hi
    have hcurreq : cur = some req := by
      cases cur with
      | none => simp at hreq
      | some r => simpa using hreq
    obtain ⟨j, hj, hid⟩ := (hcur req).mp hcurreq
    obtain ⟨w, hw, hann⟩ := Option.bind_eq_some_iff.mp hj
    refine ⟨hstarted, ?_, by simp, Or.inr ⟨rfl, j, hj⟩⟩
    rw [List.take_length]
    exact lineage_of_held hids h hc hw (held_of_announced hann) hid

/-- Every commit answers a started event. -/
theorem started_of_commit (hids : (chunks.map ChunkRequest.chunkId).Nodup)
    (h : (benchmark opening heap config chunks).Reachable ok s) {c : ChunkRequest} {i : Nat}
    {d : ChunkCommit} (hd : (s.commitsAt c.chunkId)[i]? = some d) :
    ∃ e, (s.startedAt c.chunkId)[i]? = some e ∧ StartedBy d.request e := by
  obtain ⟨cur, -, hall⟩ := (traced_reachable hids h).started c.chunkId
  have hi := (List.getElem?_eq_some_iff.mp hd).1
  have hreq : ((s.commitsAt c.chunkId).map ChunkCommit.request ++ cur.toList)[i]?
      = some d.request := by
    rw [List.getElem?_append_left (by simpa using hi), List.getElem?_map, hd]
    rfl
  obtain ⟨e, he, hstarted⟩ := forall₂_getElem? hall.flip hreq
  exact ⟨e, he, hstarted⟩

/-- The next attempt starts behind the bytes of this one. -/
theorem resumePoint_succ {c : ChunkRequest} {i : Nat} {d : ChunkCommit}
    (hd : (s.commitsAt c.chunkId)[i]? = some d) :
    s.resumePoint c (i + 1) = s.resumePoint c i + d.note.transfer.bodyBytes := by
  rw [System.resumePoint, List.take_add_one, hd, Option.toList_some, received_append,
    System.resumePoint, Nat.add_assoc]

/-- Attempt `i + 1` asks for what is left. -/
theorem AttemptAt.resumes (h : (benchmark opening heap config chunks).Reachable ok s)
    {c : ChunkRequest}
    {i : Nat} {e : RequestStarted} {req : Request} (hattempt : AttemptAt s c i e req) :
    Resumes c.entry req.chunk ((s.commitsAt c.chunkId).take i) :=
  resumes_of_lineage hattempt.lineage
    (fun d hd => decided_commitsAt h _ d (List.mem_of_mem_take hd)) _ rfl

/-- The commit before a further attempt handed its chunk over. -/
theorem commit_before {c : ChunkRequest} {i : Nat} {e : RequestStarted} {req : Request}
    (hattempt : AttemptAt s c (i + 1) e req) :
    ∃ d, (s.commitsAt c.chunkId)[i]? = some d ∧ d.fate = .retry req.chunk := by
  have hi : i < (s.commitsAt c.chunkId).length := by
    have := hattempt.length
    rw [List.length_take] at this
    omega
  have hd := List.getElem?_eq_getElem hi
  have hlin := hattempt.lineage
  rw [List.take_add_one, hd] at hlin
  exact ⟨_, hd, hlin.fate_last⟩

/-- The commit that a resumed event is about. -/
theorem commit_of_resumed (hids : (chunks.map ChunkRequest.chunkId).Nodup)
    (h : (benchmark opening heap config chunks).Reachable ok s) {r : RequestResumed}
    (hr : r ∈ s.resumed) :
    ∃ d ∈ s.commits, ResumedBy d r := by
  obtain ⟨k, hk⟩ := List.mem_iff_getElem?.mp hr
  obtain ⟨d, hd, hresumed⟩ := forall₂_getElem? (traced_reachable hids h).resumed hk
  exact ⟨d, List.mem_of_mem_filter (List.mem_of_getElem? hd), hresumed⟩

/-! ### The parts of the result -/

/-- A commit moves the start by the bytes of its transfer, and has its announcement at the same
place. -/
theorem answers_of_reachable (hids : (chunks.map ChunkRequest.chunkId).Nodup)
    (h : (benchmark opening heap config chunks).Reachable ok s) {c : ChunkRequest} {i : Nat}
    {d : ChunkCommit} (hd : (s.commitsAt c.chunkId)[i]? = some d) :
    s.resumePoint c (i + 1) = s.resumePoint c i + d.note.transfer.bodyBytes ∧
      ∃ e, (s.startedAt c.chunkId)[i]? = some e ∧ e.requestId = d.note.requestId := by
  obtain ⟨e, he, ts, rfl⟩ := started_of_commit hids h hd
  exact ⟨resumePoint_succ hd, _, he, rfl⟩

section
variable (hids : (chunks.map ChunkRequest.chunkId).Nodup)
  (h : (benchmark opening heap config chunks).Reachable ok s) {c : ChunkRequest} (hc : c ∈ chunks)
include hids h hc

/-- The attempts are numbered from 1, and each asks for what the ones before have left. -/
theorem attempts_of_reachable (hle : c.rangeStart ≤ c.rangeEnd) {i : Nat} {e : RequestStarted}
    (he : (s.startedAt c.chunkId)[i]? = some e) :
    e.attempt = i + 1 ∧ s.resumePoint c i ≤ c.rangeEnd ∧
      e.requestedRange = rangeString (s.resumePoint c i) c.rangeEnd := by
  obtain ⟨req, hattempt⟩ := attemptAt_of_started hids h hc he
  have hresumes := hattempt.resumes h
  obtain ⟨ts, rfl⟩ := hattempt.startedBy
  have hstart : req.chunk.rangeStart = s.resumePoint c i := hresumes.rangeStart
  have hend : req.chunk.rangeEnd = c.rangeEnd := hresumes.rangeEnd
  refine ⟨?_, ?_, ?_⟩
  · show req.chunk.attempt + 1 = i + 1
    rw [hresumes.attempt, hattempt.length]
    exact congrArg (· + 1) (Nat.zero_add i)
  · rw [← hstart, ← hend]
    exact hresumes.start_le hle
  · show rangeString req.chunk.rangeStart req.chunk.rangeEnd = _
    rw [hstart, hend]

/-- No chunk is asked for more than ten times. -/
theorem count_of_reachable : (s.startedAt c.chunkId).length ≤ MAX_ATTEMPTS := by
  by_contra hlt
  -- The eleventh attempt would be one too many.
  have hi : MAX_ATTEMPTS < (s.startedAt c.chunkId).length := by omega
  obtain ⟨req, hattempt⟩ := attemptAt_of_started hids h hc (List.getElem?_eq_getElem hi)
  have hresumes := hattempt.resumes h
  have hne : (s.commitsAt c.chunkId).take MAX_ATTEMPTS ≠ [] := by
    intro hnil
    have := hattempt.length
    rw [hnil] at this
    cases this
  have hbound := hresumes.bound hne
  rw [hresumes.attempt, hattempt.length] at hbound
  omega

/-- A further attempt follows on a transfer that fell short. -/
theorem follows_of_reachable (hle : c.rangeStart ≤ c.rangeEnd) {i : Nat} {e : RequestStarted}
    (he : (s.startedAt c.chunkId)[i + 1]? = some e) :
    ∃ d, (s.commitsAt c.chunkId)[i]? = some d ∧
      d.note.transfer.bodyBytes < c.rangeEnd - s.resumePoint c i + 1 := by
  obtain ⟨req, hattempt⟩ := attemptAt_of_started hids h hc he
  obtain ⟨d, hd, -⟩ := commit_before hattempt
  have hstart := (attempts_of_reachable hids h hc hle he).2.1
  rw [resumePoint_succ hd] at hstart
  exact ⟨d, hd, by omega⟩

/-- Before a further attempt, the retry was announced in the name of the request that fell short. -/
theorem announced_of_reachable {i : Nat} {e e' : RequestStarted}
    (he : (s.startedAt c.chunkId)[i]? = some e)
    (he' : (s.startedAt c.chunkId)[i + 1]? = some e') :
    ∃ r ∈ s.resumed, r.requestId = e.requestId := by
  obtain ⟨req, hattempt⟩ := attemptAt_of_started hids h hc he'
  obtain ⟨d, hd, hfate⟩ := commit_before hattempt
  have hmem : d ∈ s.commits.filter fun c => !c.fate.isFinal := by
    rw [List.mem_filter, hfate]
    exact ⟨List.mem_of_mem_filter (List.mem_of_getElem? hd), rfl⟩
  obtain ⟨k, hk⟩ := List.mem_iff_getElem?.mp hmem
  obtain ⟨r, hr, entry, ts, -, rfl⟩ := forall₂_getElem? (traced_reachable hids h).resumed.flip hk
  obtain ⟨e₀, he₀, ts₀, rfl⟩ := started_of_commit hids h hd
  rw [he] at he₀
  cases he₀
  exact ⟨_, List.mem_of_getElem? hr, rfl⟩

/-- The announcement of a retry has the range and the number of the attempt that comes next. -/
theorem announces_of_reachable {i : Nat} {e : RequestStarted}
    (he : (s.startedAt c.chunkId)[i]? = some e) {r : RequestResumed} (hr : r ∈ s.resumed)
    (hid : r.requestId = e.requestId) :
    r.suffixRange = rangeString (s.resumePoint c (i + 1)) c.rangeEnd ∧ r.attempt = i + 2 := by
  have hN := numbered_reachable h
  obtain ⟨req, hattempt⟩ := attemptAt_of_started hids h hc he
  have hresumes := hattempt.resumes h
  obtain ⟨ts, rfl⟩ := hattempt.startedBy
  obtain ⟨d', hd', entry, ts', hfate, rfl⟩ := commit_of_resumed hids h hr
  rcases hattempt.place with ⟨d, hd, rfl⟩ | ⟨-, j, hj⟩
  · -- The ids agree, so the resumed event is about the commit of this attempt.
    have hdmem := List.mem_of_mem_filter (List.mem_of_getElem? hd)
    have heq : d' = d := List.inj_on_of_nodup_map hN.nodup hd' hdmem hid
    subst heq
    obtain ⟨-, hstart, hend, hattempt', -⟩ := (decided_reachable h d' hd').retry entry hfate
    have hrange : d'.item.rangeStart = s.resumePoint c i := hresumes.rangeStart
    have hrangeEnd : d'.item.rangeEnd = c.rangeEnd := hresumes.rangeEnd
    constructor
    · show rangeString entry.rangeStart entry.rangeEnd = _
      rw [hstart, hend, hrange, hrangeEnd, resumePoint_succ hd]
    · show d'.item.attempt + 1 + 1 = i + 2
      have hnumber := hresumes.attempt
      rw [hattempt.length] at hnumber
      rw [show d'.item.attempt = 0 + i from hnumber, Nat.zero_add]
  · -- The request of this attempt is still held, so no commit has its id.
    obtain ⟨w, hw, hann⟩ := Option.bind_eq_some_iff.mp hj
    have hreq : req ∈ requestAt s.workers j := by
      rw [requestAt_of_phase hw rfl]
      exact request_of_announced hann
    exact absurd hid (hN.disjoint d' hd' j req hreq)

/-- The transfers of a completed chunk, none longer than its request, brought each byte of its
range once, in order. -/
theorem partition_of_reachable (hle : c.rangeStart ≤ c.rangeEnd)
    (hdone : c.chunkId ∈ s.shared.completedChunks)
    (hshort : ∀ i d, (s.commitsAt c.chunkId)[i]? = some d →
      d.note.transfer.bodyBytes ≤ c.rangeEnd - s.resumePoint c i + 1) :
    ((s.commitsAt c.chunkId).flatMap fun d => s.bytesOf d.note.requestId)
      = List.range' c.rangeStart (c.rangeEnd - c.rangeStart + 1) := by
  obtain ⟨cur, hlin⟩ := lineage_reachable hids h hc
  have hpieces := pieces_of_lineage hlin (decided_commitsAt h c.chunkId)
    (fun d => s.bytesOf d.note.requestId)
    fun d hd => ((ledger_reachable h).commits d (List.mem_of_mem_filter hd)).bytes
  rw [hpieces]
  -- The last piece reaches the end of the range, and not further.
  obtain ⟨pre, d, hpre, -, hresumes, hd, hisDone⟩ := last_of_completed hids h hc hdone
  have hat : (s.commitsAt c.chunkId)[pre.length]? = some d := by
    rw [hpre, List.getElem?_concat_length]
  have hpoint : s.resumePoint c pre.length = c.rangeStart + received pre := by
    rw [System.resumePoint, hpre, List.take_left' rfl]
  have hstart : d.item.rangeStart = c.rangeStart + received pre := hresumes.rangeStart
  have hend : d.item.rangeEnd = c.rangeEnd := hresumes.rangeEnd
  have hlong := (decided_reachable h d hd).done.mp hisDone
  have hbody := hshort _ d hat
  have hstartLe := hresumes.start_le hle
  rw [hpoint] at hbody
  show List.range' c.rangeStart (received (s.commitsAt c.chunkId)) = _
  rw [hpre, received_append]
  congr 1
  omega

end

/-- The attempts for every planned chunk tile its range, and every retry that the trace
announces belongs to an attempt for a planned chunk. -/
theorem suffix_resume_tiles (hids : (chunks.map ChunkRequest.chunkId).Nodup)
    (h : (benchmark opening heap config chunks).Reachable TransitionSystem.any s) :
    (∀ c ∈ chunks, c.rangeStart ≤ c.rangeEnd → Tiles c s) ∧
    ∀ r ∈ s.resumed, ∃ c ∈ chunks, ∃ e ∈ s.startedAt c.chunkId, e.requestId = r.requestId := by
  constructor
  · intro c hc hle
    exact
      { attempts := fun i e he => attempts_of_reachable hids h hc hle he
        count := count_of_reachable hids h hc
        answers := fun i d hd => answers_of_reachable hids h hd
        follows := fun i e he => follows_of_reachable hids h hc hle he
        announced := fun i e e' he he' => announced_of_reachable hids h hc he he'
        announces := fun i e he r hr hid => announces_of_reachable hids h hc he hr hid
        partition := partition_of_reachable hids h hc hle }
  · intro r hr
    obtain ⟨d, hd, entry, ts, -, rfl⟩ := commit_of_resumed hids h hr
    obtain ⟨c, hc, hmem⟩ := planned_of_commit hids h hd
    obtain ⟨i, hi⟩ := List.mem_iff_getElem?.mp hmem
    obtain ⟨e, he, ts', rfl⟩ := started_of_commit hids h hi
    exact ⟨c, hc, _, List.mem_of_getElem? he, rfl⟩

/-- A transfer that breaks off inside a page, and one that delivers the rest. -/
theorem suffix_resume_tiles_two_attempts :
    ∃ s, (benchmark .plain .ofList (.unlimited 1 4) [⟨0, 0, 7, .urgent⟩]).Reachable
        TransitionSystem.any s ∧
      ((s.startedAt 0).length = 2 ∧ 0 ∈ s.shared.completedChunks) ∧
      Tiles ⟨0, 0, 7, .urgent⟩ s := by
  obtain ⟨s, hs, hP⟩ := TransitionSystem.exists_reachable_of_run
    (benchmark .plain .ofList (.unlimited 1 4) [⟨0, 0, 7, .urgent⟩]) TransitionSystem.any
    ([.advance 0, .pop 0 []] ++ Label.advances 0 3 ++
      [.perform 0 (.ofCallbacks [.write 3])] ++ Label.advances 0 10 ++
      [.tick 500000000, .pop 0 []] ++ Label.advances 0 3 ++
      [.perform 0 (.ofCallbacks [.write 5])] ++ Label.advances 0 11)
    (P := fun s => (s.startedAt 0).length = 2 ∧ 0 ∈ s.shared.completedChunks) (by decide)
  exact ⟨s, hs, hP, (suffix_resume_tiles (by decide) hs).1 _ (List.mem_singleton_self _)
    (by decide)⟩

end FrontierSim
