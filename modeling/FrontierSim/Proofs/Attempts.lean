import FrontierSim.Proofs.Conservation
import FrontierSim.Proofs.Ledger

/-!
# `FrontierSim.Proofs.Attempts`: the attempts for a chunk

`Decided` says what a commit made of a transfer: the chunk is done when the body is at
least as long as the requested range, a retry asks for what is left with the next attempt
number, and there are at most `MAX_ATTEMPTS` attempts.
-/

set_option autoImplicit false

namespace FrontierSim

open Lib

/-- The commits of a chunk, in order. -/
def System.commitsAt (s : System) (id : Nat) : List ChunkCommit :=
  s.commits.filter fun c => c.item.chunkId = id

/-- The request of a commit. -/
def ChunkCommit.request (c : ChunkCommit) : Request := ⟨c.note.requestId, c.item⟩

/-- The outcome of a transfer, in terms of the length of its body. -/
structure Decided (pageSize : Nat) (c : ChunkCommit) : Prop where
  pageSize_pos : 0 < pageSize
  start_le : c.item.rangeStart ≤ c.item.rangeEnd
  done : c.fate.isDone = true ↔
    c.item.rangeEnd + 1 ≤ c.item.rangeStart + c.note.transfer.bodyBytes
  retry : ∀ entry, c.fate = .retry entry →
    entry.chunkId = c.item.chunkId ∧
    entry.rangeStart = c.item.rangeStart + c.note.transfer.bodyBytes ∧
    entry.rangeEnd = c.item.rangeEnd ∧
    entry.attempt = c.item.nextAttempt ∧ c.item.nextAttempt < MAX_ATTEMPTS

variable {heap : ChunkHeap} {config : ReactorConfig} {chunks : List ChunkRequest}
  {opening : RunStarted} {ok : System → Label → Prop} {s s' : System} {a : Label}

/-- The fate that the commit section chooses follows from the length of the body and the range,
since the worker counted the whole body. -/
theorem decided_commitFate {pageSize bytes requestId now : Nat} {chunk : PrioritizedChunk}
    {t : Transfer} {isComplete : Bool} (st : SharedState) (hpos : 0 < pageSize)
    (hcounted : Counted ⟨requestId, chunk⟩ t bytes isComplete) :
    Decided pageSize ⟨chunk, ⟨requestId, t⟩,
      st.commitFate pageSize chunk bytes isComplete now⟩ := by
  refine ⟨hpos, hcounted.start_le, ?_, ?_⟩
  · rw [← hcounted.isComplete]
    unfold SharedState.commitFate
    cases isComplete
    · simp only [Bool.false_eq_true, if_false, iff_false]
      split <;> simp
    · simp
  · intro entry hentry
    obtain ⟨rfl, -, -, hattempts⟩ := retry_of_commitFate hentry
    exact ⟨rfl, by rw [← hcounted.bytes]; rfl, rfl, rfl, hattempts⟩

/-- Every commit of a run was decided by the length of the body. -/
theorem decided_reachable (h : (benchmark opening heap config chunks).Reachable ok s) :
    ∀ c ∈ s.commits, Decided config.pageSize c := by
  refine reachable_invariant_of (P := fun s => ∀ c ∈ s.commits, Decided config.pageSize c)
    (J := fun s => ∀ w ∈ s.workers, w.Consistent config.pageSize ∧ w.Fits) h
    (fun _ => consistent_reachable) (fun c hc => absurd hc List.not_mem_nil) ?_
  intro s a s' hworkers _ hdecided _ hmoves
  rcases ledger_cases hmoves with ⟨i, w, req, t, bytes, isComplete, hw, -, hph, rfl⟩ |
    ⟨hcommits, -, -⟩
  · intro c hc
    rcases List.mem_append.mp hc with hc | hc
    · exact hdecided c hc
    · have hphase := (hworkers w (List.mem_of_getElem? hw)).1.2
      rw [hph] at hphase
      rw [List.mem_singleton.mp hc]
      exact decided_commitFate s.shared hphase.1 hphase.2
  · rwa [hcommits]

/-! ### From attempt to attempt -/

/-- The body bytes of a list of transfers. -/
def received (cs : List ChunkCommit) : Nat := (cs.map fun c => c.note.transfer.bodyBytes).sum

/-- The bytes of one more transfer are added. -/
theorem received_append (cs : List ChunkCommit) (c : ChunkCommit) :
    received (cs ++ [c]) = received cs + c.note.transfer.bodyBytes := by
  simp [received]

/-- The entry `y` asks for what is left of `x` after the transfers `cs`. -/
structure Resumes (x y : PrioritizedChunk) (cs : List ChunkCommit) : Prop where
  chunkId : y.chunkId = x.chunkId
  rangeStart : y.rangeStart = x.rangeStart + received cs
  rangeEnd : y.rangeEnd = x.rangeEnd
  attempt : y.attempt = x.attempt + cs.length
  start_le : x.rangeStart ≤ x.rangeEnd → y.rangeStart ≤ y.rangeEnd
  bound : cs ≠ [] → y.attempt < MAX_ATTEMPTS

/-- The live entry of a chunk asks for what is left. The induction is on the lineage: each retry
moves the start of the range by the bytes of its transfer, and counts one attempt. -/
theorem resumes_of_lineage {pageSize : Nat} {x : PrioritizedChunk} {cs : List ChunkCommit}
    {cur : Option PrioritizedChunk} (h : WorkQueue.Lineage x cs cur)
    (hdecided : ∀ c ∈ cs, Decided pageSize c) : ∀ y ∈ cur, Resumes x y cs := by
  induction h with
  | nil =>
    intro y hy
    cases hy
    exact ⟨rfl, rfl, rfl, rfl, id, fun h => absurd rfl h⟩
  | @retry cs y z note _ ih =>
    intro z' hz
    cases hz
    have hy := ih (fun c hc => hdecided c (List.mem_append_left _ hc)) y rfl
    have hlast := hdecided ⟨y, note, .retry z⟩ (List.mem_append_right _ List.mem_cons_self)
    obtain ⟨hid, hstart, hend, hattempt, hbound⟩ := hlast.retry z rfl
    dsimp only at hid hstart hend hattempt hbound
    -- A retry is not done, so something of the range is left.
    have hnotDone : ¬ y.rangeEnd + 1 ≤ y.rangeStart + note.transfer.bodyBytes := fun hle =>
      absurd (hlast.done.mpr hle) (by simp)
    refine ⟨hid.trans hy.chunkId, ?_, hend.trans hy.rangeEnd, ?_, fun _ => by omega,
      fun _ => by omega⟩
    · rw [hstart, hy.rangeStart, received_append, Nat.add_assoc]
    · rw [hattempt, PrioritizedChunk.nextAttempt, hy.attempt, List.length_append]
      rfl
  | close => exact fun y hy => nomatch hy

/-- The pieces of a lineage lie one behind the other. -/
theorem pieces_of_lineage {pageSize : Nat} {x : PrioritizedChunk} {cs : List ChunkCommit}
    {cur : Option PrioritizedChunk} (h : WorkQueue.Lineage x cs cur)
    (hdecided : ∀ c ∈ cs, Decided pageSize c) (piece : ChunkCommit → List Nat)
    (hpiece : ∀ c ∈ cs, piece c
      = List.range' c.item.rangeStart c.note.transfer.bodyBytes) :
    cs.flatMap piece = List.range' x.rangeStart (received cs) := by
  -- One more commit puts its piece behind the others, whatever its fate.
  have key : ∀ {cs : List ChunkCommit} {c : ChunkCommit},
      WorkQueue.Lineage x cs (some c.item) → (∀ c' ∈ cs ++ [c], Decided pageSize c') →
      (∀ c' ∈ cs ++ [c], piece c'
        = List.range' c'.item.rangeStart c'.note.transfer.bodyBytes) →
      cs.flatMap piece = List.range' x.rangeStart (received cs) →
      (cs ++ [c]).flatMap piece = List.range' x.rangeStart (received (cs ++ [c])) := by
    intro cs c hcs hdecided hpiece ih
    have hc := resumes_of_lineage hcs
      (fun c' hc' => hdecided c' (List.mem_append_left _ hc')) c.item rfl
    rw [List.flatMap_append, ih, List.flatMap_singleton,
      hpiece c (List.mem_append_right _ List.mem_cons_self), hc.rangeStart, received_append,
      List.range'_append_1]
  induction h with
  | nil => rfl
  | retry hcs ih =>
    exact key hcs hdecided hpiece
      (ih (fun c hc => hdecided c (List.mem_append_left _ hc))
        fun c hc => hpiece c (List.mem_append_left _ hc))
  | close _ hcs ih =>
    exact key hcs hdecided hpiece
      (ih (fun c hc => hdecided c (List.mem_append_left _ hc))
        fun c hc => hpiece c (List.mem_append_left _ hc))

/-- The commits of one chunk were decided by the lengths of the bodies. -/
theorem decided_commitsAt (h : (benchmark opening heap config chunks).Reachable ok s) (id : Nat) :
    ∀ c ∈ s.commitsAt id, Decided config.pageSize c :=
  fun c hc => decided_reachable h c (List.mem_of_mem_filter hc)

/-- A commit is about a planned chunk. -/
theorem planned_of_commit (hids : (chunks.map ChunkRequest.chunkId).Nodup)
    (h : (benchmark opening heap config chunks).Reachable ok s) {d : ChunkCommit}
    (hd : d ∈ s.commits) :
    ∃ c ∈ chunks, d ∈ s.commitsAt c.chunkId := by
  obtain ⟨x, hx, hkey⟩ := (tracked_reachable hids h).logged d hd
  obtain ⟨c, hc, rfl⟩ := List.mem_map.mp hx
  refine ⟨c, hc, ?_⟩
  rw [System.commitsAt, List.mem_filter]
  exact ⟨hd, decide_eq_true hkey.symm⟩

/-- A held chunk is what is left of a planned one. -/
theorem planned_of_held (hids : (chunks.map ChunkRequest.chunkId).Nodup)
    (h : (benchmark opening heap config chunks).Reachable ok s) {i : Nat} {w : Worker}
    {y : PrioritizedChunk} (hw : s.workers[i]? = some w) (hheld : w.held = some y) :
    ∃ c ∈ chunks, y.chunkId = c.chunkId := by
  obtain ⟨x, hx, hkey⟩ := (tracked_reachable hids h).known y
    (Or.inr (mem_heldChunks.mpr ⟨i, w, hw, hheld⟩))
  obtain ⟨c, hc, rfl⟩ := List.mem_map.mp hx
  exact ⟨c, hc, hkey.symm⟩

/-- The commits of a planned chunk are a lineage. -/
theorem lineage_reachable (hids : (chunks.map ChunkRequest.chunkId).Nodup)
    (h : (benchmark opening heap config chunks).Reachable ok s) {c : ChunkRequest}
    (hc : c ∈ chunks) :
    ∃ cur, WorkQueue.Lineage c.entry (s.commitsAt c.chunkId) cur := by
  obtain ⟨cur, hlin, -⟩ := (tracked_reachable hids h).lineage c.entry (List.mem_map_of_mem hc)
  exact ⟨cur, hlin⟩

/-- The chunk of a commit is what the commits before it have left. -/
theorem resumes_of_commit (hids : (chunks.map ChunkRequest.chunkId).Nodup)
    (h : (benchmark opening heap config chunks).Reachable ok s) {c : ChunkRequest} (hc : c ∈ chunks)
    {d : ChunkCommit} (hd : d ∈ s.commitsAt c.chunkId) :
    ∃ i, Resumes c.entry d.item ((s.commitsAt c.chunkId).take i) := by
  obtain ⟨cur, hlin⟩ := lineage_reachable hids h hc
  obtain ⟨i, hi⟩ := List.mem_iff_getElem?.mp hd
  exact ⟨i, resumes_of_lineage (hlin.take hi)
    (fun d' hd' => decided_commitsAt h _ d' (List.mem_of_mem_take hd')) _ rfl⟩

/-- The chunk in a worker's hands is what the commits have left of it. -/
theorem lineage_of_held (hids : (chunks.map ChunkRequest.chunkId).Nodup)
    (h : (benchmark opening heap config chunks).Reachable ok s) {c : ChunkRequest} (hc : c ∈ chunks)
    {i : Nat} {w : Worker} {y : PrioritizedChunk} (hw : s.workers[i]? = some w)
    (hheld : w.held = some y) (hid : y.chunkId = c.chunkId) :
    WorkQueue.Lineage c.entry (s.commitsAt c.chunkId) (some y) :=
  (tracked_reachable hids h).lineage_of_mem (List.mem_map_of_mem hc)
    (Or.inr (mem_heldChunks.mpr ⟨i, w, hw, hheld⟩)) hid

/-- What a worker holds is what the commits have left of a planned chunk. -/
theorem resumes_of_held (hids : (chunks.map ChunkRequest.chunkId).Nodup)
    (h : (benchmark opening heap config chunks).Reachable ok s) {i : Nat} {w : Worker}
    {y : PrioritizedChunk} (hw : s.workers[i]? = some w) (hheld : w.held = some y) :
    ∃ c ∈ chunks, Resumes c.entry y (s.commitsAt c.chunkId) := by
  obtain ⟨c, hc, hid⟩ := planned_of_held hids h hw hheld
  exact ⟨c, hc, resumes_of_lineage (lineage_of_held hids h hc hw hheld hid)
    (decided_commitsAt h c.chunkId) y rfl⟩

/-- The commit that completed a chunk is the last one of the chunk. -/
theorem last_of_completed (hids : (chunks.map ChunkRequest.chunkId).Nodup)
    (h : (benchmark opening heap config chunks).Reachable ok s) {c : ChunkRequest} (hc : c ∈ chunks)
    (hdone : c.chunkId ∈ s.shared.completedChunks) :
    ∃ pre last, s.commitsAt c.chunkId = pre ++ [last] ∧
      WorkQueue.Lineage c.entry pre (some last.item) ∧ Resumes c.entry last.item pre ∧
      last ∈ s.commits ∧ last.fate.isDone = true := by
  obtain ⟨cur, hlin⟩ := lineage_reachable hids h hc
  obtain ⟨d, hd, hisDone, hid⟩ := ((booked_reachable h).completed _).mp hdone
  have hmem : d ∈ s.commitsAt c.chunkId := by simp [System.commitsAt, hd, hid]
  obtain ⟨pre, hpre, hlinPre⟩ := hlin.final_last hmem (Fate.isFinal_of_isDone hisDone)
  refine ⟨pre, d, hpre, hlinPre, ?_, hd, hisDone⟩
  refine resumes_of_lineage hlinPre (fun d' hd' => decided_commitsAt h c.chunkId d' ?_) _ rfl
  rw [hpre]
  exact List.mem_append_left _ hd'

end FrontierSim
