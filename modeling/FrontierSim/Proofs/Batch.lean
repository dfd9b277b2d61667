import FrontierSim.Proofs.Tracker

/-!
# `FrontierSim.Proofs.Batch`: the tracker computes what the calls say

`FrontierTracker` works incrementally: it keeps a cursor and a byte count, and never starts
again from page 0. `initialPages` is what it stands for, the number of pages from 0 on that the
calls so far have touched, and `batchEvents` the timeline that follows from it.
`tracker_batch` says that after any calls the tracker holds these.
-/

set_option autoImplicit false

namespace FrontierSim

open Lib

/-- A call of one of the two methods that tell the tracker of data. -/
inductive TrackerCall
  | pageCompleted (pageIndex tMs : Nat)
  | bytesDownloaded (absoluteOffset bytesRead tMs : Nat)
  deriving DecidableEq, Repr

namespace TrackerCall

/-- The time that the call carries. -/
def tMs : TrackerCall → Nat
  | .pageCompleted _ tMs => tMs
  | .bytesDownloaded _ _ tMs => tMs

/-- The tracker after the call. -/
def apply (tr : FrontierTracker) : TrackerCall → FrontierTracker
  | .pageCompleted pageIndex tMs => tr.onPageCompleted pageIndex tMs
  | .bytesDownloaded absoluteOffset bytesRead tMs =>
    tr.onBytesDownloaded absoluteOffset bytesRead tMs

/-- The call names the page, or its byte range has a byte in the page. -/
def Touches (pageSize page : Nat) : TrackerCall → Prop
  | .pageCompleted pageIndex _ => pageIndex = page
  | .bytesDownloaded absoluteOffset bytesRead _ =>
    ∃ x, (absoluteOffset ≤ x ∧ x < absoluteOffset + bytesRead) ∧
      page * pageSize ≤ x ∧ x < (page + 1) * pageSize

end TrackerCall

/-- A fresh tracker after some calls. -/
def FrontierTracker.after (pageSize : Nat) (calls : List TrackerCall) : FrontierTracker :=
  calls.foldl TrackerCall.apply (.withPageSize pageSize)

/-- The pages that some call touches. -/
def touchedPages (pageSize : Nat) (calls : List TrackerCall) : Set Nat :=
  {page | ∃ call ∈ calls, call.Touches pageSize page}

/-- The number of pages 0, 1, 2, ... up to the first one that no call touches. -/
noncomputable def initialPages (pageSize : Nat) (calls : List TrackerCall) : Nat :=
  initialRun (touchedPages pageSize calls)

/-- The timeline that the calls define: one event for each call that closes the first gap. -/
noncomputable def batchEvents (pageSize : Nat) (calls : List TrackerCall) : List FrontierEvent :=
  calls.zipIdx.filterMap fun (call, j) =>
    let before := initialPages pageSize (calls.take j)
    let now := initialPages pageSize (calls.take (j + 1))
    if before < now then some ⟨call.tMs, pageSize * now, pageSize * (now - before)⟩ else none

/-! ### One call -/

variable {tr : FrontierTracker} {pageSize : Nat} {S : Set Nat} {calls : List TrackerCall}

/-- The pages of a byte range are those between the page of its first byte and that of its
last. -/
theorem touches_bytes_iff (hpos : 0 < pageSize) {absoluteOffset bytesRead : Nat}
    (hread : bytesRead ≠ 0) (tMs page : Nat) :
    (TrackerCall.bytesDownloaded absoluteOffset bytesRead tMs).Touches pageSize page ↔
      absoluteOffset / pageSize ≤ page ∧ page ≤ (absoluteOffset + bytesRead - 1) / pageSize := by
  rw [Nat.le_div_iff_mul_le hpos, ← Nat.lt_succ_iff, Nat.div_lt_iff_lt_mul hpos]
  show (∃ x, (absoluteOffset ≤ x ∧ x < absoluteOffset + bytesRead) ∧
    page * pageSize ≤ x ∧ x < (page + 1) * pageSize) ↔ _
  constructor
  · rintro ⟨x, ⟨hle, hlt⟩, hstart, hend⟩
    exact ⟨Nat.lt_of_le_of_lt hle hend, by omega⟩
  · rintro ⟨hfirst, hlast⟩
    -- The later of the two starts lies in both ranges.
    have hpage : page * pageSize < (page + 1) * pageSize :=
      Nat.mul_lt_mul_of_pos_right (Nat.lt_succ_self page) hpos
    refine ⟨max absoluteOffset (page * pageSize), ⟨le_max_left _ _, ?_⟩, le_max_right _ _, ?_⟩
    · exact max_lt (by omega) (by omega)
    · exact max_lt hfirst hpage

/-- Data in a byte range adds its pages to the set. -/
theorem Tracks.onBytesDownloaded (h : Tracks tr pageSize S) (hpos : 0 < pageSize)
    (absoluteOffset bytesRead tMs : Nat) :
    Tracks (tr.onBytesDownloaded absoluteOffset bytesRead tMs) pageSize
      (S ∪ {page | (TrackerCall.bytesDownloaded absoluteOffset bytesRead tMs).Touches
        pageSize page}) := by
  unfold FrontierTracker.onBytesDownloaded
  split
  · rename_i hzero
    -- No bytes, no pages.
    have hnone : {page | (TrackerCall.bytesDownloaded absoluteOffset bytesRead tMs).Touches
        pageSize page} = ∅ := by
      refine Set.eq_empty_of_forall_notMem fun page => ?_
      rintro ⟨x, ⟨hle, hlt⟩, -⟩
      omega
    rw [hnone, Set.union_empty]
    exact h
  · rename_i hread
    refine h.advance (fun p => ?_) Set.subset_union_left tMs
    have hlen := le_length_resizePages tr.pages
      ((absoluteOffset + bytesRead - 1) / tr.pageSize + 1)
    have horder : absoluteOffset / tr.pageSize ≤ (absoluteOffset + bytesRead - 1) / tr.pageSize :=
      Nat.div_le_div_right (by omega)
    rw [getElem?_markPages _ _ _ _ (by omega), getElem?_resizePages, h.marked, Set.mem_union,
      Set.mem_ofPred_eq, touches_bytes_iff hpos hread, h.pageSize_eq, or_comm]
    rw [h.pageSize_eq] at horder
    refine or_congr_right ?_
    omega

/-- A call adds the pages that it touches, and the tracker moves to the first gap of all pages. -/
theorem Tracks.apply (h : Tracks tr pageSize S) (hpos : 0 < pageSize) (call : TrackerCall) :
    Tracks (call.apply tr) pageSize (S ∪ {page | call.Touches pageSize page}) := by
  cases call with
  | pageCompleted pageIndex tMs =>
    have hpage : S ∪ {page | (TrackerCall.pageCompleted pageIndex tMs).Touches pageSize page}
        = insert pageIndex S := by
      rw [Set.union_comm]
      exact congrArg (· ∪ S) (Set.ext fun page => eq_comm)
    rw [hpage]
    exact h.onPageCompleted pageIndex tMs
  | bytesDownloaded absoluteOffset bytesRead tMs =>
    exact h.onBytesDownloaded hpos absoluteOffset bytesRead tMs

/-- No call moves the frontier back. -/
theorem Tracks.le_apply (h : Tracks tr pageSize S) (hpos : 0 < pageSize) (call : TrackerCall) :
    tr.contiguousFrontierBytes ≤ (call.apply tr).contiguousFrontierBytes := by
  have h' := h.apply hpos call
  rw [h.frontier, h'.frontier]
  exact Nat.mul_le_mul_right pageSize (h.firstGap.mono h'.firstGap Set.subset_union_left)

/-- A call records an advance, or nothing. -/
theorem events_apply (tr : FrontierTracker) (call : TrackerCall) :
    (call.apply tr).events = tr.events ++
      if tr.contiguousFrontierBytes < (call.apply tr).contiguousFrontierBytes then
        [⟨call.tMs, (call.apply tr).contiguousFrontierBytes,
          (call.apply tr).contiguousFrontierBytes - tr.contiguousFrontierBytes⟩]
      else [] := by
  cases call with
  | pageCompleted pageIndex tMs => exact events_onPageCompleted tr pageIndex tMs
  | bytesDownloaded absoluteOffset bytesRead tMs =>
    show (tr.onBytesDownloaded absoluteOffset bytesRead tMs).events = _
    simp only [TrackerCall.apply, FrontierTracker.onBytesDownloaded]
    split
    · rw [if_neg (Nat.lt_irrefl _), List.append_nil]
    · exact events_advanceFrontier _ tMs

/-! ### All calls -/

/-- The last call is applied last. -/
theorem after_append (pageSize : Nat) (calls : List TrackerCall) (call : TrackerCall) :
    FrontierTracker.after pageSize (calls ++ [call])
      = call.apply (FrontierTracker.after pageSize calls) := by
  rw [FrontierTracker.after, List.foldl_append]
  rfl

/-- The last call touches its pages. -/
theorem touchedPages_append (pageSize : Nat) (calls : List TrackerCall) (call : TrackerCall) :
    touchedPages pageSize (calls ++ [call])
      = touchedPages pageSize calls ∪ {page | call.Touches pageSize page} := by
  ext page
  simp only [touchedPages, List.mem_append, List.mem_singleton, Set.mem_union, Set.mem_ofPred_eq,
    or_and_right, exists_or, exists_eq_left]

/-- After any calls the tracker stands at the first page that none of them touched. -/
theorem tracks_after (hpos : 0 < pageSize) (calls : List TrackerCall) :
    Tracks (.after pageSize calls) pageSize (touchedPages pageSize calls) := by
  induction calls using List.reverseRecOn with
  | nil =>
    have hnone : touchedPages pageSize [] = ∅ := by simp [touchedPages]
    rw [hnone]
    exact tracks_withPageSize pageSize
  | append_singleton calls call ih =>
    rw [after_append, touchedPages_append]
    exact ih.apply hpos call

/-- The cursor of the tracker stands behind the initial pages. -/
theorem lastFrontierPageIndex_after (hpos : 0 < pageSize) (calls : List TrackerCall) :
    (FrontierTracker.after pageSize calls).lastFrontierPageIndex = initialPages pageSize calls :=
  (tracks_after hpos calls).firstGap.initialRun_eq.symm

/-- The frontier in bytes: the pages that were touched without a gap. -/
theorem frontier_after (hpos : 0 < pageSize) (calls : List TrackerCall) :
    (FrontierTracker.after pageSize calls).contiguousFrontierBytes
      = pageSize * initialPages pageSize calls := by
  rw [(tracks_after hpos calls).frontier, lastFrontierPageIndex_after hpos, Nat.mul_comm]

/-- One more call defines at most one more event. -/
theorem batchEvents_append (pageSize : Nat) (calls : List TrackerCall) (call : TrackerCall) :
    batchEvents pageSize (calls ++ [call]) = batchEvents pageSize calls ++
      if initialPages pageSize calls < initialPages pageSize (calls ++ [call]) then
        [⟨call.tMs, pageSize * initialPages pageSize (calls ++ [call]),
          pageSize * (initialPages pageSize (calls ++ [call]) - initialPages pageSize calls)⟩]
      else [] := by
  unfold batchEvents
  rw [List.zipIdx_append, List.filterMap_append]
  congr 1
  · -- The earlier calls do not see the last one.
    refine List.filterMap_congr fun x hx => ?_
    have hlt := List.snd_lt_of_mem_zipIdx hx
    rw [Nat.add_zero] at hlt
    dsimp only
    rw [List.take_append_of_le_length hlt.le, List.take_append_of_le_length hlt]
  · rw [List.zipIdx_singleton, Nat.zero_add]
    have htake : (calls ++ [call]).take (calls.length + 1) = calls ++ [call] :=
      List.take_of_length_le (by simp)
    simp only [List.filterMap_cons, List.filterMap_nil, List.take_left', htake]
    by_cases hlt : initialPages pageSize calls < initialPages pageSize (calls ++ [call])
    · rw [if_pos hlt, if_pos hlt]
    · rw [if_neg hlt, if_neg hlt]

/-- The timeline is the one that the batch definition gives, call by call. -/
theorem events_after (hpos : 0 < pageSize) (calls : List TrackerCall) :
    (FrontierTracker.after pageSize calls).events = batchEvents pageSize calls := by
  induction calls using List.reverseRecOn with
  | nil => rfl
  | append_singleton calls call ih =>
    rw [batchEvents_append, ← ih, after_append, events_apply, ← after_append,
      frontier_after hpos calls, frontier_after hpos (calls ++ [call])]
    simp only [Nat.mul_lt_mul_left hpos, Nat.mul_sub]

/-! ### The deltas -/

/-- The timeline of a tracker adds up to its frontier. -/
structure AddsUp (tr : FrontierTracker) : Prop where
  positive : ∀ e ∈ tr.events, 0 < e.deltaContiguousBytes
  sum : (tr.events.map FrontierEvent.deltaContiguousBytes).sum = tr.contiguousFrontierBytes

/-- A call adds at most one event, and its delta is what the frontier moved by. -/
theorem AddsUp.apply (h : AddsUp tr) (call : TrackerCall)
    (hle : tr.contiguousFrontierBytes ≤ (call.apply tr).contiguousFrontierBytes) :
    AddsUp (call.apply tr) := by
  have hevents := events_apply tr call
  split at hevents
  · rename_i hlt
    constructor
    · intro e he
      rw [hevents, List.mem_append, List.mem_singleton] at he
      rcases he with he | rfl
      · exact h.positive e he
      · exact Nat.sub_pos_of_lt hlt
    · rw [hevents, List.map_append, List.sum_append, h.sum]
      show _ + ((call.apply tr).contiguousFrontierBytes - tr.contiguousFrontierBytes + 0) = _
      rw [Nat.add_zero, Nat.add_sub_cancel' hle]
  · rename_i hge
    rw [List.append_nil] at hevents
    refine ⟨hevents ▸ h.positive, ?_⟩
    rw [hevents, h.sum]
    exact Nat.le_antisymm hle (Nat.le_of_not_lt hge)

/-- After any calls the deltas of the timeline add up to the frontier. -/
theorem addsUp_after (hpos : 0 < pageSize) (calls : List TrackerCall) :
    AddsUp (.after pageSize calls) := by
  induction calls using List.reverseRecOn with
  | nil => exact ⟨by simp [FrontierTracker.after, FrontierTracker.withPageSize], rfl⟩
  | append_singleton calls call ih =>
    rw [after_append]
    exact ih.apply call ((tracks_after hpos calls).le_apply hpos call)

/-- After any calls the frontier is the initial run of the pages touched, and the timeline has
one event for each call that made the run longer. So the frontier depends on the set of pages
alone, and no call moves it back. -/
theorem tracker_batch (hpos : 0 < pageSize) (calls : List TrackerCall) :
    FirstGap (touchedPages pageSize calls) (initialPages pageSize calls) ∧
    (FrontierTracker.after pageSize calls).contiguousFrontierBytes
      = pageSize * initialPages pageSize calls ∧
    (FrontierTracker.after pageSize calls).events = batchEvents pageSize calls ∧
    (∀ calls', touchedPages pageSize calls' = touchedPages pageSize calls →
      (FrontierTracker.after pageSize calls').contiguousFrontierBytes
        = (FrontierTracker.after pageSize calls).contiguousFrontierBytes) ∧
    AddsUp (.after pageSize calls) ∧
    ∀ call : TrackerCall, (FrontierTracker.after pageSize calls).contiguousFrontierBytes
      ≤ (call.apply (.after pageSize calls)).contiguousFrontierBytes := by
  have htracks := tracks_after hpos calls
  refine ⟨?_, frontier_after hpos calls, events_after hpos calls, fun calls' hsame => ?_,
    addsUp_after hpos calls, htracks.le_apply hpos⟩
  · rw [← lastFrontierPageIndex_after hpos calls]
    exact htracks.firstGap
  · rw [frontier_after hpos calls', frontier_after hpos calls, initialPages, hsame, initialPages]

/-- Page 1 first, then bytes of page 0, and the frontier is at 8. -/
theorem tracker_batch_two_calls :
    (FrontierTracker.after 4 [.pageCompleted 1 5, .bytesDownloaded 2 1 9]).events
        = [⟨9, 8, 8⟩] ∧
      4 * initialPages 4 [.pageCompleted 1 5, .bytesDownloaded 2 1 9] = 8 :=
  ⟨by decide, (tracker_batch (by decide) _).2.1.symm⟩

end FrontierSim
