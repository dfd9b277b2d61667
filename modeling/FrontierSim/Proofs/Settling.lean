import FrontierSim.Proofs.Announcements
import FrontierSim.Proofs.Shutdown
import FrontierSim.Proofs.Termination

/-!
# `FrontierSim.Proofs.Settling`: what a run without a deadline achieves

`fair_run_finishes` says that a run ends. Without a deadline it also does its work:
`fair_run_settles` says that at the end every planned chunk is complete, or was requested ten
times in vain, and that `failed_chunks` counts the latter.

A chunk is given up for one of two reasons, the flag or the number of attempts. Without a
deadline the flag is never set (`attempts_of_givenUp`).
-/

set_option autoImplicit false

namespace FrontierSim

open Lib

variable {heap : ChunkHeap} {config : ReactorConfig} {chunks : List ChunkRequest}
  {opening : RunStarted} {ok : System → Label → Prop} {s s' : System} {a : Label}

/-- What has become of a planned chunk. -/
inductive Settled (s : System) (c : ChunkRequest) : Prop
  | completed (hdone : c.chunkId ∈ s.shared.completedChunks) (hkept : c.chunkId ∉ s.givenUp)
  | givenUp (hopen : c.chunkId ∉ s.shared.completedChunks) (hgone : c.chunkId ∈ s.givenUp)
      (hattempts : (s.startedAt c.chunkId).length = MAX_ATTEMPTS)

/-- A chunk is given up after the deadline, or when no attempt is left. -/
theorem givenUp_of_commitFate {st : SharedState} {pageSize bytes now : Nat}
    {chunk : PrioritizedChunk} {isComplete : Bool}
    (h : st.commitFate pageSize chunk bytes isComplete now = .givenUp) :
    st.timeExpired = true ∨ MAX_ATTEMPTS ≤ chunk.nextAttempt := by
  unfold SharedState.commitFate at h
  split at h
  · cases h
  · split at h
    · cases h
    · rename_i hcond
      cases hexpired : st.timeExpired with
      | true => exact Or.inl rfl
      | false =>
        right
        simpa [hexpired] using hcond

/-- Without a deadline the flag is never set. -/
theorem not_expired (hunlimited : config.maxDuration = 0)
    (h : (benchmark opening heap config chunks).Reachable ok s) : s.shared.timeExpired = false := by
  cases hexpired : s.shared.timeExpired with
  | false => rfl
  | true =>
    obtain ⟨hpos, -⟩ := expired_reachable h hexpired
    omega

/-- Without a deadline a chunk is given up at its last attempt only. -/
theorem attempts_of_givenUp (hunlimited : config.maxDuration = 0)
    (h : (benchmark opening heap config chunks).Reachable ok s) :
    ∀ d ∈ s.commits, d.fate.isGivenUp = true → MAX_ATTEMPTS ≤ d.item.nextAttempt := by
  refine reachable_invariant_of (J := fun s => s.shared.timeExpired = false)
    (P := fun s => ∀ d ∈ s.commits, d.fate.isGivenUp = true → MAX_ATTEMPTS ≤ d.item.nextAttempt)
    h (fun _ => not_expired hunlimited) (fun d hd => absurd hd List.not_mem_nil) ?_
  intro s a s' hopen _ hP _ hmoves
  rcases ledger_cases hmoves with ⟨i, w, req, t, bytes, isComplete, -, -, -, rfl⟩ | ⟨heq, -⟩
  · intro d hd hgone
    rcases List.mem_append.mp hd with hd | hd
    · exact hP d hd hgone
    · rw [List.mem_singleton.mp hd] at hgone ⊢
      cases hfate : s.shared.commitFate config.pageSize req.chunk bytes isComplete s.now with
      | done | retry =>
        rw [hfate] at hgone
        cases hgone
      | givenUp =>
        rcases givenUp_of_commitFate hfate with hexpired | hattempts
        · rw [hopen] at hexpired
          cases hexpired
        · exact hattempts
  · rwa [heq]

/-- When the workers have left their loops, every announced request was committed. -/
theorem length_startedAt (hids : (chunks.map ChunkRequest.chunkId).Nodup)
    (h : (benchmark opening heap config chunks).Reachable ok s)
    (hexited : ∀ w ∈ s.workers, w.phase = .exited) (id : Nat) :
    (s.startedAt id).length = (s.commitsAt id).length := by
  obtain ⟨cur, hcur, hall⟩ := (traced_reachable hids h).started id
  have hnone : cur = none := by
    cases hc : cur with
    | none => rfl
    | some req =>
      obtain ⟨i, hi, -⟩ := (hcur req).mp hc
      obtain ⟨w, hw, hreq⟩ := Option.bind_eq_some_iff.mp hi
      have hreq := request_of_announced hreq
      rw [hexited w (List.mem_of_getElem? hw)] at hreq
      cases hreq
  have hlen := hall.length_eq
  rw [hnone, Option.toList_none, List.append_nil, List.length_map] at hlen
  exact hlen.symm

/-- A chunk that was given up without a deadline had its ten attempts. -/
theorem length_of_givenUp (hids : (chunks.map ChunkRequest.chunkId).Nodup)
    (hunlimited : config.maxDuration = 0)
    (h : (benchmark opening heap config chunks).Reachable ok s)
    {c : ChunkRequest} (hc : c ∈ chunks) (hgone : c.chunkId ∈ s.givenUp) :
    (s.commitsAt c.chunkId).length = MAX_ATTEMPTS := by
  obtain ⟨d, hd, hid⟩ := List.mem_map.mp hgone
  obtain ⟨hmem, hfate⟩ := List.mem_filter.mp hd
  have hat : d ∈ s.commitsAt c.chunkId := List.mem_filter.mpr ⟨hmem, decide_eq_true hid⟩
  obtain ⟨cur, hlin⟩ := lineage_reachable hids h hc
  have hfinal : d.fate.isFinal = true := by rw [Fate.isFinal_eq, hfate, Bool.or_true]
  obtain ⟨pre, hpre, hlinPre⟩ := hlin.final_last hat hfinal
  have hresumes := resumes_of_lineage hlinPre
    (fun d' hd' => decided_commitsAt h c.chunkId d' (hpre ▸ List.mem_append_left _ hd')) _ rfl
  -- The last attempt has number `pre.length + 1`, and it was the tenth.
  have hattempt : d.item.attempt = 0 + pre.length := hresumes.attempt
  have hlast : MAX_ATTEMPTS ≤ d.item.nextAttempt := attempts_of_givenUp hunlimited h d hmem hfate
  have hbound := hresumes.bound
  rw [hpre, List.length_append, List.length_singleton]
  rw [PrioritizedChunk.nextAttempt] at hlast
  cases pre with
  | nil =>
    simp only [List.length_nil, MAX_ATTEMPTS] at *
    omega
  | cons d' rest =>
    have hlt := hbound (List.cons_ne_nil d' rest)
    simp only [MAX_ATTEMPTS] at *
    omega

/-- The end of a run without a deadline. -/
theorem settled_of_stopped (hids : (chunks.map ChunkRequest.chunkId).Nodup)
    (hworkers : 0 < config.maxConcurrent) (hpage : 0 < config.pageSize)
    (hunlimited : config.maxDuration = 0) (hchunks : ∀ c ∈ chunks, c.WellFormed)
    (h : (benchmark opening heap config chunks).Reachable ok s) (hstopped : s.Stopped) :
    ∀ c ∈ chunks, Settled s c := by
  have hexited : ∀ w ∈ s.workers, w.phase = .exited := fun w hw =>
    (ended_of_stopped hids h hchunks hstopped w hw).resolve_right fun hzero => by omega
  have hqueue : s.shared.chunkQueue = [] := by
    by_contra hne
    obtain ⟨w, hw, hstays⟩ := attended_reachable hworkers h (not_expired hunlimited h) hne
    exact hstays (hexited w hw)
  have hheld : ∀ w ∈ s.workers, w.held = none := fun w hw => held_of_phase (hexited w hw)
  have houtcome := settled_of_covered (booked_reachable h) (covered_reachable h) hqueue hheld
  have hC := conserved_of_tracked (booked_reachable h) (tracked_reachable hids h)
  intro c hc
  have hplace := hC.place c.chunkId (List.mem_map_of_mem hc)
  have hcompleted : s.completedAt c.chunkId =
      if c.chunkId ∈ s.shared.completedChunks then 1 else 0 := rfl
  by_cases hdone : c.chunkId ∈ s.shared.completedChunks
  · refine .completed hdone fun hgone => ?_
    have hpos := List.count_pos_iff.mpr hgone
    rw [if_pos hdone] at hcompleted
    omega
  · have hgone := (houtcome c hc).resolve_left hdone
    refine .givenUp hdone hgone ?_
    rw [length_startedAt hids h hexited, length_of_givenUp hids hunlimited h hc hgone]

/-- `failed_chunks` counts the planned chunks that are not complete. -/
theorem failed_of_settled (hids : (chunks.map ChunkRequest.chunkId).Nodup)
    (h : (benchmark opening heap config chunks).Reachable ok s)
    (hsettled : ∀ c ∈ chunks, Settled s c) :
    s.shared.failedChunks =
      (chunks.filter fun c => c.chunkId ∉ s.shared.completedChunks).length := by
  have hC := conserved_of_tracked (booked_reachable h) (tracked_reachable hids h)
  rw [hC.failed, ← List.length_map ChunkRequest.chunkId]
  refine List.Perm.length_eq ((List.perm_ext_iff_of_nodup hC.givenUp_nodup ?_).mpr fun id => ?_)
  · exact hids.sublist (List.filter_sublist.map _)
  · rw [List.mem_map]
    constructor
    · intro hgone
      obtain ⟨c, hc, rfl⟩ : ∃ c ∈ chunks, c.chunkId = id := by
        by_contra hunknown
        have hplace := hC.unknown id fun hid => hunknown (List.mem_map.mp hid)
        have hpos := List.count_pos_iff.mpr hgone
        omega
      refine ⟨c, List.mem_filter.mpr ⟨hc, ?_⟩, rfl⟩
      cases hsettled c hc with
      | completed _ hkept => exact absurd hgone hkept
      | givenUp hopen => exact decide_eq_true hopen
    · rintro ⟨c, hc, rfl⟩
      obtain ⟨hc, hopen⟩ := List.mem_filter.mp hc
      cases hsettled c hc with
      | completed hdone => exact absurd hdone (of_decide_eq_true hopen)
      | givenUp _ hgone => exact hgone

/-- Without a deadline every fair run ends with each planned chunk complete, or given up after
ten requests, whatever curl answered. The reported `failed_chunks` is the number of chunks that
are not complete. -/
theorem fair_run_settles (hids : (chunks.map ChunkRequest.chunkId).Nodup)
    (hworkers : 0 < config.maxConcurrent) (hpage : 0 < config.pageSize)
    (hunlimited : config.maxDuration = 0) (hchunks : ∀ c ∈ chunks, c.WellFormed)
    (r : (benchmark opening heap config chunks).Run TransitionSystem.any)
    (hstart : (benchmark opening heap config chunks).Reachable TransitionSystem.any (r.state 0))
    (hfair : FairRun r) :
    ∃ n, ∀ m, n ≤ m → (r.state m).Quiescent ∧ (∀ c ∈ chunks, Settled (r.state m) c) ∧
      ∃ result, (r.state m).result = some result ∧ result.failedChunks =
        (chunks.filter fun c => c.chunkId ∉ (r.state m).shared.completedChunks).length := by
  obtain ⟨n, hn⟩ := eventually_quiescent hstart hfair
  refine ⟨n, fun m hm => ?_⟩
  have hq := quiescent_run hstart hm hn
  have h := r.reachable hstart m
  have hsettled := settled_of_stopped hids hworkers hpage hunlimited hchunks h hq.stopped
  obtain ⟨result, hresult⟩ := Option.isSome_iff_exists.mp hq.joined
  refine ⟨hq, hsettled, result, hresult, ?_⟩
  rw [(sums_reachable h result hresult).failedChunks, failed_of_settled hids h hsettled]

/-- A fair run in which the chunk is complete at its second attempt. -/
theorem fair_run_settles_one_retry :
    ∃ r : (benchmark .plain .ofList (.unlimited 1 4) [⟨0, 0, 3, .urgent⟩]).Run TransitionSystem.any,
      FairRun r ∧ ∃ n, ∀ m, n ≤ m → (r.state m).Quiescent ∧
        (∀ c ∈ [⟨0, 0, 3, .urgent⟩], Settled (r.state m) c) ∧
        ∃ result, (r.state m).result = some result ∧ result.failedChunks =
          ([⟨0, 0, 3, .urgent⟩].filter fun c : ChunkRequest =>
            c.chunkId ∉ (r.state m).shared.completedChunks).length := by
  obtain ⟨r, hstart, hfair⟩ := exists_fairRun TransitionSystem.any .plain .ofList (.unlimited 1 4)
    [⟨0, 0, 3, .urgent⟩] (fun _ _ => trivial) oneRetry (by decide)
  refine ⟨r, hfair, fair_run_settles (by decide) (by decide) (by decide) rfl ?_ r
    (hstart ▸ .refl) hfair⟩
  simp [ChunkRequest.WellFormed]

end FrontierSim
