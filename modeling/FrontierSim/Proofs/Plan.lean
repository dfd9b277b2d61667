import FrontierSim.Cli.Plan
import Mathlib.Data.List.Nodup
import Mathlib.Algebra.Order.Ring.Nat
import Mathlib.Algebra.Ring.Divisibility.Basic

/-!
# `FrontierSim.Proofs.Plan`: the chunks of a plan

What `build_benchmark_chunks` promises when both chunk sizes are positive multiples of the
page size: the chunk ids are distinct, every chunk starts at a page boundary, and it ends
at one or at the end of the file.
-/

set_option autoImplicit false

namespace FrontierSim

open Lib

/-- A chunk that starts at a page boundary and ends at one, or at the end of the file. -/
structure PageAligned (pageSize downloadSize : Nat) (c : ChunkRequest) : Prop where
  start_le : c.rangeStart ≤ c.rangeEnd
  end_lt : c.rangeEnd < downloadSize
  start_dvd : pageSize ∣ c.rangeStart
  stop : pageSize ∣ c.rangeEnd + 1 ∨ c.rangeEnd + 1 = downloadSize

/-- One pass of the loop: the chunk it pushes, and the offset it leaves behind. -/
theorem planFrom_succ {downloadSize urgentChunkSize prefetchChunkSize urgentBoundary room offset
      chunkId : Nat} {chunks : List ChunkRequest} (hlt : offset < downloadSize)
    (hplan : planFrom downloadSize urgentChunkSize prefetchChunkSize urgentBoundary (room + 1)
      offset chunkId = some chunks) :
    ∃ (c : ChunkRequest) (rest : List ChunkRequest), chunks = c :: rest ∧
      c.chunkId = chunkId ∧ c.rangeStart = offset ∧
      c.rangeEnd = min (offset +
        (chunkShape urgentChunkSize prefetchChunkSize urgentBoundary offset).1 - 1)
        (downloadSize - 1) ∧
      planFrom downloadSize urgentChunkSize prefetchChunkSize urgentBoundary room
        (c.rangeEnd + 1) (chunkId + 1) = some rest := by
  simp only [planFrom, if_pos hlt, Option.bind_eq_bind, Option.bind_eq_some_iff,
    U64.checkedAdd_eq_some, U64.checkedSub_eq_some, Option.pure_def, Option.some.injEq] at hplan
  obtain ⟨_, ⟨-, rfl⟩, _, ⟨-, rfl⟩, _, ⟨-, rfl⟩, _, ⟨-, rfl⟩, _, ⟨-, rfl⟩, rest, hrest, rfl⟩ :=
    hplan
  exact ⟨_, rest, rfl, rfl, rfl, rfl, hrest⟩

section
variable {pageSize downloadSize urgentChunkSize prefetchChunkSize : Nat}
  (hurgent : 0 < urgentChunkSize) (hurgentDvd : pageSize ∣ urgentChunkSize)
  (hprefetch : 0 < prefetchChunkSize) (hprefetchDvd : pageSize ∣ prefetchChunkSize)
include hurgent hurgentDvd hprefetch hprefetchDvd

/-- Where both sizes are positive multiples of the page size, so is the size of each chunk. -/
theorem chunkShape_spec (urgentBoundary offset : Nat) :
    0 < (chunkShape urgentChunkSize prefetchChunkSize urgentBoundary offset).1 ∧
      pageSize ∣ (chunkShape urgentChunkSize prefetchChunkSize urgentBoundary offset).1 := by
  unfold chunkShape
  split
  · exact ⟨hurgent, hurgentDvd⟩
  · exact ⟨hprefetch, hprefetchDvd⟩

/-- The loop pushes aligned chunks with ascending ids. The induction keeps the offset at a page
boundary, or at the end of the file. -/
theorem planFrom_spec {urgentBoundary room offset chunkId : Nat} {chunks : List ChunkRequest}
    (hoffset : pageSize ∣ offset ∨ downloadSize ≤ offset)
    (hplan : planFrom downloadSize urgentChunkSize prefetchChunkSize urgentBoundary room
      offset chunkId = some chunks) :
    (∀ c ∈ chunks, chunkId ≤ c.chunkId ∧ PageAligned pageSize downloadSize c) ∧
      (chunks.map ChunkRequest.chunkId).Nodup := by
  induction room generalizing offset chunkId chunks with
  | zero =>
    cases hplan
    simp
  | succ room ih =>
    by_cases hlt : offset < downloadSize
    · obtain ⟨c, rest, rfl, hid, hstart, hend, hrest⟩ := planFrom_succ hlt hplan
      obtain ⟨hpos, hdvd⟩ := chunkShape_spec hurgent hurgentDvd hprefetch hprefetchDvd
        urgentBoundary offset
      have hstartDvd : pageSize ∣ offset := hoffset.resolve_right (by omega)
      -- A full chunk ends at a boundary, and one that is cut off ends the file.
      have hstop : pageSize ∣ c.rangeEnd + 1 ∨ c.rangeEnd + 1 = downloadSize := by
        rcases Nat.le_total (offset +
          (chunkShape urgentChunkSize prefetchChunkSize urgentBoundary offset).1 - 1)
          (downloadSize - 1) with hle | hle
        · left
          rw [hend, Nat.min_eq_left hle, Nat.sub_add_cancel (by omega)]
          exact Nat.dvd_add hstartDvd hdvd
        · right
          rw [hend, Nat.min_eq_right hle]
          omega
      obtain ⟨hall, hnodup⟩ := ih (hstop.imp id fun heq => by omega) hrest
      have hc : PageAligned pageSize downloadSize c :=
        ⟨by omega, by omega, hstart ▸ hstartDvd, hstop⟩
      refine ⟨?_, ?_⟩
      · intro c' hc'
        rcases List.mem_cons.mp hc' with rfl | hc'
        · exact ⟨hid.ge, hc⟩
        · exact ⟨Nat.le_of_succ_le (hall c' hc').1, (hall c' hc').2⟩
      · rw [List.map_cons, List.nodup_cons]
        refine ⟨?_, hnodup⟩
        -- All later ids are larger.
        intro hmem
        obtain ⟨c', hc', heq⟩ := List.mem_map.mp hmem
        have := (hall c' hc').1
        omega
    · simp only [planFrom, if_neg hlt, Option.some.injEq] at hplan
      cases hplan
      simp

/-- The chunks of a plan are page aligned and have distinct ids. -/
theorem buildBenchmarkChunks_spec {chunks : List ChunkRequest}
    (hplan : buildBenchmarkChunks downloadSize urgentChunkSize prefetchChunkSize = some chunks) :
    (∀ c ∈ chunks, PageAligned pageSize downloadSize c) ∧
      (chunks.map ChunkRequest.chunkId).Nodup := by
  obtain ⟨hall, hnodup⟩ := planFrom_spec hurgent hurgentDvd hprefetch hprefetchDvd
    (Or.inl (Nat.dvd_zero pageSize)) hplan
  exact ⟨fun c hc => (hall c hc).2, hnodup⟩

end

end FrontierSim
