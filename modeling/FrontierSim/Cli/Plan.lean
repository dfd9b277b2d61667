import FrontierSim.Transport.Chunk

/-!
# `FrontierSim.Cli.Plan`: the chunk plan

`build_benchmark_chunks` (`cli/src/main.rs`). The arithmetic is checked: `none` is an
operation that leaves `u64`. The loop stops after 10000 chunks, so it recurs on the number
of chunks that may still be pushed.
-/

set_option autoImplicit false

namespace FrontierSim

open Lib

/-- The cap on the number of chunks. -/
def MAX_CHUNKS : Nat := 10000

/-- The size and lane of the chunk at `offset`. -/
def chunkShape (urgentChunkSize prefetchChunkSize urgentBoundary offset : Nat) : Nat × Lane :=
  if offset < urgentBoundary then (urgentChunkSize, .urgent) else (prefetchChunkSize, .prefetch)

/-- The loop, with `room` chunks left to push. -/
def planFrom (downloadSize urgentChunkSize prefetchChunkSize urgentBoundary : Nat) :
    (room : Nat) → (offset chunkId : Nat) → Option (List ChunkRequest)
  | 0, _, _ => some []
  | room + 1, offset, chunkId =>
    if offset < downloadSize then do
      let (chunkSize, lane) :=
        chunkShape urgentChunkSize prefetchChunkSize urgentBoundary offset
      -- The sum is formed first, so it can leave `u64` where the end would not.
      let past ← U64.checkedAdd offset chunkSize
      let last ← U64.checkedSub past 1
      let fileLast ← U64.checkedSub downloadSize 1
      let rangeEnd := min last fileLast
      let next ← U64.checkedAdd rangeEnd 1
      let nextId ← U64.checkedAdd chunkId 1
      let rest ← planFrom downloadSize urgentChunkSize prefetchChunkSize urgentBoundary
        room next nextId
      return ⟨chunkId, offset, rangeEnd, lane⟩ :: rest
    else some []

/-- `build_benchmark_chunks`: urgent chunks up to twice their size, then prefetch chunks up to the
end of the download. It is `none` where the arithmetic of `u64` would panic. -/
def buildBenchmarkChunks (downloadSize urgentChunkSize prefetchChunkSize : Nat) :
    Option (List ChunkRequest) :=
  planFrom downloadSize urgentChunkSize prefetchChunkSize
    (U64.saturatingMul urgentChunkSize 2) MAX_CHUNKS 0 0

end FrontierSim
