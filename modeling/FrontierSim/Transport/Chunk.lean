import FrontierSim.Lib.MaxHeap
import FrontierSim.Lib.U64
import FrontierSim.Telemetry.Events

/-!
# `FrontierSim.Transport.Chunk`: chunks and their order in the queue

`ChunkRequest` is a planned chunk, `PrioritizedChunk` a queue entry
(`transport/src/reactor.rs`). The queue is a `BinaryHeap`, a max-heap for
`PrioritizedChunk.cmp`: urgent before prefetch, then the lower range start. Entries that
`cmp` cannot tell apart come out in an order that the standard library does not specify,
so the queue is an arbitrary `MaxHeap`.

Instants and durations are `Nat` nanoseconds since `run_start`.
-/

set_option autoImplicit false

namespace FrontierSim

open Lib

/-- A planned chunk: the range with both of its ends, and the lane. -/
structure ChunkRequest where
  chunkId : Nat
  rangeStart : Nat
  rangeEnd : Nat
  lane : Lane
  deriving DecidableEq, Repr

/-- An entry of the queue. `attempt` counts the requests that were made for the chunk, and a retry
waits until `retryAfter`. -/
structure PrioritizedChunk where
  chunkId : Nat
  rangeStart : Nat
  rangeEnd : Nat
  lane : Lane
  attempt : Nat
  retryAfter : Option Nat
  deriving DecidableEq, Repr

/-- The queue entry of a planned chunk. -/
def ChunkRequest.entry (chunk : ChunkRequest) : PrioritizedChunk where
  chunkId := chunk.chunkId
  rangeStart := chunk.rangeStart
  rangeEnd := chunk.rangeEnd
  lane := chunk.lane
  attempt := 0
  retryAfter := none

/-- The range as the request and the trace spell it. -/
def rangeString (rangeStart rangeEnd : Nat) : String :=
  toString rangeStart ++ "-" ++ toString rangeEnd

namespace PrioritizedChunk

/-- `Ord::cmp`: urgent entries are greater than prefetch ones, and of one lane the entry with the
lower range start is greater. The attempt does not count. -/
def cmp (self other : PrioritizedChunk) : Ordering :=
  let laneOrd := match self.lane, other.lane with
    | .urgent, .prefetch => Ordering.gt
    | .prefetch, .urgent => Ordering.lt
    | _, _ => Ordering.eq
  if laneOrd ≠ .eq then laneOrd
  else compare other.rangeStart self.rangeStart

/-- `PartialEq`. The queue takes entries for equal that differ in everything else. -/
def eq (self other : PrioritizedChunk) : Bool :=
  self.lane == other.lane && self.rangeStart == other.rangeStart

/-- `a` comes out of the queue no earlier than `b`. -/
def le (a b : PrioritizedChunk) : Bool := (a.cmp b).isLE

/-- The order in words. A lower range start is a higher priority. -/
theorem le_iff (a b : PrioritizedChunk) :
    a.le b = true ↔
      (a.lane = .prefetch ∧ b.lane = .urgent) ∨
      (a.lane = b.lane ∧ b.rangeStart ≤ a.rangeStart) := by
  unfold le cmp
  cases ha : a.lane <;> cases hb : b.lane <;> simp [Nat.isLE_compare]

/-- The order is reflexive. -/
theorem le_refl (a : PrioritizedChunk) : a.le a = true := by
  rw [le_iff]
  exact Or.inr ⟨rfl, Nat.le_refl _⟩

/-- The order is transitive. With two lanes, a chain changes its lane at most once. -/
theorem le_trans (a b c : PrioritizedChunk) (hab : a.le b = true) (hbc : b.le c = true) :
    a.le c = true := by
  rw [le_iff] at *
  rcases hab with ⟨ha, hb⟩ | ⟨hab, hle⟩
  · rcases hbc with ⟨hb', -⟩ | ⟨hbc, -⟩
    · rw [hb] at hb'
      cases hb'
    · exact Or.inl ⟨ha, hbc ▸ hb⟩
  · rcases hbc with ⟨hb, hc⟩ | ⟨hbc, hle'⟩
    · exact Or.inl ⟨hab.trans hb, hc⟩
    · exact Or.inr ⟨hab.trans hbc, Nat.le_trans hle' hle⟩

/-- The order is total, so that a heap has a maximum. -/
theorem le_total (a b : PrioritizedChunk) : a.le b = true ∨ b.le a = true := by
  simp only [le_iff]
  cases ha : a.lane <;> cases hb : b.lane <;> simp [Nat.le_total]

/-- The length of the requested range: `range_end - range_start + 1`. -/
def expected (chunk : PrioritizedChunk) : Option Nat := do
  let d ← U64.checkedSub chunk.rangeEnd chunk.rangeStart
  U64.checkedAdd d 1

/-- The length exists where the range is not empty and its length fits into 64 bits. -/
theorem expected_eq_some {chunk : PrioritizedChunk} {n : Nat} :
    chunk.expected = some n ↔ chunk.rangeStart ≤ chunk.rangeEnd ∧
      chunk.rangeEnd - chunk.rangeStart + 1 < 2 ^ 64 ∧
      n = chunk.rangeEnd - chunk.rangeStart + 1 := by
  simp only [expected, Option.bind_eq_bind, Option.bind_eq_some_iff, U64.checkedSub_eq_some,
    U64.checkedAdd_eq_some]
  constructor
  · rintro ⟨d, ⟨hle, rfl⟩, hlt, rfl⟩
    exact ⟨hle, hlt, rfl⟩
  · rintro ⟨hle, hlt, rfl⟩
    exact ⟨_, ⟨hle, rfl⟩, hlt, rfl⟩

end PrioritizedChunk

/-- The chunk queue of a reactor. -/
abbrev ChunkHeap := MaxHeap PrioritizedChunk.le

/-- A concrete chunk queue, on which runs can be evaluated. -/
def ChunkHeap.ofList : ChunkHeap :=
  MaxHeap.ofList PrioritizedChunk.le PrioritizedChunk.le_refl PrioritizedChunk.le_trans
    PrioritizedChunk.le_total

end FrontierSim
