import FrontierSim.Cli.Plan
import Mathlib.Algebra.Order.Ring.Nat

/-!
# `FrontierSim.Proofs.Partition`: the plan cuts the file into consecutive ranges

`chunkStart` is where the chunk with a given number starts in a file without end. The plan
is the list of the chunks that start inside the file, up to the cap, with the last one cut
off at the end of the file (`planFrom_eq`). Everything about the plan is then read off the
chunk numbers.
-/

set_option autoImplicit false

namespace FrontierSim

open Lib

/-! ### Where the chunks start -/

/-- The start of chunk `i`: two urgent chunks, then prefetch chunks. Without an urgent
chunk size there is no urgent range. -/
def chunkStart (urgentChunkSize prefetchChunkSize i : Nat) : Nat :=
  if urgentChunkSize = 0 then i * prefetchChunkSize
  else min i 2 * urgentChunkSize + (i - 2) * prefetchChunkSize

/-- The lane of chunk `i`. -/
def chunkLane (urgentChunkSize i : Nat) : Lane :=
  if urgentChunkSize ≠ 0 ∧ i < 2 then .urgent else .prefetch

/-- The chunk size of a lane. -/
def Lane.chunkSize (urgentChunkSize prefetchChunkSize : Nat) : Lane → Nat
  | .urgent => urgentChunkSize
  | .prefetch => prefetchChunkSize

/-- Chunk `i` of the plan of a file with `downloadSize` bytes. -/
def plannedChunk (downloadSize urgentChunkSize prefetchChunkSize i : Nat) : ChunkRequest where
  chunkId := i
  rangeStart := chunkStart urgentChunkSize prefetchChunkSize i
  rangeEnd := min (chunkStart urgentChunkSize prefetchChunkSize (i + 1)) downloadSize - 1
  lane := chunkLane urgentChunkSize i

section
variable {downloadSize urgentChunkSize prefetchChunkSize : Nat}

/-- The first chunk starts with the file. -/
@[simp] theorem chunkStart_zero : chunkStart urgentChunkSize prefetchChunkSize 0 = 0 := by
  simp [chunkStart]

/-- A chunk is as long as the size of its lane. -/
theorem chunkStart_succ (i : Nat) :
    chunkStart urgentChunkSize prefetchChunkSize (i + 1) =
      chunkStart urgentChunkSize prefetchChunkSize i +
        (chunkLane urgentChunkSize i).chunkSize urgentChunkSize prefetchChunkSize := by
  by_cases hzero : urgentChunkSize = 0
  · simp [chunkStart, chunkLane, hzero, Lane.chunkSize, Nat.succ_mul]
  · simp only [chunkStart, chunkLane, if_neg hzero]
    by_cases hi : i < 2
    · have hlane : urgentChunkSize ≠ 0 ∧ i < 2 := ⟨hzero, hi⟩
      simp only [if_pos hlane, Lane.chunkSize, Nat.min_eq_left hi.le, Nat.min_eq_left hi,
        Nat.sub_eq_zero_of_le hi.le, Nat.sub_eq_zero_of_le hi, Nat.zero_mul, Nat.add_zero,
        Nat.succ_mul]
    · have hsub : i + 1 - 2 = (i - 2) + 1 := by omega
      simp [hi, Lane.chunkSize, Nat.min_eq_right (Nat.le_of_not_lt hi),
        Nat.min_eq_right (Nat.le_succ_of_le (Nat.le_of_not_lt hi)), hsub, Nat.succ_mul,
        Nat.add_assoc]

/-- Past the second chunk the urgent range is over, so the offset alone decides the shape. -/
theorem chunkShape_chunkStart (i : Nat) :
    chunkShape urgentChunkSize prefetchChunkSize (2 * urgentChunkSize)
        (chunkStart urgentChunkSize prefetchChunkSize i) =
      ((chunkLane urgentChunkSize i).chunkSize urgentChunkSize prefetchChunkSize,
        chunkLane urgentChunkSize i) := by
  unfold chunkShape
  by_cases hzero : urgentChunkSize = 0
  · simp [chunkLane, hzero, Lane.chunkSize]
  · by_cases hi : i < 2
    · have hlt : chunkStart urgentChunkSize prefetchChunkSize i < 2 * urgentChunkSize := by
        simp only [chunkStart, if_neg hzero, Nat.min_eq_left hi.le,
          Nat.sub_eq_zero_of_le hi.le, Nat.zero_mul, Nat.add_zero]
        exact Nat.mul_lt_mul_of_pos_right hi (Nat.pos_of_ne_zero hzero)
      simp [hlt, chunkLane, hi, hzero, Lane.chunkSize]
    · have hge : ¬ chunkStart urgentChunkSize prefetchChunkSize i < 2 * urgentChunkSize := by
        simp only [chunkStart, if_neg hzero, Nat.min_eq_right (Nat.le_of_not_lt hi)]
        omega
      simp [hge, chunkLane, hi, Lane.chunkSize]

/-- Later chunks do not start earlier. -/
theorem chunkStart_mono {i j : Nat} (hij : i ≤ j) :
    chunkStart urgentChunkSize prefetchChunkSize i ≤
      chunkStart urgentChunkSize prefetchChunkSize j := by
  induction j, hij using Nat.le_induction with
  | base => exact Nat.le_refl _
  | succ j _ ih =>
    rw [chunkStart_succ]
    omega

/-! ### The plan in closed form -/

variable (downloadSize urgentChunkSize prefetchChunkSize) in
/-- Every chunk among the first 10000 that starts inside the file has bytes, and it ends in
`u64` before it is cut off. -/
def Plannable : Prop :=
  ∀ i < MAX_CHUNKS, chunkStart urgentChunkSize prefetchChunkSize i < downloadSize →
    chunkStart urgentChunkSize prefetchChunkSize i <
        chunkStart urgentChunkSize prefetchChunkSize (i + 1) ∧
      chunkStart urgentChunkSize prefetchChunkSize (i + 1) < 2 ^ 64

/-- One pass of the loop at the start of chunk `i`. -/
theorem planFrom_chunkStart {room i : Nat} (hid : i + 1 < 2 ^ 64) (hsize : downloadSize < 2 ^ 64)
    (hlt : chunkStart urgentChunkSize prefetchChunkSize i < downloadSize)
    (hpos : 0 < chunkStart urgentChunkSize prefetchChunkSize (i + 1))
    (hfits : chunkStart urgentChunkSize prefetchChunkSize (i + 1) < 2 ^ 64) :
    planFrom downloadSize urgentChunkSize prefetchChunkSize (2 * urgentChunkSize) (room + 1)
        (chunkStart urgentChunkSize prefetchChunkSize i) i =
      (planFrom downloadSize urgentChunkSize prefetchChunkSize (2 * urgentChunkSize) room
        (min (chunkStart urgentChunkSize prefetchChunkSize (i + 1)) downloadSize) (i + 1)).map
          (plannedChunk downloadSize urgentChunkSize prefetchChunkSize i :: ·) := by
  have hpast : U64.checkedAdd (chunkStart urgentChunkSize prefetchChunkSize i)
      ((chunkLane urgentChunkSize i).chunkSize urgentChunkSize prefetchChunkSize) =
        some (chunkStart urgentChunkSize prefetchChunkSize (i + 1)) := by
    rw [U64.checkedAdd_eq_some, ← chunkStart_succ]
    exact ⟨hfits, rfl⟩
  have hlast : U64.checkedSub (chunkStart urgentChunkSize prefetchChunkSize (i + 1)) 1 =
      some (chunkStart urgentChunkSize prefetchChunkSize (i + 1) - 1) :=
    U64.checkedSub_eq_some.mpr ⟨hpos, rfl⟩
  have hfile : U64.checkedSub downloadSize 1 = some (downloadSize - 1) :=
    U64.checkedSub_eq_some.mpr ⟨by omega, rfl⟩
  have hend : min (chunkStart urgentChunkSize prefetchChunkSize (i + 1) - 1) (downloadSize - 1) =
      min (chunkStart urgentChunkSize prefetchChunkSize (i + 1)) downloadSize - 1 := by
    omega
  have hnext : U64.checkedAdd
      (min (chunkStart urgentChunkSize prefetchChunkSize (i + 1)) downloadSize - 1) 1 =
        some (min (chunkStart urgentChunkSize prefetchChunkSize (i + 1)) downloadSize) :=
    U64.checkedAdd_eq_some.mpr ⟨by omega, by omega⟩
  have hnextId : U64.checkedAdd i 1 = some (i + 1) := U64.checkedAdd_eq_some.mpr ⟨hid, rfl⟩
  rw [planFrom, if_pos hlt, chunkShape_chunkStart]
  simp only [hpast, hlast, hfile, hend, hnext, hnextId, Option.bind_eq_bind, Option.bind_some]
  exact Option.map_eq_bind.symm

/-- The loop from chunk `i` on pushes consecutive chunks, until the file or the room ends. -/
theorem planFrom_eq {room i : Nat} (hroom : i + room = MAX_CHUNKS) (hsize : downloadSize < 2 ^ 64)
    (hplan : Plannable downloadSize urgentChunkSize prefetchChunkSize) :
    ∃ n ≤ room,
      planFrom downloadSize urgentChunkSize prefetchChunkSize (2 * urgentChunkSize) room
          (min (chunkStart urgentChunkSize prefetchChunkSize i) downloadSize) i =
        some ((List.range' i n).map
          (plannedChunk downloadSize urgentChunkSize prefetchChunkSize)) ∧
      (∀ j < n, chunkStart urgentChunkSize prefetchChunkSize (i + j) < downloadSize) ∧
      (n < room → downloadSize ≤ chunkStart urgentChunkSize prefetchChunkSize (i + n)) := by
  induction room generalizing i with
  | zero => exact ⟨0, Nat.le_refl 0, rfl, by simp, by simp⟩
  | succ room ih =>
    have hcap : MAX_CHUNKS < 2 ^ 64 := by decide
    by_cases hlt : chunkStart urgentChunkSize prefetchChunkSize i < downloadSize
    · obtain ⟨hgrow, hfits⟩ := hplan i (by omega) hlt
      obtain ⟨n, hn, hrest, hinside, hstop⟩ := ih (i := i + 1) (by omega)
      refine ⟨n + 1, Nat.succ_le_succ hn, ?_, ?_, ?_⟩
      · rw [Nat.min_eq_left hlt.le,
          planFrom_chunkStart (by omega) hsize hlt (Nat.zero_lt_of_lt hgrow) hfits, hrest]
        rfl
      · intro j hj
        cases j with
        | zero => exact hlt
        | succ j =>
          have := hinside j (by omega)
          rwa [Nat.add_right_comm] at this
      · intro hmore
        have := hstop (by omega)
        rwa [Nat.add_right_comm] at this
    · refine ⟨0, Nat.zero_le _, ?_, by simp, fun _ => Nat.le_of_not_lt hlt⟩
      rw [Nat.min_eq_right (Nat.le_of_not_lt hlt), planFrom, if_neg (Nat.lt_irrefl _)]
      rfl

/-- Where twice the urgent size fits into `u64`, the product does not saturate. -/
theorem saturatingMul_two (hboundary : urgentChunkSize * 2 ≤ U64.maxValue) :
    U64.saturatingMul urgentChunkSize 2 = 2 * urgentChunkSize := by
  rw [U64.saturatingMul, Nat.min_eq_left hboundary, Nat.mul_comm]

/-- The plan: the first `n` chunks, all that start inside the file or 10000 of them. -/
theorem buildBenchmarkChunks_eq (hboundary : urgentChunkSize * 2 ≤ U64.maxValue)
    (hsize : downloadSize < 2 ^ 64)
    (hplan : Plannable downloadSize urgentChunkSize prefetchChunkSize) :
    ∃ n ≤ MAX_CHUNKS,
      buildBenchmarkChunks downloadSize urgentChunkSize prefetchChunkSize =
        some ((List.range n).map (plannedChunk downloadSize urgentChunkSize prefetchChunkSize)) ∧
      (∀ j < n, chunkStart urgentChunkSize prefetchChunkSize j < downloadSize) ∧
      (n < MAX_CHUNKS → downloadSize ≤ chunkStart urgentChunkSize prefetchChunkSize n) := by
  have hmul : U64.saturatingMul urgentChunkSize 2 = 2 * urgentChunkSize :=
    saturatingMul_two hboundary
  obtain ⟨n, hn, hrun, hinside, hstop⟩ := planFrom_eq (Nat.zero_add MAX_CHUNKS) hsize hplan
  refine ⟨n, hn, ?_, by simpa using hinside, by simpa using hstop⟩
  rw [buildBenchmarkChunks, hmul, List.range_eq_range', ← hrun, chunkStart_zero, Nat.zero_min]

/-- A plan whose ranges are not empty is only possible when every chunk has bytes and ends in
`u64`. -/
theorem plannable_of_planFrom {room i : Nat} {chunks : List ChunkRequest}
    (hplan : planFrom downloadSize urgentChunkSize prefetchChunkSize (2 * urgentChunkSize) room
      (min (chunkStart urgentChunkSize prefetchChunkSize i) downloadSize) i = some chunks)
    (hnonempty : ∀ c ∈ chunks, c.rangeStart ≤ c.rangeEnd) :
    ∀ j, i ≤ j → j < i + room →
      chunkStart urgentChunkSize prefetchChunkSize j < downloadSize →
        chunkStart urgentChunkSize prefetchChunkSize j <
            chunkStart urgentChunkSize prefetchChunkSize (j + 1) ∧
          chunkStart urgentChunkSize prefetchChunkSize (j + 1) < 2 ^ 64 := by
  induction room generalizing i chunks with
  | zero =>
    intro j hij hj
    omega
  | succ room ih =>
    intro j hij hj hlt
    have hlt' : chunkStart urgentChunkSize prefetchChunkSize i < downloadSize :=
      Nat.lt_of_le_of_lt (chunkStart_mono hij) hlt
    rw [Nat.min_eq_left hlt'.le, planFrom, if_pos hlt', chunkShape_chunkStart] at hplan
    simp only [← chunkStart_succ, Option.bind_eq_bind, Option.bind_eq_some_iff,
      U64.checkedAdd_eq_some, U64.checkedSub_eq_some, Option.pure_def,
      Option.some.injEq] at hplan
    obtain ⟨_, ⟨hfits, rfl⟩, _, ⟨hpos, rfl⟩, _, ⟨-, rfl⟩, _, ⟨-, rfl⟩, _, ⟨-, rfl⟩, rest, hrest,
      rfl⟩ := hplan
    have hfirst := hnonempty _ List.mem_cons_self
    simp only at hfits hpos hrest hfirst
    rcases Nat.lt_or_eq_of_le hij with hij | rfl
    · refine ih (i := i + 1) ?_ (fun c hc => hnonempty c (List.mem_cons_of_mem _ hc)) j hij
        (by omega) hlt
      rw [← hrest]
      congr 1
      omega
    · exact ⟨by omega, hfits⟩

/-- Where the plan exists and has no empty range, each of its chunks has bytes and ends in `u64`. -/
theorem plannable_of_plan (hboundary : urgentChunkSize * 2 ≤ U64.maxValue)
    {chunks : List ChunkRequest}
    (hplan : buildBenchmarkChunks downloadSize urgentChunkSize prefetchChunkSize = some chunks)
    (hnonempty : ∀ c ∈ chunks, c.rangeStart ≤ c.rangeEnd) :
    Plannable downloadSize urgentChunkSize prefetchChunkSize := by
  have hmul : U64.saturatingMul urgentChunkSize 2 = 2 * urgentChunkSize :=
    saturatingMul_two hboundary
  have hrun : planFrom downloadSize urgentChunkSize prefetchChunkSize (2 * urgentChunkSize)
      MAX_CHUNKS (min (chunkStart urgentChunkSize prefetchChunkSize 0) downloadSize) 0 =
        some chunks := by
    rw [chunkStart_zero, Nat.zero_min, ← hmul]
    exact hplan
  intro j hj
  exact plannable_of_planFrom hrun hnonempty j (Nat.zero_le j) (by omega)

/-- What `Plannable` asks of the sizes: the loop does not stand still, and no chunk that
starts inside the file ends past `u64`. -/
theorem plannable_iff :
    Plannable downloadSize urgentChunkSize prefetchChunkSize ↔
      (0 < prefetchChunkSize ∨ downloadSize ≤ 2 * urgentChunkSize) ∧
        ∀ i < MAX_CHUNKS, chunkStart urgentChunkSize prefetchChunkSize i < downloadSize →
          chunkStart urgentChunkSize prefetchChunkSize (i + 1) < 2 ^ 64 := by
  constructor
  · intro hplan
    refine ⟨?_, fun i hi hlt => (hplan i hi hlt).2⟩
    by_contra hnot
    obtain ⟨hzero, hsize⟩ := not_or.mp hnot
    obtain rfl := Nat.eq_zero_of_not_pos hzero
    -- The first prefetch chunk is empty.
    have hthird : chunkStart urgentChunkSize 0 2 = 2 * urgentChunkSize := by
      by_cases hurgent : urgentChunkSize = 0
      · simp [chunkStart, hurgent]
      · simp [chunkStart, hurgent]
    have hgrow := (hplan 2 (by decide) (by omega)).1
    rw [chunkStart_succ 2] at hgrow
    simp [chunkLane, Lane.chunkSize] at hgrow
  · rintro ⟨hsizes, hfits⟩ i hi hlt
    refine ⟨?_, hfits i hi hlt⟩
    rw [chunkStart_succ]
    apply Nat.lt_add_of_pos_right
    by_cases hlane : urgentChunkSize ≠ 0 ∧ i < 2
    · simpa [chunkLane, hlane, Lane.chunkSize] using Nat.pos_of_ne_zero hlane.1
    · simp only [chunkLane, if_neg hlane, Lane.chunkSize]
      refine hsizes.resolve_right fun hle => ?_
      have hpast : 2 * urgentChunkSize ≤ chunkStart urgentChunkSize prefetchChunkSize i := by
        rw [chunkStart]
        split
        · omega
        · have : min i 2 = 2 := by omega
          rw [this]
          exact Nat.le_add_right _ _
      omega

/-! ### The partition -/

/-- The chunks cut a file of `downloadSize` bytes, or what the cap leaves of it, into
consecutive ranges: two urgent chunks, then prefetch chunks. -/
structure ChunkPartition (downloadSize urgentChunkSize prefetchChunkSize : Nat)
    (chunks : List ChunkRequest) : Prop where
  length_le : chunks.length ≤ 10000
  ids : ∀ (i : Nat) (c : ChunkRequest), chunks[i]? = some c → c.chunkId = i
  first : ∀ c : ChunkRequest, chunks[0]? = some c → c.rangeStart = 0
  next : ∀ (i : Nat) (c c' : ChunkRequest), chunks[i]? = some c → chunks[i + 1]? = some c' →
    c'.rangeStart = c.rangeEnd + 1
  nonempty : ∀ c ∈ chunks, c.rangeStart ≤ c.rangeEnd
  last : ∀ c : ChunkRequest, chunks.getLast? = some c →
    c.rangeEnd = min downloadSize (2 * urgentChunkSize + 9998 * prefetchChunkSize) - 1
  empty_iff : chunks = [] ↔ downloadSize = 0
  lane : ∀ (i : Nat) (c : ChunkRequest), chunks[i]? = some c →
    c.lane = if i < 2 then .urgent else .prefetch
  size : ∀ (i : Nat) (c : ChunkRequest), chunks[i]? = some c → i + 1 < chunks.length →
    c.rangeEnd + 1 = c.rangeStart + c.lane.chunkSize urgentChunkSize prefetchChunkSize

/-- The end of the last chunk under the cap: two urgent chunks and 9998 prefetch chunks. -/
theorem chunkStart_cap (hurgent : 0 < urgentChunkSize) :
    chunkStart urgentChunkSize prefetchChunkSize MAX_CHUNKS =
      2 * urgentChunkSize + 9998 * prefetchChunkSize := by
  simp [chunkStart, Nat.pos_iff_ne_zero.mp hurgent, MAX_CHUNKS]

/-- With positive sizes every chunk moves on. -/
theorem chunkStart_lt_succ (hurgent : 0 < urgentChunkSize) (hprefetch : 0 < prefetchChunkSize)
    (i : Nat) :
    chunkStart urgentChunkSize prefetchChunkSize i <
      chunkStart urgentChunkSize prefetchChunkSize (i + 1) := by
  rw [chunkStart_succ]
  apply Nat.lt_add_of_pos_right
  cases chunkLane urgentChunkSize i with
  | urgent => exact hurgent
  | prefetch => exact hprefetch

/-- Chunks of at most 2^50 bytes stay far below the end of `u64`. -/
theorem plannable_of_le (hurgent : 0 < urgentChunkSize) (hurgentLe : urgentChunkSize ≤ 2 ^ 50)
    (hprefetch : 0 < prefetchChunkSize) (hprefetchLe : prefetchChunkSize ≤ 2 ^ 50) :
    Plannable downloadSize urgentChunkSize prefetchChunkSize := by
  intro i hi _
  have hcap : chunkStart urgentChunkSize prefetchChunkSize (i + 1) ≤
      2 * urgentChunkSize + 9998 * prefetchChunkSize :=
    chunkStart_cap hurgent ▸ chunkStart_mono hi
  exact ⟨chunkStart_lt_succ hurgent hprefetch i, by omega⟩

/-- The entries of a list that is given by its index. -/
theorem getElem?_map_range {α : Type} {f : Nat → α} {n i : Nat} {a : α} :
    ((List.range n).map f)[i]? = some a ↔ i < n ∧ f i = a := by
  simp [List.getElem?_eq_some_iff]

/-- A chunk with a successor is not cut off. -/
theorem rangeEnd_plannedChunk {i : Nat}
    (hgrow : chunkStart urgentChunkSize prefetchChunkSize i <
      chunkStart urgentChunkSize prefetchChunkSize (i + 1))
    (hinside : chunkStart urgentChunkSize prefetchChunkSize (i + 1) < downloadSize) :
    (plannedChunk downloadSize urgentChunkSize prefetchChunkSize i).rangeEnd + 1 =
      chunkStart urgentChunkSize prefetchChunkSize (i + 1) := by
  simp only [plannedChunk, Nat.min_eq_left hinside.le]
  omega

/-- Without a chunk there is no file, because the first chunk starts at its first byte. -/
theorem planned_eq_nil_iff {n : Nat}
    (hinside : ∀ j < n, chunkStart urgentChunkSize prefetchChunkSize j < downloadSize)
    (hstop : n < MAX_CHUNKS → downloadSize ≤ chunkStart urgentChunkSize prefetchChunkSize n) :
    (List.range n).map (plannedChunk downloadSize urgentChunkSize prefetchChunkSize) = [] ↔
      downloadSize = 0 := by
  rw [List.map_eq_nil_iff, List.range_eq_nil]
  constructor
  · rintro rfl
    have hle := hstop (by decide)
    rw [chunkStart_zero] at hle
    omega
  · intro hsize
    by_contra hne
    have hlt := hinside 0 (Nat.pos_of_ne_zero hne)
    omega

/-- The last chunk ends with the file, or it is the one at the cap. -/
theorem rangeEnd_last (hurgent : 0 < urgentChunkSize) {n : Nat} (hn : n ≤ MAX_CHUNKS)
    (hstop : n < MAX_CHUNKS → downloadSize ≤ chunkStart urgentChunkSize prefetchChunkSize n)
    {c : ChunkRequest}
    (hc : ((List.range n).map
      (plannedChunk downloadSize urgentChunkSize prefetchChunkSize)).getLast? = some c) :
    c.rangeEnd = min downloadSize (2 * urgentChunkSize + 9998 * prefetchChunkSize) - 1 := by
  have hcap : chunkStart urgentChunkSize prefetchChunkSize MAX_CHUNKS =
      2 * urgentChunkSize + 9998 * prefetchChunkSize := chunkStart_cap hurgent
  rw [List.getLast?_eq_getElem?] at hc
  obtain ⟨hlt, rfl⟩ := getElem?_map_range.mp hc
  simp only [List.length_map, List.length_range] at hlt ⊢
  have hsucc : n - 1 + 1 = n := by omega
  simp only [plannedChunk, hsucc]
  rcases Nat.lt_or_eq_of_le hn with hlt' | rfl
  · have := hstop hlt'
    have : chunkStart urgentChunkSize prefetchChunkSize n ≤
        chunkStart urgentChunkSize prefetchChunkSize MAX_CHUNKS := chunkStart_mono hn
    omega
  · rw [hcap, Nat.min_comm]

/-- The list of the planned chunks is such a partition. -/
theorem chunkPartition_map (hurgent : 0 < urgentChunkSize) (hprefetch : 0 < prefetchChunkSize)
    {n : Nat} (hn : n ≤ MAX_CHUNKS)
    (hinside : ∀ j < n, chunkStart urgentChunkSize prefetchChunkSize j < downloadSize)
    (hstop : n < MAX_CHUNKS → downloadSize ≤ chunkStart urgentChunkSize prefetchChunkSize n) :
    ChunkPartition downloadSize urgentChunkSize prefetchChunkSize
      ((List.range n).map (plannedChunk downloadSize urgentChunkSize prefetchChunkSize)) := by
  have hgrow := chunkStart_lt_succ hurgent hprefetch
  constructor
  case length_le =>
    rw [List.length_map, List.length_range]
    exact hn
  case ids =>
    intro i c hc
    obtain ⟨-, rfl⟩ := getElem?_map_range.mp hc
    rfl
  case first =>
    intro c hc
    obtain ⟨-, rfl⟩ := getElem?_map_range.mp hc
    exact chunkStart_zero
  case next =>
    intro i c c' hc hc'
    obtain ⟨-, rfl⟩ := getElem?_map_range.mp hc
    obtain ⟨hi, rfl⟩ := getElem?_map_range.mp hc'
    exact (rangeEnd_plannedChunk (hgrow i) (hinside (i + 1) hi)).symm
  case nonempty =>
    intro c hc
    obtain ⟨i, hi, rfl⟩ := List.mem_map.mp hc
    have := hinside i (List.mem_range.mp hi)
    have := hgrow i
    simp only [plannedChunk]
    omega
  case last =>
    intro c hc
    exact rangeEnd_last hurgent hn hstop hc
  case empty_iff => exact planned_eq_nil_iff hinside hstop
  case lane =>
    intro i c hc
    obtain ⟨-, rfl⟩ := getElem?_map_range.mp hc
    simp [plannedChunk, chunkLane, Nat.pos_iff_ne_zero.mp hurgent]
  case size =>
    intro i c hc hi
    obtain ⟨-, rfl⟩ := getElem?_map_range.mp hc
    rw [List.length_map, List.length_range] at hi
    rw [rangeEnd_plannedChunk (hgrow i) (hinside (i + 1) hi), chunkStart_succ]
    rfl

end

/-- The plan is an exact partition of the file, for every size of the file and all chunk sizes
up to 2^50. -/
theorem buildBenchmarkChunks_partition {downloadSize urgentChunkSize prefetchChunkSize : Nat}
    (hsize : downloadSize < 2 ^ 64)
    (hurgent : 1 ≤ urgentChunkSize) (hurgentLe : urgentChunkSize ≤ 2 ^ 50)
    (hprefetch : 1 ≤ prefetchChunkSize) (hprefetchLe : prefetchChunkSize ≤ 2 ^ 50) :
    ∃ chunks, buildBenchmarkChunks downloadSize urgentChunkSize prefetchChunkSize = some chunks ∧
      ChunkPartition downloadSize urgentChunkSize prefetchChunkSize chunks := by
  have hboundary : urgentChunkSize * 2 ≤ U64.maxValue := by
    have hmax : U64.maxValue = 2 ^ 64 - 1 := rfl
    omega
  obtain ⟨n, hn, hrun, hinside, hstop⟩ := buildBenchmarkChunks_eq hboundary hsize
    (plannable_of_le hurgent hurgentLe hprefetch hprefetchLe)
  exact ⟨_, hrun, chunkPartition_map hurgent hprefetch hn hinside hstop⟩

/-- A file of unknown length, in chunks of 4 and 8 MiB. -/
theorem buildBenchmarkChunks_partition_unknown :
    ∃ chunks, buildBenchmarkChunks (2 ^ 64 - 1) (4 * 2 ^ 20) (8 * 2 ^ 20) = some chunks ∧
      ChunkPartition (2 ^ 64 - 1) (4 * 2 ^ 20) (8 * 2 ^ 20) chunks :=
  buildBenchmarkChunks_partition (by decide) (by decide) (by decide) (by decide) (by decide)

end FrontierSim
