import FrontierSim.Proofs.Handler
import FrontierSim.Transport.Download

/-!
# `FrontierSim.Proofs.Aggregation`: pages do not depend on how the body is cut

`WorkerHandler.received` is what a handler holds after `n` bytes. One pass of the loop takes
`received n` to a later `received`, and sends the event of a page that it completed
(`checkedPass_received`). So does the loop over a callback (`writeLoop_received`), and so do all
callbacks (`deliver_received`).

The two handlers have the same aggregation loop: `DownloadHandler.toWorker` forgets the other
fields, and a pass of the one is a pass of the other (`map_writePass`). What holds of the one
loop then holds of the other.
-/

set_option autoImplicit false

namespace FrontierSim

open Lib

/-! ### Two loops in step -/

section Simulation

variable {H K : Type} {f : H → K} {pass : Pass H} {pass' : Pass K}

/-- Passes that agree give loops that agree. -/
theorem map_writeLoop
    (hpass : ∀ h remaining timestampNs,
      (pass h remaining timestampNs).map (Prod.map f id) = pass' (f h) remaining timestampNs)
    (fuel remaining : Nat) (h : H) (clock : Clock) :
    (writeLoop pass fuel remaining h clock).map (Prod.map f id)
      = writeLoop pass' fuel remaining (f h) clock := by
  induction fuel generalizing remaining h clock with
  | zero => cases remaining <;> rfl
  | succ fuel ih =>
    cases remaining with
    | zero => rfl
    | succ remaining =>
      simp only [writeLoop, ← hpass]
      cases pass h (remaining + 1) clock.read.1 with
      | none => rfl
      | some result =>
        obtain ⟨h', remaining', page⟩ := result
        simp only [Option.map_some, Option.bind_eq_bind, Option.bind_some, Prod.map, id, ← ih]
        cases writeLoop pass fuel remaining' h' (if page.isSome then clock.read.2 else clock) <;>
          rfl

/-- Callbacks that agree deliver the same. -/
theorem map_deliver {write : H → Nat → Clock → Option (Written H)}
    {write' : K → Nat → Clock → Option (Written K)}
    (hwrite : ∀ h len clock, (write h len clock).map (Prod.map f id) = write' (f h) len clock)
    (cuts : List Nat) (h : H) (clock : Clock) :
    (deliver write cuts h clock).map (Prod.map f id) = deliver write' cuts (f h) clock := by
  induction cuts generalizing h clock with
  | nil => rfl
  | cons len rest ih =>
    simp only [deliver, ← hwrite]
    cases write h len clock with
    | none => rfl
    | some written =>
      obtain ⟨h', pages, clock'⟩ := written
      simp only [Option.map_some, Option.bind_eq_bind, Option.bind_some, Prod.map, id, ← ih]
      cases deliver write rest h' clock' <;> rfl

end Simulation

/-! ### The handler of a worker -/

/-- A page event without its time. -/
def PageCompleted.untimed (e : PageCompleted) : PageCompleted := { e with timestampNs := 0 }

namespace WorkerHandler

/-- The handler after `n` bytes from its page on. -/
def received (h : WorkerHandler) (n : Nat) : WorkerHandler :=
  { h with
    currentPageBytes := n % h.pageSize
    currentPageIndex := h.currentPageIndex + n / h.pageSize
    bytesReceived := n }

/-- The event of the full page number `i`, counted from the handler's page on. -/
def fullPage (h : WorkerHandler) (i : Nat) : PageCompleted where
  requestId := h.requestId
  chunkId := h.chunkId
  pageIndex := h.currentPageIndex + i
  pageStartByte := (h.currentPageIndex + i) * h.pageSize
  pageEndByte := (h.currentPageIndex + i) * h.pageSize + h.pageSize
  pageBytes := h.pageSize
  cumulativeBytes := (i + 1) * h.pageSize
  timestampNs := 0

variable {h : WorkerHandler} {n remaining : Nat}

/-- A pass that leaves the page open takes all bytes. -/
theorem checkedPass_open (hpos : 0 < h.pageSize) (now : Nat)
    (hlt : n % h.pageSize + remaining < h.pageSize) :
    checkedPass (h.received n) remaining now = some (h.received (n + remaining), 0, none) := by
  have hroom : U64.checkedSub (h.received n).pageSize (h.received n).currentPageBytes
      = some (h.pageSize - n % h.pageSize) :=
    U64.checkedSub_eq_some.mpr ⟨(Nat.mod_lt n hpos).le, rfl⟩
  have hmod : (n + remaining) % h.pageSize = n % h.pageSize + remaining := by
    rw [Nat.add_mod, Nat.mod_eq_of_lt (a := remaining) (by omega), Nat.mod_eq_of_lt hlt]
  have hdiv : (n + remaining) / h.pageSize = n / h.pageSize := by
    have := Nat.div_add_mod n h.pageSize
    have := Nat.div_add_mod (n + remaining) h.pageSize
    exact Nat.eq_of_mul_eq_mul_left hpos (by omega)
  simp only [checkedPass, hroom, Option.bind_eq_bind, Option.bind_some,
    writePass_open (h := h.received n) now hlt]
  simp only [received, consume, hmod, hdiv]
  rfl

/-- A pass that completes the page sends its event. -/
theorem checkedPass_full (hpos : 0 < h.pageSize) (now : Nat)
    (hle : h.pageSize ≤ n % h.pageSize + remaining) :
    checkedPass (h.received n) remaining now
      = some (h.received ((n / h.pageSize + 1) * h.pageSize),
          remaining - (h.pageSize - n % h.pageSize),
          some { h.fullPage (n / h.pageSize) with timestampNs := now }) := by
  have hpage : n % h.pageSize < h.pageSize := Nat.mod_lt n hpos
  have hroom : U64.checkedSub (h.received n).pageSize (h.received n).currentPageBytes
      = some (h.pageSize - n % h.pageSize) :=
    U64.checkedSub_eq_some.mpr ⟨hpage.le, rfl⟩
  have hbytes : n + (h.pageSize - n % h.pageSize) = (n / h.pageSize + 1) * h.pageSize := by
    have := Nat.div_add_mod' n h.pageSize
    rw [Nat.succ_mul]
    omega
  have hfilled : n % h.pageSize + (h.pageSize - n % h.pageSize) = h.pageSize := by omega
  simp only [checkedPass, hroom, Option.bind_eq_bind, Option.bind_some,
    writePass_full (h := h.received n) now hpage hle]
  simp only [received, consume, nextPage, pageCompleted, fullPage, hbytes, hfilled,
    Nat.mul_mod_left, Nat.mul_div_cancel _ hpos, Nat.add_assoc]
  rfl

/-- The full pages between two byte counts. -/
def pagesBetween (h : WorkerHandler) (n m : Nat) : List PageCompleted :=
  (List.range' (n / h.pageSize) (m / h.pageSize - n / h.pageSize)).map h.fullPage

/-- The pages that are completed up to `c` are those up to `b` and those from there on. -/
theorem pagesBetween_trans (h : WorkerHandler) {a b c : Nat} (hab : a ≤ b) (hbc : b ≤ c) :
    h.pagesBetween a b ++ h.pagesBetween b c = h.pagesBetween a c := by
  have hab' : a / h.pageSize ≤ b / h.pageSize := Nat.div_le_div_right hab
  have hbc' : b / h.pageSize ≤ c / h.pageSize := Nat.div_le_div_right hbc
  unfold pagesBetween
  rw [← List.map_append]
  congr 1
  have happend : List.range' (a / h.pageSize) (b / h.pageSize - a / h.pageSize)
      ++ List.range' (a / h.pageSize + (b / h.pageSize - a / h.pageSize))
        (c / h.pageSize - b / h.pageSize) = _ := List.range'_append_1
  rw [Nat.add_sub_cancel' hab'] at happend
  rw [happend]
  congr 1
  omega

/-- The loop over a callback. It never needs more passes than it has bytes. -/
theorem writeLoop_received (hpos : 0 < h.pageSize) (fuel : Nat) (clock : Clock)
    (hfuel : remaining ≤ fuel) :
    ∃ pages clock', writeLoop checkedPass fuel remaining (h.received n) clock
        = some (h.received (n + remaining), pages, clock') ∧
      pages.map PageCompleted.untimed = h.pagesBetween n (n + remaining) := by
  induction fuel generalizing remaining n clock with
  | zero =>
    rw [Nat.le_zero.mp hfuel]
    exact ⟨[], clock, rfl, by simp [pagesBetween]⟩
  | succ fuel ih =>
    cases remaining with
    | zero => exact ⟨[], clock, rfl, by simp [pagesBetween]⟩
    | succ remaining =>
      have hpage : n % h.pageSize < h.pageSize := Nat.mod_lt n hpos
      have hdiv := Nat.div_add_mod' n h.pageSize
      rcases Nat.lt_or_ge (n % h.pageSize + (remaining + 1)) h.pageSize with hlt | hge
      · -- The page stays open, so the loop is over.
        refine ⟨[], clock, ?_, ?_⟩
        · simp only [writeLoop, checkedPass_open hpos _ hlt, Option.bind_eq_bind, Option.bind_some]
          rfl
        · have hsame : (n + (remaining + 1)) / h.pageSize = n / h.pageSize := by
            refine Nat.div_eq_of_lt_le ?_ ?_
            · omega
            · rw [Nat.succ_mul]
              omega
          simp [pagesBetween, hsame]
      · -- The page is complete, and the loop goes on at the start of the next one.
        have hnext : (n / h.pageSize + 1) * h.pageSize
            + (remaining + 1 - (h.pageSize - n % h.pageSize)) = n + (remaining + 1) := by
          rw [Nat.succ_mul]
          omega
        have hfuel : remaining + 1 - (h.pageSize - n % h.pageSize) ≤ fuel := by omega
        obtain ⟨pages, clock', hloop, hpages⟩ := ih
          (n := (n / h.pageSize + 1) * h.pageSize) clock.read.2 hfuel
        rw [hnext] at hloop hpages
        refine ⟨{ h.fullPage (n / h.pageSize) with timestampNs := clock.read.1 } :: pages, clock',
          ?_, ?_⟩
        · simp only [writeLoop, checkedPass_full hpos _ hge, Option.bind_eq_bind,
            Option.bind_some, Option.isSome_some, if_true, hloop]
          rfl
        · have hn : n ≤ (n / h.pageSize + 1) * h.pageSize := by
            rw [Nat.succ_mul]
            omega
          have hfirst : h.pagesBetween n ((n / h.pageSize + 1) * h.pageSize)
              = [h.fullPage (n / h.pageSize)] := by
            simp [pagesBetween, Nat.mul_div_cancel _ hpos]
          rw [List.map_cons, hpages, ← h.pagesBetween_trans hn (by omega), hfirst]
          rfl

/-- All callbacks. -/
theorem deliver_received (hpos : 0 < h.pageSize) (cuts : List Nat) (n : Nat) (clock : Clock) :
    ∃ pages clock', deliver write cuts (h.received n) clock
        = some (h.received (n + cuts.sum), pages, clock') ∧
      pages.map PageCompleted.untimed = h.pagesBetween n (n + cuts.sum) := by
  induction cuts generalizing n clock with
  | nil => exact ⟨[], clock, rfl, by simp [pagesBetween]⟩
  | cons len rest ih =>
    obtain ⟨pages, clock₁, hwrite, hpages⟩ :=
      writeLoop_received (n := n) hpos len clock (Nat.le_refl len)
    obtain ⟨more, clock₂, hdeliver, hmore⟩ := ih (n + len) clock₁
    refine ⟨pages ++ more, clock₂, ?_, ?_⟩
    · simp only [deliver, write, writeWith, hwrite, Option.bind_eq_bind, Option.bind_some]
      rw [show deliver (writeWith checkedPass) rest (h.received (n + len)) clock₁ = _ from hdeliver,
        List.sum_cons, Nat.add_assoc]
      rfl
    · rw [List.map_append, hpages, hmore, List.sum_cons, ← Nat.add_assoc]
      exact h.pagesBetween_trans (Nat.le_add_right _ _) (Nat.le_add_right _ _)

end WorkerHandler

/-! ### The handler of a download -/

namespace DownloadHandler

/-- The fields that a worker's handler has too. -/
def toWorker (h : DownloadHandler) : WorkerHandler where
  requestId := h.requestId
  chunkId := h.chunkId
  pageSize := h.pageSize
  currentPageBytes := h.currentPageBytes
  currentPageIndex := h.currentPageIndex
  bytesReceived := h.bytesReceived
  responseCode := h.responseCode

/-- A pass of the one loop is a pass of the other. -/
theorem map_writePass (h : DownloadHandler) (remaining timestampNs : Nat) :
    (h.writePass remaining timestampNs).map (Prod.map toWorker id)
      = h.toWorker.checkedPass remaining timestampNs := by
  show _ = (U64.checkedSub h.pageSize h.currentPageBytes).bind fun _ =>
    some (h.toWorker.writePass remaining timestampNs)
  unfold writePass
  cases hroom : U64.checkedSub h.pageSize h.currentPageBytes with
  | none => rfl
  | some room =>
    obtain ⟨-, rfl⟩ := U64.checkedSub_eq_some.mp hroom
    simp only [Option.bind_eq_bind, Option.bind_some, WorkerHandler.writePass,
      WorkerHandler.consume, toWorker]
    by_cases hfull : h.currentPageBytes + min remaining (h.pageSize - h.currentPageBytes)
        ≥ h.pageSize
    · simp only [hfull, if_true]
      rfl
    · simp only [hfull, if_false]
      rfl

/-- A download's handler does what the worker's does, callback by callback. -/
theorem map_deliver_write (cuts : List Nat) (h : DownloadHandler) (clock : Clock) :
    (deliver write cuts h clock).map (Prod.map toWorker id)
      = deliver WorkerHandler.write cuts h.toWorker clock :=
  map_deliver (fun h len clock => map_writeLoop map_writePass len len h clock) cuts h clock

end DownloadHandler

/-! ### The whole body -/

/-- The events of the full pages of an `n`-byte body from `rangeStart` on, without their
times. -/
def fullPages (requestId chunkId pageSize rangeStart n : Nat) : List PageCompleted :=
  (List.range (n / pageSize)).map fun i =>
    { requestId := requestId
      chunkId := chunkId
      pageIndex := rangeStart / pageSize + i
      pageStartByte := (rangeStart / pageSize + i) * pageSize
      pageEndByte := (rangeStart / pageSize + i) * pageSize + pageSize
      pageBytes := pageSize
      cumulativeBytes := (i + 1) * pageSize
      timestampNs := 0 }

/-- What a handler sent and holds after an `n`-byte body from `rangeStart` on. -/
structure Aggregated (requestId chunkId pageSize rangeStart n : Nat) (h : WorkerHandler)
    (pages : List PageCompleted) : Prop where
  pages : pages.map PageCompleted.untimed = fullPages requestId chunkId pageSize rangeStart n
  bytesReceived : h.bytesReceived = n
  currentPageBytes : h.currentPageBytes = n % pageSize
  currentPageIndex : h.currentPageIndex = rangeStart / pageSize + n / pageSize

/-- The handler of a request that starts at `rangeStart`. -/
def WorkerHandler.fresh (requestId chunkId pageSize rangeStart : Nat) : WorkerHandler where
  requestId := requestId
  chunkId := chunkId
  pageSize := pageSize
  currentPageBytes := 0
  currentPageIndex := rangeStart / pageSize
  bytesReceived := 0
  responseCode := none

/-- A worker's handler turns the body of a request into the pages that its length has, however curl
cuts the body. -/
theorem deliver_fresh {pageSize : Nat} (hpos : 0 < pageSize)
    (requestId chunkId rangeStart : Nat) (cuts : List Nat) (clock : Clock) :
    ∃ h pages clock', deliver WorkerHandler.write cuts
        (.fresh requestId chunkId pageSize rangeStart) clock = some (h, pages, clock') ∧
      Aggregated requestId chunkId pageSize rangeStart cuts.sum h pages := by
  -- Nothing was received yet.
  have hzero : WorkerHandler.fresh requestId chunkId pageSize rangeStart
      = (WorkerHandler.fresh requestId chunkId pageSize rangeStart).received 0 := by
    simp [WorkerHandler.received, WorkerHandler.fresh]
  obtain ⟨pages, clock', hdeliver, hpages⟩ := WorkerHandler.deliver_received
    (h := .fresh requestId chunkId pageSize rangeStart) hpos cuts 0 clock
  rw [← hzero, Nat.zero_add] at hdeliver
  refine ⟨_, pages, clock', hdeliver, ?_, rfl, rfl, rfl⟩
  rw [hpages, WorkerHandler.pagesBetween, Nat.zero_add, Nat.zero_div, Nat.sub_zero,
    ← List.range_eq_range']
  rfl

/-- The pages of a body that fits the range `rangeStart .. rangeEnd` lie in the pages of the
range. -/
theorem pages_in_range {pageSize rangeStart rangeEnd n : Nat} (hpos : 0 < pageSize)
    (hn : rangeStart + n ≤ rangeEnd + 1) :
    (∀ i < n / pageSize, rangeStart / pageSize + i ≤ rangeEnd / pageSize) ∧
      (0 < n % pageSize → rangeStart / pageSize + n / pageSize ≤ rangeEnd / pageSize) := by
  have hstart := Nat.div_mul_le_self rangeStart pageSize
  have hsplit := Nat.div_add_mod' n pageSize
  constructor
  · intro i hi
    -- The last byte of page `i` was delivered.
    rw [Nat.le_div_iff_mul_le hpos, Nat.add_mul]
    have hfull : (i + 1) * pageSize ≤ n / pageSize * pageSize :=
      Nat.mul_le_mul_right pageSize hi
    rw [Nat.succ_mul] at hfull
    omega
  · intro hpartial
    rw [Nat.le_div_iff_mul_le hpos, Nat.add_mul]
    omega

/-- However a body is cut into callbacks, and whatever a worker's handler did before, the two
handlers send the events of the full pages and keep the rest. No subtraction underflows and no
loop goes on. A body that fits its range is reported in the pages of the range. -/
theorem page_aggregation (h : WorkerHandler) (hpos : 0 < h.pageSize)
    (requestId chunkId rangeStart : Nat) (cuts : List Nat) (sink : Sink) (clock : Clock) :
    (∃ w pages clock', ((h.reinit requestId chunkId rangeStart).bind fun w =>
          deliver WorkerHandler.write cuts w clock) = some (w, pages, clock') ∧
        Aggregated requestId chunkId h.pageSize rangeStart cuts.sum w pages) ∧
    (∃ d pages clock', ((DownloadHandler.new requestId chunkId rangeStart h.pageSize sink).bind
          fun d => deliver DownloadHandler.write cuts d clock) = some (d, pages, clock') ∧
        Aggregated requestId chunkId h.pageSize rangeStart cuts.sum d.toWorker pages) ∧
    ∀ rangeEnd, rangeStart ≤ rangeEnd → cuts.sum ≤ rangeEnd - rangeStart + 1 →
      (∀ e ∈ fullPages requestId chunkId h.pageSize rangeStart cuts.sum,
        rangeStart / h.pageSize ≤ e.pageIndex ∧ e.pageIndex ≤ rangeEnd / h.pageSize) ∧
      (0 < cuts.sum % h.pageSize → rangeStart / h.pageSize + cuts.sum / h.pageSize
        ≤ rangeEnd / h.pageSize) := by
  have hdiv : U64.checkedDiv rangeStart h.pageSize = some (rangeStart / h.pageSize) := by
    rw [U64.checkedDiv, if_neg hpos.ne']
  obtain ⟨w, pages, clock', hdeliver, haggregated⟩ :=
    deliver_fresh hpos requestId chunkId rangeStart cuts clock
  refine ⟨⟨w, pages, clock', ?_, haggregated⟩, ?_, ?_⟩
  · rw [WorkerHandler.reinit, hdiv]
    exact hdeliver
  · -- The download's handler starts where the worker's does, and keeps in step with it.
    rw [DownloadHandler.new, hdiv]
    have hmap := (DownloadHandler.map_deliver_write cuts
      ⟨requestId, chunkId, rangeStart, 0, h.pageSize, 0, rangeStart / h.pageSize, none, sink⟩
      clock).trans hdeliver
    obtain ⟨⟨d, rest⟩, hdownload, heq⟩ := Option.map_eq_some_iff.mp hmap
    cases heq
    exact ⟨d, pages, clock', hdownload, haggregated⟩
  · intro rangeEnd hle hfits
    have hend : rangeStart + cuts.sum ≤ rangeEnd + 1 := by omega
    obtain ⟨hfull, hpartial⟩ := pages_in_range hpos hend
    refine ⟨fun e he => ?_, hpartial⟩
    obtain ⟨i, hi, rfl⟩ := List.mem_map.mp he
    exact ⟨Nat.le_add_right _ _, hfull i (List.mem_range.mp hi)⟩

/-- Ten bytes from byte 5 on, in callbacks of 3, 0 and 7 bytes. -/
theorem page_aggregation_three_callbacks :
    ∃ w pages clock', (((WorkerHandler.new 4).reinit 1 0 5).bind fun w =>
        deliver WorkerHandler.write [3, 0, 7] w ⟨0, []⟩) = some (w, pages, clock') ∧
      Aggregated 1 0 4 5 10 w pages :=
  (page_aggregation (.new 4) (by decide) 1 0 5 [3, 0, 7] .discard ⟨0, []⟩).1

end FrontierSim
