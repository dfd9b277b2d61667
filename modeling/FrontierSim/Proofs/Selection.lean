import FrontierSim.Transport.Reactor

/-!
# `FrontierSim.Proofs.Selection`: the pop section takes the best ready chunk

`Selects` says what a pop section does with a queue: which entry it finds, and what is left.
A pass of the pop loop drops a completed entry, sets an entry aside that is not ready, or
takes the entry. Each of the three turns a selection from the rest of the queue into one from
the queue (`Selects.drop`, `Selects.defer`, `Selects.take`), and `selects_popScan` follows
the loop.

The heap only promises a maximum for `cmp`. So the priority of what is found comes from
`pop_max` alone, and entries of equal priority may come in any order.
-/

set_option autoImplicit false

namespace FrontierSim

open Lib

/-! ### The order of the queue -/

namespace PrioritizedChunk

/-- `a` has strictly higher priority than `b`. -/
def Outranks (a b : PrioritizedChunk) : Prop :=
  (a.lane = .urgent ∧ b.lane = .prefetch) ∨ (a.lane = b.lane ∧ a.rangeStart < b.rangeStart)

/-- The backoff of the entry has passed at the time `now`. -/
def ReadyAt (c : PrioritizedChunk) (now : Nat) : Prop := ∀ retryAt ∈ c.retryAfter, retryAt ≤ now

/-- An entry that is ready stays ready. -/
theorem ReadyAt.mono {c : PrioritizedChunk} {now now' : Nat} (h : c.ReadyAt now)
    (hle : now ≤ now') : c.ReadyAt now' :=
  fun retryAt hretry => (h retryAt hretry).trans hle

/-- An entry outranks another one, or comes out no earlier. -/
theorem not_outranks_iff {a b : PrioritizedChunk} : ¬ a.Outranks b ↔ a.le b = true := by
  rw [le_iff]
  unfold Outranks
  cases ha : a.lane <;> cases hb : b.lane <;> simp

/-- `cmp` is antisymmetric: exchanging the entries turns the result around. -/
theorem cmp_eq_swap (a b : PrioritizedChunk) : a.cmp b = (b.cmp a).swap := by
  have hswap := (Nat.compare_swap a.rangeStart b.rangeStart).symm
  unfold cmp
  cases a.lane <;> cases b.lane <;> first | rfl | exact hswap

/-- `cmp` is a total preorder. -/
theorem transCmp_cmp : Std.TransCmp PrioritizedChunk.cmp where
  eq_swap := cmp_eq_swap _ _
  isLE_trans := le_trans _ _ _

/-- `cmp` is `Equal` where `PartialEq` holds. -/
theorem cmp_eq_iff (a b : PrioritizedChunk) : a.cmp b = .eq ↔ a.eq b = true := by
  have hstart : compare b.rangeStart a.rangeStart = .eq ↔ a.rangeStart = b.rangeStart :=
    Nat.compare_eq_eq.trans eq_comm
  unfold cmp eq
  cases a.lane <;> cases b.lane <;> simp [hstart]

end PrioritizedChunk

/-! ### One pass of the loop -/

/-- A pop section that starts at the time `start` and ends at `finish` finds `found` in
`queue` and leaves `left`. -/
structure Selects (completed : Finset Nat) (queue : List PrioritizedChunk) (start finish : Nat)
    (found : Option PrioritizedChunk) (left : List PrioritizedChunk) : Prop where
  fresh : ∀ c ∈ found, c.chunkId ∉ completed
  ready : ∀ c ∈ found, c.ReadyAt finish
  best : ∀ d ∈ queue, d.chunkId ∉ completed → d.ReadyAt start → ∃ c ∈ found, d.le c = true
  /-- What is gone was met before the entry that was found, and was completed. -/
  split : ∃ dropped : List PrioritizedChunk,
    (∀ x ∈ dropped, x.chunkId ∈ completed ∧ ∀ c ∈ found, c.le x = true) ∧
    (found.toList ++ (left ++ dropped)).Perm queue

namespace Selects

variable {completed : Finset Nat} {queue left rest : List PrioritizedChunk}
  {start now finish : Nat} {found : Option PrioritizedChunk} {c : PrioritizedChunk}

/-- Nothing is found in an empty queue. -/
theorem empty (completed : Finset Nat) (now : Nat) : Selects completed [] now now none [] where
  fresh _ hc := by cases hc
  ready _ hc := by cases hc
  best _ hd := by cases hd
  split := ⟨[], by simp, by simp⟩

/-- The entry that is found was in the queue. -/
theorem mem (h : Selects completed queue start finish found left) (hc : c ∈ found) :
    c ∈ queue := by
  obtain ⟨dropped, -, hperm⟩ := h.split
  rw [← hperm.mem_iff, List.mem_append, Option.mem_toList]
  exact Or.inl hc

/-- Only the content of what is left matters. -/
theorem perm (h : Selects completed queue start finish found left)
    {left' : List PrioritizedChunk} (hleft : left'.Perm left) :
    Selects completed queue start finish found left' where
  fresh := h.fresh
  ready := h.ready
  best := h.best
  split := by
    obtain ⟨dropped, hdropped, hperm⟩ := h.split
    exact ⟨dropped, hdropped, ((hleft.append_right dropped).append_left _).trans hperm⟩

/-- `continue` on a completed entry. -/
theorem drop (h : Selects completed rest start finish found left)
    (hperm : (c :: rest).Perm queue) (hmax : ∀ d ∈ rest, d.le c = true)
    (hdone : c.chunkId ∈ completed) : Selects completed queue start finish found left where
  fresh := h.fresh
  ready := h.ready
  best d hd hfresh hready := by
    rcases List.mem_cons.mp (hperm.mem_iff.mpr hd) with rfl | hd
    · exact absurd hdone hfresh
    · exact h.best d hd hfresh hready
  split := by
    obtain ⟨dropped, hdropped, hsplit⟩ := h.split
    refine ⟨c :: dropped, ?_, ?_⟩
    · intro x hx
      rcases List.mem_cons.mp hx with rfl | hx
      · exact ⟨hdone, fun found hfound => hmax found (h.mem hfound)⟩
      · exact hdropped x hx
    · refine List.Perm.trans ?_ ((hsplit.cons c).trans hperm)
      simp only [← List.append_assoc]
      exact List.perm_middle

/-- An entry that is not ready yet is set aside. The rest is scanned from a later time on. -/
theorem defer (h : Selects completed rest now finish found left)
    (hperm : (c :: rest).Perm queue) (hle : start ≤ now) (hwait : ¬ c.ReadyAt now) :
    Selects completed queue start finish found (c :: left) where
  fresh := h.fresh
  ready := h.ready
  best d hd hfresh hready := by
    rcases List.mem_cons.mp (hperm.mem_iff.mpr hd) with rfl | hd
    · exact absurd (hready.mono hle) hwait
    · exact h.best d hd hfresh (hready.mono hle)
  split := by
    obtain ⟨dropped, hdropped, hsplit⟩ := h.split
    refine ⟨dropped, hdropped, ?_⟩
    rw [List.cons_append]
    exact List.perm_middle.trans ((hsplit.cons c).trans hperm)

/-- The maximum of the queue is taken. -/
theorem take (hperm : (c :: rest).Perm queue) (hmax : ∀ d ∈ rest, d.le c = true)
    (hfresh : c.chunkId ∉ completed) (hready : c.ReadyAt finish) :
    Selects completed queue start finish (some c) rest where
  fresh c' hc' := by
    cases hc'
    exact hfresh
  ready c' hc' := by
    cases hc'
    exact hready
  best d hd _ _ := by
    refine ⟨c, rfl, ?_⟩
    rcases List.mem_cons.mp (hperm.mem_iff.mpr hd) with rfl | hd
    · exact d.le_refl
    · exact hmax d hd
  split := ⟨[], by simp, by simpa using hperm⟩

end Selects

/-! ### The pop section -/

/-- A reading gives the time at which the clock then stands. -/
theorem Clock.read_eq (clock : Clock) : clock.read.1 = clock.read.2.now := by
  unfold Clock.read
  split <;> rfl

/-- A reading is not before the time at which the clock stood. -/
theorem Clock.now_le_read (clock : Clock) : clock.now ≤ clock.read.2.now := by
  unfold Clock.read
  split
  · exact Nat.le_refl _
  · exact Nat.le_add_right _ _

/-- The loop selects from the queue, beside what was set aside before. -/
theorem selects_popScan (heap : ChunkHeap) (completed : Finset Nat) (fuel : Nat)
    (queue deferred : List PrioritizedChunk) (clock : Clock) (hfuel : queue.length ≤ fuel) :
    ∃ left : List PrioritizedChunk,
      Selects completed queue clock.now (popScan heap completed fuel queue deferred clock).clock.now
        (popScan heap completed fuel queue deferred clock).found left ∧
      ((popScan heap completed fuel queue deferred clock).queue ++
        (popScan heap completed fuel queue deferred clock).deferred).Perm (left ++ deferred) := by
  induction fuel generalizing queue deferred clock with
  | zero =>
    rw [List.eq_nil_of_length_eq_zero (Nat.le_zero.mp hfuel)]
    exact ⟨[], .empty completed clock.now, List.Perm.refl _⟩
  | succ fuel ih =>
    cases hpop : heap.pop queue with
    | none =>
      have hnil : queue = [] := by
        by_contra hne
        simpa [hpop] using heap.pop_isSome queue hne
      subst hnil
      simp only [popScan, hpop]
      exact ⟨[], .empty completed clock.now, List.Perm.refl _⟩
    | some top =>
      obtain ⟨c, rest⟩ := top
      have hperm : (c :: rest).Perm queue := heap.pop_perm queue c rest hpop
      have hmax : ∀ d ∈ rest, d.le c = true := heap.pop_max queue c rest hpop
      have hrest : rest.length ≤ fuel := by
        have hlen := hperm.length_eq
        rw [List.length_cons] at hlen
        omega
      by_cases hdone : c.chunkId ∈ completed
      · obtain ⟨left, hleft, hqueue⟩ := ih rest deferred clock hrest
        simp only [popScan, hpop, if_pos hdone]
        exact ⟨left, hleft.drop hperm hmax hdone, hqueue⟩
      · simp only [popScan, hpop, if_neg hdone]
        cases hretry : c.retryAfter with
        | none =>
          refine ⟨rest, .take hperm hmax hdone ?_, List.Perm.refl _⟩
          simp [PrioritizedChunk.ReadyAt, hretry]
        | some retryAt =>
          -- The clock is read once for each entry that carries a backoff.
          have hread := clock.read_eq
          have hready : c.ReadyAt clock.read.2.now ↔ retryAt ≤ clock.read.1 := by
            simp [PrioritizedChunk.ReadyAt, hretry, hread]
          dsimp only
          split
          · rename_i hlt
            obtain ⟨left, hleft, hqueue⟩ := ih rest (deferred ++ [c]) clock.read.2 hrest
            refine ⟨c :: left, hleft.defer hperm clock.now_le_read ?_, hqueue.trans ?_⟩
            · rw [hready]
              exact Nat.not_le_of_lt hlt
            · rw [← List.append_assoc]
              exact List.perm_append_comm
          · rename_i hge
            refine ⟨rest, .take hperm hmax hdone ?_, List.Perm.refl _⟩
            rw [hready]
            exact Nat.le_of_not_lt hge

/-- The whole critical section selects. The entries that it deferred are pushed back, so that they
are left in the queue. -/
theorem selects_popNext (heap : ChunkHeap) (completed : Finset Nat)
    (queue : List PrioritizedChunk) (clock : Clock) :
    Selects completed queue clock.now (popNext heap completed queue clock).2.2
      (popNext heap completed queue clock).1 (popNext heap completed queue clock).2.1 := by
  obtain ⟨left, hleft, hperm⟩ :=
    selects_popScan heap completed queue.length queue [] clock (Nat.le_refl _)
  rw [List.append_nil] at hperm
  exact hleft.perm ((heap.pushAll_perm _ _).trans hperm)

/-- The pop section takes a chunk that is ready and not completed, and none of higher priority
was ready when it began. Otherwise none was ready. The other entries stay, apart from
completed ones. -/
theorem pop_selects (heap : ChunkHeap) (completed : Finset Nat) (queue : List PrioritizedChunk)
    (clock : Clock) :
    (∀ c, (popNext heap completed queue clock).1 = some c →
      c ∈ queue ∧ c.chunkId ∉ completed ∧ c.ReadyAt (popNext heap completed queue clock).2.2 ∧
      ∀ d ∈ queue, d.chunkId ∉ completed → d.ReadyAt clock.now → ¬ d.Outranks c) ∧
    ((popNext heap completed queue clock).1 = none →
      ∀ d ∈ queue, d.chunkId ∉ completed → ¬ d.ReadyAt clock.now) ∧
    (∃ dropped : List PrioritizedChunk,
      (∀ x ∈ dropped, x.chunkId ∈ completed ∧
        ∀ c, (popNext heap completed queue clock).1 = some c → ¬ c.Outranks x) ∧
      ((popNext heap completed queue clock).1.toList ++
        ((popNext heap completed queue clock).2.1 ++ dropped)).Perm queue) ∧
    Std.TransCmp PrioritizedChunk.cmp ∧
    ∀ a b : PrioritizedChunk, a.cmp b = .eq ↔ a.eq b = true := by
  have h := selects_popNext heap completed queue clock
  refine ⟨?_, ?_, ?_, PrioritizedChunk.transCmp_cmp, PrioritizedChunk.cmp_eq_iff⟩
  · intro c hc
    refine ⟨h.mem hc, h.fresh c hc, h.ready c hc, fun d hd hfresh hready => ?_⟩
    obtain ⟨c', hc', hle⟩ := h.best d hd hfresh hready
    rw [PrioritizedChunk.not_outranks_iff]
    exact Option.mem_unique hc' hc ▸ hle
  · intro hnone d hd hfresh hready
    obtain ⟨c, hc, -⟩ := h.best d hd hfresh hready
    rw [hnone] at hc
    cases hc
  · obtain ⟨dropped, hdropped, hperm⟩ := h.split
    refine ⟨dropped, fun x hx => ⟨(hdropped x hx).1, fun c hc => ?_⟩, hperm⟩
    rw [PrioritizedChunk.not_outranks_iff]
    exact (hdropped x hx).2 c hc

end FrontierSim
