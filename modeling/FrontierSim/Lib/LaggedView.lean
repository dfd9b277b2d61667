import Mathlib.Data.List.Pairwise
import Mathlib.Order.Basic

/-!
# A reader behind a queue of updates

A source only moves forward, and tells a reader of every move over a FIFO queue. A
`LaggedView` holds what the reader has seen last, the updates in flight, and the source. In a
`Consistent` view these are one increasing chain that ends at the source. So the reader is
never ahead of the source, and what it sees only increases.
-/

set_option autoImplicit false

namespace Lib

/-- What a reader has seen last, what it was told since, and where the source is now. -/
structure LaggedView (α : Type) where
  seen : α
  /-- The updates in flight, oldest first. -/
  pending : List α
  source : α

namespace LaggedView

variable {α : Type} [Preorder α]

/-- The source moves and tells, or the reader takes the oldest update, or neither. -/
inductive Step : LaggedView α → LaggedView α → Prop
  | idle (v : LaggedView α) : Step v v
  | publish {v : LaggedView α} {next : α} (hlt : v.source < next) :
      Step v ⟨v.seen, v.pending ++ [next], next⟩
  | deliver {v : LaggedView α} {next : α} {rest : List α} (hpending : v.pending = next :: rest) :
      Step v ⟨next, rest, v.source⟩

/-- What was seen and what is in flight increase up to the source. -/
structure Consistent (v : LaggedView α) : Prop where
  increasing : (v.seen :: v.pending).Pairwise (· < ·)
  getLast : (v.seen :: v.pending).getLast? = some v.source

variable {v v' : LaggedView α}

/-- A reader that has seen the source, with nothing in flight. -/
theorem consistent_of_nil {v : LaggedView α} (hpending : v.pending = [])
    (hseen : v.seen = v.source) : v.Consistent where
  increasing := by
    rw [hpending]
    exact List.pairwise_singleton _ _
  getLast := by
    rw [hpending, hseen]
    rfl

/-- Whatever was seen or is in flight is not ahead of the source. -/
theorem Consistent.le_source (h : v.Consistent) {x : α} (hx : x ∈ v.seen :: v.pending) :
    x ≤ v.source := by
  obtain ⟨init, hsplit⟩ := List.getLast?_eq_some_iff.mp h.getLast
  have hincreasing := h.increasing
  rw [hsplit] at hincreasing hx
  rcases List.mem_append.mp hx with hx | hx
  · exact ((List.pairwise_append.mp hincreasing).2.2 x hx _ (List.mem_singleton_self _)).le
  · exact (List.mem_singleton.mp hx).le

/-- The reader is never ahead. -/
theorem Consistent.seen_le (h : v.Consistent) : v.seen ≤ v.source :=
  h.le_source List.mem_cons_self

/-- Each of the moves keeps the chain: a new update is larger than all before it, and the reader
takes the smallest one. -/
theorem Consistent.step (h : v.Consistent) (hstep : Step v v') : v'.Consistent := by
  cases hstep with
  | idle => exact h
  | publish hlt =>
    constructor
    · -- The new value lies beyond the source, so beyond the whole chain.
      show (v.seen :: v.pending ++ [_]).Pairwise (· < ·)
      rw [List.pairwise_append]
      refine ⟨h.increasing, List.pairwise_singleton _ _, fun x hx y hy => ?_⟩
      rw [List.mem_singleton.mp hy]
      exact (h.le_source hx).trans_lt hlt
    · show (v.seen :: v.pending ++ [_]).getLast? = _
      rw [List.getLast?_concat]
  | deliver hpending =>
    have hincreasing := h.increasing
    have hlast := h.getLast
    rw [hpending] at hincreasing hlast
    exact ⟨(List.pairwise_cons.mp hincreasing).2, hlast⟩

/-- What the reader sees only increases. -/
theorem Consistent.seen_mono (h : v.Consistent) (hstep : Step v v') : v.seen ≤ v'.seen := by
  cases hstep with
  | idle | publish => exact le_rfl
  | deliver hpending =>
    have hincreasing := h.increasing
    rw [hpending] at hincreasing
    exact ((List.pairwise_cons.mp hincreasing).1 _ List.mem_cons_self).le

/-- A value that is seen or in flight was there before, or it is the source's. -/
theorem Step.mem_values (hstep : Step v v') {x : α} (hx : x ∈ v'.seen :: v'.pending) :
    x ∈ v.seen :: v.pending ∨ x = v'.source := by
  cases hstep with
  | idle => exact Or.inl hx
  | publish =>
    rw [← List.cons_append, List.mem_append, List.mem_singleton] at hx
    exact hx
  | deliver hpending =>
    rw [hpending]
    exact Or.inl (List.mem_cons_of_mem _ hx)

end LaggedView

end Lib
