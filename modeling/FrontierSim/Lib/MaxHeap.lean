import Mathlib.Data.List.Perm.Basic

/-!
# Priority queues with unspecified layout

`MaxHeap le` packs a `push` and a `pop` on lists, where the list is the backing store of
the heap. `pop` removes a maximum of `le`. Which of several maxima it removes depends on
the layout, and the layout is left to the instance. So a result about every `MaxHeap`
holds of every implementation.

`MaxHeap.ofList` is the simplest implementation. It pushes at the front and pops the first
maximum.
-/

set_option autoImplicit false

namespace Lib

/-- A max-heap on elements of `α`, ordered by `le`. -/
structure MaxHeap {α : Type} (le : α → α → Bool) where
  push : List α → α → List α
  pop : List α → Option (α × List α)
  push_perm : ∀ q x, (push q x).Perm (x :: q)
  pop_nil : pop [] = none
  pop_isSome : ∀ q, q ≠ [] → (pop q).isSome = true
  pop_perm : ∀ q x r, pop q = some (x, r) → (x :: r).Perm q
  pop_max : ∀ q x r, pop q = some (x, r) → ∀ y ∈ r, le y x = true

namespace MaxHeap

variable {α : Type} {le : α → α → Bool} (H : MaxHeap le)

/-- Pushing a list of elements, one after the other. -/
def pushAll (q : List α) (xs : List α) : List α :=
  xs.foldl H.push q

/-- Pushing adds the elements and loses none. -/
theorem pushAll_perm (xs q : List α) : (H.pushAll q xs).Perm (q ++ xs) := by
  induction xs generalizing q with
  | nil => simp [pushAll]
  | cons x rest ih =>
    show (H.pushAll (H.push q x) rest).Perm (q ++ x :: rest)
    have hpush : (H.push q x ++ rest).Perm (x :: q ++ rest) :=
      (H.push_perm q x).append_right rest
    exact (ih _).trans (hpush.trans List.perm_middle.symm)

/-- The heap built from a list of elements. -/
theorem pushAll_nil_perm (xs : List α) : (H.pushAll [] xs).Perm xs :=
  H.pushAll_perm xs []

/-! ### The list implementation -/

section OfList
variable (le)

/-- The first maximum of `x :: q` and the rest. -/
def popMax : α → List α → α × List α
  | x, [] => (x, [])
  | x, y :: q =>
    let (m, r) := popMax y q
    if le m x then (x, y :: q) else (m, x :: r)

/-- The maximum and the rest are the elements that were there. -/
theorem popMax_perm (x : α) (q : List α) :
    ((popMax le x q).1 :: (popMax le x q).2).Perm (x :: q) := by
  induction q generalizing x with
  | nil => rfl
  | cons y q ih =>
    simp only [popMax]
    split
    · rfl
    · exact (List.Perm.swap _ _ _).trans ((ih y).cons x)

/-- What is popped is at least each element, for a total preorder `le`. Ties go one way or the
other. -/
theorem popMax_max (hrefl : ∀ x, le x x = true)
    (htrans : ∀ x y z, le x y = true → le y z = true → le x z = true)
    (htotal : ∀ x y, le x y = true ∨ le y x = true) (x : α) (q : List α) :
    ∀ y ∈ x :: q, le y (popMax le x q).1 = true := by
  induction q generalizing x with
  | nil => simpa [popMax] using hrefl x
  | cons z q ih =>
    intro y hy
    simp only [popMax]
    split
    · rename_i hle
      rcases List.mem_cons.mp hy with rfl | hy
      · exact hrefl _
      · exact htrans _ _ _ (ih z y hy) hle
    · rename_i hle
      rcases List.mem_cons.mp hy with rfl | hy
      · exact (htotal _ _).resolve_right hle
      · exact ih z y hy

/-- The list implementation of a total preorder. -/
def ofList (hrefl : ∀ x, le x x = true)
    (htrans : ∀ x y z, le x y = true → le y z = true → le x z = true)
    (htotal : ∀ x y, le x y = true ∨ le y x = true) : MaxHeap le where
  push q x := x :: q
  pop
    | [] => none
    | x :: q => some (popMax le x q)
  push_perm _ _ := List.Perm.refl _
  pop_nil := rfl
  pop_isSome q hq := by cases q with
    | nil => exact absurd rfl hq
    | cons x q => rfl
  pop_perm q x r h := by
    cases q with
    | nil => cases h
    | cons y q =>
      have hp := popMax_perm le y q
      rw [Option.some.inj h] at hp
      exact hp
  pop_max q x r h y hy := by
    cases q with
    | nil => cases h
    | cons z q =>
      have hmem : y ∈ z :: q := by
        have hp := popMax_perm le z q
        rw [Option.some.inj h] at hp
        exact hp.mem_iff.mp (List.mem_cons_of_mem x hy)
      have hmax := popMax_max le hrefl htrans htotal z q y hmem
      rwa [Option.some.inj h] at hmax

end OfList

end MaxHeap

end Lib
