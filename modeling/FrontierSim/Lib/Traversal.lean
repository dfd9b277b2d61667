import Mathlib.Init

/-!
# Fallible traversals

What a computation in `Except` that succeeds says about its parts.
-/

set_option autoImplicit false

namespace Lib

/-- A sequence succeeds when both of its parts do. -/
theorem bind_eq_ok {α β ε : Type} {x : Except ε α} {f : α → Except ε β} {b : β} :
    (x >>= f) = .ok b ↔ ∃ a, x = .ok a ∧ f a = .ok b := by
  cases x with
  | error e => simp [bind, Except.bind]
  | ok a => simp [bind, Except.bind]

/-- A value of a traversal that succeeds is the value of one of its elements. -/
theorem exists_of_mem_mapM {α β ε : Type} {f : α → Except ε β} {xs : List α} {ys : List β}
    (h : xs.mapM f = .ok ys) {y : β} (hy : y ∈ ys) : ∃ x ∈ xs, f x = .ok y := by
  induction xs generalizing ys with
  | nil =>
    rw [List.mapM_nil] at h
    cases h
    cases hy
  | cons x xs ih =>
    rw [List.mapM_cons] at h
    obtain ⟨y', hx, h⟩ := bind_eq_ok.mp h
    obtain ⟨ys', hxs, h⟩ := bind_eq_ok.mp h
    cases h
    rcases List.mem_cons.mp hy with rfl | hy
    · exact ⟨x, List.mem_cons_self, hx⟩
    · obtain ⟨x', hx', hfx'⟩ := ih hxs hy
      exact ⟨x', List.mem_cons_of_mem x hx', hfx'⟩

/-- An element of a traversal that succeeds has its value in the result. -/
theorem mem_of_mapM {α β ε : Type} {f : α → Except ε β} {xs : List α} {ys : List β}
    (h : xs.mapM f = .ok ys) {x : α} (hx : x ∈ xs) : ∃ y ∈ ys, f x = .ok y := by
  induction xs generalizing ys with
  | nil => cases hx
  | cons x' xs ih =>
    rw [List.mapM_cons] at h
    obtain ⟨y', hy', h⟩ := bind_eq_ok.mp h
    obtain ⟨ys', hxs, h⟩ := bind_eq_ok.mp h
    cases h
    rcases List.mem_cons.mp hx with rfl | hx
    · exact ⟨y', List.mem_cons_self, hy'⟩
    · obtain ⟨y, hy, hfx⟩ := ih hxs hx
      exact ⟨y, List.mem_cons_of_mem y' hy, hfx⟩

/-- A traversal succeeds when it succeeds at each element. -/
theorem exists_mapM_eq_ok {α β ε : Type} {f : α → Except ε β} {xs : List α}
    (h : ∀ x ∈ xs, ∃ y, f x = .ok y) : ∃ ys, xs.mapM f = .ok ys := by
  induction xs with
  | nil => exact ⟨[], List.mapM_nil⟩
  | cons x xs ih =>
    obtain ⟨y, hy⟩ := h x List.mem_cons_self
    obtain ⟨ys, hys⟩ := ih fun x' hx' => h x' (List.mem_cons_of_mem x hx')
    refine ⟨y :: ys, ?_⟩
    rw [List.mapM_cons]
    exact bind_eq_ok.mpr ⟨y, hy, bind_eq_ok.mpr ⟨ys, hys, rfl⟩⟩

end Lib
