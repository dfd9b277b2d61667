import Mathlib.Data.List.Perm.Basic

/-!
# Grouping a list by a key

The groups of a list, in any order of the keys, hold each of its elements once.
-/

set_option autoImplicit false

namespace Lib

variable {α β κ : Type} [DecidableEq κ] {f : α → κ}

/-- The groups together are the list, when every key that occurs is listed, and no key is
listed twice. -/
theorem flatMap_filter_perm {keys : List κ} {xs : List α} (hkeys : keys.Nodup)
    (hall : ∀ x ∈ xs, f x ∈ keys) :
    (keys.flatMap fun k => xs.filter fun x => f x = k).Perm xs := by
  induction keys generalizing xs with
  | nil =>
    cases xs with
    | nil => exact .refl _
    | cons x rest => exact absurd (hall x List.mem_cons_self) List.not_mem_nil
  | cons k rest ih =>
    obtain ⟨hk, hrest⟩ := List.nodup_cons.mp hkeys
    -- The groups of the other keys are the groups of what is left without the first one.
    have hothers : (rest.flatMap fun j => xs.filter fun x => f x = j)
        = rest.flatMap fun j => (xs.filter fun x => ¬ f x = k).filter fun x => f x = j := by
      refine List.flatMap_congr fun j hj => ?_
      rw [List.filter_filter]
      refine List.filter_congr fun x _ => ?_
      by_cases hx : f x = j
      · have hjk : ¬ j = k := fun heq => hk (heq ▸ hj)
        simp [hx, hjk]
      · simp [hx]
    rw [List.flatMap_cons, hothers]
    have hleft : ∀ x ∈ xs.filter fun x => ¬ f x = k, f x ∈ rest := by
      intro x hx
      obtain ⟨hmem, hne⟩ := List.mem_filter.mp hx
      exact (List.mem_cons.mp (hall x hmem)).resolve_left (of_decide_eq_true hne)
    refine ((ih hrest hleft).append_left _).trans ?_
    have hsplit := List.filter_append_perm (fun x => decide (f x = k)) xs
    simpa using hsplit

/-- Elements with nothing to give may be left out. -/
theorem flatMap_filter_nonempty (g : α → List β) (xs : List α) :
    (xs.filter fun x => !(g x).isEmpty).flatMap g = xs.flatMap g := by
  induction xs with
  | nil => rfl
  | cons x rest ih =>
    cases hx : g x with
    | nil => simp [hx, ih]
    | cons y ys => simp [hx, ih]

/-- The same, where each element is replaced by a list. Only the keys of elements with something
to give need to be listed. -/
theorem flatMap_group_perm {keys : List κ} {xs : List α} (g : α → List β) (hkeys : keys.Nodup)
    (hall : ∀ x ∈ xs, g x ≠ [] → f x ∈ keys) :
    (keys.flatMap fun k => (xs.filter fun x => f x = k).flatMap g).Perm (xs.flatMap g) := by
  have hgroup : ∀ k, (xs.filter fun x => f x = k).flatMap g =
      ((xs.filter fun x => !(g x).isEmpty).filter fun x => f x = k).flatMap g := by
    intro k
    rw [← flatMap_filter_nonempty, List.filter_filter, List.filter_filter]
    simp only [Bool.and_comm]
  simp only [hgroup]
  rw [← flatMap_filter_nonempty g xs, ← List.flatMap_assoc]
  refine (flatMap_filter_perm hkeys fun x hx => ?_).flatMap_right g
  obtain ⟨hmem, hne⟩ := List.mem_filter.mp hx
  exact hall x hmem fun hnil => by simp [hnil] at hne

end Lib
