import Mathlib.Algebra.Ring.Nat
import Mathlib.Data.List.Chain
import Mathlib.Order.Bounds.Basic
import Mathlib.Order.Lattice.Nat

/-!
# The gaps between the times of a list

`gaps` lists the distances between neighbours. In a list of non-decreasing times these are the
lengths of the longest intervals inside which nothing happens:

* `exists_silent`: every gap is the length of a silent interval.
* `silent_le`: every silent interval lies inside a gap.
* `isGreatest_longestGap`: the largest gap is the length of the longest silence.
* `sum_gaps`: the gaps together are the time from the first element to the last.
-/

set_option autoImplicit false

namespace Lib

/-- The distances between neighbours. -/
def gaps : List Nat → List Nat
  | a :: b :: rest => (b - a) :: gaps (b :: rest)
  | _ => []

/-- The largest gap, or 0 when there is none. -/
def longestGap (times : List Nat) : Nat := (gaps times).foldr max 0

/-- Nothing happens inside `[x, y]`, which does not reach past the first and the last time. -/
structure Silent (times : List Nat) (x y : Nat) : Prop where
  le : x ≤ y
  first : ∃ a ∈ times, a ≤ x
  last : ∃ b ∈ times, y ≤ b
  inside : ∀ t ∈ times, ¬ (x < t ∧ t < y)

variable {times : List Nat} {a b x y g : Nat}

/-- The equations of `gaps`, for two times and for a single one. -/
@[simp] theorem gaps_cons_cons (a b : Nat) (rest : List Nat) :
    gaps (a :: b :: rest) = (b - a) :: gaps (b :: rest) := rfl

@[simp] theorem gaps_singleton (a : Nat) : gaps [a] = [] := rfl

/-- A time at the end adds the interval from the last time before it. -/
theorem gaps_append_pair (times : List Nat) (a b : Nat) :
    gaps (times ++ [a] ++ [b]) = gaps (times ++ [a]) ++ [b - a] := by
  induction times with
  | nil => rfl
  | cons t rest ih =>
    cases rest with
    | nil => rfl
    | cons u rest => simpa using ih

/-- A time at the end can only make the longest interval longer. -/
theorem longestGap_append_pair (times : List Nat) (a b : Nat) :
    longestGap (times ++ [a] ++ [b]) = max (longestGap (times ++ [a])) (b - a) := by
  rw [longestGap, gaps_append_pair, longestGap]
  induction gaps (times ++ [a]) with
  | nil => simp
  | cons g rest ih => rw [List.cons_append, List.foldr_cons, ih, List.foldr_cons, max_assoc]

/-- No interval is longer than the longest one. -/
theorem le_longestGap (hg : g ∈ gaps times) : g ≤ longestGap times := by
  unfold longestGap
  generalize gaps times = gs at hg ⊢
  induction gs with
  | nil => cases hg
  | cons g' rest ih =>
    rw [List.foldr_cons]
    rcases List.mem_cons.mp hg with rfl | hg
    · exact le_max_left _ _
    · exact (ih hg).trans (le_max_right _ _)

/-- The largest gap is one of them, unless it is 0. -/
theorem longestGap_mem (times : List Nat) :
    longestGap times = 0 ∨ longestGap times ∈ gaps times := by
  unfold longestGap
  induction gaps times with
  | nil => exact Or.inl rfl
  | cons g rest ih =>
    rw [List.foldr_cons]
    rcases max_choice g (rest.foldr max 0) with hmax | hmax <;> rw [hmax]
    · exact Or.inr List.mem_cons_self
    · exact ih.imp id (List.mem_cons_of_mem g)

/-- A silent interval behind the first time. -/
theorem Silent.cons (h : Silent times x y) (hfirst : ∀ t ∈ times, a ≤ t) :
    Silent (a :: times) x y where
  le := h.le
  first := by
    obtain ⟨t, ht, hle⟩ := h.first
    exact ⟨t, List.mem_cons_of_mem a ht, hle⟩
  last := by
    obtain ⟨t, ht, hle⟩ := h.last
    exact ⟨t, List.mem_cons_of_mem a ht, hle⟩
  inside t ht := by
    rcases List.mem_cons.mp ht with rfl | ht
    · obtain ⟨u, hu, hle⟩ := h.first
      have := hfirst u hu
      omega
    · exact h.inside t ht

/-- Every gap is the length of a silent interval. -/
theorem exists_silent (hsorted : times.Pairwise (· ≤ ·)) (hg : g ∈ gaps times) :
    ∃ x y, Silent times x y ∧ y - x = g := by
  induction times with
  | nil => cases hg
  | cons a rest ih =>
    obtain ⟨hfirst, hrest⟩ := List.pairwise_cons.mp hsorted
    cases rest with
    | nil => cases hg
    | cons b rest =>
      rcases List.mem_cons.mp hg with rfl | hg
      · refine ⟨a, b, ⟨hfirst b List.mem_cons_self, ⟨a, by simp, le_rfl⟩, ⟨b, by simp, le_rfl⟩, ?_⟩,
          rfl⟩
        intro t ht
        have hb := (List.pairwise_cons.mp hrest).1
        rcases List.mem_cons.mp ht with rfl | ht
        · omega
        · rcases List.mem_cons.mp ht with rfl | ht
          · omega
          · have := hb t ht
            omega
      · obtain ⟨x, y, hsilent, hlength⟩ := ih hrest hg
        exact ⟨x, y, hsilent.cons hfirst, hlength⟩

/-- A silent interval is no longer than the largest gap. -/
theorem silent_le (hsorted : times.Pairwise (· ≤ ·)) (h : Silent times x y) :
    y - x ≤ longestGap times := by
  induction times with
  | nil =>
    obtain ⟨t, ht, -⟩ := h.first
    cases ht
  | cons a rest ih =>
    obtain ⟨hfirst, hrest⟩ := List.pairwise_cons.mp hsorted
    cases rest with
    | nil =>
      obtain ⟨t, ht, hlow⟩ := h.first
      obtain ⟨u, hu, hhigh⟩ := h.last
      rw [List.mem_singleton] at ht hu
      omega
    | cons b rest =>
      have hgap : b - a ≤ longestGap (a :: b :: rest) := le_longestGap List.mem_cons_self
      by_cases hx : b ≤ x
      · -- The interval starts behind the first gap.
        have hlast : ∃ t ∈ b :: rest, y ≤ t := by
          obtain ⟨t, ht, hle⟩ := h.last
          rcases List.mem_cons.mp ht with rfl | ht
          · have := hfirst b List.mem_cons_self
            exact ⟨b, List.mem_cons_self, by omega⟩
          · exact ⟨t, ht, hle⟩
        exact (ih hrest ⟨h.le, ⟨b, List.mem_cons_self, hx⟩, hlast,
          fun t ht => h.inside t (List.mem_cons_of_mem a ht)⟩).trans (le_max_right _ _)
      · -- It starts before `b`, so it ends there at the latest.
        have hy : y ≤ b := by
          by_contra hlt
          exact h.inside b (by simp) ⟨by omega, by omega⟩
        obtain ⟨t, ht, hle⟩ := h.first
        have hax : a ≤ x := by
          rcases List.mem_cons.mp ht with rfl | ht
          · exact hle
          · exact (hfirst t ht).trans hle
        omega

/-- The largest gap is the length of the longest silence. -/
theorem isGreatest_longestGap (hsorted : times.Pairwise (· ≤ ·)) (hne : times ≠ []) :
    IsGreatest {g | ∃ x y, Silent times x y ∧ y - x = g} (longestGap times) := by
  constructor
  · rcases longestGap_mem times with hzero | hmem
    · -- Without a gap, the silence is as short as can be.
      obtain ⟨a, rest, rfl⟩ := List.exists_cons_of_ne_nil hne
      refine ⟨a, a, ⟨le_rfl, ⟨a, by simp, le_rfl⟩, ⟨a, by simp, le_rfl⟩, fun t _ => by omega⟩, ?_⟩
      rw [hzero, Nat.sub_self]
    · exact exists_silent hsorted hmem
  · rintro g ⟨x, y, hsilent, rfl⟩
    exact silent_le hsorted hsilent

/-- The gaps together are the time from the first element to the last. -/
theorem sum_gaps (hsorted : (times ++ [b]).Pairwise (· ≤ ·)) (hfirst : times.head? = some a) :
    (gaps (times ++ [b])).sum = b - a := by
  induction times generalizing a with
  | nil => cases hfirst
  | cons t rest ih =>
    cases hfirst
    obtain ⟨hle, hrest⟩ := List.pairwise_cons.mp hsorted
    cases rest with
    | nil => simp [gaps]
    | cons u rest =>
      have hsum := ih hrest rfl
      have htu : t ≤ u := hle u (by simp)
      have hub : u ≤ b := (List.pairwise_cons.mp hrest).1 b (by simp)
      simp only [List.cons_append, gaps_cons_cons, List.sum_cons] at hsum ⊢
      omega

/-- Few gaps can be long. -/
theorem countP_mul_le_sum (n : Nat) (gs : List Nat) :
    (gs.countP fun g => n < g) * (n + 1) ≤ gs.sum := by
  induction gs with
  | nil => simp
  | cons g rest ih =>
    rw [List.countP_cons, List.sum_cons]
    by_cases hg : n < g
    · rw [if_pos (decide_eq_true hg), Nat.add_mul, Nat.one_mul]
      omega
    · rw [if_neg (by simpa using hg), Nat.add_zero]
      omega

end Lib
