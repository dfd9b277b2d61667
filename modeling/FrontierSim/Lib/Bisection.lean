import Mathlib.Tactic.Linarith
import Mathlib.Tactic.Ring

/-!
# Bisection over a dyadic range

`bisect P n lo` looks for a switch of `P` among the `2 ^ n` numbers from `lo` on. It tries
the number in the middle, and goes on above it where `P` holds there and below it where
not. Nothing is assumed of `P`, so the numbers that were not tried can be anything.

What is known of the result is what was tried on the way to it. The numbers that the search
tried and passed are the result with its low binary digits cleared (`roundDown`), and the
least one that it tried and rejected is the next number.

* `bisect_spec`: what the tries say about the result.
* `bisect_unique`: a number with these properties, above which `P` fails, is the result.
* `bisect_mono`: a weaker predicate has a result that is no smaller.
-/

set_option autoImplicit false

namespace Lib

variable {P : Nat → Prop} [DecidablePred P]

/-- The last number tried that passed, or `lo` when none did. -/
def bisect (P : Nat → Prop) [DecidablePred P] : (n lo : Nat) → Nat
  | 0, lo => lo
  | n + 1, lo => if P (lo + 2 ^ n) then bisect P n (lo + 2 ^ n) else bisect P n lo

/-- The search never goes below the start of the range. -/
theorem le_bisect (n lo : Nat) : lo ≤ bisect P n lo := by
  induction n generalizing lo with
  | zero => exact Nat.le_refl lo
  | succ n ih =>
    rw [bisect]
    split
    · exact (Nat.le_add_right lo _).trans (ih _)
    · exact ih lo

/-- The search stays within the range of `2 ^ n` numbers from its start on. -/
theorem bisect_lt (n lo : Nat) : bisect P n lo < lo + 2 ^ n := by
  induction n generalizing lo with
  | zero => exact Nat.lt_add_one lo
  | succ n ih =>
    rw [bisect, Nat.pow_succ, Nat.mul_two, ← Nat.add_assoc]
    split
    · exact ih _
    · exact (ih lo).trans (Nat.lt_add_of_pos_right (Nat.two_pow_pos n))

/-- The result was tried and passed, unless it is the start of the range. -/
theorem bisect_passed (n lo : Nat) : bisect P n lo = lo ∨ P (bisect P n lo) := by
  induction n generalizing lo with
  | zero => exact Or.inl rfl
  | succ n ih =>
    rw [bisect]
    split
    · rename_i hmid
      rcases ih (lo + 2 ^ n) with heq | hP
      · rw [heq]
        exact Or.inr hmid
      · exact Or.inr hP
    · exact ih lo

/-- The search stays at the start of the range exactly when all tries on the way down fail. -/
theorem bisect_eq_start_iff (n lo : Nat) :
    bisect P n lo = lo ↔ ∀ j < n, ¬ P (lo + 2 ^ j) := by
  induction n generalizing lo with
  | zero => exact iff_of_true rfl fun j hj => absurd hj (Nat.not_lt_zero j)
  | succ n ih =>
    rw [bisect, Nat.forall_lt_succ_right, ← ih]
    split
    · rename_i hmid
      refine iff_of_false ?_ fun h => h.2 hmid
      have := le_bisect (P := P) n (lo + 2 ^ n)
      have := Nat.two_pow_pos n
      omega
    · rename_i hmid
      exact (and_iff_left hmid).symm

/-- Two searches side by side. While the tries agree they go the same way, and at the first
one that only `Q` passes they part, with the search for `Q` above. So neither predicate need
have a single switch. -/
theorem bisect_mono {Q : Nat → Prop} [DecidablePred Q] (h : ∀ k, P k → Q k) (n lo : Nat) :
    bisect P n lo ≤ bisect Q n lo := by
  induction n generalizing lo with
  | zero => exact Nat.le_refl lo
  | succ n ih =>
    rw [bisect, bisect]
    by_cases hP : P (lo + 2 ^ n)
    · rw [if_pos hP, if_pos (h _ hP)]
      exact ih _
    · rw [if_neg hP]
      split
      · exact (Nat.le_of_lt (bisect_lt n lo)).trans (le_bisect n _)
      · exact ih lo

/-- `k` with its lowest `j` binary digits cleared. -/
def roundDown (k j : Nat) : Nat := k / 2 ^ j * 2 ^ j

/-- Clearing more digits gives a smaller number. -/
theorem roundDown_anti (k : Nat) {j n : Nat} (hjn : j ≤ n) : roundDown k n ≤ roundDown k j := by
  have hpow : 2 ^ n = 2 ^ (n - j) * 2 ^ j := by
    rw [← Nat.pow_add, Nat.sub_add_cancel hjn]
  have hle : k / 2 ^ n * 2 ^ (n - j) ≤ k / 2 ^ j := by
    rw [Nat.le_div_iff_mul_le (Nat.two_pow_pos j), Nat.mul_assoc, ← hpow]
    exact Nat.div_mul_le_self k (2 ^ n)
  calc roundDown k n = k / 2 ^ n * 2 ^ (n - j) * 2 ^ j := by rw [roundDown, Nat.mul_assoc, ← hpow]
    _ ≤ roundDown k j := Nat.mul_le_mul_right _ hle

/-- One digit more: the quotient is even or odd. -/
theorem div_two_pow_succ {k n q : Nat} (h : k / 2 ^ (n + 1) = q) :
    k / 2 ^ n = 2 * q ∨ k / 2 ^ n = 2 * q + 1 := by
  rw [Nat.pow_succ, ← Nat.div_div_eq_div_mul] at h
  omega

/-- A multiple of `2 ^ (n + 1)` is an even multiple of `2 ^ n`. -/
theorem lower_half (q n : Nat) : q * 2 ^ (n + 1) = 2 * q * 2 ^ n := by ring

/-- The middle between two multiples of `2 ^ (n + 1)` is an odd multiple of `2 ^ n`. -/
theorem upper_half (q n : Nat) : q * 2 ^ (n + 1) + 2 ^ n = (2 * q + 1) * 2 ^ n := by ring

/-- The result lies in the range. Its prefixes passed, and the number after it failed or is
the end of the range. -/
theorem bisect_spec (n q : Nat) :
    bisect P n (q * 2 ^ n) / 2 ^ n = q ∧
    (∀ j < n, roundDown (bisect P n (q * 2 ^ n)) j = q * 2 ^ n ∨
      P (roundDown (bisect P n (q * 2 ^ n)) j)) ∧
    (bisect P n (q * 2 ^ n) + 1 = (q + 1) * 2 ^ n ∨ ¬ P (bisect P n (q * 2 ^ n) + 1)) := by
  induction n generalizing q with
  | zero => simp [bisect]
  | succ n ih =>
    have hend : (q + 1) * 2 ^ (n + 1) = (2 * q + 1 + 1) * 2 ^ n := by ring
    rw [bisect, upper_half, lower_half]
    by_cases hmid : P ((2 * q + 1) * 2 ^ n)
    · rw [if_pos hmid, hend]
      obtain ⟨hdiv, hpassed, hnext⟩ := ih (2 * q + 1)
      refine ⟨?_, fun j hj => ?_, hnext⟩
      · rw [Nat.pow_succ, ← Nat.div_div_eq_div_mul, hdiv]
        omega
      · rcases Nat.lt_succ_iff_lt_or_eq.mp hj with hj | rfl
        · right
          rcases hpassed j hj with heq | hP
          · rwa [heq]
          · exact hP
        · right
          rwa [roundDown, hdiv]
    · rw [if_neg hmid, hend]
      obtain ⟨hdiv, hpassed, hnext⟩ := ih (2 * q)
      refine ⟨?_, fun j hj => ?_, ?_⟩
      · rw [Nat.pow_succ, ← Nat.div_div_eq_div_mul, hdiv]
        omega
      · rcases Nat.lt_succ_iff_lt_or_eq.mp hj with hj | rfl
        · exact hpassed j hj
        · left
          rw [roundDown, hdiv]
      · -- The end of the lower half is the number that failed.
        right
        rcases hnext with heq | hnot
        · rwa [heq]
        · exact hnot

/-- A number whose prefixes pass and above which nothing in the range passes. -/
theorem bisect_unique {n q k : Nat} (hdiv : k / 2 ^ n = q)
    (hpassed : ∀ j < n, roundDown k j = q * 2 ^ n ∨ P (roundDown k j))
    (habove : ∀ m, k < m → m < (q + 1) * 2 ^ n → ¬ P m) : bisect P n (q * 2 ^ n) = k := by
  induction n generalizing q with
  | zero => simpa [bisect] using hdiv.symm
  | succ n ih =>
    have hend : (q + 1) * 2 ^ (n + 1) = (2 * q + 1) * 2 ^ n + 2 ^ n := by ring
    have hpos : 0 < 2 ^ n := Nat.two_pow_pos n
    have hstart : q * 2 ^ (n + 1) < (2 * q + 1) * 2 ^ n := by
      rw [← upper_half]
      omega
    rw [bisect, upper_half]
    rcases div_two_pow_succ hdiv with heven | hodd
    · -- The middle lies above `k`.
      have hmid : k < (2 * q + 1) * 2 ^ n := by
        rw [← Nat.div_lt_iff_lt_mul hpos, heven]
        omega
      rw [if_neg (habove _ hmid (by omega)), lower_half]
      refine ih heven (fun j hj => ?_) fun m hkm hm => habove m hkm (by omega)
      rw [← lower_half]
      exact hpassed j (by omega)
    · have hround : roundDown k n = (2 * q + 1) * 2 ^ n := by rw [roundDown, hodd]
      have hmid : P ((2 * q + 1) * 2 ^ n) := by
        have := (hpassed n (Nat.lt_succ_self n)).resolve_left (by omega)
        rwa [hround] at this
      rw [if_pos hmid]
      refine ih hodd (fun j hj => ?_) fun m hkm hm => habove m hkm (by rw [hend]; linarith)
      -- The prefixes of `k` are at least the middle, so none is the start of the range.
      have hle : (2 * q + 1) * 2 ^ n ≤ roundDown k j := by
        rw [← hround]
        exact roundDown_anti k (Nat.le_of_lt hj)
      exact Or.inr ((hpassed j (by omega)).resolve_left (by omega))

end Lib
