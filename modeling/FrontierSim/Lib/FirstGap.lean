import Mathlib.Order.Lattice.Nat

/-!
# The first gap of a set of natural numbers

`FirstGap S n` says that `n` is the least number that is not in `S`, so that the initial
run of `S` is `0, .., n - 1`. A cursor that is moved forward from where it stands, over the
members of a growing set, always stands at the first gap (`FirstGap.advance`).
-/

set_option autoImplicit false

namespace Lib

/-- `n` is the least number outside `S`. -/
structure FirstGap (S : Set Nat) (n : Nat) : Prop where
  below : ∀ p < n, p ∈ S
  gap : n ∉ S

namespace FirstGap

variable {S T : Set Nat} {m n : Nat}

/-- Nothing is in the empty set, so that it has its first gap at 0. -/
theorem empty : FirstGap ∅ 0 where
  below p hp := absurd hp (Nat.not_lt_zero p)
  gap := id

/-- A larger set has a later first gap. -/
theorem mono (hS : FirstGap S n) (hT : FirstGap T m) (hST : S ⊆ T) : n ≤ m := by
  by_contra hlt
  exact hT.gap (hST (hS.below m (Nat.lt_of_not_le hlt)))

/-- A set has at most one first gap. -/
theorem unique (hn : FirstGap S n) (hm : FirstGap S m) : n = m :=
  Nat.le_antisymm (hn.mono hm subset_rfl) (hm.mono hn subset_rfl)

/-- Moving a cursor from the first gap of `S` to the next number outside a larger set. -/
theorem advance (hS : FirstGap S n) (hST : S ⊆ T) (hrun : ∀ p, n ≤ p → p < m → p ∈ T)
    (hm : m ∉ T) : FirstGap T m := by
  refine ⟨fun p hp => ?_, hm⟩
  rcases Nat.lt_or_ge p n with hlt | hge
  · exact hST (hS.below p hlt)
  · exact hrun p hge hp

end FirstGap

/-- The number of consecutive numbers 0, 1, 2, ... in a set that does not hold all of them. -/
noncomputable def initialRun (S : Set Nat) : Nat := sInf {n | n ∉ S}

/-- The first gap is the length of the initial run. -/
theorem FirstGap.initialRun_eq {S : Set Nat} {n : Nat} (h : FirstGap S n) : initialRun S = n := by
  refine le_antisymm (Nat.sInf_le h.gap) (le_csInf ⟨n, h.gap⟩ fun m hm => ?_)
  by_contra hlt
  exact hm (h.below m (Nat.lt_of_not_le hlt))

end Lib
