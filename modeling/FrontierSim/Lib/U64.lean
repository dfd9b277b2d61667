import Mathlib.Algebra.Ring.Nat

/-!
# Checked arithmetic on unsigned integers

A `u64` is a `Nat` below `2 ^ 64`, a `u32` a `Nat` below `2 ^ 32`. The checked operations
return `none` where the result leaves that range. A program that is built with overflow checks
stops there.
-/

set_option autoImplicit false

namespace Lib.U64

/-- `u64::MAX`. -/
def maxValue : Nat := 2 ^ 64 - 1

/-- `a + b` of `u64`, where an overflow panics. -/
def checkedAdd (a b : Nat) : Option Nat :=
  if a + b < 2 ^ 64 then some (a + b) else none

/-- `a - b` of `u64`, where a negative result panics. -/
def checkedSub (a b : Nat) : Option Nat :=
  if b ≤ a then some (a - b) else none

/-- `a * b` of `u64`, where an overflow panics. -/
def checkedMul (a b : Nat) : Option Nat :=
  if a * b < 2 ^ 64 then some (a * b) else none

/-- `a / b` of `u64`, where a division by zero panics. -/
def checkedDiv (a b : Nat) : Option Nat :=
  if b = 0 then none else some (a / b)

/-- `u64::saturating_mul`. -/
def saturatingMul (a b : Nat) : Nat :=
  min (a * b) maxValue

/-- An addition succeeds within the range, with the sum. -/
theorem checkedAdd_eq_some {a b c : Nat} :
    checkedAdd a b = some c ↔ a + b < 2 ^ 64 ∧ a + b = c := by
  rw [checkedAdd, Option.ite_none_right_eq_some, Option.some.injEq]

/-- A subtraction succeeds where it stays in the natural numbers, with the difference. -/
theorem checkedSub_eq_some {a b c : Nat} :
    checkedSub a b = some c ↔ b ≤ a ∧ a - b = c := by
  rw [checkedSub, Option.ite_none_right_eq_some, Option.some.injEq]

/-- A multiplication succeeds within the range, with the product. -/
theorem checkedMul_eq_some {a b c : Nat} :
    checkedMul a b = some c ↔ a * b < 2 ^ 64 ∧ a * b = c := by
  rw [checkedMul, Option.ite_none_right_eq_some, Option.some.injEq]

end Lib.U64

namespace Lib.U32

/-- `a + b` of `u32`, where an overflow panics. -/
def checkedAdd (a b : Nat) : Option Nat :=
  if a + b < 2 ^ 32 then some (a + b) else none

end Lib.U32
