import Mathlib.Algebra.Order.Floor.Div
import Mathlib.Algebra.Order.Ring.Nat

/-!
# `FrontierSim.Proofs.Pages`: counting pages

`pagesFor` is the number of pages that `n` bytes take up when they start at a page
boundary. The worker counts like that from any byte on: a body of `n` bytes from byte `s`
on is reported as `pagesFor n` pages from page `s / pageSize` on. `div_add_pagesFor_le` and
`div_le_div_add_pagesFor` compare this with the pages that the bytes really lie in, and
`lastPage_reported_iff` says when it reaches the last page of a file.
-/

set_option autoImplicit false

namespace FrontierSim

/-- The pages of `n` bytes. The last one may be partial. -/
def pagesFor (pageSize n : Nat) : Nat := n ⌈/⌉ pageSize

variable {pageSize n : Nat}

/-- `k` pages are enough exactly when they have room for the bytes. -/
theorem pagesFor_le_iff (hpos : 0 < pageSize) {k : Nat} :
    pagesFor pageSize n ≤ k ↔ n ≤ k * pageSize := by
  rw [pagesFor, ceilDiv_le_iff_le_mul hpos, Nat.mul_comm]

/-- Page number `k` is needed exactly when the bytes reach into it. -/
theorem lt_pagesFor_iff (hpos : 0 < pageSize) {k : Nat} :
    k < pagesFor pageSize n ↔ k * pageSize < n := by
  rw [← Nat.not_le, pagesFor_le_iff hpos, Nat.not_le]

/-- Without bytes there is no page. -/
theorem pagesFor_zero (pageSize : Nat) : pagesFor pageSize 0 = 0 := zero_ceilDiv pageSize

/-- Any byte needs a page. -/
theorem pagesFor_pos (hpos : 0 < pageSize) (hn : 0 < n) : 0 < pagesFor pageSize n := by
  rwa [lt_pagesFor_iff hpos, Nat.zero_mul]

/-- More bytes need at least as many pages. -/
theorem pagesFor_mono (hpos : 0 < pageSize) {m : Nat} (h : n ≤ m) :
    pagesFor pageSize n ≤ pagesFor pageSize m :=
  (pagesFor_le_iff hpos).mpr (h.trans ((pagesFor_le_iff hpos).mp le_rfl))

/-- Full pages, and one more for what is left. -/
theorem pagesFor_eq {k r : Nat} (hn : n = k * pageSize + r) (hr : r < pageSize) :
    pagesFor pageSize n = k + if 0 < r then 1 else 0 := by
  have hpos : 0 < pageSize := Nat.zero_lt_of_lt hr
  refine Nat.le_antisymm ((pagesFor_le_iff hpos).mpr ?_) ?_
  · split
    · rw [Nat.succ_mul]
      omega
    · rw [Nat.add_zero]
      omega
  · split
    · refine (lt_pagesFor_iff hpos).mpr ?_
      omega
    · rw [Nat.add_zero]
      by_contra hlt
      -- `k - 1` pages do not hold `k` pages of bytes.
      have hle := (pagesFor_le_iff hpos).mp (Nat.le_sub_one_of_lt (Nat.lt_of_not_le hlt))
      rw [Nat.sub_mul, Nat.one_mul] at hle
      have hk : 0 < k := by omega
      have := Nat.le_mul_of_pos_left pageSize hk
      omega

/-- Whole pages need just themselves. -/
theorem pagesFor_mul (hpos : 0 < pageSize) (k : Nat) : pagesFor pageSize (k * pageSize) = k := by
  rw [pagesFor_eq (Nat.add_zero _).symm hpos, if_neg (Nat.lt_irrefl 0), Nat.add_zero]

/-- Full pages only. -/
theorem pagesFor_of_dvd (hpos : 0 < pageSize) (hdvd : pageSize ∣ n) :
    pagesFor pageSize n * pageSize = n := by
  obtain ⟨k, rfl⟩ := hdvd
  rw [Nat.mul_comm pageSize, pagesFor_mul hpos]

/-- The pages reported for `n` bytes from `s` on end no later than the bytes. -/
theorem div_add_pagesFor_le (hpos : 0 < pageSize) (s n : Nat) :
    s / pageSize + pagesFor pageSize n ≤ pagesFor pageSize (s + n) := by
  have hall := (pagesFor_le_iff hpos (n := s + n)).mp le_rfl
  have hdiv := Nat.div_mul_le_self s pageSize
  have hle : s / pageSize ≤ pagesFor pageSize (s + n) := by
    refine Nat.le_of_mul_le_mul_right ?_ hpos
    omega
  have hrest : pagesFor pageSize n ≤ pagesFor pageSize (s + n) - s / pageSize := by
    rw [pagesFor_le_iff hpos, Nat.sub_mul]
    omega
  omega

/-- They reach every page before the one that the bytes end in. -/
theorem div_le_div_add_pagesFor (hpos : 0 < pageSize) (s n : Nat) :
    (s + n) / pageSize ≤ s / pageSize + pagesFor pageSize n := by
  have hmod := Nat.div_add_mod s pageSize
  have hlt := Nat.mod_lt s hpos
  have hn := (pagesFor_le_iff hpos (n := n)).mp le_rfl
  refine Nat.le_of_lt_succ ((Nat.div_lt_iff_lt_mul hpos).mpr ?_)
  rw [Nat.succ_mul, Nat.add_mul, Nat.mul_comm (s / pageSize)]
  omega

/-- The bytes from `s` to the end of a file that ends inside a page: the last page is
reported when `s` lies less deep in its page than the end does. -/
theorem lastPage_reported_iff (hpos : 0 < pageSize) {s d : Nat} (hle : s ≤ d) :
    d / pageSize < s / pageSize + pagesFor pageSize (d - s) ↔ s % pageSize < d % pageSize := by
  have hs := Nat.div_add_mod s pageSize
  have hdmod := Nat.div_add_mod d pageSize
  have hdiv : s / pageSize ≤ d / pageSize := Nat.div_le_div_right hle
  -- The distance of the two pages in bytes, so that `omega` sees linear terms only.
  have hmul : (d / pageSize - s / pageSize) * pageSize
      = pageSize * (d / pageSize) - pageSize * (s / pageSize) := by
    rw [Nat.sub_mul, Nat.mul_comm, Nat.mul_comm (s / pageSize)]
  have hmono := Nat.mul_le_mul_left pageSize hdiv
  rw [show d / pageSize < s / pageSize + pagesFor pageSize (d - s) ↔
      d / pageSize - s / pageSize < pagesFor pageSize (d - s) by omega, lt_pagesFor_iff hpos, hmul]
  omega

end FrontierSim
